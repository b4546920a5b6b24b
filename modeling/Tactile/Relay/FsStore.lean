import Mathlib.Data.List.Lex
import Tactile.Lib.Script
import Tactile.Relay.FileSystem
import Tactile.Relay.Index

/-!
The relay's file-system store: an index and usage counters in memory over one
file a blob on disk.
-/

namespace Tactile.Relay.FsStore

open Tactile.Lib.Program Tactile.Lib.Script Tactile.Lib.FiniteMap Tactile.Lib.ByteString
open Tactile.Relay.Blob Tactile.Relay.FileSystem Tactile.Relay.Index

structure FsEntry where
  expiresAt : Int64
  size : ℤ
  sig : Sig
  deriving DecidableEq

/-- Listing information for one blob; the size is the payload's. -/
structure ListMeta where
  id : BlobID
  size : ℤ
  expiresAt : Int64
  sig : Sig
  deriving DecidableEq

/-- The memory of an open store. -/
structure FS where
  maxPayload : ℤ
  accounts : Accounts FsEntry

namespace FS

def entry (s : FS) (id : IdentityID) (bid : BlobID) : Option FsEntry := s.accounts.entry id bid

def usageID (s : FS) (id : IdentityID) : Usage := s.accounts.usageID id

def totalBytes (s : FS) : ℤ := s.accounts.totalBytes

def indexAdd (id : IdentityID) (bid : BlobID) (e : FsEntry) (s : FS) : FS :=
  { s with accounts := s.accounts.add id bid e e.size }

/-- What `deleteFile` does to the memory once the file is gone. -/
def indexDrop (id : IdentityID) (bid : BlobID) (e : FsEntry) (s : FS) : FS :=
  { s with accounts := s.accounts.drop id bid e.size }

/-- The store before its directory has been read. -/
def fresh (maxPayload : ℤ) : FS := ⟨maxPayload, .empty⟩

end FS

/-- A method of the store: it changes the store's memory and calls the file
system. -/
abbrev FsMethod (α : Type) : Type := Method DiskOp DiskAns Err FS α

/-- Calls the file system and fails with its error. -/
def disk (o : DiskOp) : FsMethod (DiskVal o) := do
  let ans ← Method.perform o
  Method.ofExcept Err.io ans

/-- Calls the file system and drops its error. -/
def ignored (o : DiskOp) : FsMethod Unit := do
  let _ ← Method.perform o
  pure ()

def idDir (id : IdentityID) : Path := [hexEncode id.val]

def blobName (bid : BlobID) : String := hexEncode bid.val ++ ".blob"

def blobPath (id : IdentityID) (bid : BlobID) : Path := [hexEncode id.val, blobName bid]

/-- The part of `putLocked` between the creation of the temp file and its
deferred removal. -/
def writeTemp (tmp path : Path) (r : Record) (id : IdentityID) : FsMethod Unit := do
  (do disk (.write tmp (marshal r))
      disk (.sync tmp)).orElse fun e => do
    ignored (.close tmp)
    throw e
  disk (.close tmp)
  disk (.rename tmp path)
  Method.update
    (FS.indexAdd id r.id { expiresAt := r.expiresAt, size := r.size, sig := r.sig })

def putLocked (r : Record) (id : IdentityID) : FsMethod Unit := do
  disk (.mkdirAll (idDir id))
  let tmp ← disk (.createTemp (idDir id))
  let out ← (writeTemp tmp (blobPath id r.id) r id).outcome
  ignored (.remove tmp)
  Method.ofExcept (fun e => e) out

section Methods

-- the SHA-256 digest of a public key
variable (idOf : PubKey → IdentityID)

/-- Stores a record only if it fits the per-identity and global caps. -/
def putWithin (r : Record) (identityCap totalCap : ℤ) : FsMethod Unit := do
  let id := idOf r.identity
  let s ← Method.read
  Method.ofExcept (fun e => e) (s.accounts.check id r.id r.size identityCap totalCap)
  putLocked r id

/-- Stores a record without quota checks. -/
def put (r : Record) : FsMethod Unit := do
  let id := idOf r.identity
  let s ← Method.read
  if (s.entry id r.id).isSome then
    throw .exists
  else putLocked r id

def deleteFile (id : IdentityID) (bid : BlobID) : FsMethod Unit := do
  let s ← Method.read
  match s.entry id bid with
  | none => throw .notFound
  | some e =>
    match ← Method.perform (.remove (blobPath id bid)) with
    | .error (.other code) => throw (.io (.other code))
    | _ => Method.update (FS.indexDrop id bid e)

/-- Opens the file of a live blob: an absent or expired one is an error, and
an expired one is removed. -/
def openBlob (id : IdentityID) (bid : BlobID) (now : Int64) : FsMethod Bytes := do
  let s ← Method.read
  match s.entry id bid with
  | none => throw .notFound
  | some e =>
    if e.expiresAt ≤ now then
      let _ ← (deleteFile id bid).outcome
      throw .expired
    else
      let opened : Except Errno Bytes ← Method.perform (DiskOp.readFile (blobPath id bid))
      match opened with
      | .error .notExist => throw .notFound
      | .error (.other code) => throw (.io (.other code))
      | .ok file => pure file

/-- Returns a live record. -/
def get (pub : PubKey) (bid : BlobID) (now : Int64) : FsMethod Record := do
  let s ← Method.read
  let file ← openBlob (idOf pub) bid now
  Method.ofExcept (fun e => e) (unmarshal file s.maxPayload)

/-- What `GetRange` returns: bytes, the full payload size, an error. -/
structure RangeResult where
  payload : Bytes
  total : ℤ
  err : Option Err
  deriving DecidableEq

/-- Payload bytes `[start, stop)` of a file that has been opened. -/
def readRange (file : Bytes) (start stop : ℤ) : RangeResult :=
  match unmarshalHeader file with
  | .error e => ⟨[], 0, some e⟩
  | .ok hdr =>
    let total : ℤ := hdr.payloadN.toNat
    if start < 0 ∨ start ≥ total ∨ stop ≤ start then ⟨[], total, some .badID⟩
    else
      let n := (min stop total - start).toNat
      let got := (file.drop (headerSize + start.toNat)).take n
      ⟨got ++ List.replicate (n - got.length) 0, total, none⟩

/-- Reads payload bytes `[start, stop)`. -/
def getRange (pub : PubKey) (bid : BlobID) (start stop : ℤ) (now : Int64) :
    FsMethod RangeResult := do
  match ← (openBlob (idOf pub) bid now).outcome with
  | .error e => pure ⟨[], 0, some e⟩
  | .ok file => pure (readRange file start stop)

/-- Listings come sorted by id, byte by byte. -/
def sortMetas (metas : List ListMeta) : List ListMeta :=
  metas.mergeSort fun a b => decide (a.id.val ≤ b.id.val)

/-- What a listing says about an index entry. -/
def FsEntry.listMeta (bid : BlobID) (e : FsEntry) : ListMeta where
  id := bid
  size := e.size - headerSize
  expiresAt := e.expiresAt
  sig := e.sig

/-- Live metadata for an identity. -/
def list (s : FS) (pub : PubKey) (now : Int64) : List ListMeta :=
  let m := (s.accounts.index.lookup (idOf pub)).getD ∅
  sortMetas <| ((pairs m).filter fun p => ¬ p.2.expiresAt ≤ now).map fun p => p.2.listMeta p.1

def delete (pub : PubKey) (bid : BlobID) : FsMethod Unit := deleteFile (idOf pub) bid

end Methods

/-- The keys of the expired entries of the index. -/
def expired (s : FS) (now : Int64) : List (IdentityID × BlobID) :=
  (pairs s.accounts.index).flatMap fun (id, m) =>
    (keysWhere m fun _ e => e.expiresAt ≤ now).map fun bid => (id, bid)

/-- Removes the blobs found expired, `dead` in the order in which the maps were
iterated, and returns their number. -/
def sweep (dead : List (IdentityID × BlobID)) : FsMethod ℕ := do
  forM dead fun k => do
    let _ ← (deleteFile k.1 k.2).outcome
  pure dead.length

section Load

variable (idOf : PubKey → IdentityID)

/-- One file of the walk over the data directory. -/
def loadFile (path : Path) : FsMethod Unit := do
  let base := path.getLastD ""
  if ext base ≠ ".blob" then
    if base ≠ "relay.key" then
      ignored (.remove path)
  else
    let file ← disk (.readFile path)
    match unmarshalHeader file with
    | .error _ => ignored (.remove path)
    | .ok m =>
      Method.update (FS.indexAdd (idOf m.identity) m.id
        { expiresAt := m.expiresAt, size := headerSize + m.payloadN.toNat, sig := m.sig })

def load : FsMethod Unit := do
  let files : List Path ← disk .walkDir
  forM files (loadFile idOf)

/-- Loads or creates the store of a data directory. -/
def openFS (maxPayload : ℤ) : Prog DiskOp DiskAns (Except Err Unit × FS) :=
  Method.call (do disk (.mkdirAll []); load idOf) (FS.fresh maxPayload)

end Load

end Tactile.Relay.FsStore

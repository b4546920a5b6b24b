import Tactile.Lib.Program
import Tactile.Lib.FiniteMap
import Tactile.Relay.Index

/-!
The relay's store over an object service: the same index in memory, one object a
blob, and the lock released around each request to the service.
-/

namespace Tactile.Relay.S3Store

open Tactile.Lib.Program Tactile.Lib.FiniteMap Tactile.Lib.ByteString
open Tactile.Relay.Blob Tactile.Relay.Index

structure S3Entry where
  key : String
  expiresAt : Int64
  size : ℤ
  sig : Sig
  deriving DecidableEq

/-- The memory of the store. -/
structure S3 where
  maxPayload : ℤ
  accounts : Accounts S3Entry

def S3.indexAdd (id : IdentityID) (bid : BlobID) (e : S3Entry) (s : S3) : S3 :=
  { s with accounts := s.accounts.add id bid e e.size }

/-- The object key of a record, with its expiry. -/
def s3Key (id : IdentityID) (r : Record) : String :=
  hexEncode id.val ++ "/" ++ hexEncode r.id.val ++ "-e" ++ toString r.expiresAt.toInt ++ ".blob"

/-- The atomic parts of a put: its two lock-held sections and the request to the
object service between them. -/
inductive S3Op
  | check (id : IdentityID) (bid : BlobID) (size identityCap totalCap : ℤ)
  | putObject (key : String) (body : Bytes)
  | indexAdd (id : IdentityID) (bid : BlobID) (e : S3Entry)

abbrev S3Ans : S3Op → Type
  | .check .. => Except Err Unit
  | .putObject .. => Except Errno Unit
  | .indexAdd .. => Unit

/-- The store's memory and the bucket. -/
structure World where
  mem : S3
  bucket : Dict String Bytes

/-- A request to the object service may fail, with the object written or not. -/
inductive Serves : Answers S3Op S3Ans World
  | check (w : World) (id : IdentityID) (bid : BlobID) (size identityCap totalCap : ℤ) :
      Serves w (.check id bid size identityCap totalCap)
        (w.mem.accounts.check id bid size identityCap totalCap) w
  | putObject (w : World) (key : String) (body : Bytes) :
      Serves w (.putObject key body) (.ok ()) { w with bucket := w.bucket.insert key body }
  | putFailed (w : World) (key : String) (body : Bytes) (e : Errno) :
      Serves w (.putObject key body) (.error e) w
  | putLost (w : World) (key : String) (body : Bytes) (e : Errno) :
      Serves w (.putObject key body) (.error e) { w with bucket := w.bucket.insert key body }
  | indexAdd (w : World) (id : IdentityID) (bid : BlobID) (e : S3Entry) :
      Serves w (.indexAdd id bid e) () { w with mem := w.mem.indexAdd id bid e }

/-- Stores a record only if it fits the per-identity and global caps. -/
def putWithin (idOf : PubKey → IdentityID) (r : Record) (identityCap totalCap : ℤ) :
    Prog S3Op S3Ans (Except Err Unit) := do
  let id := idOf r.identity
  let checked : Except Err Unit ← Prog.op (S3Op.check id r.id r.size identityCap totalCap)
  match checked with
  | .error e => pure (.error e)
  | .ok () =>
    let key := s3Key id r
    let stored : Except Errno Unit ← Prog.op (S3Op.putObject key (marshal r))
    match stored with
    | .error e => pure (.error (.io e))
    | .ok () =>
      Prog.op (S3Op.indexAdd id r.id
        { key := key, expiresAt := r.expiresAt, size := r.size, sig := r.sig })
      pure (.ok ())

end Tactile.Relay.S3Store

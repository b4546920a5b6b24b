import Tactile.Lib.Script
import Tactile.Storage.Mutex
import Tactile.Storage.Paths

/-!
The IndexedDB backend: records of one object store by path, each transaction one
operation, and a keyed lock around the calls that take it.
-/

namespace Tactile.Storage.Idb

open Tactile.Lib.Program Tactile.Lib.Script Tactile.Lib.FiniteMap
open Tactile.Storage.Paths Tactile.Storage.Mutex

/-- The names of the exceptions of the browser. -/
inductive DomError
  | notFound
  | typeMismatch
  | noModificationAllowed
  | quotaExceeded
  | invalidModification
  | other
  deriving DecidableEq

/-- What a call of a backend rejects with. -/
inductive Failure
  | storage (e : StorageError)
  | dom (e : DomError)
  deriving DecidableEq

def storageFailure {α : Type} : Except StorageError α → Except Failure α
  | .ok a => .ok a
  | .error e => .error (.storage e)

inductive Kind
  | file
  | dir
  deriving DecidableEq

inductive Data
  | text (contents : String)
  | bytes (contents : List UInt8)
  deriving DecidableEq

def Data.byteLength : Data → ℕ
  | .text contents => contents.utf8ByteSize
  | .bytes contents => contents.length

structure EntryRecord where
  path : Text
  parent : Text
  kind : Kind
  data : Data
  size : ℕ
  mtime : ℤ
  ctime : ℤ
  deriving DecidableEq

abbrev Db : Type := Dict Text EntryRecord

/-- A record of kind dir is stored under the path. -/
def Db.isDir (db : Db) (path : Text) : Bool := (db.lookup path).any fun r => r.kind = .dir

section Transactions

/-- `Array.filter` with a test that may throw. -/
def filterRecords (test : EntryRecord → Except StorageError Bool) :
    List EntryRecord → Except StorageError (List EntryRecord)
  | [] => .ok []
  | r :: rest => do
    let keep ← test r
    let found ← filterRecords test rest
    pure (if keep then r :: found else found)

/-- The records of a path and of the paths below it. -/
def affected (src : Text) : List EntryRecord → Except StorageError (List EntryRecord) :=
  filterRecords fun r => if r.path = src then .ok true else isUnder r.path src

/-- The records of the paths below a path. -/
def descendants (path : Text) : List EntryRecord → Except StorageError (List EntryRecord) :=
  filterRecords fun r => if r.path ≠ path then isUnder r.path path else .ok false

def moved (src dst parent : Text) (now : ℤ) (r : EntryRecord) : EntryRecord :=
  { r with path := dst ++ r.path.drop src.length, parent := parent, mtime := now }

/-- Rewrites records under the new prefix, one after another. -/
def moveRecords (src dst : Text) (now : ℤ) : List EntryRecord → Db → Except StorageError Unit × Db
  | [], db => (.ok (), db)
  | r :: rest, db =>
    match parentPath (dst ++ r.path.drop src.length) with
    | .error e => (.error e, db)
    | .ok parent =>
      let m := moved src dst parent now r
      moveRecords src dst now rest ((db.erase r.path).insert m.path m)

/-- What the transaction of a rename reads before it writes. -/
def renameReads (src dst : Text) (db : Db) : Except StorageError (List EntryRecord) := do
  if (db.lookup src).isNone then
    throw (storageError "No such file: " src .notFound)
  if (db.lookup dst).isSome then
    throw (storageError "Destination exists: " dst .alreadyExists)
  let dstParent ← parentPath dst
  let root ← isRoot dstParent
  if !root && !db.isDir dstParent then
    throw (storageError "No such directory: " dstParent .notFound)
  affected src (values db)

def renameTx (src dst : Text) (now : ℤ) (db : Db) : Except StorageError Unit × Db :=
  match renameReads src dst db with
  | .error e => (.error e, db)
  | .ok records => moveRecords src dst now records db

def removeTx (path : Text) (recursive : Bool) (db : Db) : Except StorageError Unit × Db :=
  match db.lookup path with
  | none => (.error (storageError "No such file: " path .notFound), db)
  | some record =>
    if record.kind = .dir then
      match descendants path (values db) with
      | .error e => (.error e, db)
      | .ok children =>
        if children ≠ [] ∧ !recursive then
          (.error (storageError "Directory is not empty: " path .notEmpty), db)
        else (.ok (), (children.foldl (fun db child => db.erase child.path) db).erase path)
    else (.ok (), db.erase path)

end Transactions

/-- What a call of the backend does at a time: a transaction, a reading of the
clock, or an event of the lock. -/
inductive IdbOp
  | get (path : Text)
  | put (record : EntryRecord)
  | renameTx (src dst : Text)
  | removeTx (path : Text) (recursive : Bool)
  | now
  | lock (keys : List String)
  | begin (n : ℕ)
  | settle (n : ℕ) (ok : Bool)
  | tail (n : ℕ)
  | release (n : ℕ)

abbrev IdbAns : IdbOp → Type
  | .get _ => Except Failure (Option EntryRecord)
  | .put _ => Except Failure Unit
  | .renameTx .. => Except Failure Unit
  | .removeTx .. => Except Failure Unit
  | .now => ℤ
  | .lock _ => ℕ
  | .begin _ => Unit
  | .settle .. => Unit
  | .tail _ => Unit
  | .release _ => Unit

/-- The object store and the lock of the backend. -/
structure World where
  db : Db
  mutex : KeyedMutex

/-- The answers when no transaction fails. -/
inductive Serves : Answers IdbOp IdbAns World
  | get (w : World) (path : Text) : Serves w (.get path) (.ok (w.db.lookup path)) w
  | put (w : World) (r : EntryRecord) :
      Serves w (.put r) (.ok ()) { w with db := w.db.insert r.path r }
  | renameTx (w : World) (src dst : Text) (now : ℤ) :
      Serves w (.renameTx src dst) (storageFailure (Idb.renameTx src dst now w.db).1)
        { w with db := (Idb.renameTx src dst now w.db).2 }
  | removeTx (w : World) (path : Text) (recursive : Bool) :
      Serves w (.removeTx path recursive) (storageFailure (Idb.removeTx path recursive w.db).1)
        { w with db := (Idb.removeTx path recursive w.db).2 }
  | now (w : World) (t : ℤ) : Serves w .now t w
  | lock (w : World) (keys : List String) :
      Serves w (.lock keys) w.mutex.calls.length { w with mutex := w.mutex.runExclusive keys }
  | begin (w : World) (n : ℕ) (m : KeyedMutex) : w.mutex.after (.start n) = some m →
      Serves w (.begin n) () { w with mutex := m }
  | settle (w : World) (n : ℕ) (ok : Bool) (m : KeyedMutex) :
      w.mutex.after (.settle n ok) = some m → Serves w (.settle n ok) () { w with mutex := m }
  | tail (w : World) (n : ℕ) (m : KeyedMutex) : w.mutex.after (.tail n) = some m →
      Serves w (.tail n) () { w with mutex := m }
  | release (w : World) (n : ℕ) (m : KeyedMutex) : w.mutex.after (.release n) = some m →
      Serves w (.release n) () { w with mutex := m }

/-- The answers when any transaction may fail, with nothing written. -/
inductive Faulty : Answers IdbOp IdbAns World
  | served {w w' : World} {o : IdbOp} {ans : IdbAns o} : Serves w o ans w' → Faulty w o ans w'
  | get (w : World) (path : Text) (e : DomError) : Faulty w (.get path) (.error (.dom e)) w
  | put (w : World) (r : EntryRecord) (e : DomError) : Faulty w (.put r) (.error (.dom e)) w
  | renameTx (w : World) (src dst : Text) (e : DomError) :
      Faulty w (.renameTx src dst) (.error (.dom e)) w
  | removeTx (w : World) (path : Text) (recursive : Bool) (e : DomError) :
      Faulty w (.removeTx path recursive) (.error (.dom e)) w

/-- The calls of the backend. -/
abbrev IdbM (α : Type) : Type := Method IdbOp IdbAns Failure Unit α

section Calls

def idb (o : IdbOp) : IdbM (IdbAns o) := Method.perform o

def pathResult {α : Type} (x : Except StorageError α) : IdbM α := Method.ofExcept .storage x

def getRecord (path : Text) : IdbM (Option EntryRecord) := do
  let answer ← idb (.get path)
  Method.ofExcept id answer

def putRecord (r : EntryRecord) : IdbM Unit := do
  let answer ← idb (.put r)
  Method.ofExcept id answer

/-- Runs a call with the keys locked. -/
def runExclusive (keys : List Text) (fn : IdbM Unit) : IdbM Unit := do
  let n : ℕ ← idb (.lock (keys.map String.ofList))
  idb (.begin n)
  let result ← fn.outcome
  idb (.settle n result.isOk)
  idb (.tail n)
  idb (.release n)
  Method.ofExcept id result

def noSuchDirectory (dir : Text) : Failure :=
  .storage (storageError "No such directory: " dir .notFound)

/-- The check that the parent of a path is a directory, which it returns. -/
def requireParent (normalized : Text) : IdbM Text := do
  let parent ← pathResult (parentPath normalized)
  let root ← pathResult (isRoot parent)
  if root then pure parent
  else do
    let parentRecord ← getRecord parent
    if parentRecord.any fun r => r.kind = .dir then pure parent
    else throw (noSuchDirectory parent)

/-- `writeTextFile` and `writeFile`. -/
def writeRecord (path : Text) (data : Data) : IdbM Unit := do
  let normalized ← pathResult (normalizePath path)
  runExclusive [normalized] do
    let parent ← requireParent normalized
    let existing ← getRecord normalized
    if existing.any fun r => r.kind = .dir then
      throw (.storage (storageError "Is a directory: " normalized .isDirectory))
    else do
      let now : ℤ ← idb .now
      putRecord
        { path := normalized, parent := parent, kind := .file, data := data
          size := data.byteLength, mtime := now, ctime := (existing.map EntryRecord.ctime).getD now }

def makeDir (now : ℤ) (dirPath : Text) : IdbM Unit := do
  let existing ← getRecord dirPath
  match existing with
  | some r =>
    if r.kind ≠ .dir then throw (.storage (storageError "File exists: " dirPath .alreadyExists))
    else pure ()
  | none => do
    let parent ← pathResult (parentPath dirPath)
    putRecord
      { path := dirPath, parent := parent, kind := .dir, data := .text "", size := 0
        mtime := now, ctime := now }

/-- Builds each ancestor of a path in turn. -/
def makeDirs (now : ℤ) : Text → List Text → IdbM Unit
  | _, [] => pure ()
  | current, segment :: rest => do
    let dirPath := current ++ '/' :: segment
    makeDir now dirPath
    makeDirs now dirPath rest

def mkdir (path : Text) (recursive : Bool) : IdbM Unit := do
  let normalized ← pathResult (normalizePath path)
  let root ← pathResult (isRoot normalized)
  if root then pure ()
  else do
    let now : ℤ ← idb .now
    if recursive then do
      let segments ← pathResult (pathSegments normalized)
      makeDirs now [] segments
    else do
      let _ ← requireParent normalized
      makeDir now normalized

def rename (fromPath toPath : Text) : IdbM Unit := do
  let src ← pathResult (normalizePath fromPath)
  let dst ← pathResult (normalizePath toPath)
  let root ← pathResult (isRoot src)
  if root then throw (.storage ⟨"Cannot rename root", .invalidPath⟩)
  else if src = dst then pure ()
  else do
    let under ← pathResult (isUnder dst src)
    if under then throw (.storage ⟨"Cannot move a directory into itself", .invalidPath⟩)
    else
      runExclusive [src, dst] do
        let answer ← idb (.renameTx src dst)
        Method.ofExcept id answer

def remove (path : Text) (recursive : Bool) : IdbM Unit := do
  let normalized ← pathResult (normalizePath path)
  let root ← pathResult (isRoot normalized)
  if root then throw (.storage ⟨"Cannot remove root", .invalidPath⟩)
  else
    runExclusive [normalized] do
      let answer ← idb (.removeTx normalized recursive)
      Method.ofExcept id answer

end Calls

end Tactile.Storage.Idb

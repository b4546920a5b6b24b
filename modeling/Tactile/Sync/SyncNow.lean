import Tactile.Lib.Script
import Tactile.Sync.Records

/-!
One run of `syncNow` as a program over the requests to the relay and the calls
of the storage backend.
-/

namespace Tactile.Sync.SyncNow

open Tactile.Lib.Program Tactile.Lib.Script Tactile.Lib.FiniteMap
open Tactile.Storage.Paths Tactile.Storage.Idb Tactile.Storage.Backend
open Tactile.Sync.Records

section Operations

/-- The requests of a `RelayClient`. -/
inductive RelayOp (D P : Type)
  | info
  | get (id : D)
  | put (id : D) (payload : P) (ttl : ℤ)
  | remove (id : D)

/-- What a request returns: the relay's `max_blob_size`, a payload where there is
one, and of a `put` whether the id was not stored yet. -/
abbrev RelayVal (D P : Type) : RelayOp D P → Type
  | .info => Option ℤ
  | .get _ => Option P
  | .put .. => Bool
  | .remove _ => Unit

/-- A request returns, or it rejects with a message. -/
abbrev RelayAns (D P : Type) (o : RelayOp D P) : Type := Except String (RelayVal D P o)

/-- What a run calls: the relay, and the storage backend with the clock. -/
inductive SyncOp (D P : Type)
  | relay (o : RelayOp D P)
  | storage (o : StorageOp)

abbrev SyncAns (D P : Type) : SyncOp D P → Type
  | .relay o => RelayAns D P o
  | .storage o => StorageAns o

end Operations

section Memory

/-- The failure of a path, and that of the run. -/
inductive SyncFailure
  | path (rel : Text) (e : SyncError)
  | run (e : SyncError)
  deriving DecidableEq

structure SyncResult where
  uploaded : ℕ := 0
  downloaded : ℕ := 0
  deletedLocal : ℕ := 0
  deletedRemote : ℕ := 0
  conflicts : ℕ := 0
  skipped : ℕ := 0
  errors : List SyncFailure := []
  deriving DecidableEq

/-- What a run has collected: the next manifest's files, the next base and the
result. -/
structure Merge (D : Type) where
  nextFiles : Dict Text (RemoteFileEntry D)
  nextState : LocalSyncState D
  result : SyncResult

def Merge.empty (D : Type) : Merge D := ⟨∅, ⟨0, ∅⟩, {}⟩

variable {D : Type}

def Merge.setNext (m : Merge D) (rel : Text) (e : RemoteFileEntry D) : Merge D :=
  { m with nextFiles := m.nextFiles.insert rel e }

def Merge.dropNext (m : Merge D) (rel : Text) : Merge D :=
  { m with nextFiles := m.nextFiles.erase rel }

def Merge.setBase (m : Merge D) (rel : Text) (s : BaseEntry D) : Merge D :=
  { m with nextState := { m.nextState with files := m.nextState.files.insert rel s } }

/-- The base entry of the next manifest's entry. -/
def Merge.setBaseOfNext (m : Merge D) (rel : Text) : Merge D :=
  match m.nextFiles.lookup rel with
  | some e => m.setBase rel e.base
  | none => m

def Merge.count (m : Merge D) (f : SyncResult → SyncResult) : Merge D :=
  { m with result := f m.result }

def SyncResult.fail (res : SyncResult) (e : SyncFailure) : SyncResult :=
  { res with errors := res.errors ++ [e] }

end Memory

variable {D P : Type}

abbrev SyncProg (D P α : Type) : Type := Prog (SyncOp D P) (SyncAns D P) α

/-- A part of the run. -/
abbrev SyncMethod (D P α : Type) : Type := Method (SyncOp D P) (SyncAns D P) SyncError (Merge D) α

/-- Awaits a request. -/
def call (o : RelayOp D P) : SyncMethod D P (RelayVal D P o) := do
  let ans : RelayAns D P o ← Method.perform (SyncOp.relay o)
  Method.ofExcept .relay ans

/-- Awaits a call of the storage backend. -/
def store (o : StorageOp) : SyncMethod D P (StorageVal o) := do
  let ans : StorageAns o ← Method.perform (SyncOp.storage o)
  Method.ofExcept .storage ans

/-- A call of the storage backend whose error is caught. -/
def attempt (o : StorageOp) : SyncMethod D P (Option (StorageVal o)) := do
  let ans : StorageAns o ← Method.perform (SyncOp.storage o)
  pure ans.toOption

def pathResult {α : Type} (x : Except StorageError α) : SyncMethod D P α :=
  Method.ofExcept (fun e => .storage (.storage e)) x

section Walk

variable (C : Crypto D P)

/-- One entry of a directory; `descend` walks a directory below. -/
def walkEntry (maxBytes : ℤ)
    (descend : Text → Text → Dict Text (LocalFile D) → SyncMethod D P (Dict Text (LocalFile D)))
    (absDir relDir : Text) (out : Dict Text (LocalFile D)) (entry : DirEntry) :
    SyncMethod D P (Dict Text (LocalFile D)) := do
  let rel := if relDir = [] then entry.name else relDir ++ '/' :: entry.name
  let abs ← pathResult (joinPath [absDir, entry.name])
  if entry.isDirectory then
    if rel = tactileDir then descend abs rel out
    else if entry.name.head? = some '.' then pure out
    else do
      let internal ← pathResult (isInternalPath rel)
      if internal then pure out else descend abs rel out
  else if !entry.isFile then pure out
  else do
    let internal ← pathResult (isInternalPath rel)
    if internal then pure out
    else do
      let stat : Option FileStat ← attempt (.stat abs)
      if stat.any fun st => maxBytes < st.size then pure out
      else do
        let data : Option Bytes ← attempt (.readFile abs)
        match data with
        | none => pure out
        | some data =>
          let mtime := (stat.bind fun st => st.mtime).getD 0
          pure (out.insert rel (localFile C rel abs data mtime))

/-- The files below a directory, down to a depth that the directories do not reach. -/
def walk (maxBytes : ℤ) : ℕ → Text → Text → Dict Text (LocalFile D) →
    SyncMethod D P (Dict Text (LocalFile D))
  | 0, _, _, _ => throw .outOfFuel
  | depth + 1, absDir, relDir, out => do
    let entries : Option (List DirEntry) ← attempt (.readDir absDir)
    (entries.getD []).foldlM (walkEntry C maxBytes (walk maxBytes depth) absDir relDir) out

def walkCollection (collection : Text) (maxBytes : ℤ) (depth : ℕ) :
    SyncMethod D P (Dict Text (LocalFile D)) :=
  walk C maxBytes depth collection [] ∅

end Walk

section State

variable (C : Crypto D P) (collection : Text)

/-- The base of the last sync, empty where there is none that can be read. -/
def loadLocalState : SyncMethod D P (LocalSyncState D) := do
  let read : SyncMethod D P String := do
    let file ← pathResult (joinPath [collection, syncStateFile])
    store (.readTextFile file)
  let text : Except SyncError String ← read.outcome
  pure ((text.toOption.bind C.parseState).getD ⟨0, ∅⟩)

def saveLocalState (state : LocalSyncState D) : SyncMethod D P Unit := do
  let file ← pathResult (joinPath [collection, syncStateFile])
  store (.writeTextFile file (C.stateText state))

end State

section Relay

variable (C : Crypto D P)

def fetchManifest (id : D) : SyncMethod D P (Option (Manifest D)) := do
  let blob : Option P ← call (.get id)
  pure (blob.bind (openManifest C))

def writeManifest (id : D) (manifest : Manifest D) : SyncMethod D P Unit := do
  call (.remove id)
  let _ : Bool ← call (.put id (C.encrypt (.json manifest)) syncBlobTtlSeconds)

end Relay

section Merge

variable [DecidableEq D] (C : Crypto D P) (collection : Text)
variable (remote : Manifest D) (state : LocalSyncState D)
variable (locals : Dict Text (LocalFile D)) (now : ℤ)

def upload (l : LocalFile D) : SyncMethod D P (RemoteFileEntry D) := do
  let id := fileBlobId C (collectionKey collection) l.rel l.hash
  let _ : Bool ← call (.put id (C.encrypt (.bytes l.data)) syncBlobTtlSeconds)
  Method.update fun m => m.count fun res => { res with uploaded := res.uploaded + 1 }
  pure (uploadEntry C (collectionKey collection) l now)

/-- Makes the directory of a file and writes the file, where there is what to write. -/
def writeBelow (abs : Text) (data : Except SyncError Bytes) : SyncMethod D P Unit := do
  let parent ← pathResult (parentPath abs)
  store (.mkdir parent true)
  let data ← Method.ofExcept id data
  store (.writeFile abs data)

def decrypted (payload : P) : Except SyncError Bytes :=
  match C.decrypt payload with
  | some plain => .ok (plain.asBytes C)
  | none => .error .undecryptable

def download (r : RemoteFileEntry D) (rel : Text) : SyncMethod D P Unit := do
  let data : Option P ← call (.get r.b)
  match data with
  | none => throw (.missing rel)
  | some data => do
    let abs ← pathResult (joinPath [collection, rel])
    writeBelow abs (decrypted C data)
    Method.update fun m => m.count fun res => { res with downloaded := res.downloaded + 1 }

/-- A file that is here and live in the manifest. -/
def mergeBoth (rel : Text) (l : LocalFile D) (r : RemoteFileEntry D) (s : Option (BaseEntry D)) :
    SyncMethod D P Unit := do
  if l.hash = r.h then Method.update fun m => (m.setNext rel r).setBase rel r.base
  else do
    let localChanged : Bool := s.all fun s => s.h ≠ l.hash
    let remoteChanged : Bool := s.all fun s => s.h ≠ r.h
    if localChanged && !remoteChanged then do
      let e ← upload C collection now l
      Method.update fun m => m.setNext rel e
    else if remoteChanged && !localChanged then do
      download C collection r rel
      Method.update fun m => m.setNext rel r
    else if localChanged && remoteChanged then do
      Method.update fun m => m.count fun res => { res with conflicts := res.conflicts + 1 }
      if l.mtime < r.m then do
        -- The manifest's version wins; the local edits stay as a copy.
        let copy ← pathResult (joinPath [collection, conflictPath rel now])
        writeBelow copy (.ok l.data)
        download C collection r rel
        Method.update fun m => m.setNext rel r
      else do
        let e ← upload C collection now l
        Method.update fun m => m.setNext rel e
    else do
      Method.update fun m => m.count fun res => { res with skipped := res.skipped + 1 }
      Method.update fun m => m.setNext rel r
    Method.update fun m => m.setBaseOfNext rel

/-- A file that is here, and not in the manifest or a tombstone there. -/
def mergeLocal (rel : Text) (l : LocalFile D) (r : Option (RemoteFileEntry D))
    (s : Option (BaseEntry D)) : SyncMethod D P Unit :=
  match r.filter fun _ => s.any fun s => s.h = l.hash with
  | some r => do
    store (.remove l.abs false)
    Method.update fun m => m.setNext rel r
    Method.update fun m => m.count fun res => { res with deletedLocal := res.deletedLocal + 1 }
  | none => do
    let e ← upload C collection now l
    Method.update fun m => m.setNext rel e
    Method.update fun m => m.setBaseOfNext rel

/-- A path that is live in the manifest and not here. -/
def mergeRemote (rel : Text) (r : RemoteFileEntry D) (s : Option (BaseEntry D)) :
    SyncMethod D P Unit := do
  if s.any fun s => s.h = r.h then do
    Method.update fun m => m.setNext rel { r with d := true, m := now }
    Method.update fun m =>
      m.count fun res => { res with deletedRemote := res.deletedRemote + 1 }
  else do
    download C collection r rel
    Method.update fun m => m.setNext rel r
    Method.update fun m => m.setBase rel r.base

/-- A tombstone of a path that is not here. -/
def mergeTombstone (rel : Text) (r : RemoteFileEntry D) : SyncMethod D P Unit :=
  if tombstonePruneMs < now - r.m then Method.update fun m => m.dropNext rel
  else Method.update fun m => m.setNext rel r

def mergeBranches (rel : Text) : SyncMethod D P Unit :=
  let s := state.files.lookup rel
  match locals.lookup rel, remote.files.lookup rel with
  | some l, some r =>
    if !r.d then mergeBoth C collection now rel l r s else mergeLocal C collection now rel l (some r) s
  | some l, none => mergeLocal C collection now rel l none s
  | none, some r => if !r.d then mergeRemote C collection now rel r s else mergeTombstone now rel r
  | none, none => pure ()

/-- Notes the failure of a path. -/
def noteError (rel : Text) (e : SyncError) : SyncMethod D P Unit :=
  Method.update fun m => m.count fun res => res.fail (.path rel e)

/-- One path; its failure is noted and the run goes on. -/
def mergePath (rel : Text) : SyncMethod D P Unit :=
  (mergeBranches C collection remote state locals now rel).orElse (noteError rel)

/-- The paths of the files found, and the other paths of the manifest. -/
def mergedPaths : List Text :=
  locals.keys.reverse ++ remote.files.keys.filter fun rel => (locals.lookup rel).isNone

end Merge

section Run

variable [DecidableEq D] (C : Crypto D P) (collection : Text)

/-- What a run knows before it merges. -/
structure Gathered (D : Type) where
  remote : Manifest D
  state : LocalSyncState D
  locals : Dict Text (LocalFile D)
  now : ℤ

def gather (depth : ℕ) : SyncMethod D P (Gathered D) := do
  let info : Except SyncError (Option ℤ) ← (call (P := P) (D := D) .info).outcome
  let maxFile := min ((info.toOption.bind fun size => size).getD maxFileBytes) maxFileBytes
  let fetched ← fetchManifest C (manifestId C (collectionKey collection))
  let state ← loadLocalState C collection
  let locals ← walkCollection C collection maxFile depth
  let now : ℤ ← store .now
  pure { remote := fetched.getD ⟨0, ∅⟩, state := state, locals := locals, now := now }

def mergeAll (g : Gathered D) : SyncMethod D P Unit := do
  Method.update fun m => { m with nextFiles := g.remote.files, nextState := ⟨g.now, ∅⟩ }
  forM (mergedPaths g.remote g.locals) (mergePath C collection g.remote g.state g.locals g.now)

/-- The ids that only the fetched manifest or the base refer to. -/
def staleBlobIds (g : Gathered D) (nextFiles : Dict Text (RemoteFileEntry D)) : List D :=
  let stale := ((values g.remote.files).map fun e => e.b) ++
    (values g.state.files).map fun e => e.b
  let live := (values nextFiles).map fun e => e.b
  stale.dedup.filter fun b => b ∉ live

/-- The next manifest lands, then the blobs that nothing refers to are removed and
the next base is saved. -/
def publish (g : Gathered D) : SyncMethod D P Unit := do
  let m ← Method.read
  writeManifest C (manifestId C (collectionKey collection)) ⟨g.now, m.nextFiles⟩
  forM (staleBlobIds g m.nextFiles) fun b => do
    let _ : Except SyncError Unit ← (call (P := P) (D := D) (.remove b)).outcome
  saveLocalState C collection m.nextState

/-- The part of a run behind the fetch and the walk. -/
def syncGathered (g : Gathered D) : SyncMethod D P Unit := do
  mergeAll C collection g
  publish C collection g

def syncRun (depth : ℕ) : SyncMethod D P Unit := do
  let g ← gather C collection depth
  syncGathered C collection g

/-- The result of a run, whether it has failed or not. -/
def resultOf : Except SyncError Unit × Merge D → SyncResult
  | (.ok (), m) => m.result
  | (.error e, m) => m.result.fail (.run e)

/-- Runs a sync of the open collection and returns its result. -/
def syncNow (depth : ℕ) : SyncProg D P (Option SyncResult) :=
  if collection = [] then pure none
  else (fun out => some (resultOf out)) <$> (syncRun C collection depth).call (Merge.empty D)

end Run

section Rules

variable {σ : Type} {R : Answers (SyncOp D P) (SyncAns D P) σ} {G : σ → SyncOp D P → Prop}
variable {E : SyncError → Merge D → σ → Prop}

@[simp] theorem meets_call (o : RelayOp D P) (Q : RelayVal D P o → Merge D → σ → Prop)
    (m : Merge D) (s : σ) :
    Meets R G Q E (call o) m s ↔
      G s (.relay o) ∧ ∀ (ans : RelayAns D P o) s', R s (.relay o) ans s' →
        (∀ val, ans = .ok val → Q val m s') ∧ ∀ e, ans = .error e → E (.relay e) m s' := by
  unfold call
  rw [meets_bind]
  refine and_congr_right fun _ => forall_congr' fun ans => forall_congr' fun s' =>
    imp_congr_right fun _ => ?_
  exact meets_ofExcept ..

@[simp] theorem meets_store (o : StorageOp) (Q : StorageVal o → Merge D → σ → Prop) (m : Merge D)
    (s : σ) :
    Meets R G Q E (store o) m s ↔
      G s (.storage o) ∧ ∀ (ans : StorageAns o) s', R s (.storage o) ans s' →
        (∀ val, ans = .ok val → Q val m s') ∧ ∀ e, ans = .error e → E (.storage e) m s' := by
  unfold store
  rw [meets_bind]
  refine and_congr_right fun _ => forall_congr' fun ans => forall_congr' fun s' =>
    imp_congr_right fun _ => ?_
  exact meets_ofExcept ..

@[simp] theorem meets_attempt (o : StorageOp) (Q : Option (StorageVal o) → Merge D → σ → Prop)
    (m : Merge D) (s : σ) :
    Meets R G Q E (attempt o) m s ↔
      G s (.storage o) ∧ ∀ (ans : StorageAns o) s', R s (.storage o) ans s' →
        Q ans.toOption m s' := Iff.rfl

/-- A run of the sync is a run of its method. -/
theorem holds_syncNow [DecidableEq D] {C : Crypto D P} {collection : Text} {depth : ℕ}
    (hopen : collection ≠ []) {Q : Option SyncResult → σ → Prop} {s : σ} :
    Holds R G Q (syncNow C collection depth) s ↔
      Meets R G (fun _ m s' => Q (some m.result) s')
        (fun e m s' => Q (some (m.result.fail (.run e))) s')
        (syncRun C collection depth) (Merge.empty D) s := by
  unfold syncNow Meets
  rw [if_neg hopen, holds_map]
  constructor
  · intro h
    refine h.imp fun out s' hout => ?_
    rcases out with ⟨e | ⟨⟩, m⟩ <;> exact hout
  · intro h
    refine h.imp fun out s' hout => ?_
    rcases out with ⟨e | ⟨⟩, m⟩ <;> exact hout

end Rules

end Tactile.Sync.SyncNow

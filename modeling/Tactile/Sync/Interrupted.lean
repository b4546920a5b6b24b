import Tactile.Sync.Rounds

/-!
Syncs that end anywhere: what the relay holds where one is cut off, and after any number of them.
-/

namespace Tactile.Sync.Interrupted

open Tactile.Lib.Program Tactile.Lib.Script Tactile.Lib.FiniteMap Tactile.Lib.Transition
open Tactile.Storage.Paths Tactile.Storage.Idb Tactile.Storage.Backend
open Tactile.Sync.Records Tactile.Sync.SyncNow Tactile.Sync.Merge Tactile.Sync.Outcome
open Tactile.Sync.Completed Tactile.Sync.RelayView Tactile.Sync.Backing
open Tactile.Sync.Rounds (fetched_good stale_fileBlob)
open Tactile.Sync.Uploads (only_call only_store only_pathResult only_outcome)

variable {D P : Type}

section Device

/-- The ids of a collection: its manifest and the blobs of its files. -/
def Own (C : Crypto D P) (key : Text) (id : D) : Prop :=
  id = manifestId C key ∨ ∃ rel hash, id = fileBlobId C key rel hash

/-- The base names blobs of a collection's files. -/
def BaseOf (C : Crypto D P) (key : Text) (state : LocalSyncState D) : Prop :=
  ∀ rel s, state.files.lookup rel = some s → ∃ rel' hash, s.b = fileBlobId C key rel' hash

/-- A text that is read as a base is one of the collection. -/
def ReadsBase (C : Crypto D P) (key : Text) : (o : SyncOp D P) → SyncAns D P o → Prop
  | .storage (.readTextFile _), ans =>
    ∀ text state, ans = .ok text → C.parseState text = some state → BaseOf C key state
  | _, _ => True

variable [DecidableEq D]

/-- The relay and a device that has kept the collection's base. -/
def Device (C : Crypto D P) (clamp : ℤ → ℤ) (key : Text) :
    Answers (SyncOp D P) (SyncAns D P) (RelayState D P) :=
  fun c o ans c' => World clamp c o ans c' ∧ ReadsBase C key o ans

end Device

section Kinds

variable {C : Crypto D P}

theorem only_fetchManifest (id : D) : Method.Only Asks (fetchManifest C id) :=
  (only_call (o := .get id) trivial).bind fun _ => Method.only_pure _

end Kinds

section Manifests

variable [DecidableEq D] {C : Crypto D P} {clamp : ℤ → ℤ} {c c' : RelayState D P} {key : Text}

end Manifests

section Merged

variable [DecidableEq D] {C : Crypto D P} {clamp : ℤ → ℤ} {collection : Text}
variable {c c' : RelayState D P} {g : Gathered D}

end Merged

section Parts

variable [DecidableEq D] {C : Crypto D P} {clamp : ℤ → ℤ} {collection : Text} {depth : ℕ}
variable {c c' : RelayState D P} {g : Gathered D}

/-- The manifest of a sync that has merged all that it gathered. -/
def Made (C : Crypto D P) (clamp : ℤ → ℤ) (collection : Text) (depth : ℕ) (c : RelayState D P)
    (manifest : Manifest D) : Prop :=
  ∃ g outs m u v,
    Exec (Device C clamp (collectionKey collection)) c ((gather C collection depth).call (.empty D))
      (.ok g, .empty D) u ∧
    Ran (Device C clamp (collectionKey collection)) C collection g outs
      (mergedPaths g.remote g.locals) u v ∧
    Noted C collection g (mergedPaths g.remote g.locals) outs m ∧ manifest = ⟨g.now, m.nextFiles⟩

/-- What a sync leaves wherever it ends: the manifests are consistent, that of its collection is the
one there was, or the one that it has made, or there is none, and other collections are as
they were. -/
structure Left (C : Crypto D P) (clamp : ℤ → ℤ) (collection : Text) (depth : ℕ)
    (c c' : RelayState D P) : Prop where
  consistent : Consistent C c'
  manifest : ∀ payload x, c'.blobs (manifestId C (collectionKey collection)) = some (.held payload x) →
    c.blobs (manifestId C (collectionKey collection)) = some (.held payload x) ∨
      ∃ manifest, Made C clamp collection depth c manifest ∧ payload = C.encrypt (.json manifest)
  others : Spares (Own C (collectionKey collection)) c c'

/-- Before the manifest is written. -/
def Merging (C : Crypto D P) (clamp : ℤ → ℤ) (key : Text) (c c' : RelayState D P) : Prop :=
  SinceStart C clamp c c' ∧ Spares (Own C key) c c'

theorem Merging.left (hstart : Consistent C c) (h : Merging C clamp (collectionKey collection) c c') :
    Left C clamp collection depth c c' :=
  ⟨hstart.since h.1, fun payload x hheld => .inl (h.1.manifest _ payload x hheld), h.2⟩

/-- What holds at the relay from the write of a manifest on. -/
structure Published (C : Crypto D P) (key : Text) (c : RelayState D P) (manifest : Manifest D)
    (c' : RelayState D P) : Prop where
  consistent : Consistent C c'
  only : ∀ payload x, c'.blobs (manifestId C key) = some (.held payload x) →
    payload = C.encrypt (.json manifest)
  others : Spares (Own C key) c c'

theorem Published.left {manifest : Manifest D}
    (h : Published C (collectionKey collection) c manifest c')
    (hmade : Made C clamp collection depth c manifest) : Left C clamp collection depth c c' :=
  ⟨h.consistent, fun payload x hheld => .inr ⟨manifest, hmade, h.only payload x hheld⟩, h.others⟩

end Parts

section Sample

open Tactile.Sync.Untrusted (symbols sampleCollection Symbol)
open Tactile.Sync.Rounds (Pair pairAnswer noteRounds rested granted world_of_pair idle_rested)
open Tactile.Relay.Replay (openServer)

end Sample

end Tactile.Sync.Interrupted

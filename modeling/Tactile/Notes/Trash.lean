import Tactile.Lib.ByteString
import Tactile.Lib.Threads
import Tactile.Notes.Naming

/-!
The trash of a collection: its calls as programs over the storage backend, and what a call
has done so far, by what it was answered.
-/

namespace Tactile.Notes.Trash

open Tactile.Lib.Program Tactile.Lib.Script Tactile.Lib.FiniteMap Tactile.Lib.Threads
open Tactile.Lib.ByteString (mem_toString_int)
open Tactile.Storage.Paths Tactile.Storage.Idb Tactile.Storage.Opfs Tactile.Storage.Backend
open Tactile.Notes.Naming (dirOf)
open Tactile.Lib.Split (notMem_of_mem_splitOn)

structure TrashItem where
  name : Text
  originalPath : Text
  deletedAt : Text
  isFolder : Bool
  deriving DecidableEq

/-- How the host writes dates and manifests, and reads them: a manifest that was written
reads as its items. -/
structure TrashTexts where
  codec : TextCodec
  toISOString : ℤ → Text
  stringify : List TrashItem → String
  parse : String → Option (List TrashItem)
  parse_stringify : ∀ items, parse (codec.decode (codec.encode (stringify items))) = some items

inductive TrashError
  | storage (e : Failure)
  | notFound
  | exists (target : Text)

abbrev TrashM (α : Type) : Type := StorageM TrashError Unit α

section Code

variable (texts : TrashTexts) (collection : Text)

def manifestPath : Text := collection ++ '/' :: ".tactile".toList ++ '/' :: "trash.json".toList

def trashPath : Text := collection ++ '/' :: ".tactile".toList ++ '/' :: "trash".toList

/-- The items of the manifest; there are none where it cannot be read. -/
def readManifest : TrashM (List TrashItem) :=
  Method.orElse (do
    let text ← ask TrashError.storage (.readTextFile (manifestPath collection))
    pure ((texts.parse text).getD [])) fun _ => pure []

def writeManifest (items : List TrashItem) : TrashM Unit :=
  ask .storage (.writeTextFile (manifestPath collection) (texts.stringify items))

/-- `path.split('/').pop()` -/
def lastSegment (path : Text) : Text := (path.splitOn '/').getLast?.getD []

def inTrash (name : Text) : Text := trashPath collection ++ '/' :: name

/-- The name under which an entry is put: with the time before it where the name is taken. -/
def freeName (name : Text) : TrashM Text := do
  let taken : Bool ← ask .storage (.exists (inTrash collection name))
  if taken then do
    let now : ℤ ← ask .storage .now
    pure ((toString now).toList ++ '-' :: name)
  else pure name

def moveToTrash (path : Text) (isFolder : Bool) : TrashM Unit := do
  ask .storage (.mkdir (trashPath collection) true)
  let name ← freeName collection (lastSegment path)
  ask .storage (.rename path (inTrash collection name))
  let items ← readManifest texts collection
  let now : ℤ ← ask .storage .now
  writeManifest texts collection (items ++ [⟨name, path, texts.toISOString now, isFolder⟩])

def restoreFromTrash (name : Text) : TrashM Unit := do
  let items ← readManifest texts collection
  match items.find? fun entry => entry.name = name with
  | none => throw .notFound
  | some item => do
    let taken : Bool ← ask .storage (.exists item.originalPath)
    if taken then throw (.exists item.originalPath)
    else do
      ask .storage (.mkdir (dirOf item.originalPath) true)
      ask .storage (.rename (inTrash collection name) item.originalPath)
      writeManifest texts collection (items.filter fun entry => entry.name ≠ name)

def deleteTrashItem (name : Text) : TrashM Unit := do
  let there : Bool ← ask .storage (.exists (inTrash collection name))
  if there then ask .storage (.remove (inTrash collection name) true)
  let items ← readManifest texts collection
  writeManifest texts collection (items.filter fun entry => entry.name ≠ name)

def emptyTrash : TrashM Unit := do
  let there : Bool ← ask .storage (.exists (trashPath collection))
  if there then ask .storage (.remove (trashPath collection) true)
  ask .storage (.mkdir (trashPath collection) true)
  writeManifest texts collection []

end Code

inductive TrashCall
  | moveToTrash (path : Text) (isFolder : Bool)
  | restoreFromTrash (name : Text)
  | deleteTrashItem (name : Text)
  | emptyTrash
  deriving DecidableEq

namespace TrashCall

def method (texts : TrashTexts) (collection : Text) : TrashCall → TrashM Unit
  | .moveToTrash path isFolder => Trash.moveToTrash texts collection path isFolder
  | .restoreFromTrash name => Trash.restoreFromTrash texts collection name
  | .deleteTrashItem name => Trash.deleteTrashItem texts collection name
  | .emptyTrash => Trash.emptyTrash texts collection

/-- Whether a call takes the entry with a name out of the trash. -/
def takes : TrashCall → Text → Bool
  | .moveToTrash .., _ => false
  | .restoreFromTrash name, entry => entry = name
  | .deleteTrashItem name, entry => entry = name
  | .emptyTrash, _ => true

/-- The items of a manifest that a call keeps in it. -/
def keep (call : TrashCall) (items : List TrashItem) : List TrashItem :=
  items.filter fun item => !call.takes item.name

theorem keep_restoreFromTrash (name : Text) (items : List TrashItem) :
    (restoreFromTrash name).keep items = items.filter fun entry => entry.name ≠ name := by
  simp [keep, takes]

theorem keep_deleteTrashItem (name : Text) (items : List TrashItem) :
    (deleteTrashItem name).keep items = items.filter fun entry => entry.name ≠ name := by
  simp [keep, takes]

theorem keep_emptyTrash (items : List TrashItem) : emptyTrash.keep items = [] := by
  simp [keep, takes]

end TrashCall

/-- What a call has done: nothing yet, it has put an entry into the trash, it has taken its
entries out, or it has got to the end of its write of the manifest. -/
inductive Phase
  | before
  | put (name : Text)
  | taken
  | written
  deriving DecidableEq

/-- A call in progress, with the items that it has read. -/
structure Track where
  call : TrashCall
  phase : Phase
  items : List TrashItem
  deriving DecidableEq

section Tracks

variable (texts : TrashTexts) (collection : Text)

/-- What an operation that succeeds does. A call that finds nothing to delete has taken its
entries out with that. -/
def Phase.next (call : TrashCall) (phase : Phase) : (o : StorageOp) → StorageVal o → Phase
  | .rename _ toPath, _ =>
    match call with
    | .moveToTrash .. => .put (lastSegment toPath)
    | _ => .taken
  | .exists _, there =>
    match call with
    | .deleteTrashItem _ | .emptyTrash => if there then phase else .taken
    | _ => phase
  | .remove .., _ => .taken
  | .writeTextFile .., _ => .written
  | _, _ => phase

/-- What a failing operation ends: the write of the manifest, and the making of the directory
that `emptyTrash` has removed. The clock does not fail. -/
def Phase.fail (phase : Phase) : StorageOp → Phase
  | .writeTextFile .. | .now => .written
  | .mkdir .. => if phase = .taken then .written else phase
  | _ => phase

def observe (track : Track) : (o : StorageOp) → StorageAns o → Track
  | .readTextFile _, .ok text => { track with items := (texts.parse text).getD [] }
  | .readTextFile _, .error _ => { track with items := [] }
  | o, .ok val => { track with phase := track.phase.next track.call o val }
  | o, .error _ => { track with phase := track.phase.fail o }

/-- The operations of the calls, by what they have done before. -/
inductive Asks : Track → StorageOp → Prop
  | now (x) : Asks x .now
  | makeTrash (path isFolder items) :
      Asks ⟨.moveToTrash path isFolder, .before, items⟩ (.mkdir (trashPath collection) true)
  | isTaken (path isFolder items name) :
      Asks ⟨.moveToTrash path isFolder, .before, items⟩ (.exists (inTrash collection name))
  | put (path isFolder items name) (hname : IsName (lastSegment path) → IsName name) :
      Asks ⟨.moveToTrash path isFolder, .before, items⟩ (.rename path (inTrash collection name))
  | readPut (path isFolder items name) :
      Asks ⟨.moveToTrash path isFolder, .put name, items⟩ (.readTextFile (manifestPath collection))
  | list (path isFolder items name deletedAt) :
      Asks ⟨.moveToTrash path isFolder, .put name, items⟩
        (.writeTextFile (manifestPath collection)
          (texts.stringify (items ++ [⟨name, path, deletedAt, isFolder⟩])))
  | readItem (name items) :
      Asks ⟨.restoreFromTrash name, .before, items⟩ (.readTextFile (manifestPath collection))
  | isBack (name items item) (hmem : item ∈ items) (hname : item.name = name) :
      Asks ⟨.restoreFromTrash name, .before, items⟩ (.exists item.originalPath)
  | makeParent (name items item) (hmem : item ∈ items) (hname : item.name = name) :
      Asks ⟨.restoreFromTrash name, .before, items⟩ (.mkdir (dirOf item.originalPath) true)
  | takeBack (name items item) (hmem : item ∈ items) (hname : item.name = name) :
      Asks ⟨.restoreFromTrash name, .before, items⟩
        (.rename (inTrash collection name) item.originalPath)
  | isThere (name items) :
      Asks ⟨.deleteTrashItem name, .before, items⟩ (.exists (inTrash collection name))
  | remove (name items) :
      Asks ⟨.deleteTrashItem name, .before, items⟩ (.remove (inTrash collection name) true)
  | readTaken (name items) :
      Asks ⟨.deleteTrashItem name, .taken, items⟩ (.readTextFile (manifestPath collection))
  | isTrash (items) : Asks ⟨.emptyTrash, .before, items⟩ (.exists (trashPath collection))
  | removeTrash (items) : Asks ⟨.emptyTrash, .before, items⟩ (.remove (trashPath collection) true)
  | renewTrash (items) : Asks ⟨.emptyTrash, .taken, items⟩ (.mkdir (trashPath collection) true)
  | unlist (call items) : Asks ⟨call, .taken, items⟩
      (.writeTextFile (manifestPath collection) (texts.stringify (call.keep items)))

/-- A call that has returned has nothing left to list or to unlist. -/
def Settled (track : Track) : Prop := track.phase = .before ∨ track.phase = .written

end Tracks

section Guarantee

variable {texts : TrashTexts} {collection : Text}

theorem lastSegment_slash {p s : Text} (hs : '/' ∉ s) : lastSegment (p ++ '/' :: s) = s := by
  rw [lastSegment, List.splitOn_append_cons_self, List.splitOn_eq_singleton hs,
    List.getLast?_concat]
  rfl

theorem slash_notMem_lastSegment (path : Text) : '/' ∉ lastSegment path := by
  rw [lastSegment]
  cases hlast : (path.splitOn '/').getLast? with
  | none => exact List.not_mem_nil
  | some part => exact notMem_of_mem_splitOn (List.mem_of_getLast? hlast)

theorem slash_notMem_dated {name : Text} (h : '/' ∉ name) (now : ℤ) :
    '/' ∉ (toString now).toList ++ '-' :: name := by
  intro hslash
  rcases List.mem_append.mp hslash with hmem | hmem
  · rcases mem_toString_int hmem with hdigit | heq
    · exact absurd hdigit (by decide)
    · exact absurd heq (by decide)
  · rcases List.mem_cons.mp hmem with heq | hmem
    · exact absurd heq (by decide)
    · exact h hmem

theorem isName_dated {name : Text} (h : '/' ∉ name) (now : ℤ) :
    IsName ((toString now).toList ++ '-' :: name) := by
  have hdash : '-' ∈ (toString now).toList ++ '-' :: name := by simp
  refine ⟨List.ne_nil_of_mem hdash, ?_, ?_, slash_notMem_dated h now⟩
  · intro heq
    rw [heq] at hdash
    exact absurd hdash (by decide)
  · intro heq
    rw [heq] at hdash
    exact absurd hdash (by decide)

/-- What holds of the end of a method that follows its call. -/
abbrev Follows {α : Type} (texts : TrashTexts) (collection : Text) (Q : α → Unit → Track → Prop)
    (m : TrashM α) (x : Track) : Prop :=
  Meets (Observes (observe texts)) (Asks texts collection) Q (fun _ _ => Settled) m () x

theorem follows_readManifest {Q : List TrashItem → Unit → Track → Prop} {x : Track}
    (hasks : Asks texts collection x (.readTextFile (manifestPath collection)))
    (h : ∀ items, Q items () { x with items := items }) :
    Follows texts collection Q (readManifest texts collection) x := by
  rw [Follows, readManifest, meets_orElse, meets_bind]
  apply meets_asked hasks
  · rintro text _ rfl
    exact h _
  · rintro e _ rfl
    exact h []

/-- The last operation of a call. -/
theorem follows_writeManifest {items : List TrashItem} {x : Track}
    (hasks : Asks texts collection x
      (.writeTextFile (manifestPath collection) (texts.stringify items))) :
    Follows texts collection (fun _ _ => Settled)
      (writeManifest texts collection items) x := by
  apply meets_asked hasks
  · rintro _ _ rfl
    exact .inr rfl
  · rintro e _ rfl
    exact .inr rfl

theorem follows_freeName {path name : Text} {isFolder : Bool} {items : List TrashItem}
    {Q : Text → Unit → Track → Prop}
    (hslash : '/' ∉ name)
    (h : ∀ found, '/' ∉ found → (IsName name → IsName found) → Q found () ⟨.moveToTrash path isFolder, .before, items⟩) :
    Follows texts collection Q (freeName collection name)
      ⟨.moveToTrash path isFolder, .before, items⟩ := by
  rw [Follows, freeName, meets_bind]
  apply meets_asked (.isTaken ..)
  · rintro taken _ rfl
    split
    next =>
      rw [meets_bind]
      apply meets_asked (.now _)
      · rintro now _ rfl
        exact h _ (slash_notMem_dated hslash now) fun _ => isName_dated hslash now
      · rintro e _ rfl
        exact .inr rfl
    next => exact h name hslash id
  · rintro e _ rfl
    exact .inl rfl

theorem follows_moveToTrash (path : Text) (isFolder : Bool) :
    Follows texts collection (fun _ _ => Settled)
      (moveToTrash texts collection path isFolder) ⟨.moveToTrash path isFolder, .before, []⟩ := by
  rw [Follows, moveToTrash, meets_bind]
  apply meets_asked (.makeTrash ..)
  · rintro _ _ rfl
    rw [meets_bind]
    refine follows_freeName (slash_notMem_lastSegment path) fun name hslash hname => ?_
    rw [meets_bind]
    apply meets_asked (.put _ _ _ _ hname)
    · rintro _ _ rfl
      rw [meets_bind]
      refine follows_readManifest (.readPut ..) fun items => ?_
      rw [meets_bind]
      apply meets_asked (.now _)
      · rintro now _ rfl
        have hput : lastSegment (inTrash collection name) = name := lastSegment_slash hslash
        apply follows_writeManifest
        dsimp only [observe, Phase.next]
        rw [hput]
        exact .list ..
      · rintro e _ rfl
        exact .inr rfl
    · rintro e _ rfl
      exact .inl rfl
  · rintro e _ rfl
    exact .inl rfl

theorem follows_restoreFromTrash (name : Text) :
    Follows texts collection (fun _ _ => Settled) (restoreFromTrash texts collection name)
      ⟨.restoreFromTrash name, .before, []⟩ := by
  rw [Follows, restoreFromTrash, meets_bind]
  refine follows_readManifest (.readItem ..) fun items => ?_
  cases hfound : items.find? fun entry => entry.name = name with
  | none => exact .inl rfl
  | some item =>
      have hmem := List.mem_of_find?_eq_some hfound
      have hname : item.name = name := by simpa using List.find?_some hfound
      dsimp only
      rw [meets_bind]
      apply meets_asked (.isBack _ _ _ hmem hname)
      · rintro taken _ rfl
        split
        next => exact .inl rfl
        next =>
          rw [meets_bind]
          apply meets_asked (.makeParent _ _ _ hmem hname)
          · rintro _ _ rfl
            rw [meets_bind]
            apply meets_asked (.takeBack _ _ _ hmem hname)
            · rintro _ _ rfl
              rw [← TrashCall.keep_restoreFromTrash]
              exact follows_writeManifest (.unlist ..)
            · rintro e _ rfl
              exact .inl rfl
          · rintro e _ rfl
            exact .inl rfl
      · rintro e _ rfl
        exact .inl rfl

theorem follows_deleteTrashItem (name : Text) :
    Follows texts collection (fun _ _ => Settled) (deleteTrashItem texts collection name)
      ⟨.deleteTrashItem name, .before, []⟩ := by
  have hrest : Follows texts collection (fun _ _ => Settled) (do
      let items ← readManifest texts collection
      writeManifest texts collection (items.filter fun entry => entry.name ≠ name))
      ⟨.deleteTrashItem name, .taken, []⟩ := by
    rw [Follows, meets_bind]
    refine follows_readManifest (.readTaken ..) fun items => ?_
    rw [← TrashCall.keep_deleteTrashItem]
    exact follows_writeManifest (.unlist ..)
  rw [Follows, deleteTrashItem, meets_bind]
  apply meets_asked (.isThere ..)
  · rintro there _ rfl
    cases there with
    | true =>
        rw [if_pos rfl, meets_bind]
        apply meets_asked (.remove ..)
        · rintro _ _ rfl
          exact hrest
        · rintro e _ rfl
          exact .inl rfl
    | false => exact hrest
  · rintro e _ rfl
    exact .inl rfl

theorem follows_emptyTrash :
    Follows texts collection (fun _ _ => Settled) (emptyTrash texts collection)
      ⟨.emptyTrash, .before, []⟩ := by
  have hrest : Follows texts collection (fun _ _ => Settled) (do
      ask .storage (.mkdir (trashPath collection) true)
      writeManifest texts collection []) ⟨.emptyTrash, .taken, []⟩ := by
    rw [Follows, meets_bind]
    apply meets_asked (.renewTrash _)
    · rintro _ _ rfl
      rw [← TrashCall.keep_emptyTrash []]
      exact follows_writeManifest (.unlist ..)
    · rintro e _ rfl
      exact .inr rfl
  rw [Follows, emptyTrash, meets_bind]
  apply meets_asked (.isTrash _)
  · rintro there _ rfl
    cases there with
    | true =>
        rw [if_pos rfl, meets_bind]
        apply meets_asked (.removeTrash _)
        · rintro _ _ rfl
          exact hrest
        · rintro e _ rfl
          exact .inl rfl
    | false => exact hrest
  · rintro e _ rfl
    exact .inl rfl

/-- A call asks only what is foreseen of it. -/
theorem follows_method (call : TrashCall) :
    Follows texts collection (fun _ _ => Settled) (call.method texts collection)
      ⟨call, .before, []⟩ := by
  cases call with
  | moveToTrash path isFolder => exact follows_moveToTrash path isFolder
  | restoreFromTrash name => exact follows_restoreFromTrash name
  | deleteTrashItem name => exact follows_deleteTrashItem name
  | emptyTrash => exact follows_emptyTrash

end Guarantee

end Tactile.Notes.Trash

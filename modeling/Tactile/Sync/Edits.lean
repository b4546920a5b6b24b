import Tactile.Sync.Confine
import Tactile.Sync.Outcome
import Tactile.Sync.Uploads

/-!
What becomes of files that were edited since the last sync: wherever a sync ends, their contents
are at their paths or in conflict copies.
-/

namespace Tactile.Sync.Edits

open Tactile.Lib.Program Tactile.Lib.Script Tactile.Lib.FiniteMap
open Tactile.Storage.Paths Tactile.Storage.Idb Tactile.Storage.Opfs Tactile.Storage.Backend
open Tactile.Sync.Records Tactile.Sync.SyncNow Tactile.Sync.Merge Tactile.Sync.Outcome
open Tactile.Sync.Untrusted Tactile.Sync.Walk Tactile.Sync.Confine
open Tactile.Sync.Uploads (only_call only_store only_outcome)

variable {D P : Type}

section Copies

end Copies

section Places

/-- A path as the walk makes it: names with slashes between them. -/
def Plain (rel : Text) : Prop := ∃ segments, Names segments ∧ segments ≠ [] ∧ rel = relText segments

/-- The place of a path of the collection. -/
def At (collection rel : Text) (l : List Text) : Prop :=
  Names l ∧ joinPath [collection, rel] = .ok (render l)

variable {collection rel rel' : Text} {l l' root : List Text}

theorem At.unique (h : At collection rel l) (h' : At collection rel l') : l = l' := by
  obtain ⟨hl, hjoin⟩ := h
  obtain ⟨hl', hjoin'⟩ := h'
  rw [hjoin] at hjoin'
  exact render_inj hl hl' (Except.ok.inj hjoin')

theorem at_relText {segments : List Text} (hroot : pathSegments collection = .ok root)
    (hnames : Names segments) (hne : segments ≠ []) :
    At collection (relText segments) (root ++ segments) := by
  refine ⟨fun s hs => ?_, joinPath_relText hroot hnames hne⟩
  exact (List.mem_append.mp hs).elim (names_of_pathSegments hroot s) (hnames s)

/-- Different paths have different places. -/
theorem at_inj (hroot : pathSegments collection = .ok root) (hrel : Plain rel) (hrel' : Plain rel')
    (h : At collection rel l) (h' : At collection rel' l) : rel = rel' := by
  obtain ⟨segments, hnames, hne, rfl⟩ := hrel
  obtain ⟨segments', hnames', hne', rfl⟩ := hrel'
  have hboth := ((at_relText hroot hnames hne).unique h).trans
    ((at_relText hroot hnames' hne').unique h').symm
  rw [List.append_cancel_left hboth]

theorem Plain.conflictPath (h : Plain rel) (now : ℤ) : Plain (conflictPath rel now) := by
  obtain ⟨segments, hnames, hne, rfl⟩ := h
  obtain ⟨init, name, rfl⟩ := (List.eq_nil_or_concat segments).resolve_left hne
  rw [List.concat_eq_append] at hnames ⊢
  obtain ⟨name', hcopy, hname', -⟩ : ∃ name',
      Records.conflictPath (relText (init ++ [name])) now = relText (init ++ [name']) ∧
        IsName name' ∧ ' ' ∈ name' := conflictPath_relText (hnames name (by simp)) now
  refine ⟨init ++ [name'], fun s hs => ?_, by simp, hcopy⟩
  rcases List.mem_append.mp hs with hs | hs
  · exact hnames s (List.mem_append_left _ hs)
  · rw [List.mem_singleton.mp hs]
    exact hname'

theorem Plain.at (h : Plain rel) (hroot : pathSegments collection = .ok root) :
    ∃ l, At collection rel l := by
  obtain ⟨segments, hnames, hne, rfl⟩ := h
  exact ⟨root ++ segments, at_relText hroot hnames hne⟩

end Places

section Calls

/-- Operations that write nothing at some places. -/
def Avoids (kept : List Text → Prop) : SyncOp D P → Prop
  | .storage (.writeFile path _) | .storage (.writeTextFile path _) =>
    ∃ l, Names l ∧ path = render l ∧ ¬ kept l
  | .storage (.remove path recursive) => recursive = false ∧ ∃ l, Names l ∧ path = render l ∧ ¬ kept l
  | .storage (.rename _ _) => False
  | _ => True

variable {t t' : Tree} {p : List Text} {data : Bytes} {kept : List Text → Prop}

theorem kept_write {l : List Text} (hl : l ≠ p) (contents : Bytes)
    (hfile : t.lookup p = some (.file data)) :
    (writeFileAt t l contents).2.lookup p = some (.file data) := by
  rw [writeFileAt]
  split_ifs
  · exact hfile
  · exact hfile
  · rw [lookup_insert_eq, if_neg (Ne.symm hl)]
    exact hfile

/-- What is not empty is not removed, so that a removal takes no file below with it. -/
theorem kept_remove {l : List Text} (hv : t.Valid) (hl : l ≠ p)
    (hfile : t.lookup p = some (.file data)) :
    (removeAt t l false).2.lookup p = some (.file data) := by
  rw [removeAt]
  split_ifs with hroot hnone hfull
  · exact hfile
  · exact hfile
  · exact hfile
  · rw [lookup_removed, if_neg]
    · exact hfile
    · rintro ⟨rest, rfl⟩
      cases rest with
      | nil => exact hl (List.append_nil l).symm
      | cons s rest =>
          refine hfull ⟨rfl, fun hnil => ?_⟩
          have hchild := children_eq_nil.mp hnil s
          rw [show l ++ s :: rest = (l ++ [s]) ++ rest by simp, free_below hv hchild (by simp)] at hfile
          cases hfile

variable {may : (o : RelayOp D P) → RelayAns D P o → Prop} {codec : TextCodec} {clock : Clock}

theorem Avoids.leaves {o : SyncOp D P} {ans : SyncAns D P o} (hv : t.Valid) (h : Avoids kept o)
    (hp : kept p) (hans : World may codec clock t o ans t') (hfile : t.lookup p = some (.file data)) :
    t'.lookup p = some (.file data) := by
  have hother : ∀ {l : List Text}, ¬ kept l → l ≠ p := by
    rintro l hl rfl
    exact hl hp
  have hread : ∀ {α : Type} (path : Text) (f : List Text → Except Failure α),
      (reading t path f).2.lookup p = some (.file data) := by
    intro α path f
    rw [reading_snd]
    exact hfile
  cases hans with
  | relay => exact hfile
  | storage _ _ o _ hserves =>
      cases hserves with
      | failed => exact hfile
      | served =>
          cases o with
          | readDir path => exact hread path _
          | readTextFile path => exact hread path _
          | readFile path => exact hread path _
          | stat path => exact hread path _
          | «exists» path => exact hread path _
          | now => exact hfile
          | rename fromPath toPath => exact h.elim
          | writeTextFile path contents =>
              obtain ⟨l, hl, rfl, hne⟩ := h
              rw [respond, writing_ok (pathSegments_render hl)]
              exact kept_write (hother hne) _ hfile
          | writeFile path contents =>
              obtain ⟨l, hl, rfl, hne⟩ := h
              rw [respond, writing_ok (pathSegments_render hl)]
              exact kept_write (hother hne) _ hfile
          | mkdir path recursive =>
              rw [respond, writing]
              split
              · exact hfile
              · exact (sameFiles_mkdirAt t _ _ p data).mpr hfile
          | remove path recursive =>
              obtain ⟨rfl, l, hl, rfl, hne⟩ := h
              rw [respond, writing_ok (pathSegments_render hl)]
              exact kept_remove hv (hother hne) hfile

end Calls

section Reading

variable {may : (o : RelayOp D P) → RelayAns D P o → Prop} {codec : TextCodec} {clock : Clock}
variable {G : Tree → SyncOp D P → Prop} {C : Crypto D P} {t : Tree} {collection : Text}

/-- The contents that a map has of files are those that are stored. -/
def AllRead (t : Tree) (out : Dict Text (LocalFile D)) : Prop :=
  ∀ rel l, out.lookup rel = some l → ∃ p, pathSegments l.abs = .ok p ∧ t.lookup p = some (.file l.data)

/-- A part of the walk that leaves the tree and notes what is stored. -/
def Reads (may : (o : RelayOp D P) → RelayAns D P o → Prop) (codec : TextCodec) (clock : Clock)
    (G : Tree → SyncOp D P → Prop) (t : Tree)
    (f : Dict Text (LocalFile D) → SyncMethod D P (Dict Text (LocalFile D))) : Prop :=
  ∀ out m, AllRead t out → Meets (World may codec clock) G
    (fun out' _ t' => t' = t ∧ AllRead t out') (fun _ _ t' => t' = t) (f out) m t

end Reading

section Effects

variable {C : Crypto D P} {collection rel : Text} {kept : List Text → Prop}

/-- The contents are at one of two places. -/
structure Safe (p copy : List Text) (data : Bytes) (t : Tree) : Prop where
  valid : t.Valid
  stored : t.lookup p = some (.file data) ∨ t.lookup copy = some (.file data)

variable {may : (o : RelayOp D P) → RelayAns D P o → Prop} {codec : TextCodec} {clock : Clock}
variable {t t' : Tree} {p copy : List Text} {data : Bytes}

theorem Safe.step {o : SyncOp D P} {ans : SyncAns D P o} (h : Safe p copy data t)
    (ho : Avoids (fun l => l = p ∨ l = copy) o) (hans : World may codec clock t o ans t') :
    Safe p copy data t' where
  valid := valid_world h.valid hans
  stored := h.stored.imp (ho.leaves h.valid (.inl rfl) hans) (ho.leaves h.valid (.inr rfl) hans)

end Effects

section Runs

variable [DecidableEq D] {C : Crypto D P} {collection : Text} {g : Gathered D}
variable {may : (o : RelayOp D P) → RelayAns D P o → Prop} {codec : TextCodec} {clock : Clock}

/-- The paths of the fetched manifest are such as a walk makes, and no path of the run is the name
of a conflict copy of the run. -/
structure Tidy (g : Gathered D) : Prop where
  plain : ∀ rel r, g.remote.files.lookup rel = some r → Plain rel
  copies : ∀ rel ∈ mergedPaths g.remote g.locals, ∀ rel' ∈ mergedPaths g.remote g.locals,
    rel' ≠ conflictPath rel g.now

/-- Two places of a file of a run: its own and that of its conflict copy. -/
structure Places (collection : Text) (g : Gathered D) (rel : Text) (p copy : List Text) : Prop where
  merged : rel ∈ mergedPaths g.remote g.locals
  own : At collection rel p
  copied : At collection (conflictPath rel g.now) copy

omit [DecidableEq D] in
theorem plain_of_merged (hwalked : AllWalked collection g.locals) (htidy : Tidy g) {rel : Text}
    (h : rel ∈ mergedPaths g.remote g.locals) : Plain rel := by
  rcases mem_mergedPaths.mp h with hlocal | hremote
  · obtain ⟨l, hl⟩ := Option.ne_none_iff_exists'.mp hlocal
    obtain ⟨root, segments, hw⟩ := hwalked rel l hl
    exact ⟨segments, hw.names, hw.nonempty, hw.rel⟩
  · obtain ⟨r, hr⟩ := Option.ne_none_iff_exists'.mp hremote
    exact htidy.plain rel r hr

omit [DecidableEq D] in
theorem Places.ne {rel : Text} {p copy root : List Text} (h : Places collection g rel p copy)
    (hroot : pathSegments collection = .ok root) (hwalked : AllWalked collection g.locals)
    (htidy : Tidy g) : p ≠ copy := by
  rintro rfl
  have hplain := plain_of_merged hwalked htidy h.merged
  exact htidy.copies rel h.merged rel h.merged
    (at_inj hroot hplain (hplain.conflictPath g.now) h.own h.copied)

/-- The contents of a file that was edited since the last sync are at its path or in its
conflict copy. -/
def Survives (collection : Text) (now : ℤ) (rel : Text) (data : Bytes) (t : Tree) : Prop :=
  ∃ place, (At collection rel place ∨ At collection (conflictPath rel now) place) ∧
    t.lookup place = some (.file data)

end Runs

section Sample

end Sample

end Tactile.Sync.Edits

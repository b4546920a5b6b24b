import Tactile.Notes.Trash

/-!
The trash in the tree of files: its manifest, its entries, and what the operations of the
calls change of them.
-/

namespace Tactile.Notes.TrashEntries

open Tactile.Lib Tactile.Lib.Program Tactile.Lib.FiniteMap
open Tactile.Storage.Paths Tactile.Storage.Idb Tactile.Storage.Opfs Tactile.Storage.Backend
open Tactile.Notes.Trash
open Tactile.Notes.Naming (dirOf)

section Places

variable (root : List Text)

/-- The directory of the trash, by its names. -/
def trashDir : List Text := root ++ [".tactile".toList, "trash".toList]

def manifest : List Text := root ++ [".tactile".toList, "trash.json".toList]

/-- A place that is neither in the trash nor at its manifest. -/
def Outside (l : List Text) : Prop := ¬ trashDir root <+: l ∧ ¬ manifest root <+: l

/-- The items that the manifest lists. -/
def manifestItems (texts : TrashTexts) (t : Tree) : List TrashItem :=
  match t.lookup (manifest root) with
  | some (.file bytes) => (texts.parse (texts.codec.decode bytes)).getD []
  | _ => []

def namesOf (items : List TrashItem) : List Text := items.map TrashItem.name

/-- An entry that was moved into the trash: its name there, where it came from, and what it
holds. -/
structure Trashed where
  name : Text
  originalPath : Text
  contents : List Text → Option Node

def movedIn (t : Tree) (fromPath toPath : Text) : List Trashed :=
  match pathSegments fromPath, pathSegments toPath with
  | .ok src, .ok dst =>
    if dst.dropLast = trashDir root then
      [⟨dst.getLast?.getD [], fromPath, fun rest => t.lookup (src ++ rest)⟩]
    else []
  | _, _ => []

/-- The entries that are not at a path or below it. -/
def spared (path : Text) (entries : List Trashed) : List Trashed :=
  match pathSegments path with
  | .ok l => entries.filter fun e => !l.isPrefixOf (trashDir root ++ [e.name])
  | .error _ => entries

/-- The entries in the trash after an operation. -/
def note (t : Tree) (entries : List Trashed) : (o : StorageOp) → StorageAns o → List Trashed
  | .rename fromPath toPath, .ok () => spared root fromPath entries ++ movedIn root t fromPath toPath
  | .remove path _, .ok () => spared root path entries
  | _, _ => entries

/-- The files, and what has been moved into the trash and not out of it. -/
abbrev State : Type := Tree × List Trashed

/-- Any operation may fail, and the clock says anything. -/
def World (texts : TrashTexts) : Answers StorageOp StorageAns State :=
  fun s o ans s' =>
    (∃ clock, Serves texts.codec clock s.1 o ans s'.1) ∧ s'.2 = note root s.1 s.2 o ans

/-- The items of the manifest are the entries of the directory, one to one. -/
def OneToOne (texts : TrashTexts) (t : Tree) : Prop :=
  (namesOf (manifestItems root texts t)).Nodup ∧
    ∀ name, name ∈ namesOf (manifestItems root texts t) ↔ (t.lookup (trashDir root ++ [name])).isSome

/-- An entry is in the directory with what it holds, and in the manifest with its path. -/
def Held (texts : TrashTexts) (t : Tree) (e : Trashed) : Prop :=
  (∀ rest, t.lookup (trashDir root ++ e.name :: rest) = e.contents rest) ∧
    ∃ item ∈ manifestItems root texts t, item.name = e.name ∧ item.originalPath = e.originalPath

end Places

section Trees

variable {root : List Text} {texts : TrashTexts} {collection : Text} {t t' : Tree} {l : List Text}
variable {name : Text} {rest : List Text}

theorem pathSegments_trashPath (h : pathSegments collection = .ok root) :
    pathSegments (trashPath collection) = .ok (trashDir root) := by
  have htactile := pathSegments_name (s := ".tactile".toList) h (by decide)
  have htrash := pathSegments_name (s := "trash".toList) htactile (by decide)
  rw [List.append_assoc root] at htrash
  exact htrash

theorem pathSegments_manifestPath (h : pathSegments collection = .ok root) :
    pathSegments (manifestPath collection) = .ok (manifest root) := by
  have htactile := pathSegments_name (s := ".tactile".toList) h (by decide)
  have hmanifest := pathSegments_name (s := "trash.json".toList) htactile (by decide)
  rw [List.append_assoc root] at hmanifest
  exact hmanifest

theorem pathSegments_inTrash (h : pathSegments collection = .ok root) (hname : IsName name) :
    pathSegments (inTrash collection name) = .ok (trashDir root ++ [name]) :=
  pathSegments_name (pathSegments_trashPath h) hname

theorem pathSegments_dirOf {path : Text} {dir : List Text} (h : pathSegments path = .ok l)
    (hdir : pathSegments (dirOf path) = .ok dir) : dir <+: l := by
  have hroot : pathSegments ['/'] = .ok [] := rfl
  obtain ⟨a, s, hpath, hs⟩ | hnone : (∃ a s, path = a ++ '/' :: s ∧ '/' ∉ s) ∨ '/' ∉ path := by
    obtain ⟨b, s, hpath, hs, rfl | ⟨a, rfl⟩⟩ := Split.exists_lastPart path '/'
    · rw [hpath]
      exact .inr hs
    · exact .inl ⟨a, s, by rw [hpath, List.append_assoc]; rfl, hs⟩
  · have hdrop : (path.splitOn '/').dropLast = a.splitOn '/' := by
      rw [hpath, List.splitOn_append_cons_self, List.splitOn_eq_singleton hs, List.dropLast_concat]
    rw [dirOf, hdrop, List.intercalate_splitOn] at hdir
    split at hdir
    next =>
      rw [hroot] at hdir
      cases hdir
      exact List.nil_prefix
    next hne =>
      rw [hpath] at h
      obtain ⟨l', hl', hle⟩ := pathSegments_prefix hne h
      rw [hdir] at hl'
      cases hl'
      exact hle
  · rw [dirOf, List.splitOn_eq_singleton hnone] at hdir
    have hempty : pathSegments ['/'] = .ok dir := hdir
    rw [hroot] at hempty
    cases hempty
    exact List.nil_prefix

theorem not_trashDir_prefix_manifest : ¬ trashDir root <+: manifest root := by
  rw [manifest, trashDir, List.prefix_append_right_inj]
  decide

theorem not_manifest_prefix_entry : ¬ manifest root <+: trashDir root ++ rest := by
  rw [manifest, trashDir, List.append_assoc, List.prefix_append_right_inj]
  simp

theorem entry_prefix_iff {other : Text} :
    trashDir root ++ [name] <+: trashDir root ++ other :: rest ↔ name = other := by
  rw [List.prefix_append_right_inj, List.singleton_prefix_cons_iff]

/-- A place outside of the trash that is above something in it is above the trash. -/
theorem Outside.above (h : Outside root l) (hbelow : l <+: trashDir root ++ rest) :
    l <+: trashDir root := by
  rcases List.prefix_or_prefix_of_prefix hbelow (List.prefix_append _ _) with hup | hdown
  · exact hup
  · exact absurd hdown h.1

theorem Outside.above_manifest (h : Outside root l) (hbelow : l <+: manifest root) :
    l <+: trashDir root := by
  have hmanifest : manifest root = (root ++ [".tactile".toList]) ++ ["trash.json".toList] := by
    simp [manifest]
  rw [hmanifest, List.prefix_concat_iff, ← hmanifest] at hbelow
  rcases hbelow with rfl | habove
  · exact absurd (List.prefix_refl _) h.2
  · exact habove.trans ⟨["trash".toList], by simp [trashDir]⟩

/-- Nothing in the trash or of its manifest is changed. -/
structure Apart (root : List Text) (texts : TrashTexts) (t t' : Tree) : Prop where
  valid : t'.Valid
  items : manifestItems root texts t' = manifestItems root texts t
  entries : ∀ name rest,
    t'.lookup (trashDir root ++ name :: rest) = t.lookup (trashDir root ++ name :: rest)

/-- An entry is moved into the trash from a place. -/
structure Put (root : List Text) (texts : TrashTexts) (src : List Text) (name : Text) (t t' : Tree) :
    Prop where
  valid : t'.Valid
  items : manifestItems root texts t' = manifestItems root texts t
  stored : (t.lookup src).isSome
  free : t.lookup (trashDir root ++ [name]) = none
  entry : ∀ rest, t'.lookup (trashDir root ++ name :: rest) = t.lookup (src ++ rest)
  others : ∀ other rest, other ≠ name →
    t'.lookup (trashDir root ++ other :: rest) = t.lookup (trashDir root ++ other :: rest)

/-- The entries with some names are taken out of the trash. -/
structure Taken (root : List Text) (texts : TrashTexts) (takes : Text → Bool) (t t' : Tree) :
    Prop where
  valid : t'.Valid
  items : manifestItems root texts t' = manifestItems root texts t
  entries : ∀ name rest, t'.lookup (trashDir root ++ name :: rest) =
    if takes name then none else t.lookup (trashDir root ++ name :: rest)

theorem manifestItems_congr (h : ∀ bytes, t'.lookup (manifest root) = some (.file bytes) ↔
      t.lookup (manifest root) = some (.file bytes)) :
    manifestItems root texts t' = manifestItems root texts t := by
  unfold manifestItems
  split
  next bytes hfile => rw [(h bytes).mp hfile]
  next hnone =>
    split
    next bytes hfile => exact absurd ((h bytes).mpr hfile) (hnone bytes)
    next => rfl

theorem manifestItems_of_lookup (h : t'.lookup (manifest root) = t.lookup (manifest root)) :
    manifestItems root texts t' = manifestItems root texts t :=
  manifestItems_congr fun _ => by rw [h]

theorem Apart.refl (hv : t.Valid) : Apart root texts t t := ⟨hv, rfl, fun _ _ => rfl⟩

theorem apart_mkdir (hv : t.Valid) (hl : Names l)
    (hplace : ∀ name rest, ¬ trashDir root ++ name :: rest <+: l) :
    Apart root texts t (mkdirAt t l true).2 where
  valid := valid_mkdirAt hv hl true
  items := manifestItems_congr fun bytes => sameFiles_mkdirAt t l true (manifest root) bytes
  entries name rest := lookup_mkdirAt_apart (hplace name rest)

theorem names_trash (hroot : Names root) (hname : IsName name) : Names (trashDir root ++ [name]) :=
  (hroot.append (by decide)).append fun _ h => List.mem_singleton.mp h ▸ hname

theorem put_of_rename {src : List Text} (hv : t.Valid) (hroot : Names root) (hname : IsName name)
    (hout : Outside root src) (h : renameAt t src (trashDir root ++ [name]) = (.ok (), t')) :
    Put root texts src name t t' := by
  rcases renameAt_eq_ok h with ⟨rfl, -⟩ | ⟨hmoves, rfl⟩
  · exact absurd (List.prefix_append _ _) hout.1
  have hapart : ∀ p, ¬ trashDir root ++ [name] <+: p → (src <+: p → src <+: trashDir root) →
      (ofPairs ((pairs t).map fun e => (relocate src (trashDir root ++ [name]) e.1, e.2))).lookup p =
        t.lookup p := by
    intro p hdst hup
    refine hmoves.lookup_apart hv (fun hsrc => ?_) hdst
    exact hmoves.notInside ((hup hsrc).trans (List.prefix_append _ _))
  refine ⟨hmoves.valid hv (names_trash hroot hname), ?_, Option.isSome_iff_ne_none.mpr hmoves.stored,
    hmoves.free, fun rest => ?_, fun other rest hne => ?_⟩
  · refine manifestItems_of_lookup (hapart _ (fun hdown => ?_) hout.above_manifest)
    exact not_trashDir_prefix_manifest ((List.prefix_append _ _).trans hdown)
  · have hmoved := hmoves.lookup_moved hv rest
    rw [List.append_assoc] at hmoved
    exact hmoved
  · refine hapart _ (fun hdown => hne ?_) hout.above
    exact (entry_prefix_iff.mp hdown).symm

theorem taken_of_rename {dst : List Text} (hv : t.Valid) (hdst : Names dst)
    (hout : Outside root dst) (h : renameAt t (trashDir root ++ [name]) dst = (.ok (), t')) :
    Taken root texts (fun entry => entry = name) t t' := by
  rcases renameAt_eq_ok h with ⟨rfl, -⟩ | ⟨hmoves, rfl⟩
  · exact absurd (List.prefix_append _ _) hout.1
  -- above the source there are directories, so that the free destination is not there
  have habove : ¬ dst <+: trashDir root := by
    rintro ⟨rest, hrest⟩
    obtain ⟨node, hstored⟩ := Option.ne_none_iff_exists'.mp hmoves.stored
    rw [← hrest, List.append_assoc] at hstored
    have hdir := isDir_of_stored hv (by simp) hstored
    have hdst := (isDir_eq_true.mp hdir).resolve_left hmoves.target
    rw [hmoves.free] at hdst
    cases hdst
  refine ⟨hmoves.valid hv hdst, ?_, fun other rest => ?_⟩
  · refine manifestItems_of_lookup (hmoves.lookup_apart hv (fun hdown => ?_) fun hdown => ?_)
    · exact not_trashDir_prefix_manifest ((List.prefix_append _ _).trans hdown)
    · exact habove (hout.above_manifest hdown)
  · have hnot : ¬ dst <+: trashDir root ++ other :: rest := fun hdown => habove (hout.above hdown)
    split
    next heq =>
      have hname : other = name := of_decide_eq_true heq
      exact hmoves.lookup_gone hv (entry_prefix_iff.mpr hname.symm) hnot
    next hne =>
      refine hmoves.lookup_apart hv (fun hdown => hne ?_) hnot
      exact decide_eq_true (entry_prefix_iff.mp hdown).symm

theorem taken_of_remove (hv : t.Valid) (h : removeAt t (trashDir root ++ [name]) true = (.ok (), t')) :
    Taken root texts (fun entry => entry = name) t t' := by
  obtain ⟨-, -, -, rfl⟩ := removeAt_eq_ok.mp h
  refine ⟨valid_removed hv, manifestItems_of_lookup ?_, fun other rest => ?_⟩
  · rw [lookup_removed, if_neg]
    exact fun hdown => not_trashDir_prefix_manifest ((List.prefix_append _ _).trans hdown)
  · rw [lookup_removed]
    simp only [entry_prefix_iff, decide_eq_true_eq, @eq_comm _ name other]

theorem taken_of_removeAll (hv : t.Valid) (h : removeAt t (trashDir root) true = (.ok (), t')) :
    Taken root texts (fun _ => true) t t' := by
  obtain ⟨-, -, -, rfl⟩ := removeAt_eq_ok.mp h
  refine ⟨valid_removed hv, manifestItems_of_lookup ?_, fun other rest => ?_⟩
  · rw [lookup_removed, if_neg not_trashDir_prefix_manifest]
  · rw [lookup_removed, if_pos (List.prefix_append _ _), if_pos rfl]

/-- Where nothing is, nothing is taken. -/
theorem taken_of_absent (hv : t.Valid) {takes : Text → Bool}
    (h : ∀ name, takes name = true → t.lookup (trashDir root ++ [name]) = none) :
    Taken root texts takes t t := by
  refine ⟨hv, rfl, fun other rest => ?_⟩
  split
  next htakes =>
    have hbelow := free_below hv (h other htakes) (by simp) rest
    rw [List.append_assoc] at hbelow
    exact hbelow
  next => rfl

/-- The manifest is written, and nothing else. -/
structure Listed (root : List Text) (texts : TrashTexts) (items : List TrashItem) (t t' : Tree) :
    Prop where
  valid : t'.Valid
  items : manifestItems root texts t' = items
  entries : ∀ name rest,
    t'.lookup (trashDir root ++ name :: rest) = t.lookup (trashDir root ++ name :: rest)

theorem listed_of_write {items : List TrashItem} (hv : t.Valid) (hroot : Names root)
    (h : writeFileAt t (manifest root) (texts.codec.encode (texts.stringify items)) = (.ok (), t')) :
    Listed root texts items t t' := by
  have hmanifest : Names [".tactile".toList, "trash.json".toList] := by decide
  have hvalid := valid_writeFileAt hv (hroot.append hmanifest) (texts.codec.encode (texts.stringify items))
  have hsame : (writeFileAt t (manifest root) (texts.codec.encode (texts.stringify items))).2 = t' := by
    rw [h]
  obtain ⟨-, -, rfl⟩ := writeFileAt_eq_ok.mp h
  refine ⟨hsame ▸ hvalid, ?_, fun name rest => ?_⟩
  · rw [manifestItems, lookup_insert_eq, if_pos rfl]
    dsimp only
    rw [texts.parse_stringify]
    rfl
  · rw [lookup_insert_eq, if_neg]
    intro heq
    apply @not_manifest_prefix_entry root (name :: rest)
    rw [heq]

end Trees

end Tactile.Notes.TrashEntries

import Tactile.Storage.IdbTree
import Tactile.Storage.Restoring

/-!
The records of the IndexedDB backend as the nodes of a tree, and its transactions as what the tree does.
-/

namespace Tactile.Storage.IdbNodes

open Tactile.Lib.FiniteMap
open Tactile.Lib.Text (utf8 utf8_eq)
open Tactile.Lib.Utf8 (bom decode_utf8)
open Tactile.Storage.Paths Tactile.Storage.IdbTree
open Tactile.Storage.Idb hiding Faulty Serves
open Tactile.Storage.Opfs (Node Tree isDir_eq_true isDir_nil isDir_of_stored mem_children valid_insert)
open Tactile.Storage.Backend hiding Serves makeDirs ask
open Tactile.Storage.Restoring (utf8Codec)

/-- The node that a record stands for. -/
def nodeOf (r : EntryRecord) : Node :=
  match r.kind with
  | .dir => .dir
  | .file => .file (Restoring.readFile utf8Codec r.data)

def nodeSize : Node → ℕ
  | .dir => 0
  | .file contents => contents.length

/-- A record with the size of its data, whose text is read back. -/
structure Kept (r : EntryRecord) : Prop where
  size : r.size = nodeSize (nodeOf r)
  text : Restoring.readTextFile utf8Codec r.data =
    utf8Codec.decode (Restoring.readFile utf8Codec r.data)

/-- The records are the tree. -/
structure Stores (db : Db) (t : Tree) : Prop where
  rooted : Rooted db
  valid : t.Valid
  nodes : ∀ l, Names l → t.lookup l = (db.lookup (render l)).map nodeOf
  kept : All (fun _ r => Kept r) db

theorem stores_empty : Stores ∅ ∅ where
  rooted := rooted_empty
  valid := fun _ _ h => by simp at h
  nodes := fun l _ => by simp
  kept := all_empty

/-- A text without a byte order mark. -/
def Unmarked (contents : String) : Prop := ¬ bom <+: utf8 contents.toList

theorem byteLength_eq (data : Data) :
    data.byteLength = (Restoring.readFile utf8Codec data).length := by
  cases data with
  | bytes contents => rfl
  | text contents =>
      rw [Data.byteLength, Restoring.readFile, utf8Codec]
      dsimp only
      rw [utf8_eq, String.utf8Encode_toList]
      rfl

/-- The data that a write may store. -/
def Readable : Data → Prop
  | .text contents => Unmarked contents
  | .bytes _ => True

theorem Readable.text {data : Data} (h : Readable data) :
    Restoring.readTextFile utf8Codec data = utf8Codec.decode (Restoring.readFile utf8Codec data) := by
  cases data with
  | bytes contents => rfl
  | text contents =>
      rw [Restoring.readTextFile, Restoring.readFile, utf8Codec]
      dsimp only
      rw [decode_utf8 h, String.ofList_toList]

variable {db : Db} {t : Tree}

theorem nodeOf_eq_dir {r : EntryRecord} : nodeOf r = .dir ↔ r.kind = .dir := by
  rw [nodeOf]
  cases r.kind with
  | dir => simp
  | file => simp

theorem Stores.isDir (h : Stores db t) {l : List Text} (hl : Names l) :
    t.isDir l ↔ l = [] ∨ db.isDir (render l) := by
  rw [isDir_eq_true, h.nodes l hl, isDir_iff]
  refine or_congr_right ?_
  rw [Option.map_eq_some_iff]
  exact exists_congr fun r => and_congr_right fun _ => nodeOf_eq_dir

theorem Stores.lookup_none (h : Stores db t) {l : List Text} (hl : Names l) :
    t.lookup l = none ↔ db.lookup (render l) = none := by
  rw [h.nodes l hl, Option.map_eq_none_iff]

/-- A record put at its place is a node put at it. -/
theorem Stores.put (h : Stores db t) {r : EntryRecord} {l : List Text} (hr : Placed db r l)
    (hkept : Kept r) (hkind : r.kind = .file → db.isDir r.path = false) :
    Stores (db.insert r.path r) (t.insert l (nodeOf r)) where
  rooted := h.rooted.put hr hkind
  valid := by
    refine valid_insert h.valid hr.names hr.notRoot ?_ fun hdir => ?_
    · exact (h.isDir (names_dropLast hr.names)).mpr hr.parentDir
    · rw [nodeOf_eq_dir]
      cases hfile : r.kind with
      | dir => rfl
      | file =>
          have hnot := hkind hfile
          rw [hr.path] at hnot
          have hroot := (h.isDir hr.names).mp (isDir_eq_true.mpr (.inr hdir))
          rw [hnot] at hroot
          exact absurd (hroot.resolve_right (by simp)) hr.notRoot
  nodes := fun l' hl' => by
    rw [lookup_insert_eq, lookup_insert_eq, hr.path]
    by_cases heq : l' = l
    · rw [if_pos heq, if_pos (by rw [heq])]
      rfl
    · rw [if_neg heq, if_neg fun hrender => heq (render_inj hl' hr.names hrender), h.nodes l' hl']
  kept := h.kept.insert hkept

theorem stored_below (hv : t.Valid) {l rest : List Text} {s : Text} {node : Node}
    (h : t.lookup (l ++ s :: rest) = some node) : t.lookup (l ++ [s]) ≠ none := by
  rw [List.append_cons] at h
  by_cases hrest : rest = []
  · subst hrest
    rw [List.append_nil] at h
    simp [h]
  · have hdir := isDir_eq_true.mp (isDir_of_stored hv hrest h)
    simp [hdir.resolve_left (by simp)]

/-- A record is below a path where the tree has a node in the directory. -/
theorem Stores.descendants (h : Stores db t) {l : List Text} (hl : Names l) :
    ((values db).filter fun r => r.path ≠ render l ∧ Under l r) = [] ↔ t.children l = [] := by
  rw [Opfs.children_eq_nil, List.filter_eq_nil_iff]
  constructor
  · intro hnone name
    by_contra hsome
    obtain ⟨node, hstored⟩ := Option.ne_none_iff_exists'.mp hsome
    have hnames := (h.valid _ _ hstored).2.1
    rw [h.nodes _ hnames, Option.map_eq_some_iff] at hstored
    obtain ⟨r, hr, -⟩ := hstored
    have hplaced := h.rooted.placed hnames hr
    refine hnone r (mem_values.mpr ⟨_, hr⟩) (decide_eq_true ⟨?_, ?_⟩)
    · rw [hplaced.path]
      intro heq
      simpa using render_inj hnames hl heq
    · exact (under_iff hplaced hl).mpr (List.prefix_append l [name])
  · intro hnone r hr htest
    obtain ⟨path, hpath⟩ := mem_values.mp hr
    obtain ⟨hkey, m, hm⟩ := h.rooted path r hpath
    obtain ⟨hne, hunder⟩ := of_decide_eq_true htest
    obtain ⟨rest, rfl⟩ := (under_iff hm hl).mp hunder
    have hstored : t.lookup (l ++ rest) = some (nodeOf r) := by
      rw [h.nodes _ hm.names, ← hm.path, hkey, hpath]
      rfl
    cases rest with
    | nil =>
        rw [List.append_nil] at hm
        exact hne hm.path
    | cons s rest => exact stored_below h.valid hstored (hnone s)

/-- What is left when the records at and below a path are taken out. -/
theorem Stores.without (h : Stores db t) {l : List Text} (hl : Names l) {db' : Db}
    (hgone : ∀ path r, db'.lookup path = some r → db.lookup path = some r ∧ ¬ Under l r)
    (hkept : ∀ path r, db.lookup path = some r → ¬ Under l r → db'.lookup path = some r) :
    Stores db' (select t fun q _ => !l.isPrefixOf q) where
  rooted := h.rooted.without hl hgone hkept
  valid := valid_removed h.valid
  nodes := fun p hp => by
    rw [lookup_removed]
    cases hr : db'.lookup (render p) with
    | some r =>
        obtain ⟨hold, hnot⟩ := hgone _ r hr
        rw [if_neg, h.nodes p hp, hold]
        exact fun hpre => hnot ((under_iff (h.rooted.placed hp hold) hl).mpr hpre)
    | none =>
        split
        next => rfl
        next hpre =>
          rw [h.nodes p hp]
          cases hold : db.lookup (render p) with
          | none => rfl
          | some r =>
              rw [hkept _ r hold fun hunder => hpre ((under_iff (h.rooted.placed hp hold) hl).mp hunder)]
                at hr
              cases hr
  kept := fun path r hr => h.kept path r (hgone path r hr).1

/-- The transaction of a removal is the removal of the tree. -/
theorem Stores.removeTx (h : Stores db t) {l : List Text} (hl : Names l) (hroot : l ≠ [])
    (recursive : Bool) :
    storageFailure (Idb.removeTx (render l) recursive db).1 = (removeAt t l recursive).1 ∧
      Stores (Idb.removeTx (render l) recursive db).2 (removeAt t l recursive).2 := by
  rw [Idb.removeTx, removeAt, if_neg hroot]
  cases hr : db.lookup (render l) with
  | none =>
      rw [(h.lookup_none hl).mpr hr]
      exact ⟨rfl, h⟩
  | some record =>
      have hnode : t.lookup l = some (nodeOf record) := by
        rw [h.nodes l hl, hr]
        rfl
      have hother : ∀ path r, db.lookup path = some r → ¬ Under l r → path ≠ render l := by
        rintro path r hpath hnot rfl
        exact hnot (under_self hl (h.rooted _ r hpath).1)
      rw [hnode, if_neg (by simp)]
      dsimp only
      split
      next hdir =>
        rw [descendants_eq hl h.rooted.values_placed]
        dsimp only
        have hfull : ∀ {p : Prop}, ((values db).filter fun r => r.path ≠ render l ∧ Under l r) ≠ [] ∧ p ↔
            p ∧ t.children l ≠ [] := by
          intro p
          rw [ne_eq, h.descendants hl, and_comm]
        split
        next hsome =>
          rw [if_pos (hfull.mp hsome)]
          exact ⟨rfl, h⟩
        next hnone =>
          rw [if_neg (mt hfull.mpr hnone)]
          refine ⟨rfl, h.without hl (fun path r hpath => ?_) fun path r hpath hnot => ?_⟩
          · rw [lookup_erase_eq, lookup_eraseAll] at hpath
            split at hpath
            next => cases hpath
            next hne =>
              split at hpath
              next => cases hpath
              next hchild =>
                have hkey := (h.rooted path r hpath).1
                refine ⟨hpath, fun hunder => hchild ⟨r, ?_, hkey⟩⟩
                refine List.mem_filter.mpr ⟨mem_values.mpr ⟨path, hpath⟩, decide_eq_true ⟨?_, hunder⟩⟩
                rw [hkey]
                exact hne
          · rw [lookup_erase_eq, if_neg (hother path r hpath hnot), lookup_eraseAll, if_neg, hpath]
            rintro ⟨r', hr', hsame⟩
            obtain ⟨hvalue, htest⟩ := List.mem_filter.mp hr'
            obtain ⟨path', hpath'⟩ := mem_values.mp hvalue
            rw [← (h.rooted path' r' hpath').1, hsame, hpath] at hpath'
            cases hpath'
            exact hnot (of_decide_eq_true htest).2
      next hfile =>
        have hchildren : t.children l = [] := by
          rw [Opfs.children_eq_nil]
          intro name
          by_contra hsome
          obtain ⟨node, hstored⟩ := Option.ne_none_iff_exists'.mp hsome
          have hparent := isDir_eq_true.mp (isDir_of_stored h.valid (by simp) hstored)
          rw [hnode] at hparent
          exact hfile (nodeOf_eq_dir.mp (Option.some.inj (hparent.resolve_left hroot)))
        rw [hchildren, if_neg (by simp)]
        refine ⟨rfl, h.without hl (fun path r hpath => ?_) fun path r hpath hnot => ?_⟩
        · rw [lookup_erase_eq] at hpath
          split at hpath
          next => cases hpath
          next hne =>
            refine ⟨hpath, fun hunder => ?_⟩
            obtain ⟨hkey, m, hm⟩ := h.rooted path r hpath
            obtain ⟨rest, rfl⟩ := (under_iff hm hl).mp hunder
            have hstored : t.lookup (l ++ rest) = some (nodeOf r) := by
              rw [h.nodes _ hm.names, ← hm.path, hkey, hpath]
              rfl
            cases rest with
            | nil =>
                rw [List.append_nil] at hm
                exact hne (hkey.symm.trans hm.path)
            | cons s rest =>
                exact stored_below h.valid hstored (Opfs.children_eq_nil.mp hchildren s)
        · rw [lookup_erase_eq, if_neg (hother path r hpath hnot), hpath]

variable {s d : List Text} {now : ℤ} {db' : Db}

theorem nodeOf_relocated (x : List Text) (r : EntryRecord) :
    nodeOf (relocated s d x now r) = nodeOf r := rfl

theorem Kept.relocated {r : EntryRecord} (h : Kept r) (x : List Text) :
    Kept (relocated s d x now r) := ⟨h.size, h.text⟩

/-- The records that a rename moves are the nodes that it moves. -/
theorem Stores.relocates (h : Stores db t) (hs : Names s) (hd : Names d) (hsroot : s ≠ [])
    (hunder : ¬ s <+: d) (hren : Renames s d db) (hmoves : Moves t s d)
    (hrel : Relocates s d now db db') :
    Stores db' (ofPairs ((pairs t).map fun e => (relocate s d e.1, e.2))) where
  rooted := hrel.rooted h.rooted hs hd hsroot hmoves.target hunder hren
  valid := hmoves.valid h.valid hd
  nodes := fun p hp => by
    ext node
    rw [hmoves.lookup_renamed h.valid, Option.map_eq_some_iff]
    constructor
    · rintro ⟨q, hq, rfl⟩
      have hnames := (h.valid q node hq).2.1
      rw [h.nodes q hnames, Option.map_eq_some_iff] at hq
      obtain ⟨r, hr, rfl⟩ := hq
      by_cases hsrc : s <+: q
      · obtain ⟨x, rfl⟩ := hsrc
        rw [relocate_under]
        exact ⟨_, hrel.moved x r hnames hr, nodeOf_relocated x r⟩
      · rw [relocate_apart hsrc]
        refine ⟨r, hrel.kept _ r hr fun hu => hsrc ?_, rfl⟩
        exact (under_iff (h.rooted.placed hnames hr) hs).mp hu
    · rintro ⟨r', hr', rfl⟩
      rcases hrel.only _ r' hr' with ⟨x, r, hx, hr, hpath, rfl⟩ | ⟨hold, hnot⟩
      · refine ⟨s ++ x, ?_, ?_⟩
        · rw [h.nodes _ hx, hr]
          rfl
        · rw [relocate_under, render_inj hp (names_swap hd hx) hpath]
      · refine ⟨p, ?_, ?_⟩
        · rw [h.nodes p hp, hold]
          rfl
        · apply relocate_apart
          exact fun hpre => hnot ((under_iff (h.rooted.placed hp hold) hs).mpr hpre)
  kept := fun path r' hr' => by
    rcases hrel.only path r' hr' with ⟨x, r, -, hr, -, rfl⟩ | ⟨hold, -⟩
    · exact (h.kept _ r hr).relocated x
    · exact h.kept path r' hold

/-- The transaction of a rename is the rename of the tree. -/
theorem Stores.renameTx (h : Stores db t) (hs : Names s) (hd : Names d) (hsroot : s ≠ [])
    (hdroot : d ≠ []) (hunder : ¬ s <+: d) (now : ℤ) :
    storageFailure (Idb.renameTx (render s) (render d) now db).1 = (renameAt t s d).1 ∧
      Stores (Idb.renameTx (render s) (render d) now db).2 (renameAt t s d).2 := by
  have hne : s ≠ d := fun heq => hunder (heq ▸ List.prefix_refl s)
  have hsource : (t.lookup s).isNone = (db.lookup (render s)).isNone := by
    rw [h.nodes s hs, Option.isNone_map]
  have htarget : (t.lookup d).isSome = (db.lookup (render d)).isSome := by
    rw [h.nodes d hd, Option.isSome_map]
  have hparent : (d.dropLast ≠ [] ∧ !db.isDir (render d.dropLast)) ↔ !t.isDir d.dropLast := by
    rw [Bool.not_eq_true', Bool.not_eq_true', ← Bool.not_eq_true, ← Bool.not_eq_true,
      h.isDir (names_dropLast hd), not_or]
  rw [renameAt, if_neg hsroot, if_neg hne, if_neg hunder, hsource, htarget]
  have hreads := renameReads_eq h.rooted hs hd
  by_cases hnone : (db.lookup (render s)).isNone
  · rw [if_pos hnone] at hreads ⊢
    rw [Idb.renameTx, hreads]
    exact ⟨rfl, h⟩
  · rw [if_neg hnone] at hreads ⊢
    by_cases htaken : (db.lookup (render d)).isSome
    · rw [if_pos htaken] at hreads
      rw [if_pos (.inl htaken), Idb.renameTx, hreads]
      exact ⟨rfl, h⟩
    · rw [if_neg htaken] at hreads
      rw [if_neg (not_or.mpr ⟨htaken, hdroot⟩)]
      by_cases hdir : d.dropLast ≠ [] ∧ !db.isDir (render d.dropLast)
      · rw [if_pos hdir] at hreads
        rw [if_pos (hparent.mp hdir), Idb.renameTx, hreads]
        exact ⟨rfl, h⟩
      · rw [if_neg hdir] at hreads
        rw [if_neg (mt hparent.mpr hdir)]
        have hren := renames_of_reads h.rooted hs hd hreads
        have hmoves : Moves t s d := by
          refine ⟨hsroot, hunder, ?_, ?_, hdroot, ?_⟩
          · rw [ne_eq, h.lookup_none hs]
            simpa using hnone
          · rw [← Option.not_isSome_iff_eq_none, htarget]
            exact htaken
          · have hnot := mt hparent.mpr hdir
            simpa using hnot
        obtain ⟨db', hrename, hrel⟩ := h.rooted.relocates hs hd hsroot hdroot hunder hren now
        rw [hrename]
        exact ⟨rfl, h.relocates hs hd hsroot hunder hren hmoves hrel⟩

section Listing

variable {l : List Text}

/-- The last name of a record's path. -/
def nameOf (r : EntryRecord) : Text := (baseName r.path).toOption.getD []

/-- The records with a parent are in its directory. -/
theorem Stores.parent_iff (h : Stores db t) (hl : Names l) {r : EntryRecord} :
    (r ∈ (values db).filter fun r => r.parent = render l) ↔
      ∃ s, Names (l ++ [s]) ∧ r.path = render (l ++ [s]) ∧ db.lookup (render (l ++ [s])) = some r := by
  rw [List.mem_filter, mem_values, decide_eq_true_eq]
  constructor
  · rintro ⟨⟨key, hr⟩, hparent⟩
    obtain ⟨hkey, m, hm⟩ := h.rooted key r hr
    have hdir : m.dropLast = l := render_inj (names_dropLast hm.names) hl (hm.parent.symm.trans hparent)
    obtain ⟨s, hs⟩ : ∃ s, m = l ++ [s] :=
      ⟨m.getLast hm.notRoot, by rw [← hdir, List.dropLast_append_getLast]⟩
    subst hs
    exact ⟨s, hm.names, hm.path, by rw [← hm.path, hkey, hr]⟩
  · rintro ⟨s, hnames, hpath, hr⟩
    refine ⟨⟨_, hr⟩, ?_⟩
    rw [(h.rooted.placed hnames hr).parent, List.dropLast_concat]

/-- The records with a parent are the children of the directory. -/
theorem Stores.children (h : Stores db t) (hl : Names l) :
    (((values db).filter fun r => r.parent = render l).map fun r => (nameOf r, nodeOf r)).Perm
      (t.children l) := by
  have hname : ∀ {r : EntryRecord} {s : Text}, Names (l ++ [s]) → r.path = render (l ++ [s]) →
      nameOf r = s := by
    intro r s hnames hpath
    rw [nameOf, hpath, baseName_render hnames]
    rfl
  refine (List.perm_ext_iff_of_nodup ?_ (Versioned.nodup_children t l).of_map).mpr ?_
  · refine List.Nodup.map_on (fun r hr r' hr' heq => ?_) ?_
    · obtain ⟨s, hnames, hpath, hstored⟩ := (h.parent_iff hl).mp hr
      obtain ⟨s', hnames', hpath', hstored'⟩ := (h.parent_iff hl).mp hr'
      have hsame := (Prod.mk.inj heq).1
      rw [hname hnames hpath, hname hnames' hpath'] at hsame
      rw [hsame, hstored'] at hstored
      exact (Option.some.inj hstored).symm
    · exact h.rooted.nodup_paths.of_map.filter _
  · rintro ⟨name, node⟩
    rw [mem_children, List.mem_map]
    constructor
    · rintro ⟨r, hr, heq⟩
      obtain ⟨s, hnames, hpath, hstored⟩ := (h.parent_iff hl).mp hr
      obtain ⟨rfl, rfl⟩ := Prod.mk.inj heq
      rw [hname hnames hpath, h.nodes _ hnames, hstored]
      rfl
    · intro hstored
      have hnames := (h.valid _ _ hstored).2.1
      rw [h.nodes _ hnames, Option.map_eq_some_iff] at hstored
      obtain ⟨r, hr, rfl⟩ := hstored
      have hpath := (h.rooted.placed hnames hr).path
      exact ⟨r, (h.parent_iff hl).mpr ⟨name, hnames, hpath, hr⟩, by rw [hname hnames hpath]⟩

end Listing

end Tactile.Storage.IdbNodes

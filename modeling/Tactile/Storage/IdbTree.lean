import Tactile.Storage.Idb

/-!
The records of the IndexedDB backend as a tree, and what a put and the
transactions of a rename and a removal do to it.
-/

namespace Tactile.Storage.IdbTree

open Tactile.Lib.FiniteMap Tactile.Storage.Paths Tactile.Storage.Idb

/-- The record has the place of a list of names: its parent is the root or is
stored as a directory. -/
structure Placed (db : Db) (r : EntryRecord) (l : List Text) : Prop where
  names : Names l
  notRoot : l ≠ []
  path : r.path = render l
  parent : r.parent = render l.dropLast
  parentDir : l.dropLast = [] ∨ db.isDir (render l.dropLast)

/-- Every record is stored under its own path and has a place. -/
def Rooted (db : Db) : Prop :=
  ∀ path r, db.lookup path = some r → r.path = path ∧ ∃ l, Placed db r l

theorem rooted_empty : Rooted ∅ := fun _ _ h => by simp at h

section IsDir

variable {db : Db}

theorem isDir_iff {path : Text} :
    db.isDir path ↔ ∃ r, db.lookup path = some r ∧ r.kind = .dir := by
  rw [Db.isDir]
  cases db.lookup path with
  | none => simp
  | some r => simp

theorem isDir_insert (path q : Text) (r : EntryRecord) :
    Db.isDir (db.insert path r) q = if q = path then decide (r.kind = .dir) else db.isDir q := by
  rw [Db.isDir, lookup_insert_eq]
  split
  next => rfl
  next => rfl

theorem isDir_congr {db' : Db} {path : Text} (h : db'.lookup path = db.lookup path) :
    Db.isDir db' path = db.isDir path := by
  rw [Db.isDir, h]
  rfl

end IsDir

theorem names_dropLast {l : List Text} (h : Names l) : Names l.dropLast :=
  h.of_subset fun _ => List.mem_of_mem_dropLast

theorem dropLast_ne {l : List Text} (h : l ≠ []) : l.dropLast ≠ l := by
  intro heq
  have hlen := congrArg List.length heq
  have hpos := List.length_pos_iff.mpr h
  rw [List.length_dropLast] at hlen
  omega

variable {db : Db}

theorem Rooted.placed (h : Rooted db) {l : List Text} {r : EntryRecord} (hl : Names l)
    (hr : db.lookup (render l) = some r) : Placed db r l := by
  obtain ⟨hpath, l', hplaced⟩ := h _ r hr
  have hsame : l' = l := render_inj hplaced.names hl (hplaced.path.symm.trans hpath)
  exact hsame ▸ hplaced

/-- Above a record there are only directories. -/
theorem Rooted.ancestor (h : Rooted db) {l m : List Text} {r : EntryRecord} (hl : Names (l ++ m))
    (hroot : l ≠ []) (hm : m ≠ []) (hr : db.lookup (render (l ++ m)) = some r) :
    db.isDir (render l) := by
  induction m using List.reverseRecOn generalizing r with
  | nil => exact absurd rfl hm
  | append_singleton m s ih =>
      have hparent := (h.placed hl hr).parentDir
      rw [← List.append_assoc, List.dropLast_concat] at hparent
      rcases hparent with hempty | hdir
      · exact absurd (List.append_eq_nil_iff.mp hempty).1 hroot
      by_cases hne : m = []
      · subst hne
        rw [List.append_nil] at hdir
        exact hdir
      · obtain ⟨d, hd, -⟩ := isDir_iff.mp hdir
        rw [← List.append_assoc] at hl
        exact ih (names_append.mp hl).1 hne hd

section Put

/-- A put of a record whose parent is a directory keeps the tree, when a file
does not take the place of a directory. -/
theorem Rooted.put (h : Rooted db) {r : EntryRecord} {l : List Text} (hr : Placed db r l)
    (hkind : r.kind = .file → db.isDir r.path = false) : Rooted (db.insert r.path r) := by
  have hkeep : ∀ q, db.isDir q → Db.isDir (db.insert r.path r) q := by
    intro q hq
    rw [isDir_insert]
    split
    next heq =>
      cases hk : r.kind with
      | dir => rfl
      | file =>
          rw [heq, hkind hk] at hq
          cases hq
    next => exact hq
  intro path r' hr'
  rw [lookup_insert_eq] at hr'
  split at hr'
  next heq =>
    cases hr'
    exact ⟨heq.symm, l, { hr with parentDir := hr.parentDir.imp_right (hkeep _) }⟩
  next =>
    obtain ⟨hpath, l', hplaced⟩ := h path r' hr'
    exact ⟨hpath, l', { hplaced with parentDir := hplaced.parentDir.imp_right (hkeep _) }⟩

end Put

section Subtree

/-- The record is stored at or below a path. -/
def Under (a : List Text) (r : EntryRecord) : Prop := isUnder r.path (render a) = .ok true

instance (a : List Text) (r : EntryRecord) : Decidable (Under a r) :=
  inferInstanceAs (Decidable (_ = _))

theorem isUnder_placed {r : EntryRecord} {l a : List Text} (hr : Placed db r l) (ha : Names a) :
    isUnder r.path (render a) = .ok (Under a r : Bool) := by
  have hunder : isUnder r.path (render a) = .ok (a <+: l : Bool) := by
    rw [hr.path]
    exact isUnder_render hr.names ha
  rw [hunder, Except.ok.injEq, decide_eq_decide, Under, hunder, Except.ok.injEq, decide_eq_true_eq]

theorem under_iff {r : EntryRecord} {l a : List Text} (hr : Placed db r l) (ha : Names a) :
    Under a r ↔ a <+: l := by
  rw [Under, hr.path, isUnder_render hr.names ha, Except.ok.injEq, decide_eq_true_eq]

theorem under_self {r : EntryRecord} {a : List Text} (ha : Names a) (hr : r.path = render a) :
    Under a r := by
  rw [Under, hr, isUnder_render ha ha]
  simp

theorem filterRecords_eq {test : EntryRecord → Except StorageError Bool} {p : EntryRecord → Bool}
    {rs : List EntryRecord} (h : ∀ r ∈ rs, test r = .ok (p r)) :
    filterRecords test rs = .ok (rs.filter p) := by
  induction rs with
  | nil => rfl
  | cons r rs ih =>
      rw [filterRecords, h r List.mem_cons_self, ih fun r' hr' => h r' (List.mem_cons_of_mem _ hr'),
        List.filter_cons]
      rfl

theorem affected_eq {a : List Text} (ha : Names a) {rs : List EntryRecord}
    (hrs : ∀ r ∈ rs, ∃ l, Placed db r l) :
    affected (render a) rs = .ok (rs.filter fun r => Under a r) := by
  refine filterRecords_eq fun r hr => ?_
  obtain ⟨l, hl⟩ := hrs r hr
  split
  next heq =>
    rw [decide_eq_true (under_self ha heq)]
  next => exact isUnder_placed hl ha

theorem descendants_eq {a : List Text} (ha : Names a) {rs : List EntryRecord}
    (hrs : ∀ r ∈ rs, ∃ l, Placed db r l) :
    descendants (render a) rs = .ok (rs.filter fun r => r.path ≠ render a ∧ Under a r) := by
  refine filterRecords_eq fun r hr => ?_
  obtain ⟨l, hl⟩ := hrs r hr
  split
  next hne =>
    rw [isUnder_placed hl ha]
    simp [hne]
  next heq =>
    simp only [heq, false_and, decide_false]

theorem Rooted.values_placed (h : Rooted db) : ∀ r ∈ values db, ∃ l, Placed db r l := by
  intro r hr
  obtain ⟨path, hpath⟩ := mem_values.mp hr
  exact (h path r hpath).2

end Subtree

section Remove

theorem lookup_eraseAll (rs : List EntryRecord) (db : Db) (path : Text) :
    (rs.foldl (fun db r => db.erase r.path) db).lookup path =
      if ∃ r ∈ rs, r.path = path then none else db.lookup path := by
  induction rs generalizing db with
  | nil => simp
  | cons r rs ih =>
      rw [List.foldl_cons, ih, lookup_erase_eq]
      by_cases hrest : ∃ r' ∈ rs, r'.path = path
      · obtain ⟨r', hr', hpath⟩ := hrest
        rw [if_pos ⟨r', hr', hpath⟩, if_pos ⟨r', List.mem_cons_of_mem _ hr', hpath⟩]
      · rw [if_neg hrest]
        by_cases hr : path = r.path
        · rw [if_pos hr, if_pos ⟨r, List.mem_cons_self, hr.symm⟩]
        · rw [if_neg hr, if_neg]
          rintro ⟨r', hr', hpath⟩
          rcases List.mem_cons.mp hr' with rfl | hr'
          · exact hr hpath.symm
          · exact hrest ⟨r', hr', hpath⟩

/-- Taking out all records at and below a path keeps the tree. -/
theorem Rooted.without (h : Rooted db) {a : List Text} (ha : Names a) {db' : Db}
    (hgone : ∀ path r, db'.lookup path = some r → db.lookup path = some r ∧ ¬ Under a r)
    (hkept : ∀ path r, db.lookup path = some r → ¬ Under a r → db'.lookup path = some r) :
    Rooted db' := by
  intro path r hr
  obtain ⟨hold, hnot⟩ := hgone path r hr
  obtain ⟨hpath, l, hplaced⟩ := h path r hold
  refine ⟨hpath, l, { hplaced with parentDir := ?_ }⟩
  refine hplaced.parentDir.imp_right fun hdir => ?_
  obtain ⟨d, hd, hkind⟩ := isDir_iff.mp hdir
  refine isDir_iff.mpr ⟨d, hkept _ d hd fun hunder => hnot ?_, hkind⟩
  have hpre := (under_iff (h.placed (names_dropLast hplaced.names) hd) ha).mp hunder
  exact (under_iff hplaced ha).mpr (hpre.trans (List.dropLast_prefix l))

theorem Rooted.removeTx (h : Rooted db) {a : List Text} (ha : Names a) (hroot : a ≠ [])
    (recursive : Bool) : Rooted (Idb.removeTx (render a) recursive db).2 := by
  rw [Idb.removeTx]
  cases hr : db.lookup (render a) with
  | none => exact h
  | some record =>
      dsimp only
      split
      next =>
        rw [descendants_eq ha h.values_placed]
        dsimp only
        split
        next => exact h
        next =>
          refine h.without ha (fun path r hpath => ?_) fun path r hpath hnot => ?_
          · rw [lookup_erase_eq, lookup_eraseAll] at hpath
            split at hpath
            next => cases hpath
            next hne =>
              split at hpath
              next => cases hpath
              next hchild =>
                refine ⟨hpath, fun hunder => hchild ⟨r, ?_, (h path r hpath).1⟩⟩
                refine List.mem_filter.mpr ⟨mem_values.mpr ⟨path, hpath⟩, decide_eq_true ⟨?_, hunder⟩⟩
                rw [(h path r hpath).1]
                exact hne
          · have hne : path ≠ render a := fun heq =>
              hnot (under_self ha ((h path r hpath).1.trans heq))
            rw [lookup_erase_eq, if_neg hne, lookup_eraseAll, if_neg, hpath]
            rintro ⟨r', hr', hsame⟩
            obtain ⟨hvalue, htest⟩ := List.mem_filter.mp hr'
            obtain ⟨path', hpath'⟩ := mem_values.mp hvalue
            rw [← (h path' r' hpath').1, hsame, hpath] at hpath'
            cases hpath'
            exact hnot (of_decide_eq_true htest).2
      next hfile =>
        refine h.without ha (fun path r hpath => ?_) fun path r hpath hnot => ?_
        · rw [lookup_erase_eq] at hpath
          split at hpath
          next => cases hpath
          next hne =>
            refine ⟨hpath, fun hunder => hfile ?_⟩
            obtain ⟨hkey, l, hplaced⟩ := h path r hpath
            obtain ⟨m, rfl⟩ := (under_iff hplaced ha).mp hunder
            have hm : m ≠ [] := by
              rintro rfl
              rw [hplaced.path, List.append_nil] at hkey
              exact hne hkey.symm
            rw [← hkey, hplaced.path] at hpath
            obtain ⟨d, hd, hkind⟩ := isDir_iff.mp (h.ancestor hplaced.names hroot hm hpath)
            rw [hr] at hd
            cases hd
            exact hkind
        · have hne : path ≠ render a := fun heq =>
            hnot (under_self ha ((h path r hpath).1.trans heq))
          rw [lookup_erase_eq, if_neg hne, hpath]

end Remove

section Rename

variable {s d : List Text} {now : ℤ}

theorem names_swap {x : List Text} (hd : Names d) (h : Names (s ++ x)) : Names (d ++ x) :=
  hd.append (names_append.mp h).2

/-- The text at which a record below the source is stored under the destination. -/
theorem moved_text (hs : s ≠ []) (hd : d ≠ []) (x : List Text) :
    render d ++ (render (s ++ x)).drop (render s).length = render (d ++ x) := by
  have hne : ∀ {l : List Text}, l ≠ [] → l ++ x ≠ [] :=
    fun h heq => h (List.append_eq_nil_iff.mp heq).1
  rw [render_eq_suffix (hne hs), render_eq_suffix (hne hd), render_eq_suffix hs, render_eq_suffix hd,
    suffix_append, suffix_append, List.drop_left]

/-- The record that a rename stores for one below its source. -/
def relocated (s d x : List Text) (now : ℤ) (r : EntryRecord) : EntryRecord :=
  moved (render s) (render d) (render (d ++ x).dropLast) now r

theorem relocated_path (hs : s ≠ []) (hd : d ≠ []) {x : List Text} {r : EntryRecord}
    (hr : r.path = render (s ++ x)) : (relocated s d x now r).path = render (d ++ x) := by
  rw [relocated, moved]
  dsimp only
  rw [hr, moved_text hs hd]

theorem append_inj_names {x y : List Text} (hx : Names (s ++ x)) (hy : Names (s ++ y))
    (h : render (s ++ x) = render (s ++ y)) : x = y :=
  List.append_cancel_left (render_inj hx hy h)

/-- What the moves of a list of records leave: the records are stored under the
destination and no longer under the source, and the others stay. -/
theorem moveRecords_spec (now : ℤ) (rs : List EntryRecord) (hs : s ≠ []) (hd : d ≠ [])
    (hnames : Names d) (hapart : ∀ x y, d ++ x ≠ s ++ y)
    (hrs : ∀ r ∈ rs, ∃ x, Names (s ++ x) ∧ r.path = render (s ++ x))
    (hnodup : (rs.map EntryRecord.path).Nodup) (db : Db) :
    ∃ db', moveRecords (render s) (render d) now rs db = (.ok (), db') ∧
      (∀ r ∈ rs, ∀ x, Names (s ++ x) → r.path = render (s ++ x) →
        db'.lookup (render (d ++ x)) = some (relocated s d x now r)) ∧
      (∀ r ∈ rs, db'.lookup r.path = none) ∧
      (∀ q, (∀ r ∈ rs, q ≠ r.path) →
        (∀ r ∈ rs, ∀ x, Names (s ++ x) → r.path = render (s ++ x) → q ≠ render (d ++ x)) →
        db'.lookup q = db.lookup q) := by
  induction rs generalizing db with
  | nil => exact ⟨db, rfl, by simp, by simp, fun _ _ _ => rfl⟩
  | cons r rs ih =>
      obtain ⟨x, hx, hr⟩ := hrs r List.mem_cons_self
      have hdx : Names (d ++ x) := names_swap hnames hx
      have hparent : parentPath (render d ++ r.path.drop (render s).length) =
          .ok (render (d ++ x).dropLast) := by
        rw [hr, moved_text hs hd, parentPath_render hdx]
      rw [List.map_cons, List.nodup_cons] at hnodup
      obtain ⟨hfresh, hnodup⟩ := hnodup
      obtain ⟨db', hmoves, hnew, hgone, hkept⟩ :=
        ih (fun r' hr' => hrs r' (List.mem_cons_of_mem _ hr')) hnodup
          ((db.erase r.path).insert (render (d ++ x)) (relocated s d x now r))
      have hsource : ∀ r' ∈ rs, r'.path ≠ r.path :=
        fun r' hr' heq => hfresh (List.mem_map.mpr ⟨r', hr', heq⟩)
      have hcross : ∀ r' ∈ r :: rs, ∀ y, Names (s ++ y) → render (d ++ y) ≠ r'.path := by
        intro r' hr' y hy heq
        obtain ⟨z, hz, hr'⟩ := hrs r' hr'
        exact hapart y z (render_inj (names_swap hnames hy) hz (heq.trans hr'))
      refine ⟨db', ?_, ?_, ?_, ?_⟩
      · rw [moveRecords, hparent]
        dsimp only
        rw [← hmoves, ← relocated_path hs hd hr]
        rfl
      · intro r' hr' y hy hpath
        rcases List.mem_cons.mp hr' with rfl | hr'
        · obtain rfl : x = y := append_inj_names hx hy (hr.symm.trans hpath)
          rw [hkept, lookup_insert_eq, if_pos rfl]
          · exact fun r'' hr'' => hcross r'' (List.mem_cons_of_mem _ hr'') x hx
          · intro r'' hr'' z hz hpath' heq
            have hxz := render_inj hdx (names_swap hnames hz) heq
            obtain rfl : x = z := List.append_cancel_left hxz
            exact hsource r'' hr'' (hpath'.trans hpath.symm)
        · exact hnew r' hr' y hy hpath
      · intro r' hr'
        by_cases hmem : r' ∈ rs
        · exact hgone r' hmem
        · obtain rfl : r' = r := (List.mem_cons.mp hr').resolve_right hmem
          rw [hkept, lookup_insert_eq, if_neg (hcross _ List.mem_cons_self x hx).symm,
            lookup_erase_eq, if_pos rfl]
          · exact fun r'' hr'' => (hsource r'' hr'').symm
          · exact fun r'' _ z hz _ => (hcross _ List.mem_cons_self z hz).symm
      · intro q hq hq'
        rw [hkept, lookup_insert_eq, if_neg (hq' r List.mem_cons_self x hx hr), lookup_erase_eq,
          if_neg (hq r List.mem_cons_self)]
        · exact fun r' hr' => hq r' (List.mem_cons_of_mem _ hr')
        · exact fun r' hr' => hq' r' (List.mem_cons_of_mem _ hr')

theorem Rooted.nodup_paths (h : Rooted db) : ((values db).map EntryRecord.path).Nodup := by
  have hkeys : (values db).map EntryRecord.path = db.keys := by
    rw [values, List.map_map]
    refine List.map_congr_left fun e he => ?_
    exact (h e.1 e.2 (AList.mem_lookup_iff.mpr he)).1
  rw [hkeys]
  exact db.keys_nodup

/-- What a rename that goes through does to the records: the ones at and below
the source are stored under the destination, the others stay. -/
structure Relocates (s d : List Text) (now : ℤ) (db db' : Db) : Prop where
  moved : ∀ x r, Names (s ++ x) → db.lookup (render (s ++ x)) = some r →
    db'.lookup (render (d ++ x)) = some (relocated s d x now r)
  kept : ∀ path r, db.lookup path = some r → ¬ Under s r → db'.lookup path = some r
  only : ∀ path r', db'.lookup path = some r' →
    (∃ x r, Names (s ++ x) ∧ db.lookup (render (s ++ x)) = some r ∧ path = render (d ++ x) ∧
      r' = relocated s d x now r) ∨
    (db.lookup path = some r' ∧ ¬ Under s r')

/-- The reads of a rename let it through when the source is stored, the
destination is not and its parent is a directory. -/
structure Renames (s d : List Text) (db : Db) : Prop where
  source : ∃ r, db.lookup (render s) = some r
  target : db.lookup (render d) = none
  parentDir : d.dropLast = [] ∨ db.isDir (render d.dropLast)

theorem renameReads_eq (h : Rooted db) (hs : Names s) (hd : Names d) :
    renameReads (render s) (render d) db =
      if (db.lookup (render s)).isNone then
        .error (storageError "No such file: " (render s) .notFound)
      else if (db.lookup (render d)).isSome then
        .error (storageError "Destination exists: " (render d) .alreadyExists)
      else if d.dropLast ≠ [] ∧ !db.isDir (render d.dropLast) then
        .error (storageError "No such directory: " (render d.dropLast) .notFound)
      else .ok ((values db).filter fun r => Under s r) := by
  rw [renameReads, parentPath_render hd]
  split
  next => rfl
  next =>
    split
    next => rfl
    next =>
      change (do
        let root ← isRoot (render d.dropLast)
        if !root && !db.isDir (render d.dropLast) then throw _
        affected (render s) (values db) : Except StorageError _) = _
      rw [isRoot_render (names_dropLast hd), affected_eq hs h.values_placed]
      by_cases hroot : d.dropLast = []
      · simp [hroot]
        rfl
      · cases hdir : db.isDir (render d.dropLast) with
        | true => simp [hroot]; rfl
        | false => simp [hroot]; rfl

/-- Source and destination of a rename that goes through are not below each other. -/
theorem Renames.apart (h : Rooted db) (hren : Renames s d db) (hs : Names s) (hdroot : d ≠ [])
    (hunder : ¬ s <+: d) (x y : List Text) : d ++ x ≠ s ++ y := by
  intro heq
  have hd : d <+: s ++ y := ⟨x, heq⟩
  rcases List.prefix_or_prefix_of_prefix hd (List.prefix_append s y) with hpre | hpre
  · obtain ⟨z, rfl⟩ := hpre
    have hz : z ≠ [] := by
      rintro rfl
      exact hunder (by simp)
    obtain ⟨r, hr⟩ := hren.source
    obtain ⟨r', hr', -⟩ := isDir_iff.mp (h.ancestor hs hdroot hz hr)
    rw [hren.target] at hr'
    cases hr'
  · exact hunder hpre

theorem Renames.nothing_below (h : Rooted db) (hren : Renames s d db) (hdroot : d ≠ [])
    {x : List Text} (hx : Names (d ++ x)) : db.lookup (render (d ++ x)) = none := by
  cases hr : db.lookup (render (d ++ x)) with
  | none => rfl
  | some r =>
      have hnone := hren.target
      by_cases hne : x = []
      · rw [hne, List.append_nil, hnone] at hr
        cases hr
      · obtain ⟨r', hr', -⟩ := isDir_iff.mp (h.ancestor hx hdroot hne hr)
        rw [hnone] at hr'
        cases hr'

theorem Rooted.relocates (h : Rooted db) (hs : Names s) (hd : Names d) (hsroot : s ≠ [])
    (hdroot : d ≠ []) (hunder : ¬ s <+: d) (hren : Renames s d db) (now : ℤ) :
    ∃ db', Idb.renameTx (render s) (render d) now db = (.ok (), db') ∧ Relocates s d now db db' := by
  let rs := (values db).filter fun r => Under s r
  have hreads : renameReads (render s) (render d) db = .ok rs := by
    obtain ⟨r, hr⟩ := hren.source
    rw [renameReads_eq h hs hd, hr, hren.target, if_neg nofun, if_neg nofun, if_neg]
    rintro ⟨hne, hdir⟩
    rw [hren.parentDir.resolve_left hne] at hdir
    cases hdir
  have hmem : ∀ r, r ∈ rs ↔
      ∃ x, Names (s ++ x) ∧ r.path = render (s ++ x) ∧ db.lookup (render (s ++ x)) = some r := by
    intro r
    rw [List.mem_filter, mem_values, decide_eq_true_eq]
    constructor
    · rintro ⟨⟨path, hr⟩, hu⟩
      obtain ⟨hpath, l, hplaced⟩ := h path r hr
      obtain ⟨x, rfl⟩ := (under_iff hplaced hs).mp hu
      exact ⟨x, hplaced.names, hplaced.path, by rw [← hplaced.path, hpath, hr]⟩
    · rintro ⟨x, hx, -, hr⟩
      exact ⟨⟨_, hr⟩, (under_iff (h.placed hx hr) hs).mpr (List.prefix_append s x)⟩
  have hplaced : ∀ r ∈ rs, ∃ x, Names (s ++ x) ∧ r.path = render (s ++ x) := by
    intro r hr
    obtain ⟨x, hx, hpath, -⟩ := (hmem r).mp hr
    exact ⟨x, hx, hpath⟩
  obtain ⟨db', hmoves, hnew, hgone, hkept⟩ := moveRecords_spec now rs hsroot hdroot hd
    (hren.apart h hs hdroot hunder) hplaced (h.nodup_paths.sublist (List.filter_sublist.map _)) db
  refine ⟨db', ?_, fun x r hx hr => ?_, fun path r hr hnot => ?_, fun path r' hr' => ?_⟩
  · rw [Idb.renameTx, hreads]
    exact hmoves
  · have hpath := (h.placed hx hr).path
    exact hnew r ((hmem r).mpr ⟨x, hx, hpath, hr⟩) x hx hpath
  · rw [hkept, hr]
    · rintro r₁ hr₁ rfl
      obtain ⟨x, hx, hpath, hstored⟩ := (hmem r₁).mp hr₁
      rw [hpath, hstored] at hr
      cases hr
      exact hnot (of_decide_eq_true (List.mem_filter.mp hr₁).2)
    · rintro r₁ - x hx - rfl
      rw [hren.nothing_below h hdroot (names_swap hd hx)] at hr
      cases hr
  · by_cases hsource : ∃ r ∈ rs, path = r.path
    · obtain ⟨r, hr, rfl⟩ := hsource
      rw [hgone r hr] at hr'
      cases hr'
    by_cases htarget : ∃ r ∈ rs, ∃ x, Names (s ++ x) ∧ r.path = render (s ++ x) ∧
        path = render (d ++ x)
    · obtain ⟨r, hr, x, hx, hpath, rfl⟩ := htarget
      obtain ⟨y, hy, hpath', hstored⟩ := (hmem r).mp hr
      obtain rfl := append_inj_names hx hy (hpath.symm.trans hpath')
      rw [hnew r hr x hx hpath] at hr'
      exact .inl ⟨x, r, hx, hstored, rfl, (Option.some.inj hr').symm⟩
    · rw [hkept path (fun r hr heq => hsource ⟨r, hr, heq⟩)
        (fun r hr x hx hpath heq => htarget ⟨r, hr, x, hx, hpath, heq⟩)] at hr'
      refine .inr ⟨hr', fun hu => hsource ⟨r', ?_, (h path r' hr').1.symm⟩⟩
      exact List.mem_filter.mpr ⟨mem_values.mpr ⟨path, hr'⟩, decide_eq_true hu⟩

/-- A rename that goes through keeps the tree. -/
theorem Relocates.rooted {db' : Db} (hrel : Relocates s d now db db') (h : Rooted db)
    (hs : Names s) (hd : Names d) (hsroot : s ≠ []) (hdroot : d ≠ []) (hunder : ¬ s <+: d)
    (hren : Renames s d db) : Rooted db' := by
  -- a directory outside the source stays one
  have hkeep : ∀ l, Names l → ¬ s <+: l → db.isDir (render l) → db'.isDir (render l) := by
    intro l hl hnot hdir
    obtain ⟨r, hr, hkind⟩ := isDir_iff.mp hdir
    refine isDir_iff.mpr ⟨r, hrel.kept _ r hr fun hu => hnot ?_, hkind⟩
    exact (under_iff (h.placed hl hr) hs).mp hu
  intro path r' hr'
  rcases hrel.only path r' hr' with ⟨x, r, hx, hr, rfl, rfl⟩ | ⟨hold, hnot⟩
  · have hplaced := h.placed hx hr
    have hpath : (relocated s d x now r).path = render (d ++ x) :=
      relocated_path hsroot hdroot hplaced.path
    refine ⟨hpath, d ++ x, names_swap hd hx, fun heq => hdroot (List.append_eq_nil_iff.mp heq).1,
      hpath, rfl, ?_⟩
    by_cases hne : x = []
    · rw [hne, List.append_nil]
      refine hren.parentDir.imp_right (hkeep _ (names_dropLast hd) fun hpre => hunder ?_)
      exact hpre.trans (List.dropLast_prefix d)
    · have hparent := hplaced.parentDir
      have hdrop : ∀ l : List Text, (l ++ x).dropLast = l ++ x.dropLast :=
        fun l => List.dropLast_append_of_ne_nil hne
      rw [hdrop] at hparent ⊢
      have hdir := hparent.resolve_left fun heq => hsroot (List.append_eq_nil_iff.mp heq).1
      obtain ⟨p, hp, hkind⟩ := isDir_iff.mp hdir
      have hnames : Names (s ++ x.dropLast) := hdrop s ▸ names_dropLast hx
      exact .inr (isDir_iff.mpr ⟨_, hrel.moved _ p hnames hp, hkind⟩)
  · obtain ⟨hpath, l, hplaced⟩ := h path r' hold
    refine ⟨hpath, l, { hplaced with parentDir := ?_ }⟩
    refine hplaced.parentDir.imp_right (hkeep _ (names_dropLast hplaced.names) fun hpre => hnot ?_)
    exact (under_iff hplaced hs).mpr (hpre.trans (List.dropLast_prefix l))

/-- The reads of a rename that let it through have found what it needs. -/
theorem renames_of_reads (h : Rooted db) (hs : Names s) (hd : Names d) {rs : List EntryRecord}
    (hreads : renameReads (render s) (render d) db = .ok rs) : Renames s d db := by
  rw [renameReads_eq h hs hd] at hreads
  split at hreads
  next => cases hreads
  next hsource =>
    split at hreads
    next => cases hreads
    next htarget =>
      split at hreads
      next => cases hreads
      next hparent =>
        refine ⟨?_, by simpa using htarget, ?_⟩
        · cases hr : db.lookup (render s) with
          | none => simp [hr] at hsource
          | some r => exact ⟨r, rfl⟩
        · by_cases hne : d.dropLast = []
          · exact .inl hne
          · exact .inr (by simpa [hne] using hparent)

theorem Rooted.renameTx (h : Rooted db) (hs : Names s) (hd : Names d) (hsroot : s ≠ [])
    (hdroot : d ≠ []) (hunder : ¬ s <+: d) (now : ℤ) :
    Rooted (Idb.renameTx (render s) (render d) now db).2 := by
  cases hreads : renameReads (render s) (render d) db with
  | error e =>
      rw [Idb.renameTx, hreads]
      exact h
  | ok rs =>
      have hren := renames_of_reads h hs hd hreads
      obtain ⟨db', hrename, hrel⟩ := h.relocates hs hd hsroot hdroot hunder hren now
      rw [hrename]
      exact hrel.rooted h hs hd hsroot hdroot hunder hren

end Rename

end Tactile.Storage.IdbTree

import Tactile.Storage.VersionDirs

/-!
Which paths have histories apart from each other: what is done at one of them
neither changes the versions of the other nor depends on them.
-/

namespace Tactile.Storage.Isolation

open Tactile.Lib.Program Tactile.Lib.Script Tactile.Lib.FiniteMap
open Tactile.Storage.Paths Tactile.Storage.Opfs Tactile.Storage.Backend
open Tactile.Storage.Idb (Failure)
open Tactile.Storage.Versioned Tactile.Storage.VersionDirs

section Hiding

variable {d l : List Text} {t : Tree}

/-- The tree without a directory and what is in it. -/
def hide (d : List Text) (t : Tree) : Tree := select t fun path _ => !d.isPrefixOf path

theorem kept_iff : (!d.isPrefixOf l) = true ↔ ¬ d <+: l := by
  rw [Bool.not_eq_true', ← Bool.not_eq_true, List.isPrefixOf_iff_prefix]

theorem lookup_hide (h : ¬ d <+: l) : (hide d t).lookup l = t.lookup l := by
  rw [hide, lookup_removed, if_neg h]

theorem valid_hide (hv : t.Valid) : (hide d t).Valid := valid_removed hv

theorem isDir_hide (h : ¬ d <+: l) : (hide d t).isDir l = t.isDir l := by
  simp only [Tree.isDir, lookup_hide h]

theorem not_prefix_dropLast (h : ¬ d <+: l) : ¬ d <+: l.dropLast :=
  fun hpre => h (hpre.trans (List.dropLast_prefix l))

theorem hide_insert (h : ¬ d <+: l) (node : Node) :
    hide d (t.insert l node) = (hide d t).insert l node := by
  have hkept := kept_iff.mpr h
  apply AList.ext
  simp only [hide, select, AList.entries_insert, List.filter_cons, hkept, if_true, List.cons.injEq,
    true_and]
  induction t.entries with
  | nil => rfl
  | cons e entries ih =>
      by_cases hkey : l = e.1
      · subst hkey
        simp [hkept]
      · by_cases hentry : (!d.isPrefixOf e.1) = true
        · simp [List.kerase_cons_ne hkey, hentry, ih]
        · simp [List.kerase_cons_ne hkey, hentry, ih]

theorem children_hide (h : ¬ d <+: l) (hparent : d.dropLast ≠ l) :
    (hide d t).children l = t.children l := by
  simp only [Tree.children, pairs, hide, select]
  induction t.entries with
  | nil => rfl
  | cons e entries ih =>
      by_cases hentry : (!d.isPrefixOf e.1) = true
      · simp only [List.filter_cons, hentry, if_true, List.map_cons, List.filterMap_cons, ih]
      · have hbelow : d <+: e.1 := by_contra fun hout => hentry (kept_iff.mpr hout)
        rw [List.filter_cons, if_neg hentry, ih, List.map_cons, List.filterMap_cons]
        cases hlast : e.1.getLast? with
        | none => simp
        | some name =>
            have hplace : e.1.dropLast ≠ l := by
              rintro rfl
              have hsplit : e.1 = e.1.dropLast ++ [name] := (List.dropLast_append_getLast? _ hlast).symm
              rw [hsplit, List.prefix_concat_iff] at hbelow
              rcases hbelow with heq | hpre
              · rw [heq, List.dropLast_concat] at hparent
                exact hparent rfl
              · exact h hpre
            simp [hplace]

theorem makeDirs_hide {paths : List (List Text)} (h : ∀ path ∈ paths, ¬ d <+: path) (t : Tree) :
    makeDirs paths (hide d t) = ((makeDirs paths t).1, hide d (makeDirs paths t).2) := by
  induction paths generalizing t with
  | nil => rfl
  | cons path paths ih =>
      have hpath := h path List.mem_cons_self
      have hrest := fun p hp => h p (List.mem_cons_of_mem path hp)
      rw [makeDirs, makeDirs, lookup_hide hpath]
      split
      · exact ih hrest t
      · rfl
      · rw [← hide_insert hpath]
        exact ih hrest _

theorem removeAt_hide (h : ¬ d <+: l) (hparent : d.dropLast ≠ l) (recursive : Bool) (t : Tree) :
    removeAt (hide d t) l recursive = ((removeAt t l recursive).1, hide d (removeAt t l recursive).2) := by
  rw [removeAt, removeAt, lookup_hide h, children_hide h hparent]
  split
  · rfl
  · split
    · rfl
    · split
      · rfl
      · have hsame : select (hide d t) (fun q _ => !l.isPrefixOf q) =
            hide d (select t fun q _ => !l.isPrefixOf q) := by
          apply AList.ext
          simp only [hide, select, List.filter_filter, Bool.and_comm]
        rw [hsame]

end Hiding

section Calls

variable {d l : List Text} {t t' : Tree} {codec : TextCodec} {clock : Clock} {o : StorageOp}

/-- Neither of two places is in the other. -/
def Away (d l : List Text) : Prop := ¬ d <+: l ∧ ¬ l <+: d

theorem Away.parent (h : Away d l) : d.dropLast ≠ l := by
  rintro rfl
  exact h.2 (List.dropLast_prefix d)

/-- A path away from a directory. -/
def AwayFrom (d : List Text) (path : Text) : Prop := ∀ l, pathSegments path = .ok l → Away d l

/-- A call that has nothing to do with a directory. -/
def Apart (d : List Text) : StorageOp → Prop
  | .readDir path | .readTextFile path | .readFile path | .writeTextFile path _ | .writeFile path _
  | .mkdir path _ | .remove path _ | .stat path | .exists path => AwayFrom d path
  | .rename _ _ => False
  | .now => True

theorem reading_hide {α : Type} {path : Text} {f f' : List Text → Except Failure α}
    (h : ∀ l, pathSegments path = .ok l → f' l = f l) :
    reading (hide d t) path f' = ((reading t path f).1, hide d (reading t path f).2) := by
  rw [reading, reading]
  split
  next => rfl
  next l hl => rw [h l hl]

theorem writing_hide {α : Type} {path : Text} {f f' : List Text → Except Failure α × Tree}
    (h : ∀ l, pathSegments path = .ok l → f' l = ((f l).1, hide d (f l).2)) :
    writing (hide d t) path f' = ((writing t path f).1, hide d (writing t path f).2) := by
  rw [writing, writing]
  split
  next => rfl
  next l hl => rw [h l hl]

theorem readFileAt_hide (h : ¬ d <+: l) : readFileAt (hide d t) l = readFileAt t l := by
  simp only [readFileAt, lookup_hide h]

theorem writeFileAt_hide (h : ¬ d <+: l) (contents : List UInt8) :
    writeFileAt (hide d t) l contents =
      ((writeFileAt t l contents).1, hide d (writeFileAt t l contents).2) := by
  rw [writeFileAt, writeFileAt, isDir_hide (not_prefix_dropLast h), isDir_hide h]
  split
  · rfl
  · split
    · rfl
    · rw [hide_insert h]

theorem mkdirAt_hide (h : ¬ d <+: l) (recursive : Bool) :
    mkdirAt (hide d t) l recursive = ((mkdirAt t l recursive).1, hide d (mkdirAt t l recursive).2) := by
  rw [mkdirAt, mkdirAt, isDir_hide (not_prefix_dropLast h)]
  split
  · apply makeDirs_hide
    intro path hpath hpre
    exact h (hpre.trans ((List.mem_inits path l).mp (List.mem_of_mem_tail hpath)))
  · split
    · rfl
    · split
      · rfl
      · apply makeDirs_hide
        intro path hpath
        rwa [List.mem_singleton.mp hpath]

/-- Such a call is served the same with the directory and without it. -/
theorem respond_hide (h : Apart d o) :
    respond codec clock o (hide d t) = ((respond codec clock o t).1, hide d (respond codec clock o t).2) := by
  cases o with
  | readDir path =>
      apply reading_hide
      intro l hl
      have hbelow := (h l hl).1
      simp only [readDirAt, isDir_hide hbelow, children_hide hbelow (h l hl).parent, lookup_hide hbelow]
  | readTextFile path =>
      apply reading_hide
      intro l hl
      simp only [readFileAt_hide (h l hl).1]
  | readFile path =>
      apply reading_hide
      intro l hl
      exact readFileAt_hide (h l hl).1
  | writeTextFile path contents =>
      apply writing_hide
      intro l hl
      exact writeFileAt_hide (h l hl).1 _
  | writeFile path contents =>
      apply writing_hide
      intro l hl
      exact writeFileAt_hide (h l hl).1 _
  | mkdir path recursive =>
      apply writing_hide
      intro l hl
      exact mkdirAt_hide (h l hl).1 _
  | rename fromPath toPath => exact h.elim
  | remove path recursive =>
      apply writing_hide
      intro l hl
      exact removeAt_hide (h l hl).1 (h l hl).parent recursive t
  | stat path =>
      apply reading_hide
      intro l hl
      simp only [statAt, lookup_hide (h l hl).1]
  | «exists» path =>
      apply reading_hide
      intro l hl
      simp only [existsAt, lookup_hide (h l hl).1]
  | now => rfl

theorem lookup_mkdirAt_out {path : List Text} (h : ¬ path <+: l) (recursive : Bool) :
    (mkdirAt t l recursive).2.lookup path = t.lookup path := by
  cases recursive with
  | true => exact lookup_mkdirAt_apart h
  | false =>
      rw [mkdirAt, if_neg Bool.false_ne_true]
      split
      · rfl
      · split
        · rfl
        · refine (lookup_makeDirs_or _ t path).resolve_right fun hmade => h ?_
          rw [List.mem_singleton.mp hmade.1]

/-- It leaves the directory as it is. -/
theorem lookup_respond (h : Apart d o) {path : List Text} (hpath : d <+: path) :
    (respond codec clock o t).2.lookup path = t.lookup path := by
  have hne : ∀ {l}, ¬ d <+: l → path ≠ l := fun hl heq => hl (heq ▸ hpath)
  cases o with
  | readDir | readTextFile | readFile | stat | «exists» | now => simp [respond]
  | writeTextFile p contents | writeFile p contents =>
      simp only [respond, writing]
      split
      next => rfl
      next l hl =>
        simp only [writeFileAt]
        split
        · rfl
        · split
          · rfl
          · rw [lookup_insert_eq, if_neg (hne (h l hl).1)]
  | mkdir p recursive =>
      simp only [respond, writing]
      split
      next => rfl
      next l hl =>
        have hout : ¬ path <+: l := fun hpre => (h l hl).1 (hpath.trans hpre)
        exact lookup_mkdirAt_out hout recursive
  | rename fromPath toPath => exact h.elim
  | remove p recursive =>
      simp only [respond, writing]
      split
      next => rfl
      next l hl =>
        simp only [removeAt]
        split
        · rfl
        · split
          · rfl
          · split
            · rfl
            · have hout : ¬ l <+: path := fun hpre =>
                (List.prefix_or_prefix_of_prefix hpath hpre).elim (h l hl).1 (h l hl).2
              rw [lookup_removed, if_neg hout]

end Calls

section Methods

variable {d : List Text} {cfg : Config} {path dir : Text}

theorem only_inner {P : StorageOp → Prop} {o : StorageOp} (h : P o) : Method.Only P (inner o) :=
  (Method.only_perform h).bind fun _ => Method.only_ofExcept _ _

/-- A path that is made out goes on with what it is. -/
theorem only_pathResult {P : StorageOp → Prop} {α β : Type} {x : Except StorageError α}
    {f : α → VersionedM β} (h : ∀ a, x = .ok a → Method.Only P (f a)) :
    Method.Only P (pathResult x >>= f) := by
  cases x with
  | error e => exact Method.only_throw _
  | ok a => exact h a rfl

theorem AwayFrom.inDir (h : AwayFrom d dir) (hne : dir ≠ []) (name : Text) :
    AwayFrom d (inDir dir name) := by
  intro l hl
  obtain ⟨above, habove, hpre⟩ := pathSegments_prefix hne hl
  obtain ⟨hbelow, hout⟩ := h above habove
  constructor
  · intro hin
    exact (List.prefix_or_prefix_of_prefix hin hpre).elim hbelow hout
  · exact fun hin => hout (hpre.trans hin)

theorem only_freeTime (h : AwayFrom d dir) (hne : dir ≠ []) (fuel : ℕ) (time : ℤ) :
    Method.Only (Apart d) (freeTime dir fuel time) := by
  induction fuel generalizing time with
  | zero => exact Method.only_throw _
  | succ fuel ih =>
      rw [freeTime]
      apply Method.Only.bind
      · apply only_inner
        exact h.inDir hne _
      · intro taken
        split
        · exact ih (time + 1)
        · exact Method.only_pure time

theorem only_prune (h : AwayFrom d dir) (hne : dir ≠ []) : Method.Only (Apart d) (prune cfg dir) := by
  rw [prune]
  apply Method.Only.bind
  · apply only_inner
    exact h
  · intro entries
    apply Method.Only.forM
    intro stale _
    apply only_inner
    exact h.inDir hne stale

variable (h : AwayFrom d path)
variable (hdir : ∀ dir, versionDirFor cfg path = .ok (some dir) → AwayFrom d dir)

include h hdir

theorem only_snapshot (fuel : ℕ) (now : ℤ) : Method.Only (Apart d) (snapshot cfg fuel path now) := by
  rw [snapshot]
  apply (Method.only_update _).bind
  intro _
  apply (only_inner (o := .readFile path) h).bind
  intro previous
  apply only_pathResult
  intro place hplace
  cases place with
  | none => exact Method.only_pure _
  | some dir =>
      have hne := versionDirFor_ne_nil hplace
      have haway := hdir dir hplace
      apply (only_inner (o := .mkdir dir true) haway).bind
      intro _
      apply (only_freeTime haway hne fuel now).bind
      intro time
      apply (only_inner (o := .writeFile (inDir dir (versionName time)) previous) (haway.inDir hne _)).bind
      exact fun _ => only_prune haway hne

theorem only_snapshotBeforeWrite (fuel : ℕ) :
    Method.Only (Apart d) (snapshotBeforeWrite cfg fuel path) := by
  rw [snapshotBeforeWrite]
  apply (only_inner (o := .exists path) h).bind
  intro there
  split
  · exact Method.only_pure _
  · apply (only_inner (o := .stat path) h).bind
    intro stat
    split
    · exact Method.only_pure _
    · apply (only_inner (o := .now) trivial).bind
      intro now
      apply Method.only_read.bind
      intro last
      split
      · exact Method.only_pure _
      · exact only_snapshot h hdir fuel now

theorem only_overwrite (fuel : ℕ) {o : StorageOp} (ho : Apart d o) :
    Method.Only (Apart d) (do
      let versioned ← pathResult (cfg.shouldVersion path)
      if versioned then snapshotBeforeWrite cfg fuel path else pure ()
      inner o) := by
  apply only_pathResult
  intro versioned _
  dsimp only
  split
  · exact (only_snapshotBeforeWrite h hdir fuel).bind fun _ => only_inner ho
  · exact only_inner ho

theorem only_write (fuel : ℕ) (contents : Contents) :
    Method.Only (Apart d) (contents.write cfg fuel path) := by
  cases contents with
  | text contents => exact only_overwrite h hdir fuel (o := .writeTextFile path contents) h
  | bytes contents => exact only_overwrite h hdir fuel (o := .writeFile path contents) h

omit h in
theorem only_readVersion (id : Text) : Method.Only (Apart d) (readVersion cfg path id) := by
  rw [readVersion]
  split
  · exact Method.only_throw _
  · apply only_pathResult
    intro place hplace
    cases place with
    | none => exact Method.only_throw _
    | some dir =>
        apply only_inner
        exact (hdir dir hplace).inDir (versionDirFor_ne_nil hplace) id

omit h in
theorem only_listVersions {τ : Type} [LE τ] [DecidableLE τ] (number : Text → τ) :
    Method.Only (Apart d) (listVersions cfg number path) := by
  rw [listVersions]
  apply only_pathResult
  intro place hplace
  cases place with
  | none => exact Method.only_pure _
  | some dir =>
      have hne := versionDirFor_ne_nil hplace
      have haway := hdir dir hplace
      apply (only_inner (o := .exists dir) haway).bind
      intro there
      split
      · exact Method.only_pure _
      · apply (only_inner (o := .readDir dir) haway).bind
        intro entries
        apply Method.Only.bind
        · apply Method.Only.foldlM
          intro versions name
          apply Method.Only.bind
          · apply Method.Only.orElse
            · apply (only_inner (o := .stat (inDir dir name)) (haway.inDir hne name)).bind
              exact fun _ => Method.only_pure _
            · exact fun _ => Method.only_pure _
          · exact fun _ => Method.only_pure _
        · exact fun _ => Method.only_pure _

theorem only_remove (hnormal : normalizePath path = .ok path) (recursive : Bool) :
    Method.Only (Apart d) (remove cfg path recursive) := by
  apply only_pathResult
  intro normalized hnormalized
  rw [hnormal] at hnormalized
  cases hnormalized
  apply (Method.only_update _).bind
  intro _
  apply (only_inner (o := .remove path recursive) h).bind
  intro _
  apply only_pathResult
  intro versioned _
  split
  · apply only_pathResult
    intro place hplace
    cases place with
    | none => exact Method.only_pure _
    | some dir =>
        have haway := hdir dir hplace
        apply (only_inner (o := .exists dir) haway).bind
        intro there
        split
        · exact only_inner (o := .remove dir true) haway
        · exact Method.only_pure _
  · exact Method.only_pure _

end Methods

/-- What is done at a path: a write, which may take a snapshot and prune, a restore, a
removal, and the two ways to read versions. -/
inductive OnPath (cfg : Config) (number : Text → ℤ) (path : Text) : {α : Type} → VersionedM α → Prop
  | write (fuel : ℕ) (contents : Contents) : OnPath cfg number path (contents.write cfg fuel path)
  | restore (fuel : ℕ) (id : Text) : OnPath cfg number path (restoreVersion cfg fuel path id)
  | remove (recursive : Bool) : OnPath cfg number path (remove cfg path recursive)
  | list : OnPath cfg number path (listVersions cfg number path)
  | read (id : Text) : OnPath cfg number path (readVersion cfg path id)

/-- Whatever is done at a path, and whichever calls fail, leaves a directory as it is,
and has the same results in any two trees that differ in the directory only. -/
def Isolated (codec : TextCodec) (cfg : Config) (number : Text → ℤ) (path : Text) (d : List Text) :
    Prop :=
  ∀ (α : Type) (m : VersionedM α), OnPath cfg number path m →
    ∀ (clock : Clock) (mem : LastSnapshotAt) (out : Except VersionError α × LastSnapshotAt)
      (t₁ t₂ t₁' : Tree), t₁.Valid → t₂.Valid → hide d t₁ = hide d t₂ →
      Exec (Serves codec clock) t₁ (m.call mem) out t₁' →
      (∀ l, d <+: l → t₁'.lookup l = t₁.lookup l) ∧
        ∃ t₂', Exec (Serves codec clock) t₂ (m.call mem) out t₂' ∧ hide d t₁' = hide d t₂'

section Sufficient

variable {codec : TextCodec} {cfg : Config} {number : Text → ℤ} {path : Text} {d : List Text}

theorem only_onPath {α : Type} {m : VersionedM α} (h : AwayFrom d path)
    (hdir : ∀ dir, versionDirFor cfg path = .ok (some dir) → AwayFrom d dir)
    (hnormal : normalizePath path = .ok path) (hm : OnPath cfg number path m) :
    Method.Only (Apart d) m := by
  cases hm with
  | write fuel contents => exact only_write h hdir fuel contents
  | restore fuel id =>
      apply (only_readVersion hdir id).bind
      exact fun contents => only_write h hdir fuel (.text contents)
  | remove recursive => exact only_remove h hdir hnormal recursive
  | list => exact only_listVersions hdir number
  | read id => exact only_readVersion hdir id

/-- A step with the directory, and the same step with another one. -/
theorem serves_hide {clock : Clock} {s t s' : Tree} {o : StorageOp} {ans : StorageAns o}
    (ho : Apart d o) (hsame : hide d s = hide d t) (h : Serves codec clock s o ans s') :
    ∃ t', Serves codec clock t o ans t' ∧ hide d s' = hide d t' := by
  cases h with
  | served =>
      have hhide : ∀ u, respond codec clock o (hide d u) =
          ((respond codec clock o u).1, hide d (respond codec clock o u).2) := fun _ => respond_hide ho
      have hs := hhide s
      rw [hsame, hhide t] at hs
      obtain ⟨hans, htree⟩ := Prod.mk.inj hs
      refine ⟨(respond codec clock o t).2, ?_, htree.symm⟩
      rw [← hans]
      exact .served t o
  | failed _ _ e hnow => exact ⟨t, .failed t o e hnow, hsame⟩

theorem serves_lookup {clock : Clock} {s s' : Tree} {o : StorageOp} {ans : StorageAns o}
    (ho : Apart d o) (h : Serves codec clock s o ans s') {l : List Text} (hl : d <+: l) :
    s'.lookup l = s.lookup l := by
  cases h with
  | served => exact lookup_respond ho hl
  | failed => rfl

theorem isolated_of_away (h : AwayFrom d path)
    (hdir : ∀ dir, versionDirFor cfg path = .ok (some dir) → AwayFrom d dir)
    (hnormal : normalizePath path = .ok path) : Isolated codec cfg number path d := by
  intro α m hm clock mem out t₁ t₂ t₁' _ _ hsame hexec
  have honly := only_onPath h hdir hnormal hm mem
  constructor
  · intro l hl
    let Keeps : Tree → Prop := fun t => t.lookup l = t₁.lookup l
    have hstep : ∀ s o ans s', Apart d o → Serves codec clock s o ans s' → Keeps s → Keeps s' :=
      fun _ _ _ _ ho hans hs => (serves_lookup ho hans hl).trans hs
    exact (honly.holds hstep rfl).exec hexec
  · have hstep : ∀ s t o ans s', Apart d o → hide d s = hide d t → Serves codec clock s o ans s' →
        ∃ t', Serves codec clock t o ans t' ∧ hide d s' = hide d t' :=
      fun _ _ _ _ _ ho hrel hans => serves_hide ho hrel hans
    exact honly.simulate hstep hsame hexec

end Sufficient

section Necessary

variable {codec : TextCodec} {cfg : Config} {number : Text → ℤ} {path dir : Text} {d segs : List Text}

/-- Some tree has a file at any place. -/
theorem exists_stored {l : List Text} (hne : l ≠ []) (hl : Names l) (bytes : List UInt8) :
    ∃ t : Tree, t.Valid ∧ t.lookup l = some (.file bytes) := by
  have hempty : Tree.Valid (∅ : Tree) := fun p node hstored => by simp at hstored
  have hparent : Names l.dropLast := hl.of_subset fun s hs => List.mem_of_mem_dropLast hs
  obtain ⟨t, ht⟩ : ∃ t, makeDirs l.dropLast.inits.tail (∅ : Tree) = (.ok (), t) :=
    makeDirs_ok_iff.mpr fun p _ contents => by simp
  have hmkdir : mkdirAt (∅ : Tree) l.dropLast true = (.ok (), t) := by rw [mkdirAt, if_pos rfl, ht]
  have hv : t.Valid := by
    have hmade := valid_mkdirAt hempty hparent true
    rwa [hmkdir] at hmade
  have hdir : t.isDir l.dropLast := by
    rcases List.eq_nil_or_concat l.dropLast with hroot | ⟨_, _, hconcat⟩
    · rw [hroot]
      exact isDir_nil t
    · apply isDir_eq_true.mpr
      right
      rw [lookup_makeDirs ht, if_pos (mem_inits_tail (by simp [hconcat]))]
  have hfree : ¬ t.isDir l := by
    intro hstored
    rcases isDir_eq_true.mp hstored with hroot | hstored
    · exact hne hroot
    · rw [lookup_makeDirs ht] at hstored
      split at hstored
      next hmem =>
        have hpre := (List.mem_inits _ _).mp (List.mem_of_mem_tail hmem)
        have hlen := hpre.length_le
        have hpos := List.length_pos_iff.mpr hne
        rw [List.length_dropLast] at hlen
        omega
      next => simp at hstored
  refine ⟨t.insert l (.file bytes), ?_, AList.lookup_insert _⟩
  have hwritten := valid_writeFileAt hv hl bytes
  rwa [writeFileAt_eq_ok.mpr ⟨hdir, hfree, rfl⟩] at hwritten

/-- What a removal looks for and removes. -/
def Removal : StorageOp → Prop
  | .exists _ | .remove _ _ => True
  | _ => False

theorem removal_keeps {clock : Clock} {s s' : Tree} {o : StorageOp} {ans : StorageAns o}
    {l : List Text} (ho : Removal o) (h : Responds (respond codec clock) s o ans s')
    (hgone : s.lookup l = none) : s'.lookup l = none := by
  have hans : respond codec clock o s = (ans, s') := h
  have hleft : (respond codec clock o s).2 = s' := by rw [hans]
  rw [← hleft]
  cases o with
  | «exists» path => rwa [respond, reading_snd]
  | remove path recursive =>
      simp only [respond, writing]
      split
      next => exact hgone
      next p hp =>
        cases hremove : removeAt s p recursive with
        | mk out t =>
            cases out with
            | error e =>
                obtain rfl := removeAt_error hremove
                exact hgone
            | ok u =>
                obtain ⟨-, -, -, rfl⟩ := removeAt_eq_ok.mp hremove
                rw [lookup_removed]
                split
                · rfl
                · exact hgone
  | _ => exact ho.elim

/-- Removing a file that is at a path, or in it, is for good. -/
theorem removed_stays {l : List Text} {bytes : List UInt8} {clock : Clock} {mem : LastSnapshotAt}
    {t : Tree} (hv : t.Valid) (hnormal : normalizePath path = .ok path)
    (hpath : pathSegments path = .ok segs) (hne : segs ≠ []) (hin : segs <+: l)
    (hstored : t.lookup l = some (.file bytes)) :
    Meets (Responds (respond codec clock)) (fun _ _ => True) (fun _ _ t' => t'.lookup l = none)
      (fun _ _ t' => t'.lookup l = none) (remove cfg path true) mem t := by
  have hthere : (t.lookup segs).isSome := by
    obtain ⟨rest, rfl⟩ := hin
    cases rest with
    | nil =>
        rw [List.append_nil] at hstored
        simp [hstored]
    | cons s rest =>
        rcases isDir_eq_true.mp (isDir_of_stored hv (List.cons_ne_nil s rest) hstored) with h | h
        · exact absurd h hne
        · simp [h]
  have hremoved : respond codec clock (.remove path true) t =
      (.ok (), select t fun q _ => !segs.isPrefixOf q) := by
    rw [respond, writing_ok hpath]
    exact removeAt_eq_ok.mpr ⟨hne, hthere, .inl rfl, rfl⟩
  have hgone : (select t fun q _ => !segs.isPrefixOf q).lookup l = none := by
    rw [lookup_removed, if_pos hin]
  rw [remove, hnormal, meets_bind]
  refine (meets_ofExcept ..).mpr ⟨fun normalized hnormalized => ?_, fun _ he => by cases he⟩
  cases hnormalized
  rw [meets_bind, meets_update, meets_bind]
  refine meets_ask_ok trivial hremoved ?_
  refine Method.Only.meets (P := Removal) (fun _ _ _ _ ho hans hs => removal_keeps ho hans hs) ?_ hgone
  apply only_pathResult
  intro versioned _
  split
  · apply only_pathResult
    intro place _
    cases place with
    | none => exact Method.only_pure _
    | some dir =>
        apply (only_inner (o := .exists dir) trivial).bind
        intro there
        split
        · exact only_inner (o := .remove dir true) trivial
        · exact Method.only_pure _
  · exact Method.only_pure _

/-- Where a path has its versions in the directory, they show at it. -/
theorem not_isolated_of_same (hdir : versionDirFor cfg path = .ok (some dir))
    (hd : pathSegments dir = .ok d) : ¬ Isolated codec cfg number path d := by
  intro h
  have hplace := pathSegments_version hd (isName_versionName 1)
  obtain ⟨t, hv, hstored⟩ :=
    exists_stored (List.concat_ne_nil _ d) (names_of_pathSegments hplace) []
  have hread : Reads codec cfg t path (versionName 1) (codec.decode []) := by
    refine ⟨?_, dir, _, [], hdir, hplace, hstored, rfl⟩
    rintro (hslash | hdots)
    · exact (isName_versionName 1).noSlash hslash
    · exact versionName_noDots 1 hdots
  let clock : Clock := ⟨0, fun _ => none⟩
  have hexec : Exec (Serves codec clock) t ((readVersion cfg path (versionName 1)).call ∅)
      (.ok (codec.decode []), ∅) t :=
    Steps.mono (fun _ _ _ _ hans => serves_of_responds hans) (readVersion_iff.mpr hread)
  have hsame : hide d t = hide d (hide d t) := by
    apply AList.ext
    simp [hide, select, List.filter_filter]
  obtain ⟨-, t', hexec', -⟩ := h _ _ (.read (versionName 1)) clock ∅ _ t _ t hv (valid_hide hv) hsame hexec
  obtain ⟨-, -, -, dir', l, bytes, hdir', hl, hstored', -⟩ := (readVersion_spec path _).exec hexec'
  rw [hdir] at hdir'
  cases hdir'
  change pathSegments (inDir dir (versionName 1)) = _ at hl
  rw [hplace] at hl
  cases hl
  rw [hide, lookup_removed, if_pos (List.prefix_append d _)] at hstored'
  cases hstored'

/-- Removing a path removes what a directory above it or below it shares with it. -/
theorem not_isolated_of_near (hnormal : normalizePath path = .ok path)
    (hpath : pathSegments path = .ok segs) (hne : segs ≠ []) (hd : Names d) (hnear : ¬ Away d segs) :
    ¬ Isolated codec cfg number path d := by
  intro h
  have hsegs := names_of_pathSegments hpath
  have hboth : ∃ l, l ≠ [] ∧ Names l ∧ segs <+: l ∧ d <+: l := by
    rcases not_and_or.mp hnear with hin | habove
    · exact ⟨segs, hne, hsegs, List.prefix_rfl, not_not.mp hin⟩
    · refine ⟨d, ?_, hd, not_not.mp habove, List.prefix_rfl⟩
      rintro rfl
      exact hne (List.prefix_nil.mp (not_not.mp habove))
  obtain ⟨l, hl, hnames, hin, hbelow⟩ := hboth
  obtain ⟨t, hv, hstored⟩ := exists_stored hl hnames []
  let clock : Clock := ⟨0, fun _ => none⟩
  have hremoved : Meets (Responds (respond codec clock)) _ _ _ (remove cfg path true) ∅ t :=
    removed_stays hv hnormal hpath hne hin hstored
  obtain ⟨out, t', hexec, hgone⟩ := hremoved.exists_exec fun _ _ _ => ⟨_, _, rfl⟩
  have hserved : Exec (Serves codec clock) t _ out t' :=
    Steps.mono (fun _ _ _ _ hans => serves_of_responds hans) hexec
  obtain ⟨hkept, -⟩ := h _ _ (.remove true) clock ∅ out t t t' hv hv rfl hserved
  have hnone : t'.lookup l = none := by
    rcases out with ⟨e | u, mem⟩
    · exact hgone
    · exact hgone
  rw [hkept l hbelow, hstored] at hnone
  cases hnone

end Necessary

section Paths

variable {cfg : Config} {p q root dir : Text} {d : List Text}

theorem versionDirFor_root (hp : normalizePath p = .ok p) (hroot : cfg.rootFor p = .ok (some root))
    (hne : root ≠ []) :
    versionDirFor cfg p = .ok (some (root ++ '/' :: cfg.versionsDir ++ '/' :: dirName p)) := by
  obtain ⟨c, cs, rfl⟩ := List.exists_cons_of_ne_nil hne
  rw [versionDirFor, hp]
  simp only [Except.bind, bind, hroot, encodePathAsDir_normalized hp]
  rfl

/-- The directories of two paths of a collection lie beside each other. -/
theorem versionDirs_beside (hp : normalizePath p = .ok p) (hq : normalizePath q = .ok q)
    (hroot : cfg.rootFor p = .ok (some root)) (hroot' : cfg.rootFor q = .ok (some root))
    (hdir : versionDirFor cfg q = .ok (some dir)) (hd : pathSegments dir = .ok d) :
    ∃ dir' above, versionDirFor cfg p = .ok (some dir') ∧ d = above ++ [dirName q] ∧
      pathSegments dir' = .ok (above ++ [dirName p]) := by
  obtain ⟨normalized, root', hnormal, hroot'', hne, rfl⟩ := versionDirFor_dirName hdir
  rw [hq] at hnormal
  cases hnormal
  rw [hroot'] at hroot''
  cases hroot''
  have hbase : root ++ '/' :: cfg.versionsDir ≠ [] := by simp
  obtain ⟨above, habove⟩ := pathSegments_left hbase hd
  have hplace := pathSegments_name habove (isName_dirName q)
  rw [hd] at hplace
  exact ⟨_, above, versionDirFor_root hp hroot hne, Except.ok.inj hplace,
    pathSegments_name habove (isName_dirName p)⟩

/-- A visible path inside of its collection is away from all versions. -/
theorem away_of_visible {rs segs : List Text} (hversions : cfg.versionsDir = defaultVersionsDir)
    (hpath : pathSegments p = .ok segs) (hvisible : hasHiddenSegment p = .ok false)
    (hrs : pathSegments root = .ok rs) (hin : rs <+: segs) (hne : rs ≠ segs)
    (hq : normalizePath q = .ok q) (hroot : cfg.rootFor q = .ok (some root))
    (hdir : versionDirFor cfg q = .ok (some dir)) (hd : pathSegments dir = .ok d) : Away d segs := by
  obtain ⟨normalized, root', hnormal, hroot', -, rfl⟩ := versionDirFor_dirName hdir
  rw [hq] at hnormal
  cases hnormal
  rw [hroot] at hroot'
  cases hroot'
  have hplace : d = rs ++ ([".tactile".toList, "versions".toList] ++ [dirName q]) := by
    have hbase : pathSegments (root ++ '/' :: cfg.versionsDir) =
        .ok (rs ++ [".tactile".toList, "versions".toList]) := by
      rw [hversions]
      exact pathSegments_slash hrs rfl
    have hdirName := pathSegments_name hbase (isName_dirName q)
    rw [hd] at hdirName
    rw [Except.ok.inj hdirName, List.append_assoc]
  have hshown : ".tactile".toList ∉ segs := by
    intro hmem
    rw [hasHiddenSegment, hpath] at hvisible
    have hany : segs.any (fun s => s.head? = some '.') = false := Except.ok.inj hvisible
    exact List.any_eq_false.mp hany _ hmem rfl
  obtain ⟨rest, rfl⟩ := hin
  have hrest : rest ≠ [] := fun hnil => hne (by simp [hnil])
  subst hplace
  constructor
  · intro hpre
    apply hshown
    apply hpre.subset
    simp
  · intro hpre
    have hin := (List.prefix_append_right_inj rs).mp hpre
    obtain ⟨s, rest, rfl⟩ := List.exists_cons_of_ne_nil hrest
    obtain ⟨hhead, -⟩ := List.cons_prefix_cons.mp hin
    apply hshown
    simp [hhead]

end Paths

/-- What is done at a path leaves the versions of another path of its collection alone
exactly if the two are encoded as different names, and the path is neither in the
directory of the versions nor above it. -/
theorem isolated_iff (codec : TextCodec) (cfg : Config) (number : Text → ℤ) (p q root dir : Text)
    (segs d : List Text) (hp : normalizePath p = .ok p) (hq : normalizePath q = .ok q)
    (hpath : pathSegments p = .ok segs) (hne : segs ≠ [])
    (hroot : cfg.rootFor p = .ok (some root)) (hroot' : cfg.rootFor q = .ok (some root))
    (hdir : versionDirFor cfg q = .ok (some dir)) (hd : pathSegments dir = .ok d) :
    Isolated codec cfg number p d ↔ encodePathAsDir p ≠ encodePathAsDir q ∧ Away d segs := by
  obtain ⟨dir', above, hdir', rfl, hd'⟩ := versionDirs_beside hp hq hroot hroot' hdir hd
  rw [encodePathAsDir_normalized hp, encodePathAsDir_normalized hq, ne_eq, Except.ok.injEq]
  constructor
  · intro h
    constructor
    · intro hname
      rw [hname] at hd'
      exact not_isolated_of_same hdir' hd' h
    · by_contra hnear
      exact not_isolated_of_near hp hpath hne (names_of_pathSegments hd) hnear h
  · rintro ⟨hname, haway⟩
    apply isolated_of_away _ _ hp
    · intro l hl
      rw [hpath] at hl
      cases hl
      exact haway
    · intro dir'' hdir'' l hl
      rw [hdir'] at hdir''
      cases hdir''
      rw [hd'] at hl
      cases hl
      constructor
      · intro hpre
        have heq := hpre.eq_of_length (by simp)
        simp [Ne.symm hname] at heq
      · intro hpre
        have heq := hpre.eq_of_length (by simp)
        simp [hname] at heq

section Sample

def siblingPath : Text := "/Notes/b.md".toList

def siblingSegments : List Text := ["Notes".toList, "b.md".toList]

theorem sibling_isolated : Isolated latin defaults (fun _ => 0) siblingPath noteVersions := by
  have hq : normalizePath notePath = .ok notePath := rfl
  have hroot : defaults.rootFor notePath = .ok (some "/Notes".toList) := rfl
  have hrs : pathSegments "/Notes".toList = .ok ["Notes".toList] := rfl
  have hdir : versionDirFor defaults notePath = .ok (some (render noteVersions)) := rfl
  have hpath : pathSegments siblingPath = .ok siblingSegments := rfl
  have haway : Away noteVersions siblingSegments :=
    away_of_visible rfl hpath rfl hrs (by decide) (by decide) hq hroot hdir rfl
  exact (isolated_iff latin defaults (fun _ => 0) siblingPath notePath "/Notes".toList
    (render noteVersions) siblingSegments noteVersions rfl hq hpath nofun rfl hroot hdir rfl).mpr
    ⟨by decide, haway⟩

/-- A path whose encoding is longer than what is kept of it. -/
def longPath (ending : String) : Text := "/Notes/€€€€€€€€€€€€€".toList ++ ending.toList

/-- Two notes with the same hash and the same start have one history. -/
theorem histories_shared :
    longPath "d3zx.md" ≠ longPath "2pad.md" ∧
      normalizePath (longPath "d3zx.md") = .ok (longPath "d3zx.md") ∧
      normalizePath (longPath "2pad.md") = .ok (longPath "2pad.md") ∧
      defaults.rootFor (longPath "d3zx.md") = defaults.rootFor (longPath "2pad.md") ∧
      defaults.shouldVersion (longPath "d3zx.md") = .ok true ∧
      defaults.shouldVersion (longPath "2pad.md") = .ok true ∧
      ∃ dir d, versionDirFor defaults (longPath "2pad.md") = .ok (some dir) ∧ pathSegments dir = .ok d ∧
        ¬ Isolated latin defaults (fun _ => 0) (longPath "d3zx.md") d := by
  have hname : dirName (longPath "d3zx.md") = dirName (longPath "2pad.md") := by decide +kernel
  have hp : normalizePath (longPath "d3zx.md") = .ok (longPath "d3zx.md") := by rfl
  have hq : normalizePath (longPath "2pad.md") = .ok (longPath "2pad.md") := by rfl
  have hne : "/Notes".toList ≠ [] := by decide
  have hroot : ∀ ending, ending ∈ ["d3zx.md", "2pad.md"] →
      defaults.rootFor (longPath ending) = .ok (some "/Notes".toList) := by decide +kernel
  have hversioned : ∀ ending, ending ∈ ["d3zx.md", "2pad.md"] →
      defaults.shouldVersion (longPath ending) = .ok true := by decide +kernel
  have hdir := versionDirFor_root hq (hroot "2pad.md" (by decide)) hne
  have hdir' := versionDirFor_root hp (hroot "d3zx.md" (by decide)) hne
  have hbase : pathSegments ("/Notes".toList ++ '/' :: defaults.versionsDir) =
      .ok ["Notes".toList, ".tactile".toList, "versions".toList] := rfl
  have hd := pathSegments_name hbase (isName_dirName (longPath "2pad.md"))
  refine ⟨by decide, hp, hq, ?_, hversioned _ (by decide), hversioned _ (by decide), _, _, hdir, hd, ?_⟩
  · rw [hroot "d3zx.md" (by decide), hroot "2pad.md" (by decide)]
  · rw [hname] at hdir'
    exact not_isolated_of_same hdir' hd

end Sample

end Tactile.Storage.Isolation

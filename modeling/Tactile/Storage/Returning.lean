import Tactile.Storage.VersionDirs

/-!
The calls of the versioned backend return when no call of the backend below
fails: the search for a free name ends, and what is pruned is there.
-/

namespace Tactile.Storage.Returning

open Tactile.Lib.Program Tactile.Lib.Script Tactile.Lib.FiniteMap
open Tactile.Storage.Paths Tactile.Storage.Idb Tactile.Storage.Opfs Tactile.Storage.Backend
open Tactile.Storage.Versioned

variable {α : Type} {codec : TextCodec} {clock : Clock} {cfg : Config} {mem : LastSnapshotAt}
variable {t t' : Tree} {path dir : Text} {d segs : List Text} {before : List UInt8}

/-- Every run of a method in which no call fails returns, and ends in `Q`. -/
abbrev Returns (codec : TextCodec) (clock : Clock) (Q : α → LastSnapshotAt → Tree → Prop)
    (m : VersionedM α) (mem : LastSnapshotAt) (t : Tree) : Prop :=
  Meets (Responds (respond codec clock)) (fun _ _ => True) Q (fun _ _ _ => False) m mem t

/-- A run that returns ends as every run does that returns. -/
theorem Returns.spec {Q Q' : α → LastSnapshotAt → Tree → Prop} {m : VersionedM α}
    (h : Returns codec clock Q m mem t)
    (hspec : Meets (Serves codec clock) (fun _ _ => True) Q' (fun _ _ _ => True) m mem t) :
    Returns codec clock Q' m mem t := by
  have hserved := Holds.of_le hspec fun _ _ _ _ hans => serves_of_responds hans
  refine (h.and hserved).mono (fun _ _ _ => trivial) fun out t' hboth => ?_
  rcases out with ⟨_ | _, _⟩
  · exact hboth.1
  · exact hboth.2

/-- What returns leaves a valid tree valid. -/
theorem Returns.valid {Q : α → LastSnapshotAt → Tree → Prop} {m : VersionedM α}
    (h : Returns codec clock Q m mem t) (hv : t.Valid) :
    Returns codec clock (fun a mem' t' => Q a mem' t' ∧ t'.Valid) m mem t := by
  refine (h.and (holds_exec _ _)).mono (fun _ _ _ => trivial) fun out t' hboth => ?_
  have hvalid := valid_steps (hboth.2.mono fun _ _ _ _ hans => serves_of_responds hans) hv
  rcases out with ⟨_ | _, _⟩
  · exact hboth.1
  · exact ⟨hboth.1, hvalid⟩

theorem returns_inner {o : StorageOp} {val : StorageVal o} {Q : StorageVal o → LastSnapshotAt → Tree → Prop}
    (h : respond codec clock o t = (.ok val, t')) (hQ : Q val mem t') :
    Returns codec clock Q (inner o) mem t := meets_ask_ok trivial h hQ

theorem returns_pathResult {x : Except StorageError α} {a : α} {Q : α → LastSnapshotAt → Tree → Prop}
    (h : x = .ok a) (hQ : Q a mem t) : Returns codec clock Q (pathResult x) mem t := by
  subst h
  exact hQ

theorem freeTime_free (hd : pathSegments dir = .ok d) (fuel : ℕ) (time : ℤ)
    (hfuel : (t.children d).length < fuel) :
    Returns codec clock (fun v mem' t' => mem' = mem ∧ t' = t ∧ FirstFree t d time v)
      (freeTime dir fuel time) mem t :=
  Returns.spec (freeTime_returns hd fuel time hfuel) (freeTime_spec hd fuel time)

theorem nodup_staleNames (cfg : Config) {names : List Text} (h : names.Nodup) :
    (staleNames cfg names).Nodup :=
  ((List.mergeSort_perm names _).nodup_iff.mpr h).sublist (List.take_sublist ..)

/-- Each version that pruning takes out is a file when its turn comes. -/
theorem prune_returns (hv : t.Valid) (hd : pathSegments dir = .ok d) (hisDir : t.isDir d) :
    Returns codec clock (fun _ _ _ => True) (prune cfg dir) mem t := by
  have hentries : respond codec clock (.readDir dir) t =
      (.ok ((t.children d).map fun e => entryOf e.1 e.2), t) := by
    rw [respond, reading_ok hd, readDirAt_eq_ok.mpr ⟨hisDir, rfl⟩]
  rw [prune, Returns, meets_bind]
  refine returns_inner hentries ?_
  refine (meets_forM _ (fun pre _ t' => ∀ p, t'.lookup p =
    if ∃ name ∈ pre, d ++ [name] <+: p then none else t.lookup p) _ mem t (fun p => ?_) ?_).imp
    (fun _ _ _ _ => trivial) fun _ _ _ h => h
  · simp
  · intro pre stale post hsplit mem' t' hleft
    have hnodup := nodup_staleNames cfg (nodup_versionFiles t d)
    have hmem : stale ∈ staleNames cfg (versionFiles t d) := by
      rw [versionFiles, hsplit]
      simp
    rw [versionFiles, hsplit] at hnodup
    obtain ⟨-, bytes, hstored⟩ := mem_versionFiles.mp (List.mem_mergeSort.mp (List.mem_of_mem_take hmem))
    have hname : IsName stale := (hv _ _ hstored).2.1 stale (by simp)
    have hother : ∀ name ∈ pre, name ≠ stale := by
      rintro name hpre rfl
      exact List.disjoint_of_nodup_append hnodup hpre List.mem_cons_self
    have hthere : t'.lookup (d ++ [stale]) = some (.file bytes) := by
      rw [hleft, if_neg, hstored]
      rintro ⟨name, hpre, hprefix⟩
      rw [List.prefix_append_right_inj] at hprefix
      exact hother name hpre (by simpa using hprefix)
    have hleaf : t'.children (d ++ [stale]) = [] := by
      rw [children_eq_nil]
      intro name
      rw [hleft]
      split
      next => rfl
      next =>
        by_contra hbelow
        obtain ⟨node, hnode⟩ := Option.ne_none_iff_exists'.mp hbelow
        have habove := isDir_of_stored hv (List.cons_ne_nil name []) hnode
        rcases isDir_eq_true.mp habove with hroot | hdir
        · simp at hroot
        · rw [hstored] at hdir
          cases hdir
    have hremove : respond codec clock (.remove (inDir dir stale) false) t' =
        (.ok (), select t' fun q _ => !(d ++ [stale]).isPrefixOf q) := by
      rw [respond, writing_ok (pathSegments_version hd hname)]
      exact removeAt_eq_ok.mpr ⟨by simp, by rw [hthere]; rfl, .inr hleaf, rfl⟩
    exact returns_inner hremove (lookup_pruned stale hleft)

section Place

variable (hv : t.Valid) (hpath : pathSegments path = .ok segs)
variable (hfile : t.lookup segs = some (.file before))
variable (hdir : versionDirFor cfg path = .ok (some dir)) (hd : pathSegments dir = .ok d)

include hv hpath hfile hdir hd

/-- A snapshot returns when the directory of the versions can be made. -/
theorem snapshot_returns (hmade : mkdirAt t d true = (.ok (), t')) {fuel : ℕ}
    (hfuel : (t'.children d).length < fuel) :
    Returns codec clock (fun _ _ t'' => Snapshots cfg d before clock.now t t'')
      (snapshot cfg fuel path clock.now) mem t := by
  refine Returns.spec (Q := fun _ _ _ => True) ?_ (snapshot_spec hv hpath hfile hdir hd fuel)
  have hv' : t'.Valid := by
    have hvalid := valid_mkdirAt hv (names_of_pathSegments hd) true
    rwa [hmade] at hvalid
  have hread : respond codec clock (.readFile path) t = (.ok before, t) := by
    rw [respond, reading_ok hpath, readFileAt_eq_ok.mpr hfile]
  have hmkdir : respond codec clock (.mkdir dir true) t = (.ok (), t') := by
    rw [respond, writing_ok hd, hmade]
  rw [snapshot, Returns, meets_bind, meets_update, meets_bind]
  refine returns_inner hread ?_
  rw [meets_bind]
  refine returns_pathResult hdir ?_
  dsimp only
  rw [meets_bind]
  refine returns_inner hmkdir ?_
  rw [meets_bind]
  refine (freeTime_free hd fuel clock.now hfuel).imp (fun time mem' t₁ htime => ?_) fun _ _ _ h => h
  obtain ⟨rfl, rfl, hfirst⟩ := htime
  have hname := isName_versionName time
  have hisDir : t₁.isDir d := mkdirAt_isDir hmade
  have hplace : t₁.isDir (d ++ [versionName time]).dropLast := by
    rw [List.dropLast_concat]
    exact hisDir
  have hnotDir : ¬ t₁.isDir (d ++ [versionName time]) := by
    intro h
    rcases isDir_eq_true.mp h with hroot | hstored
    · simp at hroot
    · rw [hfirst.2.2] at hstored
      cases hstored
  have hwrite : respond codec clock (.writeFile (inDir dir (versionName time)) before) t₁ =
      (.ok (), t₁.insert (d ++ [versionName time]) (.file before)) := by
    rw [respond, writing_ok (pathSegments_version hd hname)]
    exact writeFileAt_eq_ok.mpr ⟨hplace, hnotDir, rfl⟩
  have hnames : Names (d ++ [versionName time]) :=
    names_append.mpr ⟨names_of_pathSegments hd, fun s hs => List.mem_singleton.mp hs ▸ hname⟩
  have hvalid : Tree.Valid (t₁.insert (d ++ [versionName time]) (.file before)) := by
    refine valid_insert hv' hnames (by simp) hplace fun hstored => ?_
    rw [hfirst.2.2] at hstored
    cases hstored
  have hstill : Tree.isDir (t₁.insert (d ++ [versionName time]) (.file before)) d := by
    refine isDir_kept hisDir fun hstored => ?_
    rw [lookup_insert_eq, if_neg (by simp), hstored]
  rw [meets_bind]
  exact returns_inner hwrite (prune_returns hvalid hd hstill)

theorem snapshotBeforeWrite_returns (hmade : mkdirAt t d true = (.ok (), t')) {fuel : ℕ}
    (hfuel : (t'.children d).length < fuel) :
    Returns codec clock
      (fun _ _ t'' => HeldBack cfg mem path clock.now before.length ∧ t'' = t ∨
        ¬ HeldBack cfg mem path clock.now before.length ∧ Snapshots cfg d before clock.now t t'')
      (snapshotBeforeWrite cfg fuel path) mem t := by
  refine Returns.spec (Q := fun _ _ _ => True) ?_
    (snapshotBeforeWrite_spec hv hpath hfile hdir hd fuel)
  have hexists : respond codec clock (.exists path) t = (.ok true, t) := by
    rw [respond, reading_ok hpath, existsAt, hfile]
    simp
  have hstat : respond codec clock (.stat path) t =
      (.ok ⟨before.length, clock.mtime segs⟩, t) := by
    rw [respond, reading_ok hpath, statAt, if_neg (hv segs _ hfile).1, hfile]
    rfl
  rw [snapshotBeforeWrite, Returns, meets_bind]
  refine returns_inner hexists ?_
  change Returns _ _ _ (inner (.stat path) >>= _) mem t
  rw [Returns, meets_bind]
  refine returns_inner hstat ?_
  split
  next => exact trivial
  next =>
    rw [meets_bind]
    refine returns_inner (o := .now) rfl ?_
    rw [meets_bind, meets_read]
    split
    next => exact trivial
    next =>
      exact (snapshot_returns hv hpath hfile hdir hd hmade hfuel).imp (fun _ _ _ _ => trivial)
        fun _ _ _ h => h

theorem overwrite_returns (hmade : mkdirAt t d true = (.ok (), t')) {fuel : ℕ}
    (hfuel : (t'.children d).length < fuel) (happart : ¬ d <+: segs)
    (hversioned : cfg.shouldVersion path = .ok true) {o : StorageOp}
    (ho : ∀ t, t.Valid → t.lookup segs = some (.file before) →
      ∃ val t', respond codec clock o t = (.ok val, t')) :
    Returns codec clock (fun _ _ _ => True)
      (do
        let versioned ← pathResult (cfg.shouldVersion path)
        if versioned then snapshotBeforeWrite cfg fuel path else pure ()
        inner o) mem t := by
  rw [Returns, meets_bind]
  refine returns_pathResult hversioned ?_
  dsimp only
  rw [if_pos rfl, meets_bind]
  refine ((snapshotBeforeWrite_returns hv hpath hfile hdir hd hmade hfuel).valid hv).imp
    (fun _ _ t'' h => ?_) fun _ _ _ h => h
  have hstill : t''.lookup segs = some (.file before) := by
    rcases h.1 with ⟨-, rfl⟩ | ⟨-, t₁, hmkdir, time, -, hlookup⟩
    · exact hfile
    · rw [hlookup, if_neg, if_neg]
      · have hsame := sameFiles_mkdirAt t d true segs before
        rw [hmkdir] at hsame
        exact hsame.mpr hfile
      · rintro rfl
        exact happart (List.prefix_append ..)
      · rintro ⟨name, -, hpre⟩
        exact happart ((List.prefix_append ..).trans hpre)
  obtain ⟨val, t₂, hans⟩ := ho t'' h.2 hstill
  exact returns_inner hans trivial

/-- A write over a file that is not among its own versions goes through. -/
theorem write_returns (hmade : mkdirAt t d true = (.ok (), t')) {fuel : ℕ}
    (hfuel : (t'.children d).length < fuel) (happart : ¬ d <+: segs)
    (hversioned : cfg.shouldVersion path = .ok true) (contents : Contents) :
    Returns codec clock (fun _ _ _ => True) (contents.write cfg fuel path) mem t := by
  have hplace : ∀ (t : Tree) bytes, t.Valid → t.lookup segs = some (.file before) →
      writeFileAt t segs bytes = (.ok (), t.insert segs (.file bytes)) := by
    intro t bytes hvalid hstored
    refine writeFileAt_eq_ok.mpr ⟨(hvalid segs _ hstored).2.2, fun hisDir => ?_, rfl⟩
    rcases isDir_eq_true.mp hisDir with hroot | hnode
    · exact (hvalid segs _ hstored).1 hroot
    · rw [hstored] at hnode
      cases hnode
  cases contents with
  | text contents =>
      refine overwrite_returns hv hpath hfile hdir hd hmade hfuel happart hversioned
        (o := .writeTextFile path contents) fun t hvalid hstored =>
          ⟨(), t.insert segs (.file (codec.encode contents)), ?_⟩
      rw [respond, writing_ok hpath, hplace t _ hvalid hstored]
  | bytes contents =>
      refine overwrite_returns hv hpath hfile hdir hd hmade hfuel happart hversioned
        (o := .writeFile path contents) fun t hvalid hstored =>
          ⟨(), t.insert segs (.file contents), ?_⟩
      rw [respond, writing_ok hpath, hplace t _ hvalid hstored]

/-- Such a write has a run. -/
theorem exists_write (hmade : mkdirAt t d true = (.ok (), t')) (happart : ¬ d <+: segs)
    (hversioned : cfg.shouldVersion path = .ok true) (contents : Contents) :
    ∃ fuel mem' t'', Exec (Serves codec clock) t ((contents.write cfg fuel path).call mem)
      (.ok (), mem') t'' := by
  have hreturns : Returns codec clock (fun _ _ _ => True)
      (contents.write cfg ((t'.children d).length + 1) path) mem t :=
    write_returns hv hpath hfile hdir hd hmade (Nat.lt_succ_self _) happart hversioned contents
  obtain ⟨⟨out, mem'⟩, t'', hexec, hout⟩ := Holds.exists_exec hreturns fun _ _ _ => ⟨_, _, rfl⟩
  cases out with
  | error e => exact hout.elim
  | ok =>
      exact ⟨_, mem', t'', Steps.mono (fun _ _ _ _ hans => serves_of_responds hans) hexec⟩

end Place

end Tactile.Storage.Returning

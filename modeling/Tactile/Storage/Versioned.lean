import Tactile.Lib.Text
import Tactile.Storage.Backend

/-!
The backend that keeps versions of the files it overwrites, and whether what a
restore overwrites is among them.
-/

namespace Tactile.Storage.Versioned

open Tactile.Lib.Program Tactile.Lib.Script Tactile.Lib.FiniteMap Tactile.Lib.ByteString
open Tactile.Lib.Text Tactile.Lib.Split
open Tactile.Storage.Paths Tactile.Storage.Idb Tactile.Storage.Opfs Tactile.Storage.Backend

/-- The options of the constructor. -/
structure VersioningOptions where
  versionsDir : Option Text
  maxVersionsPerFile : Option ℤ
  maxFileBytes : Option ℤ
  minIntervalMs : Option ℤ
  rootFor : Option (Text → Except StorageError (Option Text))
  shouldVersion : Option (Text → Except StorageError Bool)

structure Config where
  versionsDir : Text
  maxVersions : ℤ
  maxFileBytes : ℤ
  minInterval : ℤ
  rootFor : Text → Except StorageError (Option Text)
  shouldVersion : Text → Except StorageError Bool

def defaultVersionsDir : Text := ".tactile/versions".toList

/-- Collections lie at the top, and only files inside of one count. -/
def defaultRootFor (path : Text) : Except StorageError (Option Text) := do
  let segments ← pathSegments path
  match segments with
  | collection :: _ :: _ => pure (some ('/' :: collection))
  | _ => pure none

def defaultShouldVersion (rootFor : Text → Except StorageError (Option Text)) (path : Text) :
    Except StorageError Bool := do
  let root ← rootFor path
  match root with
  | none => pure false
  | some _ => do
    let hidden ← hasHiddenSegment path
    pure (!hidden)

def VersioningOptions.config (options : VersioningOptions) : Config :=
  let rootFor := options.rootFor.getD defaultRootFor
  { versionsDir := options.versionsDir.getD defaultVersionsDir
    maxVersions := options.maxVersionsPerFile.getD 30
    maxFileBytes := options.maxFileBytes.getD (512 * 1024)
    minInterval := options.minIntervalMs.getD 30000
    rootFor
    shouldVersion := options.shouldVersion.getD (defaultShouldVersion rootFor) }

inductive VersionError
  | backend (e : Failure)
  | invalidId (id : Text)
  | notVersioned (path : Text)
  | outOfFuel

/-- The times of the last snapshots, by the paths of the calls. -/
abbrev LastSnapshotAt : Type := Dict Text ℤ

abbrev VersionedM (α : Type) : Type := StorageM VersionError LastSnapshotAt α

structure FileVersion (τ : Type) where
  id : Text
  timestamp : τ
  size : ℕ

section Calls

/-- Awaits a call of the wrapped backend. -/
def inner (o : StorageOp) : VersionedM (StorageVal o) := ask .backend o

def pathResult {α : Type} (x : Except StorageError α) : VersionedM α :=
  Method.ofExcept (fun e => .backend (.storage e)) x

variable (cfg : Config)

def versionDirFor (path : Text) : Except StorageError (Option Text) := do
  let normalized ← normalizePath path
  let root ← cfg.rootFor normalized
  match root with
  | none | some [] => pure none
  | some root => do
    let name ← encodePathAsDir normalized
    pure (some (root ++ '/' :: cfg.versionsDir ++ '/' :: name))

def versionName (time : ℤ) : Text := (toString time).toList ++ ".md".toList

def inDir (dir name : Text) : Text := dir ++ '/' :: name

/-- The names of the versions among the entries of a directory. -/
def versionNames (entries : List DirEntry) : List Text :=
  (entries.filter fun e => e.isFile && ".md".toList.isSuffixOf e.name).map DirEntry.name

/-- The order of `sort` without a comparison. -/
def sortNames (names : List Text) : List Text :=
  names.mergeSort fun a b => decide (codeUnits a ≤ codeUnits b)

def staleNames (names : List Text) : List Text :=
  (sortNames names).take (names.length - cfg.maxVersions).toNat

/-- Bumps the time of a version until its name is free. -/
def freeTime (dir : Text) : ℕ → ℤ → VersionedM ℤ
  | 0, _ => throw .outOfFuel
  | fuel + 1, versionTime => do
    let taken ← inner (.exists (inDir dir (versionName versionTime)))
    if taken then freeTime dir fuel (versionTime + 1) else pure versionTime

def prune (dir : Text) : VersionedM Unit := do
  let entries ← inner (.readDir dir)
  (staleNames cfg (versionNames entries)).forM fun stale =>
    inner (.remove (inDir dir stale) false)

/-- The part of a snapshot that nothing holds back. -/
def snapshot (fuel : ℕ) (path : Text) (now : ℤ) : VersionedM Unit := do
  Method.update fun last => last.insert path now
  let previous ← inner (.readFile path)
  let dir ← pathResult (versionDirFor cfg path)
  match dir with
  | none => pure ()
  | some dir => do
    inner (.mkdir dir true)
    let versionTime ← freeTime dir fuel now
    inner (.writeFile (inDir dir (versionName versionTime)) previous)
    prune cfg dir

def snapshotBeforeWrite (fuel : ℕ) (path : Text) : VersionedM Unit := do
  let there ← inner (.exists path)
  if !there then pure ()
  else do
    let stat ← inner (.stat path)
    if cfg.maxFileBytes < stat.size then pure ()
    else do
      let now ← inner .now
      let last ← Method.read
      if 0 < cfg.minInterval ∧ now - (last.lookup path).getD 0 < cfg.minInterval then pure ()
      else snapshot cfg fuel path now

def writeTextFile (fuel : ℕ) (path : Text) (contents : String) : VersionedM Unit := do
  let versioned ← pathResult (cfg.shouldVersion path)
  if versioned then snapshotBeforeWrite cfg fuel path else pure ()
  inner (.writeTextFile path contents)

def writeFile (fuel : ℕ) (path : Text) (contents : List UInt8) : VersionedM Unit := do
  let versioned ← pathResult (cfg.shouldVersion path)
  if versioned then snapshotBeforeWrite cfg fuel path else pure ()
  inner (.writeFile path contents)

/-- What is written, by the one call or the other. -/
inductive Contents
  | text (contents : String)
  | bytes (contents : List UInt8)

def Contents.encode (codec : TextCodec) : Contents → List UInt8
  | .text contents => codec.encode contents
  | .bytes contents => contents

def Contents.write (fuel : ℕ) (path : Text) : Contents → VersionedM Unit
  | .text contents => writeTextFile cfg fuel path contents
  | .bytes contents => writeFile cfg fuel path contents

def remove (path : Text) (recursive : Bool) : VersionedM Unit := do
  let normalized ← pathResult (normalizePath path)
  Method.update fun last => last.erase normalized
  inner (.remove path recursive)
  let versioned ← pathResult (cfg.shouldVersion normalized)
  if versioned then do
    let dir ← pathResult (versionDirFor cfg normalized)
    match dir with
    | none => pure ()
    | some dir => do
      let there ← inner (.exists dir)
      if there then inner (.remove dir true) else pure ()
  else pure ()

def readVersion (path id : Text) : VersionedM String := do
  if '/' ∈ id ∨ ['.', '.'] <:+: id then throw (.invalidId id)
  else do
    let dir ← pathResult (versionDirFor cfg path)
    match dir with
    | none => throw (.notVersioned path)
    | some dir => inner (.readTextFile (inDir dir id))

def restoreVersion (fuel : ℕ) (path id : Text) : VersionedM Unit := do
  let contents ← readVersion cfg path id
  writeTextFile cfg fuel path contents

section Listing

variable {τ : Type} [LE τ] [DecidableLE τ] (number : Text → τ)

def withoutMd (name : Text) : Text :=
  if ".md".toList <:+ name then name.take (name.length - 3) else name

/-- The size of a file, 0 where a stat of it fails. -/
def sizeOrZero (file : Text) : VersionedM ℕ :=
  (do let stat ← inner (.stat file); pure stat.size : VersionedM ℕ).orElse fun _ => pure 0

/-- The versions of a file, the latest first. -/
def listVersions (path : Text) : VersionedM (List (FileVersion τ)) := do
  let dir ← pathResult (versionDirFor cfg path)
  match dir with
  | none => pure []
  | some dir => do
    let there ← inner (.exists dir)
    if !there then pure []
    else do
      let entries ← inner (.readDir dir)
      let versions ← (versionNames entries).foldlM
        (fun versions name => do
          let size ← sizeOrZero (inDir dir name)
          pure (versions ++ [⟨name, number (withoutMd name), size⟩]))
        []
      pure (versions.mergeSort fun a b => decide (b.timestamp ≤ a.timestamp))

end Listing

end Calls

section Names

variable {t : Tree} {d : List Text}

/-- The versions in a directory. -/
def versionFiles (t : Tree) (d : List Text) : List Text :=
  versionNames ((t.children d).map fun e => entryOf e.1 e.2)

/-- The versions that pruning leaves. -/
def keptNames (cfg : Config) (names : List Text) : List Text :=
  (sortNames names).drop (names.length - cfg.maxVersions).toNat

theorem mem_versionFiles {name : Text} :
    name ∈ versionFiles t d ↔
      ".md".toList <:+ name ∧ ∃ bytes, t.lookup (d ++ [name]) = some (.file bytes) := by
  have hsuffix : ".md".toList.isSuffixOf name = true ↔ ".md".toList <:+ name :=
    List.isSuffixOf_iff_suffix
  rw [versionFiles, versionNames, List.mem_map]
  constructor
  · rintro ⟨entry, hentry, rfl⟩
    obtain ⟨hchild, htest⟩ := List.mem_filter.mp hentry
    obtain ⟨⟨name, node⟩, hmem, rfl⟩ := List.mem_map.mp hchild
    rw [Bool.and_eq_true] at htest
    cases node with
    | dir => cases htest.1
    | file bytes =>
        exact ⟨List.isSuffixOf_iff_suffix.mp htest.2, bytes, mem_children.mp hmem⟩
  · rintro ⟨hmd, bytes, hstored⟩
    refine ⟨⟨name, false, true⟩, List.mem_filter.mpr ⟨?_, ?_⟩, rfl⟩
    · exact List.mem_map.mpr ⟨(name, .file bytes), mem_children.mpr hstored, rfl⟩
    · rw [Bool.true_and, hsuffix]
      exact hmd

/-- A new version comes before the others. -/
theorem versionFiles_insert {name : Text} (hmd : ".md".toList <:+ name)
    (hfree : t.lookup (d ++ [name]) = none) (bytes : List UInt8) :
    versionFiles (t.insert (d ++ [name]) (.file bytes)) d = name :: versionFiles t d := by
  have hpairs : pairs (t.insert (d ++ [name]) (Node.file bytes)) =
      (d ++ [name], Node.file bytes) :: pairs t := by
    rw [pairs, AList.entries_insert, List.kerase_of_notMem_keys]
    · rfl
    · exact AList.lookup_eq_none.mp hfree
  have hchildren : Tree.children (t.insert (d ++ [name]) (.file bytes)) d =
      (name, .file bytes) :: t.children d := by
    rw [Tree.children, hpairs, List.filterMap_cons]
    simp [Tree.children]
  rw [versionFiles, hchildren, List.map_cons, versionNames, List.filter_cons_of_pos]
  · rfl
  · exact List.isSuffixOf_iff_suffix.mpr hmd

theorem nodup_children (t : Tree) (d : List Text) : ((t.children d).map Prod.fst).Nodup := by
  have hkeys : (t.children d).map (fun e => d ++ [e.1]) =
      ((pairs t).map Prod.fst).filter fun path => path ≠ [] ∧ path.dropLast = d := by
    rw [Tree.children]
    induction pairs t with
    | nil => rfl
    | cons e l ih =>
        obtain ⟨path, node⟩ := e
        rcases List.eq_nil_or_concat path with rfl | ⟨dir, name, rfl⟩
        · rw [List.filterMap_cons]
          simpa using ih
        · by_cases hdir : dir = d
          · subst hdir
            simpa using ih
          · simpa [hdir] using ih
  have hnodup : ((t.children d).map fun e => d ++ [e.1]).Nodup := by
    rw [hkeys, map_fst_pairs]
    exact t.keys_nodup.filter _
  have hsplit : (t.children d).map (fun e => d ++ [e.1]) =
      ((t.children d).map Prod.fst).map fun name => d ++ [name] := by
    rw [List.map_map]
    rfl
  rw [hsplit] at hnodup
  exact hnodup.of_map

theorem nodup_versionFiles (t : Tree) (d : List Text) : (versionFiles t d).Nodup := by
  have hsub : (versionFiles t d).Sublist ((t.children d).map Prod.fst) := by
    rw [versionFiles, versionNames]
    have hnames : ((t.children d).map fun e => entryOf e.1 e.2).map DirEntry.name =
        (t.children d).map Prod.fst := by
      rw [List.map_map]
      refine List.map_congr_left fun e _ => ?_
      obtain ⟨name, node⟩ := e
      cases node <;> rfl
    rw [← hnames]
    exact List.filter_sublist.map DirEntry.name
  exact hsub.nodup (nodup_children t d)

theorem isName_versionName (time : ℤ) : IsName (versionName time) := by
  have hlen : 3 ≤ (versionName time).length := by
    rw [versionName, List.length_append]
    exact Nat.le_add_left 3 _
  refine ⟨?_, ?_, ?_, fun hslash => ?_⟩
  · intro h
    rw [h] at hlen
    simp at hlen
  · intro h
    rw [h] at hlen
    simp at hlen
  · intro h
    rw [h] at hlen
    simp at hlen
  · rcases List.mem_append.mp hslash with h | h
    · rcases mem_toString_int h with hdigit | hdash
      · exact absurd hdigit (by decide)
      · exact absurd hdash (by decide)
    · exact absurd h (by decide)

theorem versionName_noDots (time : ℤ) : ¬ ['.', '.'] <:+: versionName time := by
  intro h
  have hcount := h.sublist.count_le '.'
  have hdigits : (toString time).toList.count '.' = 0 := by
    refine List.count_eq_zero.mpr fun hdot => ?_
    rcases mem_toString_int hdot with hdigit | hdash
    · exact absurd hdigit (by decide)
    · exact absurd hdash (by decide)
  rw [versionName, List.count_append, hdigits] at hcount
  exact absurd hcount (by decide)

/-- A name in a list without repetitions is stale or kept. -/
theorem mem_keptNames (cfg : Config) {names : List Text} (hnodup : names.Nodup) {name : Text} :
    name ∈ keptNames cfg names ↔ name ∈ names ∧ name ∉ staleNames cfg names := by
  have hsorted : (sortNames names).Nodup := (List.mergeSort_perm names _).nodup_iff.mpr hnodup
  have hmem : name ∈ sortNames names ↔ name ∈ names := List.mem_mergeSort
  rw [← hmem, keptNames, staleNames]
  generalize (names.length - cfg.maxVersions).toNat = n
  have hsplit := List.take_append_drop n (sortNames names)
  rw [← hsplit] at hsorted
  have hdisjoint := List.disjoint_of_nodup_append hsorted
  constructor
  · exact fun h => ⟨List.mem_of_mem_drop h, fun hstale => hdisjoint hstale h⟩
  · rintro ⟨h, hstale⟩
    rw [← hsplit, List.mem_append] at h
    exact h.resolve_left hstale

end Names

section Restoring

variable {codec : TextCodec} {clock : Clock} {now : ℤ} {cfg : Config} {mem : LastSnapshotAt} {t : Tree}
variable {path dir id : Text} {d segs : List Text} {before : List UInt8}

/-- The time of a snapshot: the first from now on whose name is free. -/
def FirstFree (t : Tree) (d : List Text) (now time : ℤ) : Prop :=
  now ≤ time ∧ (∀ u, now ≤ u → u < time → t.lookup (d ++ [versionName u]) ≠ none) ∧
    t.lookup (d ++ [versionName time]) = none

theorem FirstFree.unique {time time' : ℤ} (h : FirstFree t d now time)
    (h' : FirstFree t d now time') : time' = time := by
  by_contra hne
  rcases lt_or_gt_of_ne hne with hlt | hgt
  · exact h.2.1 time' h'.1 hlt h'.2.2
  · exact h'.2.1 time h.1 hgt h.2.2

/-- The file is too large for a snapshot, or the last one is too recent. -/
def HeldBack (cfg : Config) (mem : LastSnapshotAt) (path : Text) (now : ℤ) (size : ℕ) : Prop :=
  cfg.maxFileBytes < size ∨
    (0 < cfg.minInterval ∧ now - (mem.lookup path).getD 0 < cfg.minInterval)

theorem meets_inner {o : StorageOp} {Q : StorageVal o → LastSnapshotAt → Tree → Prop}
    (h : ∀ val t', respond codec clock o t = (.ok val, t') → Q val mem t') :
    Meets (Serves codec clock) (fun _ _ => True) Q (fun _ _ _ => True) (inner o) mem t :=
  meets_ask trivial h fun _ _ _ => trivial

theorem meets_pathResult {R : Answers StorageOp StorageAns Tree} {α : Type}
    {x : Except StorageError α} {Q : α → LastSnapshotAt → Tree → Prop}
    (h : ∀ a, x = .ok a → Q a mem t) :
    Meets R (fun _ _ => True) Q (fun _ _ _ => True) (pathResult x) mem t :=
  (meets_ofExcept ..).mpr ⟨h, fun _ _ => trivial⟩

theorem pathSegments_version (hd : pathSegments dir = .ok d) {name : Text} (hname : IsName name) :
    pathSegments (inDir dir name) = .ok (d ++ [name]) :=
  pathSegments_name hd hname

theorem freeTime_spec (hd : pathSegments dir = .ok d) (fuel : ℕ) (time : ℤ) :
    Meets (Serves codec clock) (fun _ _ => True)
      (fun v mem' t' => mem' = mem ∧ t' = t ∧ FirstFree t d time v) (fun _ _ _ => True)
      (freeTime dir fuel time) mem t := by
  induction fuel generalizing time with
  | zero => exact trivial
  | succ fuel ih =>
      rw [freeTime, meets_bind]
      refine meets_inner fun taken t' hans => ?_
      have hread : (Except.ok (existsAt t (d ++ [versionName time])), t) =
          ((.ok taken : Except Failure Bool), t') := by
        rw [← hans, respond, reading_ok (pathSegments_version hd (isName_versionName time))]
      obtain ⟨htaken, rfl⟩ := Prod.mk.inj hread
      have hiff : taken = true ↔ t.lookup (d ++ [versionName time]) ≠ none := by
        rw [← Except.ok.inj htaken, existsAt, decide_eq_true_eq, Option.isSome_iff_ne_none]
        simp
      split
      next htrue =>
        refine (ih (time + 1)).imp (fun v mem' t' hv => ?_) fun _ _ _ _ => trivial
        obtain ⟨hmem, ht, hle, hbelow, hfree⟩ := hv
        refine ⟨hmem, ht, by omega, fun u hu huv => ?_, hfree⟩
        by_cases heq : u = time
        · rw [heq]
          exact hiff.mp htrue
        · exact hbelow u (by omega) huv
      next hfalse =>
        refine ⟨rfl, rfl, le_refl _, fun u hu huv => absurd huv (by omega), ?_⟩
        by_contra hstored
        exact hfalse (hiff.mpr hstored)

theorem versionName_inj {y z : ℤ} (h : versionName y = versionName z) : y = z :=
  decimal_inj (List.append_cancel_right h)

/-- There are no more names taken than the directory has entries. -/
theorem taken_le (start : ℤ) (n : ℕ)
    (h : ∀ i < n, t.lookup (d ++ [versionName (start + i)]) ≠ none) :
    n ≤ (t.children d).length := by
  let names := (List.range n).map fun i : ℕ => versionName (start + i)
  have hnodup : names.Nodup := by
    refine List.nodup_range.map fun i j hij => ?_
    have hsame := versionName_inj hij
    omega
  have hsub : names ⊆ (t.children d).map Prod.fst := by
    intro name hname
    obtain ⟨i, hi, rfl⟩ := List.mem_map.mp hname
    obtain ⟨node, hnode⟩ := Option.ne_none_iff_exists'.mp (h i (List.mem_range.mp hi))
    exact List.mem_map.mpr ⟨(_, node), mem_children.mpr hnode, rfl⟩
  have hlen := (List.subperm_of_subset hnodup hsub).length_le
  simpa [names] using hlen

/-- More rounds than the directory has entries find a free name. -/
theorem freeTime_returns (hd : pathSegments dir = .ok d) (fuel : ℕ) (time : ℤ)
    (hfuel : (t.children d).length < fuel) :
    Meets (Responds (respond codec clock)) (fun _ _ => True) (fun _ _ _ => True) (fun _ _ _ => False)
      (freeTime dir fuel time) mem t := by
  suffices h : ∀ fuel (n : ℕ), (t.children d).length < n + fuel →
      (∀ i < n, t.lookup (d ++ [versionName (time + i)]) ≠ none) →
      Meets (Responds (respond codec clock)) (fun _ _ => True) (fun _ _ _ => True)
        (fun _ _ _ => False) (freeTime dir fuel (time + n)) mem t by
    have hall := h fuel 0 (by omega) (by omega)
    have hcast : time + ((0 : ℕ) : ℤ) = time := by omega
    rwa [hcast] at hall
  intro fuel
  induction fuel with
  | zero =>
      intro n hlen htaken
      exact absurd (taken_le time n htaken) (by omega)
  | succ fuel ih =>
      intro n hlen htaken
      rw [freeTime, meets_bind]
      have hplace := pathSegments_version hd (isName_versionName (time + n))
      refine meets_ask_ok trivial (reading_ok hplace _) ?_
      split
      next hstored =>
        have hnext := ih (n + 1) (by omega) fun i hi => ?_
        · have hcast : time + ((n + 1 : ℕ) : ℤ) = time + n + 1 := by omega
          rwa [hcast] at hnext
        · rcases Nat.lt_succ_iff_lt_or_eq.mp hi with hlt | rfl
          · exact htaken i hlt
          · rw [existsAt, decide_eq_true_eq, Option.isSome_iff_ne_none] at hstored
            exact hstored.resolve_left (by simp)
      next => trivial

theorem lookup_pruned {t' : Tree} {pre : List Text} (stale : Text)
    (h : ∀ p, t'.lookup p = if ∃ name ∈ pre, d ++ [name] <+: p then none else t.lookup p)
    (p : List Text) : (select t' fun q _ => !(d ++ [stale]).isPrefixOf q).lookup p =
      if ∃ name ∈ pre ++ [stale], d ++ [name] <+: p then none else t.lookup p := by
  rw [lookup_removed, h p]
  by_cases hp : d ++ [stale] <+: p
  · rw [if_pos hp, if_pos ⟨stale, by simp, hp⟩]
  · rw [if_neg hp]
    refine if_congr ?_ rfl rfl
    simp [hp, or_and_right, exists_or]

theorem prune_spec (hv : t.Valid) (hd : pathSegments dir = .ok d) :
    Meets (Serves codec clock) (fun _ _ => True)
      (fun _ mem' t' => mem' = mem ∧ ∀ p, t'.lookup p =
        if ∃ name ∈ staleNames cfg (versionFiles t d), d ++ [name] <+: p then none else t.lookup p)
      (fun _ _ _ => True) (prune cfg dir) mem t := by
  rw [prune, meets_bind]
  refine meets_inner fun entries t₁ hans => ?_
  have hread : (readDirAt t d, t) = ((.ok entries : Except Failure (List DirEntry)), t₁) := by
    rw [← hans, respond, reading_ok hd]
  obtain ⟨hentries, rfl⟩ := Prod.mk.inj hread
  obtain ⟨-, rfl⟩ := readDirAt_eq_ok.mp hentries
  refine meets_forM _ (fun pre mem' t' => mem' = mem ∧ ∀ p, t'.lookup p =
    if ∃ name ∈ pre, d ++ [name] <+: p then none else t.lookup p) _ mem t ⟨rfl, fun p => ?_⟩ ?_
  · simp
  · rintro pre stale post hsplit mem' t' ⟨rfl, hleft⟩
    refine meets_inner fun _ t₂ hans => ?_
    have hstale : stale ∈ versionFiles t d := by
      have hmem : stale ∈ staleNames cfg (versionFiles t d) := by
        rw [hsplit]
        simp
      exact List.mem_mergeSort.mp (List.mem_of_mem_take hmem)
    obtain ⟨-, bytes, hstored⟩ := mem_versionFiles.mp hstale
    have hname : IsName stale := (hv _ _ hstored).2.1 stale (by simp)
    have hremove : removeAt t' (d ++ [stale]) false = (.ok (), t₂) := by
      rw [← hans, respond, writing_ok (pathSegments_version hd hname)]
    obtain ⟨-, -, -, rfl⟩ := removeAt_eq_ok.mp hremove
    exact ⟨rfl, lookup_pruned stale hleft⟩

/-- What a version reads as. -/
def Reads (codec : TextCodec) (cfg : Config) (t : Tree) (path id : Text) (contents : String) :
    Prop :=
  ¬ ('/' ∈ id ∨ ['.', '.'] <:+: id) ∧ ∃ dir l bytes, versionDirFor cfg path = .ok (some dir) ∧
    pathSegments (inDir dir id) = .ok l ∧ t.lookup l = some (.file bytes) ∧
    codec.decode bytes = contents

theorem Reads.unique {contents contents' : String} (h : Reads codec cfg t path id contents)
    (h' : Reads codec cfg t path id contents') : contents = contents' := by
  obtain ⟨-, dir, l, bytes, hdir, hl, hstored, rfl⟩ := h
  obtain ⟨-, dir', l', bytes', hdir', hl', hstored', rfl⟩ := h'
  rw [hdir] at hdir'
  cases hdir'
  rw [hl] at hl'
  cases hl'
  rw [hstored] at hstored'
  cases hstored'
  rfl

theorem readVersion_spec (path id : Text) :
    Meets (Serves codec clock) (fun _ _ => True)
      (fun contents mem' t' => mem' = mem ∧ t' = t ∧ Reads codec cfg t path id contents)
      (fun _ _ _ => True) (readVersion cfg path id) mem t := by
  rw [readVersion]
  split
  next => exact trivial
  next hid =>
    rw [meets_bind]
    refine meets_pathResult fun place hplace => ?_
    cases place with
    | none => exact trivial
    | some dir =>
        refine meets_inner fun contents t₁ hans => ?_
        rw [respond] at hans
        obtain ⟨l, hl, hread, rfl⟩ := of_reading hans
        cases hbytes : readFileAt t₁ l with
        | error e =>
            rw [hbytes] at hread
            cases hread
        | ok bytes =>
            rw [hbytes] at hread
            cases hread
            exact ⟨rfl, rfl, hid, dir, l, bytes, hplace, hl, readFileAt_eq_ok.mp hbytes, rfl⟩

theorem readVersion_iff {contents : String} :
    Exec (Responds (respond codec clock)) t ((readVersion cfg path id).call mem)
      (.ok contents, mem) t ↔ Reads codec cfg t path id contents := by
  constructor
  · intro h
    have hserved := Steps.mono (fun _ _ _ _ hans => serves_of_responds hans) h
    exact ((readVersion_spec path id).exec hserved).2.2
  · rintro ⟨hid, dir, l, bytes, hdir, hl, hstored, rfl⟩
    have hmeets : Meets (Responds (respond codec clock)) (fun _ _ => True)
        (fun contents mem' t' => contents = codec.decode bytes ∧ mem' = mem ∧ t' = t)
        (fun _ _ _ => False) (readVersion cfg path id) mem t := by
      rw [readVersion, if_neg hid, hdir]
      have hread : respond codec clock (.readTextFile (inDir dir id)) t =
          (.ok (codec.decode bytes), t) := by
        rw [respond, reading_ok hl, readFileAt_eq_ok.mpr hstored]
        rfl
      change Meets _ _ _ _ (inner (.readTextFile (inDir dir id))) mem t
      exact meets_ask_ok trivial hread ⟨rfl, rfl, rfl⟩
    obtain ⟨⟨out, mem'⟩, t', hexec, hout⟩ := hmeets.exists_exec fun _ _ _ => ⟨_, _, rfl⟩
    cases out with
    | error e => exact hout.elim
    | ok contents =>
        obtain ⟨rfl, rfl, rfl⟩ := hout
        exact hexec

/-- What a snapshot leaves of a tree: the new version, and less what is stale. -/
def Snapshotted (cfg : Config) (d : List Text) (before : List UInt8) (now : ℤ) (t t' : Tree) :
    Prop :=
  ∃ time, FirstFree t d now time ∧ ∀ p, t'.lookup p =
    if ∃ name ∈ staleNames cfg (versionName time :: versionFiles t d), d ++ [name] <+: p then none
    else if p = d ++ [versionName time] then some (.file before) else t.lookup p

theorem lookup_version {t' : Tree} {time : ℤ}
    (h : ∀ p, t'.lookup p =
      if ∃ name ∈ staleNames cfg (versionName time :: versionFiles t d), d ++ [name] <+: p then none
      else if p = d ++ [versionName time] then some (.file before) else t.lookup p) (name : Text) :
    t'.lookup (d ++ [name]) =
      if name ∈ staleNames cfg (versionName time :: versionFiles t d) then none
      else if name = versionName time then some (.file before) else t.lookup (d ++ [name]) := by
  have hpre : ∀ n, d ++ [n] <+: d ++ [name] ↔ n = name := by
    intro n
    rw [List.prefix_append_right_inj]
    simp
  rw [h]
  simp only [hpre, exists_eq_right, List.append_cancel_left_eq, List.cons.injEq, and_true]

/-- A snapshot makes the directory of the versions first. -/
def Snapshots (cfg : Config) (d : List Text) (before : List UInt8) (now : ℤ) (t t' : Tree) : Prop :=
  ∃ t₁, mkdirAt t d true = (.ok (), t₁) ∧ Snapshotted cfg d before now t₁ t'

theorem Snapshots.of_stored {t' : Tree} (h : Snapshots cfg d before now t t') (hv : t.Valid)
    (hthere : t.isDir d ∨ t.lookup d ≠ none) : Snapshotted cfg d before now t t' := by
  obtain ⟨t₁, hmkdir, hsnap⟩ := h
  rwa [(mkdirAt_stored hv hthere hmkdir).1] at hsnap

section Place

variable (hv : t.Valid) (hpath : pathSegments path = .ok segs)
variable (hfile : t.lookup segs = some (.file before))
variable (hdir : versionDirFor cfg path = .ok (some dir)) (hd : pathSegments dir = .ok d)

include hv hpath hfile hdir hd

theorem snapshot_spec (fuel : ℕ) :
    Meets (Serves codec clock) (fun _ _ => True)
      (fun _ _ t' => Snapshots cfg d before clock.now t t') (fun _ _ _ => True)
      (snapshot cfg fuel path clock.now) mem t := by
  rw [snapshot, meets_bind, meets_update, meets_bind]
  refine meets_inner fun previous t₁ hans => ?_
  have hread : (readFileAt t segs, t) = ((.ok previous : Except Failure (List UInt8)), t₁) := by
    rw [← hans, respond, reading_ok hpath]
  obtain ⟨hprevious, rfl⟩ := Prod.mk.inj hread
  rw [readFileAt_eq_ok, hfile] at hprevious
  cases hprevious
  rw [meets_bind]
  refine meets_pathResult fun place hplace => ?_
  rw [hdir] at hplace
  cases hplace
  dsimp only
  rw [meets_bind]
  refine meets_inner fun _ t₁ hans => ?_
  have hmkdir : mkdirAt t d true = (.ok (), t₁) := by
    rw [← hans, respond, writing_ok hd]
  have hv₁ : t₁.Valid := by
    have hmade := valid_mkdirAt hv (names_of_pathSegments hd) true
    rwa [hmkdir] at hmade
  rw [meets_bind]
  refine (freeTime_spec hd fuel clock.now).imp (fun time _ t₁ htime => ?_) fun _ _ _ _ => trivial
  obtain ⟨rfl, rfl, hfirst⟩ := htime
  have hname := isName_versionName time
  have hmd : ".md".toList <:+ versionName time := List.suffix_append _ _
  rw [meets_bind]
  refine meets_inner fun _ t₂ hans => ?_
  have hwrite : writeFileAt t₁ (d ++ [versionName time]) before = (.ok (), t₂) := by
    rw [← hans, respond, writing_ok (pathSegments_version hd hname)]
  obtain ⟨hparent, hnodir, rfl⟩ := writeFileAt_eq_ok.mp hwrite
  have hnames : Names (d ++ [versionName time]) := by
    intro n hn
    rcases List.mem_append.mp hn with hn | hn
    · exact names_of_pathSegments hd n hn
    · exact List.mem_singleton.mp hn ▸ hname
  have hvalid : Tree.Valid (t₁.insert (d ++ [versionName time]) (.file before)) := by
    refine valid_insert hv₁ hnames (by simp) hparent fun hstored => ?_
    rw [hfirst.2.2] at hstored
    cases hstored
  refine (prune_spec hvalid hd).imp (fun _ _ t₂ hpruned => ?_) fun _ _ _ _ => trivial
  refine ⟨t₁, hmkdir, time, hfirst, fun p => ?_⟩
  rw [hpruned.2 p, versionFiles_insert hmd hfirst.2.2, lookup_insert_eq]

/-- Before the write the tree is unchanged, or the file is among the versions. -/
theorem snapshotBeforeWrite_spec (fuel : ℕ) :
    Meets (Serves codec clock) (fun _ _ => True)
      (fun _ _ t' => HeldBack cfg mem path clock.now before.length ∧ t' = t ∨
        ¬ HeldBack cfg mem path clock.now before.length ∧ Snapshots cfg d before clock.now t t')
      (fun _ _ _ => True) (snapshotBeforeWrite cfg fuel path) mem t := by
  rw [snapshotBeforeWrite, meets_bind]
  refine meets_inner fun there t₁ hans => ?_
  have hexists : (Except.ok (existsAt t segs), t) = ((.ok there : Except Failure Bool), t₁) := by
    rw [← hans, respond, reading_ok hpath]
  obtain ⟨hsome, rfl⟩ := Prod.mk.inj hexists
  have htrue : there = true := by
    rw [← Except.ok.inj hsome, existsAt, hfile]
    simp
  subst htrue
  change Meets _ _ _ _ (inner (.stat path) >>= _) mem t
  rw [meets_bind]
  refine meets_inner fun stat t₁ hans => ?_
  have hstat : ((.ok ⟨before.length, clock.mtime segs⟩ : Except Failure FileStat), t) =
      (.ok stat, t₁) := by
    rw [← hans, respond, reading_ok hpath, statAt, if_neg (hv segs _ hfile).1, hfile]
    rfl
  cases hstat
  split
  next hlarge => exact .inl ⟨.inl hlarge, rfl⟩
  next hlarge =>
    rw [meets_bind]
    refine meets_inner fun time t₁ hans => ?_
    cases hans
    rw [meets_bind, meets_read]
    split
    next hrecent => exact .inl ⟨.inr hrecent, rfl⟩
    next hrecent =>
      refine (snapshot_spec hv hpath hfile hdir hd fuel).imp (fun _ _ t₂ h => ?_)
        fun _ _ _ _ => trivial
      exact .inr ⟨not_or.mpr ⟨hlarge, hrecent⟩, h⟩

/-- A versioned write puts the new contents where the file is. -/
theorem overwrite_spec (fuel : ℕ) {o : StorageOp} {contents : List UInt8}
    (hversioned : cfg.shouldVersion path = .ok true)
    (ho : ∀ t val t', respond codec clock o t = (.ok val, t') → t' = t.insert segs (.file contents)) :
    Meets (Serves codec clock) (fun _ _ => True)
      (fun _ _ t' => ∃ t₁, t' = t₁.insert segs (.file contents) ∧
        (HeldBack cfg mem path clock.now before.length ∧ t₁ = t ∨
          ¬ HeldBack cfg mem path clock.now before.length ∧ Snapshots cfg d before clock.now t t₁))
      (fun _ _ _ => True)
      (do
        let versioned ← pathResult (cfg.shouldVersion path)
        if versioned then snapshotBeforeWrite cfg fuel path else pure ()
        inner o) mem t := by
  rw [meets_bind]
  refine meets_pathResult fun versioned h => ?_
  rw [hversioned] at h
  cases h
  dsimp only
  rw [if_pos rfl, meets_bind]
  refine (snapshotBeforeWrite_spec hv hpath hfile hdir hd fuel).imp
    (fun _ _ t₁ h => ?_) fun _ _ _ _ => trivial
  exact meets_inner fun val t₂ hans => ⟨t₁, ho t₁ val t₂ hans, h⟩

theorem writeTextFile_spec (fuel : ℕ) (contents : String)
    (hversioned : cfg.shouldVersion path = .ok true) :
    Meets (Serves codec clock) (fun _ _ => True)
      (fun _ _ t' => ∃ t₁, t' = t₁.insert segs (.file (codec.encode contents)) ∧
        (HeldBack cfg mem path clock.now before.length ∧ t₁ = t ∨
          ¬ HeldBack cfg mem path clock.now before.length ∧ Snapshots cfg d before clock.now t t₁))
      (fun _ _ _ => True) (writeTextFile cfg fuel path contents) mem t := by
  refine overwrite_spec hv hpath hfile hdir hd fuel (o := .writeTextFile path contents) hversioned ?_
  intro t₁ _ t₂ hans
  rw [respond, writing_ok hpath] at hans
  exact (writeFileAt_eq_ok.mp hans).2.2

theorem writeFile_spec (fuel : ℕ) (contents : List UInt8)
    (hversioned : cfg.shouldVersion path = .ok true) :
    Meets (Serves codec clock) (fun _ _ => True)
      (fun _ _ t' => ∃ t₁, t' = t₁.insert segs (.file contents) ∧
        (HeldBack cfg mem path clock.now before.length ∧ t₁ = t ∨
          ¬ HeldBack cfg mem path clock.now before.length ∧ Snapshots cfg d before clock.now t t₁))
      (fun _ _ _ => True) (writeFile cfg fuel path contents) mem t := by
  refine overwrite_spec hv hpath hfile hdir hd fuel (o := .writeFile path contents) hversioned ?_
  intro t₁ _ t₂ hans
  rw [respond, writing_ok hpath] at hans
  exact (writeFileAt_eq_ok.mp hans).2.2

theorem write_spec (fuel : ℕ) (contents : Contents) (hversioned : cfg.shouldVersion path = .ok true) :
    Meets (Serves codec clock) (fun _ _ => True)
      (fun _ _ t' => ∃ t₁, t' = t₁.insert segs (.file (contents.encode codec)) ∧
        (HeldBack cfg mem path clock.now before.length ∧ t₁ = t ∨
          ¬ HeldBack cfg mem path clock.now before.length ∧ Snapshots cfg d before clock.now t t₁))
      (fun _ _ _ => True) (contents.write cfg fuel path) mem t := by
  cases contents with
  | text contents => exact writeTextFile_spec hv hpath hfile hdir hd fuel contents hversioned
  | bytes contents => exact writeFile_spec hv hpath hfile hdir hd fuel contents hversioned

end Place

section Listing

/-- A version that is read as a text. -/
def VersionText (codec : TextCodec) (t : Tree) (d : List Text) (name : Text) (text : String) :
    Prop :=
  ¬ ['.', '.'] <:+: name ∧
    ∃ bytes, t.lookup (d ++ [name]) = some (.file bytes) ∧ codec.decode bytes = text

/-- A world that answers as the backend does, and may fail instead where `P` holds. -/
def AnswersAs (codec : TextCodec) (clock : Clock) (P : Prop) (R : Answers StorageOp StorageAns Tree) :
    Prop :=
  ∀ t o ans t', R t o ans t' →
    respond codec clock o t = (ans, t') ∨ P ∧ t' = t ∧ ∃ e, ans = .error e

theorem responds_answersAs : AnswersAs codec clock False (Responds (respond codec clock)) :=
  fun _ _ _ _ hans => .inl hans

theorem serves_answersAs : AnswersAs codec clock True (Serves codec clock) := by
  intro t o ans t' hans
  cases hans with
  | served => exact .inl rfl
  | failed _ _ e => exact .inr ⟨trivial, rfl, e, rfl⟩

/-- The size of a file is read without a change, and without a failure. -/
theorem meets_sizeOrZero (file : Text) {later : Clock} {P : Prop}
    {R : Answers StorageOp StorageAns Tree} (hR : AnswersAs codec later P R)
    {Q : ℕ → LastSnapshotAt → Tree → Prop} {E : VersionError → LastSnapshotAt → Tree → Prop}
    (hQ : ∀ size, Q size mem t) :
    Meets R (fun _ _ => True) Q E (sizeOrZero file) mem t := by
  have hsame : ∀ ans t', R t (.stat file) ans t' → t' = t := by
    intro ans t' hans
    rcases hR _ _ _ _ hans with hserved | ⟨-, rfl, -⟩
    · exact (congrArg Prod.snd hserved).symm.trans (reading_snd _)
    · rfl
  rw [sizeOrZero, meets_orElse, meets_bind]
  refine meets_asked (o := .stat file) trivial (fun stat t' hans => ?_) fun e t' hans => ?_
  · rw [hsame _ _ hans]
    exact hQ stat.size
  · rw [hsame _ _ hans]
    exact hQ 0

theorem reads_iff (hdir : versionDirFor cfg path = .ok (some dir)) (hd : pathSegments dir = .ok d)
    {name : Text} (hname : IsName name) {text : String} :
    Reads codec cfg t path name text ↔ VersionText codec t d name text := by
  have hplace := pathSegments_version hd hname
  constructor
  · rintro ⟨hid, dir', l, bytes, hdir', hl, hstored, rfl⟩
    rw [hdir] at hdir'
    cases hdir'
    rw [hplace] at hl
    cases hl
    exact ⟨(not_or.mp hid).2, bytes, hstored, rfl⟩
  · rintro ⟨hdots, bytes, hstored, rfl⟩
    exact ⟨not_or.mpr ⟨hname.noSlash, hdots⟩, dir, d ++ [name], bytes, hdir, hplace, hstored, rfl⟩

variable {τ : Type} [LE τ] [DecidableLE τ] (number : Text → τ) {later : Clock}

/-- A text that one of the versions in the list of a file reads as. -/
def Listed (codec : TextCodec) (cfg : Config) (number : Text → τ) (later : Clock) (path : Text)
    (mem : LastSnapshotAt) (t : Tree) (text : String) : Prop :=
  ∃ versions : List (FileVersion τ),
    Exec (Responds (respond codec later)) t ((listVersions cfg number path).call mem)
      (.ok versions, mem) t ∧
    ∃ v ∈ versions, Exec (Responds (respond codec later)) t ((readVersion cfg path v.id).call mem)
      (.ok text, mem) t

/-- The versions in a directory, the latest first. -/
def Lists (number : Text → τ) (t : Tree) (d : List Text) (versions : List (FileVersion τ)) : Prop :=
  ∃ found : List (FileVersion τ), found.map FileVersion.id = versionFiles t d ∧
    (∀ v ∈ found, v.timestamp = number (withoutMd v.id)) ∧
    versions = found.mergeSort fun a b => decide (b.timestamp ≤ a.timestamp)

theorem Lists.perm {number : Text → τ} {versions : List (FileVersion τ)}
    (h : Lists number t d versions) : (versions.map FileVersion.id).Perm (versionFiles t d) := by
  obtain ⟨found, hids, -, rfl⟩ := h
  rw [← hids]
  exact (List.mergeSort_perm found _).map FileVersion.id

variable (hv : t.Valid) (hdir : versionDirFor cfg path = .ok (some dir))
variable (hd : pathSegments dir = .ok d)

include hv hdir hd

/-- The list of a file's versions shows those in the directory in the order of
their times, and fails only where a call fails or a file is in the place of the directory. -/
theorem listVersions_lists {P : Prop} {R : Answers StorageOp StorageAns Tree}
    (hR : AnswersAs codec later P R) :
    Meets R (fun _ _ => True)
      (fun versions mem' t' => mem' = mem ∧ t' = t ∧ Lists number t d versions)
      (fun _ _ _ => P ∨ existsAt t d = true ∧ ¬ t.isDir d) (listVersions cfg number path) mem t := by
  rw [listVersions, hdir]
  change Meets _ _ _ _ (inner (.exists dir) >>= _) mem t
  have hrespond : respond codec later (.exists dir) t = (.ok (existsAt t d), t) := reading_ok hd _
  rw [meets_bind]
  refine meets_asked trivial (fun there t₁ hans => ?_) fun e t₁ hans => ?_
  · have hexists : (Except.ok (existsAt t d), t) = ((.ok there : Except Failure Bool), t₁) := by
      rw [← hrespond]
      exact (hR _ _ _ _ hans).resolve_right fun hfailed => by simp at hfailed
    obtain ⟨hthere, rfl⟩ := Prod.mk.inj hexists
    split
    next hnone =>
      have hempty : versionFiles t d = [] := by
        refine List.eq_nil_iff_forall_not_mem.mpr fun name hmem => ?_
        obtain ⟨-, bytes, hstored⟩ := mem_versionFiles.mp hmem
        have hparent := isDir_eq_true.mp (isDir_of_stored hv (List.cons_ne_nil name []) hstored)
        rw [← Except.ok.inj hthere, existsAt, Bool.not_eq_true', decide_eq_false_iff_not,
          not_or] at hnone
        rcases hparent with hroot | hnode
        · exact absurd hroot hnone.1
        · rw [hnode] at hnone
          exact absurd rfl hnone.2
      refine ⟨rfl, rfl, [], by rw [hempty]; rfl, by simp, ?_⟩
      simp
    next hthere' =>
      rw [meets_bind]
      refine meets_asked trivial (fun entries t₁ hans => ?_) fun e t₁ hans => ?_
      · have hread : (readDirAt t d, t) = ((.ok entries : Except Failure (List DirEntry)), t₁) := by
          rw [← reading_ok hd]
          exact (hR _ _ _ _ hans).resolve_right fun hfailed => by simp at hfailed
        obtain ⟨hentries, rfl⟩ := Prod.mk.inj hread
        obtain ⟨-, rfl⟩ := readDirAt_eq_ok.mp hentries
        rw [meets_bind]
        refine (meets_foldlM _ (fun pre versions mem' t' => mem' = mem ∧ t' = t ∧
          versions.map FileVersion.id = pre ∧ ∀ v ∈ versions, v.timestamp = number (withoutMd v.id))
          _ _ mem t ⟨rfl, rfl, rfl, by simp⟩ ?_).imp (fun versions mem' t' h => ?_) fun _ _ _ h => h
        · rintro pre name post - versions mem' t' ⟨rfl, rfl, hids, htimes⟩
          rw [meets_bind]
          refine meets_sizeOrZero _ hR fun size => ⟨rfl, rfl, ?_, fun v hv => ?_⟩
          · rw [List.map_append, hids]
            rfl
          · rcases List.mem_append.mp hv with hold | hnew
            · exact htimes v hold
            · rw [List.mem_singleton.mp hnew]
        · obtain ⟨rfl, rfl, hids, htimes⟩ := h
          exact ⟨rfl, rfl, versions, hids, htimes, rfl⟩
      · rcases hR _ _ _ _ hans with hserved | ⟨hP, -⟩
        · refine .inr ⟨by simpa [Except.ok.inj hthere] using hthere', fun hisDir => ?_⟩
          have hread : (readDirAt t d, t) = ((.error e : Except Failure (List DirEntry)), t₁) := by
            rw [← reading_ok hd]
            exact hserved
          rw [readDirAt, if_pos hisDir] at hread
          cases hread
        · exact .inl hP
  · rcases hR _ _ _ _ hans with hserved | ⟨hP, -⟩
    · rw [hrespond] at hserved
      cases hserved
    · exact .inl hP

theorem listVersions_spec :
    Meets (Responds (respond codec later)) (fun _ _ => True)
      (fun versions mem' t' => mem' = mem ∧ t' = t ∧
        ∀ name, name ∈ versions.map FileVersion.id ↔ name ∈ versionFiles t d)
      (fun _ _ _ => existsAt t d = true ∧ ¬ t.isDir d) (listVersions cfg number path) mem t := by
  refine (listVersions_lists number hv hdir hd responds_answersAs).imp
    (fun versions mem' t' h => ?_) fun _ _ _ h => h.resolve_left id
  obtain ⟨rfl, rfl, hlists⟩ := h
  exact ⟨rfl, rfl, fun name => hlists.perm.mem_iff⟩

theorem listed_iff {text : String} :
    Listed codec cfg number later path mem t text ↔
      ∃ name ∈ versionFiles t d, VersionText codec t d name text := by
  have hname : ∀ name ∈ versionFiles t d, IsName name := by
    intro name hmem
    obtain ⟨-, bytes, hstored⟩ := mem_versionFiles.mp hmem
    exact (hv _ _ hstored).2.1 name (by simp)
  constructor
  · rintro ⟨versions, hlist, v, hmem, hread⟩
    have hids := ((listVersions_spec number hv hdir hd).exec hlist).2.2
    have hfile := (hids v.id).mp (List.mem_map_of_mem hmem)
    exact ⟨v.id, hfile, (reads_iff hdir hd (hname _ hfile)).mp (readVersion_iff.mp hread)⟩
  · rintro ⟨name, hfile, htext⟩
    obtain ⟨-, bytes, hstored⟩ := mem_versionFiles.mp hfile
    have hisDir := isDir_of_stored hv (List.cons_ne_nil name []) hstored
    have hlists : Meets (Responds (respond codec later)) _ _ _ (listVersions cfg number path) mem t :=
      listVersions_spec number hv hdir hd
    obtain ⟨⟨out, mem'⟩, t', hexec, hout⟩ := hlists.exists_exec fun _ _ _ => ⟨_, _, rfl⟩
    cases out with
    | error e => exact absurd hisDir hout.2
    | ok versions =>
        obtain ⟨rfl, rfl, hids⟩ := hout
        obtain ⟨v, hmem, hid⟩ := List.mem_map.mp ((hids name).mpr hfile)
        refine ⟨versions, hexec, v, hmem, readVersion_iff.mpr ?_⟩
        rw [hid]
        exact (reads_iff hdir hd (hname _ hfile)).mpr htext

end Listing

/-- The file at a path reads as a text. -/
def FileReads (codec : TextCodec) (t : Tree) (path : Text) (text : String) : Prop :=
  ∃ l bytes, pathSegments path = .ok l ∧ t.lookup l = some (.file bytes) ∧ codec.decode bytes = text

/-- When a restore keeps what the file reads as: the version reads the same, or a
version does that the write leaves. The write snapshots the file, and prunes,
unless it is held back. -/
def Preserves (codec : TextCodec) (cfg : Config) (mem : LastSnapshotAt) (t : Tree) (path : Text)
    (segs : List Text) (now : ℤ) (before : List UInt8) (contents : String) : Prop :=
  codec.decode (codec.encode contents) = codec.decode before ∨
    ∃ dir d, versionDirFor cfg path = .ok (some dir) ∧ pathSegments dir = .ok d ∧
      (HeldBack cfg mem path now before.length ∧ (∃ name ∈ versionFiles t d, d ++ [name] ≠ segs ∧
          VersionText codec t d name (codec.decode before)) ∨
        ¬ HeldBack cfg mem path now before.length ∧ ∃ time, FirstFree t d now time ∧
          ∃ name ∈ keptNames cfg (versionName time :: versionFiles t d), d ++ [name] ≠ segs ∧
            (name = versionName time ∨ VersionText codec t d name (codec.decode before)))

/-- The versions that a write leaves, those at the place of the file itself aside. -/
theorem snapshotted_versions {t₁ : Tree} (hsnap : Snapshotted cfg d before now t t₁) {text : String}
    (htext : codec.decode before = text) :
    (∃ name, ".md".toList <:+ name ∧ d ++ [name] ≠ segs ∧ VersionText codec t₁ d name text) ↔
      ∃ time, FirstFree t d now time ∧
        ∃ name ∈ keptNames cfg (versionName time :: versionFiles t d), d ++ [name] ≠ segs ∧
          (name = versionName time ∨ VersionText codec t d name text) := by
  obtain ⟨time, hfirst, hlookup⟩ := hsnap
  have hnodup : (versionName time :: versionFiles t d).Nodup := by
    refine List.nodup_cons.mpr ⟨fun hmem => ?_, nodup_versionFiles t d⟩
    obtain ⟨-, bytes, hstored⟩ := mem_versionFiles.mp hmem
    rw [hfirst.2.2] at hstored
    cases hstored
  have hat := lookup_version hlookup
  constructor
  · rintro ⟨name, hmd, hapart, hdots, bytes, hstored, hbytes⟩
    rw [hat] at hstored
    split at hstored
    next => cases hstored
    next hstale =>
      split at hstored
      next hnew =>
        have hmem : name ∈ versionName time :: versionFiles t d := List.mem_cons.mpr (.inl hnew)
        exact ⟨time, hfirst, name, (mem_keptNames cfg hnodup).mpr ⟨hmem, hstale⟩, hapart, .inl hnew⟩
      next =>
        have hmem : name ∈ versionName time :: versionFiles t d :=
          List.mem_cons_of_mem _ (mem_versionFiles.mpr ⟨hmd, bytes, hstored⟩)
        exact ⟨time, hfirst, name, (mem_keptNames cfg hnodup).mpr ⟨hmem, hstale⟩, hapart,
          .inr ⟨hdots, bytes, hstored, hbytes⟩⟩
  · rintro ⟨time', hfirst', name, hkept, hapart, hversion⟩
    rw [hfirst.unique hfirst'] at hkept hversion
    obtain ⟨hmem, hstale⟩ := (mem_keptNames cfg hnodup).mp hkept
    by_cases hnew : name = versionName time
    · refine ⟨name, hnew ▸ List.suffix_append _ _, hapart, hnew ▸ versionName_noDots time,
        before, ?_, htext⟩
      rw [hat, if_neg hstale, if_pos hnew]
    · have hold := (List.mem_cons.mp hmem).resolve_left hnew
      obtain ⟨hdots, bytes, hstored, hbytes⟩ := hversion.resolve_left hnew
      refine ⟨name, (mem_versionFiles.mp hold).1, hapart, hdots, bytes, ?_, hbytes⟩
      rw [hat, if_neg hstale, if_neg hnew]
      exact hstored

/-- A write leaves the versions that are not at its own place. -/
theorem versions_after_write {written : List UInt8} {text : String} :
    (codec.decode written = text ∨ ∃ name ∈ versionFiles (t.insert segs (.file written)) d,
        VersionText codec (t.insert segs (.file written)) d name text) ↔
      codec.decode written = text ∨
        ∃ name, ".md".toList <:+ name ∧ d ++ [name] ≠ segs ∧ VersionText codec t d name text := by
  have hat : ∀ name, d ++ [name] ≠ segs →
      AList.lookup (d ++ [name]) (t.insert segs (.file written)) = t.lookup (d ++ [name]) := by
    intro name hapart
    rw [lookup_insert_eq, if_neg hapart]
  constructor
  · rintro (h | ⟨name, hmem, hdots, bytes, hstored, hbytes⟩)
    · exact .inl h
    · by_cases hapart : d ++ [name] = segs
      · rw [hapart, lookup_insert_eq, if_pos rfl] at hstored
        cases hstored
        exact .inl hbytes
      · rw [hat name hapart] at hstored
        exact .inr ⟨name, (mem_versionFiles.mp hmem).1, hapart, hdots, bytes, hstored, hbytes⟩
  · rintro (h | ⟨name, hmd, hapart, hdots, bytes, hstored, hbytes⟩)
    · exact .inl h
    · have hstored' := (hat name hapart).trans hstored
      exact .inr ⟨name, mem_versionFiles.mpr ⟨hmd, bytes, hstored'⟩, hdots, bytes, hstored', hbytes⟩

/-- The directory of the versions of a path that has one. -/
theorem versionDirFor_eq_some (h : versionDirFor cfg path = .ok (some dir)) :
    ∃ normalized root name, normalizePath path = .ok normalized ∧
      cfg.rootFor normalized = .ok (some root) ∧ root ≠ [] ∧ encodePathAsDir normalized = .ok name ∧
      dir = root ++ '/' :: cfg.versionsDir ++ '/' :: name := by
  rw [versionDirFor] at h
  cases hnorm : normalizePath path with
  | error e =>
      rw [hnorm] at h
      cases h
  | ok normalized =>
      rw [hnorm] at h
      change (cfg.rootFor normalized >>= _) = _ at h
      cases hroot : cfg.rootFor normalized with
      | error e =>
          rw [hroot] at h
          cases h
      | ok root =>
          rw [hroot] at h
          rcases root with _ | _ | ⟨c, root⟩
          · cases h
          · cases h
          · change (encodePathAsDir normalized >>= fun name =>
              pure (some ((c :: root) ++ '/' :: cfg.versionsDir ++ '/' :: name))) = _ at h
            cases hname : encodePathAsDir normalized with
            | error e =>
                rw [hname] at h
                cases h
            | ok name =>
                rw [hname] at h
                cases h
                exact ⟨normalized, c :: root, name, rfl, hroot, List.cons_ne_nil c root, hname, rfl⟩

theorem versionDirFor_ne_nil (h : versionDirFor cfg path = .ok (some dir)) : dir ≠ [] := by
  obtain ⟨_, root, _, -, -, hroot, -, rfl⟩ := versionDirFor_eq_some h
  simp [hroot]

/-- The version that is read lies in the directory of the versions, or is what
stands in its place. -/
theorem Reads.place (hv : t.Valid) {contents : String} (h : Reads codec cfg t path id contents) :
    ∃ dir d, versionDirFor cfg path = .ok (some dir) ∧ pathSegments dir = .ok d ∧
      (t.isDir d ∨ t.lookup d ≠ none) := by
  obtain ⟨hid, dir, l, bytes, hdir, hl, hstored, -⟩ := h
  obtain ⟨hslash, hdots⟩ := not_or.mp hid
  obtain ⟨d, hd⟩ := pathSegments_left (versionDirFor_ne_nil hdir) hl
  refine ⟨dir, d, hdir, hd, ?_⟩
  by_cases hskip : id = [] ∨ id = ['.']
  · have hkept : keepSegments id (id.splitOn '/') = .ok [] := by
      rw [List.splitOn_eq_singleton hslash, keepSegments, if_pos hskip]
      rfl
    have hsame : pathSegments (inDir dir id) = .ok (d ++ []) := pathSegments_slash hd hkept
    rw [hl, List.append_nil] at hsame
    rw [← Except.ok.inj hsame, hstored]
    exact .inr fun hnone => by cases hnone
  · have hname : IsName id := by
      obtain ⟨hempty, hdot⟩ := not_or.mp hskip
      exact ⟨hempty, hdot, fun h => hdots (h ▸ List.infix_refl _), hslash⟩
    have hin := pathSegments_version hd hname
    rw [hl] at hin
    rw [Except.ok.inj hin] at hstored
    exact .inl (isDir_of_stored hv (List.cons_ne_nil id []) hstored)

theorem restoreVersion_spec (fuel : ℕ) {contents : String} (hv : t.Valid)
    (hpath : pathSegments path = .ok segs) (hfile : t.lookup segs = some (.file before))
    (hversioned : cfg.shouldVersion path = .ok true) (hreads : Reads codec cfg t path id contents)
    (hdir : versionDirFor cfg path = .ok (some dir)) (hd : pathSegments dir = .ok d)
    (hthere : t.isDir d ∨ t.lookup d ≠ none) :
    Meets (Serves codec clock) (fun _ _ => True)
      (fun _ _ t' => ∃ t₁, t' = t₁.insert segs (.file (codec.encode contents)) ∧
        (HeldBack cfg mem path clock.now before.length ∧ t₁ = t ∨
          ¬ HeldBack cfg mem path clock.now before.length ∧ Snapshotted cfg d before clock.now t t₁))
      (fun _ _ _ => True) (restoreVersion cfg fuel path id) mem t := by
  rw [restoreVersion, meets_bind]
  refine (readVersion_spec path id).imp (fun contents' _ _ h => ?_) fun _ _ _ _ => trivial
  obtain ⟨rfl, rfl, hreads'⟩ := h
  rw [hreads'.unique hreads]
  refine (writeTextFile_spec hv hpath hfile hdir hd fuel contents hversioned).imp
    (fun _ _ t' hleft => ?_) fun _ _ _ _ => trivial
  obtain ⟨t₁, ht', hleft⟩ := hleft
  refine ⟨t₁, ht', hleft.imp_right fun hsnap => ?_⟩
  exact ⟨hsnap.1, hsnap.2.of_stored hv hthere⟩

end Restoring

/-- After a successful restore, what the file read as is what it reads as now or
what a listed version reads as, exactly where the restore preserves it. -/
theorem restoreVersion_available_iff {τ : Type} [LE τ] [DecidableLE τ] (number : Text → τ)
    (codec : TextCodec) (cfg : Config) (fuel : ℕ) (path id : Text) (segs : List Text)
    (t t' : Tree) (mem mem' : LastSnapshotAt) (clock later : Clock) (before : List UInt8)
    (contents : String) (hv : t.Valid) (hpath : pathSegments path = .ok segs)
    (hfile : t.lookup segs = some (.file before))
    (hversioned : cfg.shouldVersion path = .ok true)
    (hread : Exec (Responds (respond codec clock)) t ((readVersion cfg path id).call mem)
      (.ok contents, mem) t)
    (hrun : Exec (Serves codec clock) t ((restoreVersion cfg fuel path id).call mem)
      (.ok (), mem') t') :
    (FileReads codec t' path (codec.decode before) ∨
        Listed codec cfg number later path mem' t' (codec.decode before)) ↔
      Preserves codec cfg mem t path segs clock.now before contents := by
  have hreads := readVersion_iff.mp hread
  obtain ⟨dir, d, hdir, hd, hthere⟩ := hreads.place hv
  have hv' : t'.Valid := valid_steps hrun hv
  have hleft := (restoreVersion_spec fuel hv hpath hfile hversioned hreads hdir hd hthere).exec hrun
  obtain ⟨t₁, rfl, hleft⟩ := hleft
  have hself : FileReads codec (t₁.insert segs (.file (codec.encode contents))) path
      (codec.decode before) ↔ codec.decode (codec.encode contents) = codec.decode before := by
    constructor
    · rintro ⟨l, bytes, hl, hstored, hbytes⟩
      rw [hpath] at hl
      cases hl
      rw [lookup_insert_eq, if_pos rfl] at hstored
      cases hstored
      exact hbytes
    · intro h
      refine ⟨segs, _, hpath, ?_, h⟩
      rw [lookup_insert_eq, if_pos rfl]
  rw [hself, listed_iff number hv' hdir hd, versions_after_write]
  have hnames : (∃ name, ".md".toList <:+ name ∧ d ++ [name] ≠ segs ∧
        VersionText codec t d name (codec.decode before)) ↔
      ∃ name ∈ versionFiles t d, d ++ [name] ≠ segs ∧
        VersionText codec t d name (codec.decode before) := by
    constructor
    · rintro ⟨name, hmd, hapart, hdots, bytes, hstored, hbytes⟩
      exact ⟨name, mem_versionFiles.mpr ⟨hmd, bytes, hstored⟩, hapart, hdots, bytes, hstored, hbytes⟩
    · rintro ⟨name, hmem, htext⟩
      exact ⟨name, (mem_versionFiles.mp hmem).1, htext⟩
  have hiff : (∃ name, ".md".toList <:+ name ∧ d ++ [name] ≠ segs ∧
        VersionText codec t₁ d name (codec.decode before)) ↔
      (HeldBack cfg mem path clock.now before.length ∧ (∃ name ∈ versionFiles t d, d ++ [name] ≠ segs ∧
          VersionText codec t d name (codec.decode before)) ∨
        ¬ HeldBack cfg mem path clock.now before.length ∧ ∃ time, FirstFree t d clock.now time ∧
          ∃ name ∈ keptNames cfg (versionName time :: versionFiles t d), d ++ [name] ≠ segs ∧
            (name = versionName time ∨ VersionText codec t d name (codec.decode before))) := by
    rcases hleft with ⟨hheld, rfl⟩ | ⟨hheld, hsnap⟩
    · rw [hnames]
      exact ⟨fun h => .inl ⟨hheld, h⟩, fun h => h.elim And.right fun h => absurd hheld h.1⟩
    · rw [snapshotted_versions hsnap rfl]
      exact ⟨fun h => .inr ⟨hheld, h⟩, fun h => h.elim (fun h => absurd h.1 hheld) And.right⟩
  constructor
  · exact Or.imp_right fun h => ⟨dir, d, hdir, hd, hiff.mp h⟩
  · rintro (h | ⟨dir', d', hdir', hd', h⟩)
    · exact .inl h
    · rw [hdir] at hdir'
      cases hdir'
      rw [hd] at hd'
      cases hd'
      exact .inr (hiff.mpr h)

section Sample

/-- Texts of one byte a character. -/
def latin : TextCodec where
  encode s := s.toList.map fun c => UInt8.ofNat c.toNat
  decode bytes := String.ofList (bytes.map fun b => Char.ofNat b.toNat)

/-- The defaults: 30 versions of at most 512 KiB, one in 30 seconds. -/
def defaults : Config := VersioningOptions.config ⟨none, none, none, none, none, none⟩

def notePath : Text := "/Notes/a.md".toList

def noteSegments : List Text := ["Notes".toList, "a.md".toList]

def noteVersions : List Text :=
  ["Notes".toList, ".tactile".toList, "versions".toList, "%2FNotes%2Fa.md-e7ef2572".toList]

/-- A note with one version. -/
def noteTree : Tree :=
  ofPairs [(noteVersions.take 1, .dir), (noteVersions.take 2, .dir), (noteVersions.take 3, .dir),
    (noteVersions, .dir), (noteVersions ++ ["1.md".toList], .file (latin.encode "old")),
    (noteSegments, .file (latin.encode "new"))]

/-- The note was snapshotted a second ago. -/
def noteMemory : LastSnapshotAt := AList.insert notePath 9000 ∅

def noteClock : Clock := ⟨10000, fun _ => none⟩

def laterClock : Clock := ⟨20000, fun _ => none⟩

def restored : (Except VersionError Unit × LastSnapshotAt) × Tree :=
  eval (respond latin noteClock) ((restoreVersion defaults 1 notePath "1.md".toList).call noteMemory)
    noteTree

theorem noteTree_valid : noteTree.Valid := by decide

/-- The version as it is before the restore. -/
theorem note_read : Exec (Responds (respond latin noteClock)) noteTree
    ((readVersion defaults notePath "1.md".toList).call noteMemory)
    (.ok "old", noteMemory) noteTree :=
  exec_eval (respond latin noteClock) ((readVersion defaults notePath "1.md".toList).call noteMemory)
    noteTree

theorem note_restored : Exec (Serves latin noteClock) noteTree
    ((restoreVersion defaults 1 notePath "1.md".toList).call noteMemory)
    (.ok (), noteMemory) restored.2 :=
  Steps.mono (fun _ _ _ _ hans => serves_of_responds hans)
    (exec_eval (respond latin noteClock)
      ((restoreVersion defaults 1 notePath "1.md".toList).call noteMemory) noteTree)

/-- The restore of the note preserves what it read as only if a version does. -/
theorem note_available_iff :
    (FileReads latin restored.2 notePath "new" ∨
        Listed latin defaults (fun _ => 0) laterClock notePath noteMemory restored.2 "new") ↔
      Preserves latin defaults noteMemory noteTree notePath noteSegments 10000
        (latin.encode "new") "old" :=
  restoreVersion_available_iff (fun _ => (0 : ℕ)) latin defaults 1 notePath "1.md".toList
    noteSegments noteTree restored.2 noteMemory noteMemory noteClock laterClock (latin.encode "new") "old"
    noteTree_valid rfl rfl rfl note_read note_restored

/-- A restore a second after a snapshot takes none, and what the note read as is lost. -/
theorem restoreVersion_loses : ¬ ∀ (cfg : Config) (fuel : ℕ) (path id : Text) (segs : List Text)
    (t t' : Tree) (mem mem' : LastSnapshotAt) (clock later : Clock) (before : List UInt8)
    (contents : String), 1 ≤ cfg.maxVersions → t.Valid → pathSegments path = .ok segs →
    t.lookup segs = some (.file before) → cfg.shouldVersion path = .ok true →
    Exec (Responds (respond latin clock)) t ((readVersion cfg path id).call mem)
      (.ok contents, mem) t →
    Exec (Serves latin clock) t ((restoreVersion cfg fuel path id).call mem) (.ok (), mem') t' →
    FileReads latin t' path (latin.decode before) ∨
      Listed latin cfg (fun _ => 0) later path mem' t' (latin.decode before) := by
  intro h
  have hlost := h defaults 1 notePath "1.md".toList noteSegments noteTree restored.2 noteMemory
    noteMemory noteClock laterClock (latin.encode "new") "old" (by decide) noteTree_valid rfl rfl rfl
    note_read note_restored
  have hv : Tree.Valid restored.2 := valid_steps note_restored noteTree_valid
  have hdir : versionDirFor defaults notePath = .ok (some (render noteVersions)) := rfl
  have hd : pathSegments (render noteVersions) = .ok noteVersions := rfl
  rw [listed_iff (fun _ => (0 : ℕ)) hv hdir hd] at hlost
  rcases hlost with ⟨l, bytes, hl, hstored, hbytes⟩ | ⟨name, hmem, -, bytes, hstored, hbytes⟩
  · cases hl
    cases hstored
    exact absurd hbytes (by decide)
  · have hfiles : versionFiles restored.2 noteVersions = ["1.md".toList] := rfl
    rw [hfiles, List.mem_singleton] at hmem
    subst hmem
    cases hstored
    exact absurd hbytes (by decide)

end Sample

end Tactile.Storage.Versioned

import Tactile.Storage.VersionDirs

/-!
What a removal does to the histories: which versions go with the path, and when
these are the versions of the paths that are removed.
-/

namespace Tactile.Storage.Removal

open Tactile.Lib.Program Tactile.Lib.Script Tactile.Lib.FiniteMap
open Tactile.Storage.Paths Tactile.Storage.Opfs Tactile.Storage.Backend
open Tactile.Storage.Versioned Tactile.Storage.VersionDirs

/-- A place that goes with a path: one at it or in it, or in its directory of versions. -/
def Goes (cfg : Config) (path : Text) (segs l : List Text) : Prop :=
  segs <+: l ∨ cfg.shouldVersion path = .ok true ∧
    ∃ dir d, versionDirFor cfg path = .ok (some dir) ∧ pathSegments dir = .ok d ∧ d <+: l

section Removing

variable {codec : TextCodec} {clock : Clock} {cfg : Config} {mem : LastSnapshotAt} {t : Tree}
variable {path normalized : Text} {segs : List Text}

/-- What is left of a tree after a removal. -/
def Leaves (cfg : Config) (path : Text) (segs : List Text) (t t' : Tree) : Prop :=
  ∀ l, (Goes cfg path segs l → t'.lookup l = none) ∧
    (¬ Goes cfg path segs l → t'.lookup l = t.lookup l)

theorem goes_iff_of_unversioned (h : cfg.shouldVersion path ≠ .ok true) {l : List Text} :
    Goes cfg path segs l ↔ segs <+: l := by
  constructor
  · rintro (hin | ⟨hversioned, -⟩)
    · exact hin
    · exact absurd hversioned h
  · exact .inl

theorem leaves_of_removed {d : List Text} (hgoes : ∀ l, Goes cfg path segs l ↔ segs <+: l ∨ d <+: l) :
    Leaves cfg path segs t
      (select (select t fun q _ => !segs.isPrefixOf q) fun q _ => !d.isPrefixOf q) := by
  intro l
  rw [hgoes, lookup_removed, lookup_removed]
  constructor
  · rintro (hin | hin)
    · simp [hin]
    · simp [hin]
  · intro hout
    rw [not_or] at hout
    rw [if_neg hout.2, if_neg hout.1]

/-- A removal that goes through removes what goes with the path, and nothing else. -/
theorem remove_spec (hv : t.Valid) (hnormal : normalizePath path = .ok normalized)
    (hpath : pathSegments path = .ok segs) (recursive : Bool) :
    Meets (Serves codec clock) (fun _ _ => True) (fun _ _ t' => Leaves cfg normalized segs t t')
      (fun _ _ _ => True) (remove cfg path recursive) mem t := by
  rw [remove, meets_bind]
  refine meets_pathResult fun _ h => ?_
  rw [hnormal] at h
  cases h
  rw [meets_bind, meets_update, meets_bind]
  refine meets_inner fun _ t₁ hans => ?_
  rw [respond, writing_ok hpath] at hans
  obtain ⟨-, -, -, rfl⟩ := removeAt_eq_ok.mp hans
  have hleft : (∀ l, Goes cfg normalized segs l ↔ segs <+: l) →
      Leaves cfg normalized segs t (select t fun q _ => !segs.isPrefixOf q) := by
    intro hgoes l
    rw [hgoes, lookup_removed]
    exact ⟨fun hin => if_pos hin, fun hout => if_neg hout⟩
  rw [meets_bind]
  refine meets_pathResult fun versioned hversioned => ?_
  split
  next htrue =>
    subst htrue
    rw [meets_bind]
    refine meets_pathResult fun place hplace => ?_
    cases place with
    | none =>
        refine hleft fun l => ⟨?_, .inl⟩
        rintro (hin | ⟨-, dir, d, hdir, -⟩)
        · exact hin
        · rw [hplace] at hdir
          cases hdir
    | some dir =>
        change Meets _ _ _ _ (inner (.exists dir) >>= _) _ _
        rw [meets_bind]
        refine meets_inner fun there t₂ hexists => ?_
        obtain ⟨d, hd, hthere, rfl⟩ := of_reading hexists
        have hgoes : ∀ l, Goes cfg normalized segs l ↔ segs <+: l ∨ d <+: l := by
          intro l
          rw [Goes]
          refine or_congr_right ⟨?_, fun hin => ⟨hversioned, dir, d, hplace, hd, hin⟩⟩
          rintro ⟨-, dir', d', hdir', hd', hin⟩
          rw [hplace] at hdir'
          cases hdir'
          rw [hd] at hd'
          cases hd'
          exact hin
        split
        next =>
          refine meets_inner fun _ t₃ hremove => ?_
          rw [respond, writing_ok hd] at hremove
          obtain ⟨-, -, -, rfl⟩ := removeAt_eq_ok.mp hremove
          exact leaves_of_removed hgoes
        next hnot =>
          have hfree : ¬ existsAt (select t fun q _ => !segs.isPrefixOf q) d = true := by
            rw [Except.ok.inj hthere]
            exact hnot
          obtain ⟨hroot, hnone⟩ := not_or.mp (mt decide_eq_true hfree)
          have hnone := Option.not_isSome_iff_eq_none.mp hnone
          have hbelow : ∀ l, d <+: l → (select t fun q _ => !segs.isPrefixOf q).lookup l = none := by
            rintro _ ⟨rest, rfl⟩
            exact free_below (valid_removed hv) hnone hroot rest
          intro l
          rw [hgoes]
          constructor
          · rintro (hin | hin)
            · rw [lookup_removed, if_pos hin]
            · exact hbelow l hin
          · intro hout
            rw [lookup_removed, if_neg (not_or.mp hout).1]
  next hfalse =>
    refine hleft fun l => goes_iff_of_unversioned ?_
    rw [hversioned]
    simp [hfalse]

end Removing

/-- Every list of the versions of a path that returns is empty. -/
def ListsNone (codec : TextCodec) (cfg : Config) (number : Text → ℤ) (q : Text) (t : Tree) : Prop :=
  ∀ (clock : Clock) (mem mem' : LastSnapshotAt) (versions : List (FileVersion ℤ)) (t' : Tree),
    Exec (Serves codec clock) t ((listVersions cfg number q).call mem) (.ok versions, mem') t' →
      versions = []

/-- A directory has the same versions in two trees. -/
def SameVersions (d : List Text) (t t' : Tree) : Prop :=
  ∀ name bytes, ".md".toList <:+ name →
    (t'.lookup (d ++ [name]) = some (.file bytes) ↔ t.lookup (d ++ [name]) = some (.file bytes))

/-- The histories of the paths at a place or in it are gone, all others are as before. -/
structure HistoriesFollow (codec : TextCodec) (cfg : Config) (number : Text → ℤ) (segs : List Text)
    (t t' : Tree) : Prop where
  within : ∀ q l, cfg.shouldVersion q = .ok true → pathSegments q = .ok l → segs <+: l →
    ListsNone codec cfg number q t'
  others : ∀ q l dir d, cfg.shouldVersion q = .ok true → pathSegments q = .ok l → ¬ segs <+: l →
    versionDirFor cfg q = .ok (some dir) → pathSegments dir = .ok d → SameVersions d t t'

/-- The stored versions that go with a path are those of the paths at it or in it. -/
def VersionsGo (cfg : Config) (path : Text) (segs : List Text) (t : Tree) : Prop :=
  ∀ q l dir d, cfg.shouldVersion q = .ok true → pathSegments q = .ok l →
    versionDirFor cfg q = .ok (some dir) → pathSegments dir = .ok d →
    ∀ name ∈ versionFiles t d, (segs <+: l ↔ Goes cfg path segs (d ++ [name]))

section Lists

variable {codec : TextCodec} {clock : Clock} {cfg : Config} {mem mem' : LastSnapshotAt}
variable {number : Text → ℤ} {q dir : Text} {d : List Text} {t t' : Tree}
variable {versions : List (FileVersion ℤ)}

/-- A list that returns shows the directory of the versions, if there is one. -/
theorem listVersions_shows (hv : t.Valid) :
    Meets (Serves codec clock) (fun _ _ => True)
      (fun versions _ _ => versions = [] ∨ ∃ dir d, versionDirFor cfg q = .ok (some dir) ∧
        pathSegments dir = .ok d ∧ Lists number t d versions)
      (fun _ _ _ => True) (listVersions cfg number q) mem t := by
  cases hplace : versionDirFor cfg q with
  | error e =>
      rw [listVersions, hplace]
      exact trivial
  | ok place =>
      cases place with
      | none =>
          rw [listVersions, hplace]
          exact .inl rfl
      | some dir =>
          cases hd : pathSegments dir with
          | error e =>
              rw [listVersions, hplace]
              change Meets _ _ _ _ (inner (.exists dir) >>= _) mem t
              rw [meets_bind]
              refine meets_inner fun there t₁ hans => ?_
              obtain ⟨d, hd', -⟩ := of_reading hans
              rw [hd] at hd'
              cases hd'
          | ok d =>
              apply (listVersions_lists number hv hplace hd serves_answersAs).imp
              · rintro versions _ _ ⟨-, -, hlists⟩
                exact .inr ⟨dir, d, rfl, hd, hlists⟩
              · exact fun _ _ _ _ => trivial

theorem versionFiles_of_listsNone (h : ListsNone codec cfg number q t) (hv : t.Valid)
    (hdir : versionDirFor cfg q = .ok (some dir)) (hd : pathSegments dir = .ok d) :
    versionFiles t d = [] := by
  apply List.eq_nil_iff_forall_not_mem.mpr
  intro name hname
  obtain ⟨-, bytes, hstored⟩ := mem_versionFiles.mp hname
  let later : Clock := ⟨0, fun _ => none⟩
  have hlists : Meets (Responds (respond codec later)) _ _ _ (listVersions cfg number q) ∅ t :=
    listVersions_spec number hv hdir hd
  obtain ⟨⟨out, mem⟩, t₁, hexec, hout⟩ := hlists.exists_exec fun _ _ _ => ⟨_, _, rfl⟩
  cases out with
  | error e => exact hout.2 (isDir_of_stored hv (List.cons_ne_nil name []) hstored)
  | ok versions =>
      obtain ⟨-, -, hshown⟩ := hout
      have hnone := h later _ _ _ _ (Steps.mono (fun _ _ _ _ hans => serves_of_responds hans) hexec)
      subst hnone
      exact absurd ((hshown name).mpr hname) (by simp)

end Lists

/-- After a removal that went through, the histories of the paths that were removed are
gone and all others are as they were, exactly if the versions that lie with the path or
in its own directory of versions are those of the paths at it or in it. -/
theorem remove_histories_iff (codec : TextCodec) (cfg : Config) (number : Text → ℤ)
    (path normalized : Text) (segs : List Text) (recursive : Bool) (clock : Clock)
    (mem mem' : LastSnapshotAt) (t t' : Tree) (hv : t.Valid)
    (hnormal : normalizePath path = .ok normalized) (hpath : pathSegments path = .ok segs)
    (hrun : Exec (Serves codec clock) t ((remove cfg path recursive).call mem) (.ok (), mem') t') :
    HistoriesFollow codec cfg number segs t t' ↔ VersionsGo cfg normalized segs t := by
  have hv' : t'.Valid := valid_steps hrun hv
  have hleaves : Leaves cfg normalized segs t t' := (remove_spec hv hnormal hpath recursive).exec hrun
  constructor
  · intro h q l dir d hversioned hl hdir hd name hname
    obtain ⟨hmd, bytes, hstored⟩ := mem_versionFiles.mp hname
    constructor
    · intro hin
      by_contra hstays
      have hempty := versionFiles_of_listsNone (h.within q l hversioned hl hin) hv' hdir hd
      have hkept : name ∈ versionFiles t' d := by
        refine mem_versionFiles.mpr ⟨hmd, bytes, ?_⟩
        rw [(hleaves _).2 hstays, hstored]
      rw [hempty] at hkept
      exact List.not_mem_nil hkept
    · intro hgoes
      by_contra hout
      have hsame := (h.others q l dir d hversioned hl hout hdir hd name bytes hmd).mpr hstored
      rw [(hleaves _).1 hgoes] at hsame
      cases hsame
  · intro h
    constructor
    · intro q l hversioned hl hin clock' mem₁ mem₂ versions t₁ hexec
      rcases (listVersions_shows hv').exec hexec with hnone | ⟨dir, d, hdir, hd, hlists⟩
      · exact hnone
      · by_contra hsome
        obtain ⟨v, rest, rfl⟩ := List.exists_cons_of_ne_nil hsome
        have hshown : v.id ∈ versionFiles t' d := hlists.perm.subset List.mem_cons_self
        obtain ⟨hmd, bytes, hstored⟩ := mem_versionFiles.mp hshown
        by_cases hgoes : Goes cfg normalized segs (d ++ [v.id])
        · rw [(hleaves _).1 hgoes] at hstored
          cases hstored
        · rw [(hleaves _).2 hgoes] at hstored
          have hname := mem_versionFiles.mpr ⟨hmd, bytes, hstored⟩
          exact hgoes ((h q l dir d hversioned hl hdir hd v.id hname).mp hin)
    · intro q l dir d hversioned hl hout hdir hd name bytes hmd
      have hstays : ∀ b, t.lookup (d ++ [name]) = some (.file b) → ¬ Goes cfg normalized segs (d ++ [name]) := by
        intro b hstored hgoes
        have hname := mem_versionFiles.mpr ⟨hmd, b, hstored⟩
        exact hout ((h q l dir d hversioned hl hdir hd name hname).mpr hgoes)
      constructor
      · intro hstored
        by_cases hgoes : Goes cfg normalized segs (d ++ [name])
        · rw [(hleaves _).1 hgoes] at hstored
          cases hstored
        · rwa [(hleaves _).2 hgoes] at hstored
      · intro hstored
        rw [(hleaves _).2 (hstays bytes hstored), hstored]

section Sample

/-- The note without its directory of versions. -/
def removedNote : (Except VersionError Unit × LastSnapshotAt) × Tree :=
  eval (respond latin noteClock) ((remove defaults notePath false).call ∅) noteTree

theorem note_histories_iff :
    HistoriesFollow latin defaults (fun _ => 0) noteSegments noteTree removedNote.2 ↔
      VersionsGo defaults notePath noteSegments noteTree :=
  remove_histories_iff latin defaults (fun _ => 0) notePath notePath noteSegments false noteClock ∅ removedNote.1.2
    noteTree removedNote.2 noteTree_valid rfl rfl (served_of_eval rfl)

def folderPath : Text := "/Notes/sub".toList

def folderSegments : List Text := ["Notes".toList, "sub".toList]

def innerPath : Text := "/Notes/sub/a.md".toList

def innerVersions : List Text :=
  ["Notes".toList, ".tactile".toList, "versions".toList, "%2FNotes%2Fsub%2Fa.md-c13a2fd1".toList]

/-- A folder with a note that has a version. -/
def folderTree : Tree :=
  ofPairs [(innerVersions.take 1, .dir), (innerVersions.take 2, .dir), (innerVersions.take 3, .dir),
    (innerVersions, .dir), (innerVersions ++ ["1.md".toList], .file (latin.encode "old")),
    (folderSegments, .dir), (folderSegments ++ ["a.md".toList], .file (latin.encode "new"))]

def removedFolder : (Except VersionError Unit × LastSnapshotAt) × Tree :=
  eval (respond latin noteClock) ((remove defaults folderPath true).call ∅) folderTree

/-- The history of a note stays when its folder is removed. -/
theorem folder_history_stays :
    Exec (Serves latin noteClock) folderTree ((remove defaults folderPath true).call ∅)
      (.ok (), removedFolder.1.2) removedFolder.2 ∧
    ¬ HistoriesFollow latin defaults (fun _ => 0) folderSegments folderTree removedFolder.2 := by
  have hexec : Exec (Serves latin noteClock) folderTree ((remove defaults folderPath true).call ∅)
      (.ok (), removedFolder.1.2) removedFolder.2 := served_of_eval rfl
  refine ⟨hexec, fun h => ?_⟩
  have hv : removedFolder.2.Valid := valid_steps hexec (by decide)
  have hnone := h.within innerPath (folderSegments ++ ["a.md".toList]) rfl rfl (List.prefix_append _ _)
  have hdir : versionDirFor defaults innerPath = .ok (some (render innerVersions)) := rfl
  have hd : pathSegments (render innerVersions) = .ok innerVersions := rfl
  have hempty := versionFiles_of_listsNone hnone hv hdir hd
  have hleft : versionFiles removedFolder.2 innerVersions = ["1.md".toList] := rfl
  rw [hleft] at hempty
  cases hempty

end Sample

end Tactile.Storage.Removal

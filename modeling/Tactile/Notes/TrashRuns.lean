import Tactile.Notes.TrashEntries
import Tactile.Storage.Restoring

/-!
Calls of the trash that run in any order, one operation of the storage at a time: when the
manifest and the directory of the trash agree after them.
-/

namespace Tactile.Notes.TrashRuns

open Tactile.Lib Tactile.Lib.Program Tactile.Lib.Script Tactile.Lib.FiniteMap Tactile.Lib.Threads
open Tactile.Lib.Transition
open Tactile.Storage.Paths Tactile.Storage.Idb Tactile.Storage.Opfs Tactile.Storage.Backend
open Tactile.Notes.Trash Tactile.Notes.TrashEntries
open Tactile.Notes.Naming (dirOf)
open Tactile.Storage.Restoring (utf8Codec)
open Tactile.Lib.Text (utf8 utf8_cons)
open Tactile.Lib.Utf8 (bom decode decode_utf8)

/-- What moves into the trash comes from outside of it and has a name, and what is deleted is
given by its name. -/
def Proper (root : List Text) : TrashCall → Prop
  | .moveToTrash path _ =>
    IsName (lastSegment path) ∧ ∀ l, pathSegments path = .ok l → Outside root l
  | .deleteTrashItem name => IsName name
  | _ => True

structure Fit (root : List Text) (item : TrashItem) : Prop where
  isName : IsName item.name
  origin : ∃ l, pathSegments item.originalPath = .ok l ∧ Outside root l

/-- What holds of the files and of the calls in progress at any time. -/
structure Inv (root : List Text) (texts : TrashTexts) (s : State) (tracks : ℕ → Option Track) :
    Prop where
  valid : s.1.Valid
  nodup : (namesOf (manifestItems root texts s.1)).Nodup
  fit : ∀ item ∈ manifestItems root texts s.1, Fit root item
  read : ∀ n x, tracks n = some x → ∀ item ∈ x.items, Fit root item
  proper : ∀ n x, tracks n = some x → Proper root x.call
  moved : ∀ n x name, tracks n = some x → x.phase = .put name → ∃ path isFolder,
    x.call = .moveToTrash path isFolder ∧ ∀ deletedAt, Fit root ⟨name, path, deletedAt, isFolder⟩
  put : ∀ n x name, tracks n = some x → x.phase = .put name →
    (s.1.lookup (trashDir root ++ [name])).isSome ∧ name ∉ namesOf (manifestItems root texts s.1)
  alone : ∀ n m x y name, tracks n = some x → tracks m = some y → x.phase = .put name →
    y.phase = .put name → n = m
  taken : ∀ n x name, tracks n = some x → x.phase = .taken → x.call.takes name = true →
    s.1.lookup (trashDir root ++ [name]) = none
  listed : ∀ name, (s.1.lookup (trashDir root ++ [name])).isSome →
    name ∈ namesOf (manifestItems root texts s.1) ∨ ∃ n x, tracks n = some x ∧ x.phase = .put name
  present : ∀ name ∈ namesOf (manifestItems root texts s.1),
    (s.1.lookup (trashDir root ++ [name])).isSome ∨
      ∃ n x, tracks n = some x ∧ x.phase = .taken ∧ x.call.takes name = true
  contents : ∀ e ∈ s.2, (e.contents []).isSome ∧
    ∀ rest, s.1.lookup (trashDir root ++ e.name :: rest) = e.contents rest
  recorded : ∀ e ∈ s.2,
    (∃ item ∈ manifestItems root texts s.1, item.name = e.name ∧ item.originalPath = e.originalPath) ∨
      ∃ n x, tracks n = some x ∧ x.phase = .put e.name ∧
        ∃ isFolder, x.call = .moveToTrash e.originalPath isFolder

section Steps

variable {root : List Text} {texts : TrashTexts} {s : State} {t' : Tree} {entries : List Trashed}
variable {tracks : ℕ → Option Track} {n : ℕ} {x x' : Track} {name : Text}

theorem of_update {m : ℕ} {y : Track} (h : Function.update tracks n (some x') m = some y) :
    m = n ∧ y = x' ∨ m ≠ n ∧ tracks m = some y := by
  rw [Function.update_apply] at h
  split at h
  next heq => exact .inl ⟨heq, (Option.some.inj h).symm⟩
  next hne => exact .inr ⟨hne, h⟩

theorem exists_update {P : Track → Prop} (hP : ∀ y, tracks n = some y → P y → P x')
    (h : ∃ m y, tracks m = some y ∧ P y) :
    ∃ m y, Function.update tracks n (some x') m = some y ∧ P y := by
  obtain ⟨m, y, hy, hPy⟩ := h
  by_cases hm : m = n
  · subst hm
    exact ⟨m, x', Function.update_self .., hP y hy hPy⟩
  · exact ⟨m, y, (Function.update_of_ne hm ..).trans hy, hPy⟩

theorem exists_update_of_not {P : Track → Prop} (hx : tracks n = some x) (hnot : ¬ P x)
    (h : ∃ m y, tracks m = some y ∧ P y) :
    ∃ m y, Function.update tracks n (some x') m = some y ∧ P y := by
  refine exists_update (fun y hy hP => ?_) h
  rw [hx] at hy
  cases hy
  exact absurd hP hnot

/-- A step that puts nothing into the trash and takes nothing out of it. -/
theorem Inv.quiet (h : Inv root texts s tracks) (hsame : ∀ y, tracks n = some y →
      y.call = x'.call ∧ y.phase = x'.phase)
    (hnew : tracks n = none → x'.phase = .before) (hproper : Proper root x'.call)
    (hfit : ∀ item ∈ x'.items, Fit root item) :
    Inv root texts s (Function.update tracks n (some x')) := by
  have hold : ∀ m y, Function.update tracks n (some x') m = some y → y.phase ≠ .before →
      ∃ z, tracks m = some z ∧ z.call = y.call ∧ z.phase = y.phase := by
    intro m y hy hphase
    rcases of_update hy with ⟨rfl, rfl⟩ | ⟨-, hy⟩
    · cases hz : tracks m with
      | none => exact absurd (hnew hz) hphase
      | some z => exact ⟨z, rfl, hsame z hz⟩
    · exact ⟨y, hy, rfl, rfl⟩
  refine ⟨h.valid, h.nodup, h.fit, ?_, ?_, ?_, ?_, ?_, ?_, ?_, ?_, h.contents, ?_⟩
  · intro m y hy
    rcases of_update hy with ⟨rfl, rfl⟩ | ⟨-, hy⟩
    · exact hfit
    · exact h.read m y hy
  · intro m y hy
    rcases of_update hy with ⟨rfl, rfl⟩ | ⟨-, hy⟩
    · exact hproper
    · exact h.proper m y hy
  · intro m y name hy hput
    obtain ⟨z, hz, hcall, hphase⟩ := hold m y hy (by simp [hput])
    exact hcall ▸ h.moved m z name hz (hphase.trans hput)
  · intro m y name hy hput
    obtain ⟨z, hz, -, hphase⟩ := hold m y hy (by simp [hput])
    exact h.put m z name hz (hphase.trans hput)
  · intro m m' y y' name hy hy' hput hput'
    obtain ⟨z, hz, -, hphase⟩ := hold m y hy (by simp [hput])
    obtain ⟨z', hz', -, hphase'⟩ := hold m' y' hy' (by simp [hput'])
    exact h.alone m m' z z' name hz hz' (hphase.trans hput) (hphase'.trans hput')
  · intro m y name hy htaken htakes
    obtain ⟨z, hz, hcall, hphase⟩ := hold m y hy (by simp [htaken])
    exact h.taken m z name hz (hphase.trans htaken) (hcall ▸ htakes)
  · exact fun name hsome => (h.listed name hsome).imp id
      (exists_update fun y hy hput => (hsame y hy).2 ▸ hput)
  · exact fun name hname => (h.present name hname).imp id
      (exists_update fun y hy htakes => (hsame y hy).1 ▸ (hsame y hy).2 ▸ htakes)
  · exact fun e he => (h.recorded e he).imp id
      (exists_update fun y hy hput => (hsame y hy).1 ▸ (hsame y hy).2 ▸ hput)

theorem Inv.after_phase (h : Inv root texts s tracks) (hx : tracks n = some x) {phase : Phase} (m : ℕ)
    (y : Track) (hy : Function.update tracks n (some { x with phase := phase }) m = some y) :
    (∀ item ∈ y.items, Fit root item) ∧ Proper root y.call := by
  rcases of_update hy with ⟨rfl, rfl⟩ | ⟨-, hy⟩
  · exact ⟨h.read m x hx, h.proper m x hx⟩
  · exact ⟨h.read m y hy, h.proper m y hy⟩

/-- A change that does not concern the trash. -/
theorem Inv.apart (h : Inv root texts s tracks) (hapart : Apart root texts s.1 t') :
    Inv root texts (t', s.2) tracks := by
  have hentry : ∀ name, t'.lookup (trashDir root ++ [name]) = s.1.lookup (trashDir root ++ [name]) :=
    fun name => hapart.entries name []
  refine ⟨hapart.valid, ?_, ?_, h.read, h.proper, h.moved, ?_, h.alone, ?_, ?_, ?_, ?_, ?_⟩
  · exact hapart.items ▸ h.nodup
  · exact hapart.items ▸ h.fit
  · intro m y name hy hput
    rw [hentry, hapart.items]
    exact h.put m y name hy hput
  · intro m y name hy htaken htakes
    rw [hentry]
    exact h.taken m y name hy htaken htakes
  · intro name hsome
    rw [hentry] at hsome
    rw [hapart.items]
    exact h.listed name hsome
  · intro name hname
    rw [hapart.items] at hname
    rw [hentry]
    exact h.present name hname
  · intro e he
    refine ⟨(h.contents e he).1, fun rest => ?_⟩
    rw [hapart.entries]
    exact (h.contents e he).2 rest
  · rw [hapart.items]
    exact h.recorded

/-- One call has put an entry into the trash that another one, which has not unlisted it yet,
has taken out of it. -/
def Crossing (x y : Track) : Prop :=
  ∃ name, x.phase = .put name ∧ y.phase = .taken ∧ y.call.takes name = true

/-- Entries are taken out of the trash that no move is about to list. -/
theorem Inv.taking (h : Inv root texts s tracks) (hx : tracks n = some x) (hbefore : x.phase = .before)
    (htaken : Taken root texts x.call.takes s.1 t')
    (hcross : ∀ m y, m ≠ n → tracks m = some y → ¬ Crossing y { x with phase := .taken })
    (hentries : ∀ e ∈ entries, e ∈ s.2 ∧ x.call.takes e.name = false) :
    Inv root texts (t', entries) (Function.update tracks n (some { x with phase := .taken })) := by
  have hkept : ∀ name, x.call.takes name = false → ∀ rest,
      t'.lookup (trashDir root ++ name :: rest) = s.1.lookup (trashDir root ++ name :: rest) := by
    intro name hnot rest
    rw [htaken.entries, hnot]
    rfl
  have hgone : ∀ name, x.call.takes name = true → t'.lookup (trashDir root ++ [name]) = none := by
    intro name htakes
    rw [htaken.entries, if_pos htakes]
  -- the moves in progress are those of other calls, and their entries are left
  have hput : ∀ m y name, Function.update tracks n (some { x with phase := .taken }) m = some y →
      y.phase = .put name → tracks m = some y ∧ x.call.takes name = false := by
    intro m y name hy hphase
    rcases of_update hy with ⟨rfl, rfl⟩ | ⟨hm, hy⟩
    · cases hphase
    · refine ⟨hy, Bool.eq_false_of_not_eq_true fun htakes => ?_⟩
      exact hcross m y hm hy ⟨name, hphase, rfl, htakes⟩
  refine ⟨htaken.valid, ?_, ?_, ?_, ?_, ?_, ?_, ?_, ?_, ?_, ?_, ?_, ?_⟩
  · exact htaken.items ▸ h.nodup
  · exact htaken.items ▸ h.fit
  · exact fun m y hy => (h.after_phase hx m y hy).1
  · exact fun m y hy => (h.after_phase hx m y hy).2
  · exact fun m y name hy hphase => h.moved m y name (hput m y name hy hphase).1 hphase
  · intro m y name hy hphase
    obtain ⟨hy, hnot⟩ := hput m y name hy hphase
    rw [hkept name hnot, htaken.items]
    exact h.put m y name hy hphase
  · intro m m' y y' name hy hy' hphase hphase'
    exact h.alone m m' y y' name (hput m y name hy hphase).1 (hput m' y' name hy' hphase').1 hphase
      hphase'
  · intro m y name hy hphase htakes
    rcases of_update hy with ⟨rfl, rfl⟩ | ⟨-, hy⟩
    · exact hgone name htakes
    · have hnone := h.taken m y name hy hphase htakes
      rw [htaken.entries, hnone, ite_self]
  · intro name hsome
    by_cases htakes : x.call.takes name = true
    · rw [hgone name htakes] at hsome
      cases hsome
    · rw [hkept name (Bool.eq_false_of_not_eq_true htakes)] at hsome
      rw [htaken.items]
      exact (h.listed name hsome).imp id (exists_update_of_not hx (by simp [hbefore]))
  · intro name hname
    rw [htaken.items] at hname
    by_cases htakes : x.call.takes name = true
    · exact .inr ⟨n, _, Function.update_self .., rfl, htakes⟩
    · rw [hkept name (Bool.eq_false_of_not_eq_true htakes)]
      refine (h.present name hname).imp id (exists_update_of_not hx fun hnot => ?_)
      exact absurd hnot.1 (by simp [hbefore])
  · intro e he
    obtain ⟨he, hnot⟩ := hentries e he
    refine ⟨(h.contents e he).1, fun rest => ?_⟩
    rw [hkept _ hnot]
    exact (h.contents e he).2 rest
  · intro e he
    rw [htaken.items]
    refine (h.recorded e (hentries e he).1).imp id (exists_update_of_not hx fun hnot => ?_)
    exact absurd hnot.1 (by simp [hbefore])

/-- An entry is put under a name that no other call is about to unlist. -/
theorem Inv.putting {path : Text} {isFolder : Bool} {src : List Text} (h : Inv root texts s tracks)
    (hx : tracks n = some x) (hbefore : x.phase = .before)
    (hcall : x.call = .moveToTrash path isFolder) (hput : Put root texts src name s.1 t')
    (hfit : ∀ deletedAt, Fit root ⟨name, path, deletedAt, isFolder⟩)
    (hcross : ∀ m y, m ≠ n → tracks m = some y → ¬ Crossing { x with phase := .put name } y)
    (hentries : ∀ e ∈ entries,
      e ∈ s.2 ∨ e = ⟨name, path, fun rest => s.1.lookup (src ++ rest)⟩) :
    Inv root texts (t', entries) (Function.update tracks n (some { x with phase := .put name })) := by
  have hentry : t'.lookup (trashDir root ++ [name]) = s.1.lookup src := by
    rw [hput.entry, List.append_nil]
  have hnone : ∀ m y, tracks m = some y → y.phase ≠ .put name := by
    intro m y hy hphase
    have hsome := (h.put m y name hy hphase).1
    rw [hput.free] at hsome
    cases hsome
  -- a name that the manifest lists without an entry is about to be unlisted
  have hunlisted : name ∉ namesOf (manifestItems root texts s.1) := by
    intro hname
    rcases h.present name hname with hsome | ⟨m, y, hy, hphase, htakes⟩
    · rw [hput.free] at hsome
      cases hsome
    · by_cases hm : m = n
      · subst hm
        rw [hx] at hy
        cases hy
        rw [hbefore] at hphase
        cases hphase
      · exact hcross m y hm hy ⟨name, rfl, hphase, htakes⟩
  refine ⟨hput.valid, ?_, ?_, ?_, ?_, ?_, ?_, ?_, ?_, ?_, ?_, ?_, ?_⟩
  · exact hput.items ▸ h.nodup
  · exact hput.items ▸ h.fit
  · exact fun m y hy => (h.after_phase hx m y hy).1
  · exact fun m y hy => (h.after_phase hx m y hy).2
  · intro m y other hy hphase
    rcases of_update hy with ⟨rfl, rfl⟩ | ⟨-, hy⟩
    · cases hphase
      exact ⟨path, isFolder, hcall, hfit⟩
    · exact h.moved m y other hy hphase
  · intro m y other hy hphase
    rw [hput.items]
    rcases of_update hy with ⟨rfl, rfl⟩ | ⟨-, hold⟩
    · cases hphase
      rw [hentry]
      exact ⟨hput.stored, hunlisted⟩
    · have hne : other ≠ name := by
        rintro rfl
        exact hnone m y hold hphase
      rw [hput.others other [] hne]
      exact h.put m y other hold hphase
  · intro m m' y y' other hy hy' hphase hphase'
    rcases of_update hy with ⟨rfl, rfl⟩ | ⟨-, hold⟩
    · cases hphase
      rcases of_update hy' with ⟨rfl, rfl⟩ | ⟨-, hold'⟩
      · rfl
      · exact absurd hphase' (hnone m' y' hold')
    · rcases of_update hy' with ⟨rfl, rfl⟩ | ⟨-, hold'⟩
      · cases hphase'
        exact absurd hphase (hnone m y hold)
      · exact h.alone m m' y y' other hold hold' hphase hphase'
  · intro m y other hy hphase htakes
    rcases of_update hy with ⟨rfl, rfl⟩ | ⟨hm, hold⟩
    · cases hphase
    · have hne : other ≠ name := by
        rintro rfl
        exact hcross m y hm hold ⟨other, rfl, hphase, htakes⟩
      rw [hput.others other [] hne]
      exact h.taken m y other hold hphase htakes
  · intro other hsome
    by_cases hname : other = name
    · exact .inr ⟨n, _, Function.update_self .., hname ▸ rfl⟩
    · rw [hput.others other [] hname] at hsome
      rw [hput.items]
      exact (h.listed other hsome).imp id (exists_update_of_not hx (by simp [hbefore]))
  · intro other hother
    rw [hput.items] at hother
    have hne : other ≠ name := by
      rintro rfl
      exact hunlisted hother
    rw [hput.others other [] hne]
    refine (h.present other hother).imp id (exists_update_of_not hx fun hnot => ?_)
    exact absurd hnot.1 (by simp [hbefore])
  · intro e he
    rcases hentries e he with he | rfl
    · obtain ⟨hsome, hcontents⟩ := h.contents e he
      have hne : e.name ≠ name := by
        intro hname
        rw [← hcontents, hname, hput.free] at hsome
        cases hsome
      refine ⟨hsome, fun rest => ?_⟩
      rw [hput.others e.name rest hne]
      exact hcontents rest
    · refine ⟨?_, hput.entry⟩
      dsimp only
      rw [List.append_nil]
      exact hput.stored
  · intro e he
    rw [hput.items]
    rcases hentries e he with he | rfl
    · refine (h.recorded e he).imp id (exists_update_of_not hx fun hnot => ?_)
      exact absurd hnot.1 (by simp [hbefore])
    · exact .inr ⟨n, _, Function.update_self .., rfl, isFolder, hcall⟩

/-- A move lists the entry that it has put. -/
theorem Inv.listing {path : Text} {isFolder : Bool} {deletedAt : Text} (h : Inv root texts s tracks)
    (hx : tracks n = some x) (hphase : x.phase = .put name)
    (hcall : x.call = .moveToTrash path isFolder)
    (hlisted : Listed root texts
      (manifestItems root texts s.1 ++ [⟨name, path, deletedAt, isFolder⟩]) s.1 t') :
    Inv root texts (t', s.2) (Function.update tracks n (some { x with phase := .written })) := by
  have hnames : namesOf (manifestItems root texts t') =
      namesOf (manifestItems root texts s.1) ++ [name] := by
    rw [hlisted.items, namesOf, List.map_append]
    rfl
  have hentry : ∀ name, t'.lookup (trashDir root ++ [name]) = s.1.lookup (trashDir root ++ [name]) :=
    fun name => hlisted.entries name []
  have hother : ∀ m y, Function.update tracks n (some { x with phase := .written }) m = some y →
      y.phase ≠ .written → m ≠ n ∧ tracks m = some y := by
    intro m y hy hne
    rcases of_update hy with ⟨rfl, rfl⟩ | hy
    · exact absurd rfl hne
    · exact hy
  obtain ⟨hsome, hunlisted⟩ := h.put n x name hx hphase
  refine ⟨hlisted.valid, ?_, ?_, ?_, ?_, ?_, ?_, ?_, ?_, ?_, ?_, ?_, ?_⟩
  · rw [hnames, List.nodup_append]
    refine ⟨h.nodup, List.nodup_singleton _, fun a ha b hb => ?_⟩
    rintro rfl
    exact hunlisted (List.mem_singleton.mp hb ▸ ha)
  · intro item hitem
    rw [hlisted.items] at hitem
    rcases List.mem_append.mp hitem with hitem | hitem
    · exact h.fit item hitem
    · obtain ⟨path', isFolder', hcall', hfit⟩ := h.moved n x name hx hphase
      rw [hcall] at hcall'
      cases hcall'
      exact List.mem_singleton.mp hitem ▸ hfit deletedAt
  · exact fun m y hy => (h.after_phase hx m y hy).1
  · exact fun m y hy => (h.after_phase hx m y hy).2
  · exact fun m y other hy hput => h.moved m y other (hother m y hy (by simp [hput])).2 hput
  · intro m y other hy hput
    obtain ⟨hm, hy⟩ := hother m y hy (by simp [hput])
    obtain ⟨hstored, hnot⟩ := h.put m y other hy hput
    rw [hentry, hnames]
    refine ⟨hstored, fun hmem => ?_⟩
    rcases List.mem_append.mp hmem with hmem | hmem
    · exact hnot hmem
    · rw [List.mem_singleton.mp hmem] at hput
      exact hm (h.alone m n y x name hy hx hput hphase)
  · intro m m' y y' other hy hy' hput hput'
    exact h.alone m m' y y' other (hother m y hy (by simp [hput])).2
      (hother m' y' hy' (by simp [hput'])).2 hput hput'
  · intro m y other hy htaken htakes
    rw [hentry]
    exact h.taken m y other (hother m y hy (by simp [htaken])).2 htaken htakes
  · intro other hstored
    rw [hentry] at hstored
    rw [hnames]
    rcases h.listed other hstored with hname | ⟨m, y, hy, hput⟩
    · exact .inl (List.mem_append_left _ hname)
    · by_cases hm : m = n
      · subst hm
        rw [hx] at hy
        cases hy
        rw [hphase] at hput
        cases hput
        exact .inl (List.mem_append_right _ List.mem_cons_self)
      · exact .inr ⟨m, y, (Function.update_of_ne hm ..).trans hy, hput⟩
  · intro other hname
    rw [hnames] at hname
    rw [hentry]
    rcases List.mem_append.mp hname with hname | hname
    · refine (h.present other hname).imp id (exists_update fun y hy hP => ?_)
      rw [hx] at hy
      cases hy
      rw [hphase] at hP
      cases hP.1
    · exact .inl (List.mem_singleton.mp hname ▸ hsome)
  · intro e he
    refine ⟨(h.contents e he).1, fun rest => ?_⟩
    rw [hlisted.entries]
    exact (h.contents e he).2 rest
  · intro e he
    rw [hlisted.items]
    rcases h.recorded e he with ⟨item, hitem, hsame⟩ | ⟨m, y, hy, hput, isFolder', hmove⟩
    · exact .inl ⟨item, List.mem_append_left _ hitem, hsame⟩
    · by_cases hm : m = n
      · subst hm
        rw [hx] at hy
        cases hy
        rw [hphase] at hput
        rw [hcall] at hmove
        cases hput
        cases hmove
        exact .inl ⟨_, List.mem_append_right _ List.mem_cons_self, rfl, rfl⟩
      · exact .inr ⟨m, y, (Function.update_of_ne hm ..).trans hy, hput, isFolder', hmove⟩

/-- A call unlists the entries that it has taken out, or there was nothing to unlist. -/
theorem Inv.unlisting (h : Inv root texts s tracks) (hx : tracks n = some x)
    (hphase : x.phase = .taken)
    (hlisted : Listed root texts (x.call.keep (manifestItems root texts s.1)) s.1 t') :
    Inv root texts (t', s.2) (Function.update tracks n (some { x with phase := .written })) := by
  have hmem : ∀ item, item ∈ manifestItems root texts t' ↔
      item ∈ manifestItems root texts s.1 ∧ x.call.takes item.name = false := by
    intro item
    rw [hlisted.items, TrashCall.keep, List.mem_filter, Bool.not_eq_true']
  have hnames : ∀ name, name ∈ namesOf (manifestItems root texts t') ↔
      name ∈ namesOf (manifestItems root texts s.1) ∧ x.call.takes name = false := by
    intro name
    simp only [namesOf, List.mem_map, hmem]
    constructor
    · rintro ⟨item, ⟨hitem, hnot⟩, rfl⟩
      exact ⟨⟨item, hitem, rfl⟩, hnot⟩
    · rintro ⟨⟨item, hitem, rfl⟩, hnot⟩
      exact ⟨item, ⟨hitem, hnot⟩, rfl⟩
  have hentry : ∀ name, t'.lookup (trashDir root ++ [name]) = s.1.lookup (trashDir root ++ [name]) :=
    fun name => hlisted.entries name []
  -- what is in the directory was not taken
  have hnot : ∀ name, (s.1.lookup (trashDir root ++ [name])).isSome → x.call.takes name = false := by
    intro name hsome
    refine Bool.eq_false_of_not_eq_true fun htakes => ?_
    rw [h.taken n x name hx hphase htakes] at hsome
    cases hsome
  have hother : ∀ m y, Function.update tracks n (some { x with phase := .written }) m = some y →
      y.phase ≠ .written → tracks m = some y := by
    intro m y hy hne
    rcases of_update hy with ⟨rfl, rfl⟩ | ⟨-, hold⟩
    · exact absurd rfl hne
    · exact hold
  refine ⟨hlisted.valid, ?_, ?_, ?_, ?_, ?_, ?_, ?_, ?_, ?_, ?_, ?_, ?_⟩
  · rw [hlisted.items]
    exact h.nodup.sublist (List.filter_sublist.map TrashItem.name)
  · exact fun item hitem => h.fit item ((hmem item).mp hitem).1
  · exact fun m y hy => (h.after_phase hx m y hy).1
  · exact fun m y hy => (h.after_phase hx m y hy).2
  · exact fun m y other hy hput => h.moved m y other (hother m y hy (by simp [hput])) hput
  · intro m y other hy hput
    obtain ⟨hstored, hunlisted⟩ := h.put m y other (hother m y hy (by simp [hput])) hput
    rw [hentry]
    exact ⟨hstored, fun hname => hunlisted ((hnames other).mp hname).1⟩
  · intro m m' y y' other hy hy' hput hput'
    exact h.alone m m' y y' other (hother m y hy (by simp [hput]))
      (hother m' y' hy' (by simp [hput'])) hput hput'
  · intro m y other hy htaken htakes
    rw [hentry]
    exact h.taken m y other (hother m y hy (by simp [htaken])) htaken htakes
  · intro other hstored
    rw [hentry] at hstored
    rcases h.listed other hstored with hname | hex
    · exact .inl ((hnames other).mpr ⟨hname, hnot other hstored⟩)
    · exact .inr (exists_update_of_not hx (by simp [hphase]) hex)
  · intro other hname
    obtain ⟨hname, hkept⟩ := (hnames other).mp hname
    rw [hentry]
    refine (h.present other hname).imp id (exists_update_of_not hx fun htakes => ?_)
    rw [hkept] at htakes
    cases htakes.2
  · intro e he
    refine ⟨(h.contents e he).1, fun rest => ?_⟩
    rw [hlisted.entries]
    exact (h.contents e he).2 rest
  · intro e he
    obtain ⟨hsome, hcontents⟩ := h.contents e he
    rw [← hcontents] at hsome
    rcases h.recorded e he with ⟨item, hitem, hname, hpath⟩ | hex
    · refine .inl ⟨item, (hmem item).mpr ⟨hitem, ?_⟩, hname, hpath⟩
      rw [hname]
      exact hnot e.name hsome
    · exact .inr (exists_update_of_not hx (fun hput => by rw [hphase] at hput; cases hput.1) hex)

end Steps

abbrev TrashPool : Type := Pool StorageOp StorageAns (Except TrashError Unit × Unit) Track State

abbrev TrashEvent : Type := Event StorageOp StorageAns Track

section Pools

variable (root : List Text) (texts : TrashTexts) (collection : Text)

/-- Any call may start at any time. -/
def StartTrash (_ : State) (x : Track)
    (p : Prog StorageOp StorageAns (Except TrashError Unit × Unit)) : Prop :=
  x.phase = .before ∧ x.items = [] ∧ p = (x.call.method texts collection).call ()

abbrev TrashStep : TrashPool → TrashEvent → TrashPool → Prop :=
  Step (World root texts) (observe texts) (StartTrash texts collection)

/-- A write of the manifest loses no change that was made since the call read it, and what
fails to be written, or is no longer written after an error, has nothing to change. -/
def Saved (t : Tree) (x : Track) : (o : StorageOp) → StorageAns o → Prop
  | .writeTextFile .., .ok () => x.call.keep x.items = x.call.keep (manifestItems root texts t)
  | .writeTextFile .., .error _ =>
    x.phase = .taken ∧ x.call.keep (manifestItems root texts t) = manifestItems root texts t
  | .mkdir .., .error _ =>
    x.phase = .taken → x.call.keep (manifestItems root texts t) = manifestItems root texts t
  | _, _ => True

/-- Calls are proper, save what they have to, and do not put and take one name at a time. -/
def Careful (p : TrashPool) : TrashEvent → Prop
  | .start _ x => Proper root x.call
  | .op n o ans => ∀ th, p.threads.lookup n = some th →
      Saved root texts p.shared.1 th.track o ans ∧
        ∀ m other, m ≠ n → p.threads.lookup m = some other →
          ¬ Crossing (observe texts th.track o ans) other.track ∧
            ¬ Crossing other.track (observe texts th.track o ans)

/-- The tracks of the threads in a pool. -/
def tracksOf (p : TrashPool) (n : ℕ) : Option Track := (p.threads.lookup n).map Thread.track

end Pools

section Run

variable {root : List Text} {texts : TrashTexts} {collection : Text} {s s' : State}
variable {tracks : ℕ → Option Track} {n : ℕ} {x : Track} {o : StorageOp} {codec : TextCodec}
variable {clock : Clock} {t t' : Tree}

theorem note_error (e : Failure) (entries : List Trashed) :
    note root t entries o (.error e) = entries := by
  cases o <;> rfl

theorem Inv.same (h : Inv root texts s tracks) (hx : tracks n = some x) :
    Inv root texts s (Function.update tracks n (some x)) := by
  rw [← hx, Function.update_eq_self]
  exact h

/-- An operation that fails, or only looks, leaves everything as it is. -/
theorem world_same {ans : StorageAns o} (hworld : World root texts s o ans s')
    (hsame : ∀ clock t', Serves texts.codec clock s.1 o ans t' → t' = s.1)
    (hnote : note root s.1 s.2 o ans = s.2) : s' = s := by
  obtain ⟨⟨clock, hserves⟩, hentries⟩ := hworld
  exact Prod.ext (hsame clock s'.1 hserves) (hentries.trans hnote)

theorem world_failed {e : Failure} (hworld : World root texts s o (.error e) s')
    (hmkdir : ∀ path recursive, o ≠ .mkdir path recursive) : s' = s :=
  world_same hworld (fun _ _ hserves => error_same hmkdir hserves) (note_error e s.2)

theorem world_mkdir {path : Text} {ans : StorageAns (.mkdir path true)}
    (hworld : World root texts s (.mkdir path true) ans s') (hv : s.1.Valid)
    (hdir : ∀ l, pathSegments path = .ok l → ∀ name rest, ¬ trashDir root ++ name :: rest <+: l) :
    s'.2 = s.2 ∧ Apart root texts s.1 s'.1 := by
  obtain ⟨⟨clock, hserves⟩, hentries⟩ := hworld
  constructor
  · rw [hentries]
    cases ans <;> rfl
  · generalize s'.1 = t' at hserves ⊢
    cases hserves with
    | failed => exact .refl hv
    | served =>
        rw [respond, writing]
        cases hl : pathSegments path with
        | error e => exact .refl hv
        | ok l => exact apart_mkdir hv (names_of_pathSegments hl) (hdir l hl)

/-- What is read of the manifest are items that fit. -/
theorem Inv.reading (h : Inv root texts s tracks) (hx : tracks n = some x)
    (hcollection : pathSegments collection = .ok root)
    {ans : StorageAns (.readTextFile (manifestPath collection))}
    (hworld : World root texts s (.readTextFile (manifestPath collection)) ans s') :
    Inv root texts s' (Function.update tracks n
      (some (observe texts x (.readTextFile (manifestPath collection)) ans))) := by
  have hx' : ∀ items, (∀ item ∈ items, Fit root item) →
      Inv root texts s (Function.update tracks n (some { x with items := items })) := by
    intro items hfit
    refine h.quiet (fun y hy => ?_) (fun hnone => ?_) (h.proper n x hx) hfit
    · rw [hx] at hy
      cases hy
      exact ⟨rfl, rfl⟩
    · rw [hx] at hnone
      cases hnone
  cases ans with
  | error e =>
      obtain rfl := world_failed hworld (by simp)
      exact hx' [] (by simp)
  | ok text =>
      obtain ⟨⟨clock, hserves⟩, hentries⟩ := hworld
      obtain ⟨l, hl, hread, hsame⟩ := of_reading (served_ok hserves)
      obtain rfl : s' = s := Prod.ext hsame hentries
      rw [pathSegments_manifestPath hcollection] at hl
      cases hl
      cases hfile : readFileAt s'.1 (manifest root) with
      | error e =>
          rw [hfile] at hread
          cases hread
      | ok bytes =>
          rw [hfile] at hread
          cases hread
          refine hx' _ fun item hitem => h.fit item ?_
          rw [manifestItems, readFileAt_eq_ok.mp hfile]
          exact hitem

theorem not_entry_prefix_trashDir (name : Text) (rest : List Text) :
    ¬ trashDir root ++ name :: rest <+: trashDir root := by
  intro hbelow
  have hlen := hbelow.length_le
  rw [List.length_append, List.length_cons] at hlen
  omega

theorem world_exists {path : Text} {ans : StorageAns (.exists path)}
    (hworld : World root texts s (.exists path) ans s') : s' = s := by
  cases ans with
  | error e => exact world_failed hworld (by simp)
  | ok there =>
      refine world_same hworld (fun clock t' hserves => ?_) rfl
      obtain ⟨-, -, -, hsame⟩ := of_reading (served_ok hserves)
      exact hsame

/-- Where a question is answered with no, nothing is there. -/
theorem none_of_exists {path : Text} {l : List Text} (hl : pathSegments path = .ok l)
    (hworld : World root texts s (.exists path) (.ok false) s') : s.1.lookup l = none := by
  obtain ⟨⟨clock, hserves⟩, -⟩ := hworld
  obtain ⟨l', hl', hthere, -⟩ := of_reading (served_ok hserves)
  rw [hl] at hl'
  cases hl'
  have hnot : existsAt s.1 l = false := Except.ok.inj hthere
  rw [existsAt, decide_eq_false_iff_not, not_or] at hnot
  exact Option.not_isSome_iff_eq_none.mp hnot.2

/-- The calls take what they take out of the trash. -/
theorem Inv.taken_absent (h : Inv root texts s tracks) (hx : tracks n = some x)
    (hbefore : x.phase = .before)
    (hcross : ∀ m y, m ≠ n → tracks m = some y → ¬ Crossing y { x with phase := .taken })
    (hnone : ∀ name, x.call.takes name = true → s.1.lookup (trashDir root ++ [name]) = none) :
    Inv root texts s (Function.update tracks n (some { x with phase := .taken })) := by
  refine h.taking hx hbefore (taken_of_absent h.valid hnone) hcross fun e he => ⟨he, ?_⟩
  refine Bool.eq_false_of_not_eq_true fun htakes => ?_
  obtain ⟨hsome, hcontents⟩ := h.contents e he
  rw [← hcontents, hnone e.name htakes] at hsome
  cases hsome

theorem mem_spared {path : Text} {l : List Text} {entries : List Trashed} {e : Trashed}
    (hl : pathSegments path = .ok l) :
    e ∈ spared root path entries ↔ e ∈ entries ∧ ¬ l <+: trashDir root ++ [e.name] := by
  rw [spared, hl, List.mem_filter, Bool.not_eq_true', Bool.eq_false_iff, Ne, List.isPrefixOf_iff_prefix]

theorem mem_of_spared {path : Text} {entries : List Trashed} {e : Trashed}
    (h : e ∈ spared root path entries) : e ∈ entries := by
  rw [spared] at h
  split at h
  next => exact List.mem_of_mem_filter h
  next => exact h

theorem movedIn_inTrash {path : Text} {src : List Text} (hcollection : pathSegments collection = .ok root)
    (hsrc : pathSegments path = .ok src) (hname : IsName name) :
    movedIn root t path (inTrash collection name) =
      [⟨name, path, fun rest => t.lookup (src ++ rest)⟩] := by
  rw [movedIn, hsrc, pathSegments_inTrash hcollection hname]
  dsimp only
  rw [List.dropLast_concat, if_pos rfl, List.getLast?_concat]
  rfl

theorem movedIn_outside {fromPath toPath : Text} {dst : List Text} (hdst : pathSegments toPath = .ok dst)
    (hout : Outside root dst) : movedIn root t fromPath toPath = [] := by
  rw [movedIn, hdst]
  split
  next heq =>
    cases heq
    rw [if_neg]
    intro hdir
    exact hout.1 (hdir ▸ List.dropLast_prefix dst)
  next => rfl

section Rounds

variable {path : Text} {isFolder : Bool} {items : List TrashItem}

/-- The rename of a move. -/
theorem inv_put (hcollection : pathSegments collection = .ok root) (h : Inv root texts s tracks)
    (hx : tracks n = some ⟨.moveToTrash path isFolder, .before, items⟩) (hname : IsName name)
    (hworld : World root texts s (.rename path (inTrash collection name)) (.ok ()) s')
    (hcross : ∀ m y, m ≠ n → tracks m = some y →
      ¬ Crossing ⟨.moveToTrash path isFolder, .put name, items⟩ y) :
    Inv root texts s'
      (Function.update tracks n (some ⟨.moveToTrash path isFolder, .put name, items⟩)) := by
  obtain ⟨t', entries⟩ := s'
  obtain ⟨⟨clock, hserves⟩, hentries⟩ := hworld
  obtain ⟨src, hsrc, hserves⟩ := of_writing (served_ok hserves)
  obtain ⟨dst, hdst, hrename⟩ := of_writing hserves
  rw [pathSegments_inTrash hcollection hname] at hdst
  cases hdst
  have hout := (h.proper n _ hx).2 src hsrc
  have hput : Put root texts src name s.1 t' :=
    put_of_rename h.valid (names_of_pathSegments hcollection) hname hout hrename
  refine h.putting hx rfl rfl hput (fun deletedAt => ⟨hname, src, hsrc, hout⟩) hcross fun e he => ?_
  have he : e ∈ note root s.1 s.2 (.rename path (inTrash collection name)) (.ok ()) := hentries ▸ he
  rw [note, movedIn_inTrash hcollection hsrc hname] at he
  exact (List.mem_append.mp he).imp mem_of_spared List.mem_singleton.mp

/-- The rename of a restore. -/
theorem inv_takeBack (hcollection : pathSegments collection = .ok root)
    (h : Inv root texts s tracks) (hx : tracks n = some ⟨.restoreFromTrash name, .before, items⟩)
    {item : TrashItem} (hmem : item ∈ items) (hname : item.name = name)
    (hworld : World root texts s (.rename (inTrash collection name) item.originalPath) (.ok ()) s')
    (hcross : ∀ m y, m ≠ n → tracks m = some y →
      ¬ Crossing y ⟨.restoreFromTrash name, .taken, items⟩) :
    Inv root texts s' (Function.update tracks n (some ⟨.restoreFromTrash name, .taken, items⟩)) := by
  obtain ⟨t', entries⟩ := s'
  obtain ⟨⟨clock, hserves⟩, hentries⟩ := hworld
  obtain ⟨src, hsrc, hserves⟩ := of_writing (served_ok hserves)
  obtain ⟨dst, hdst, hrename⟩ := of_writing hserves
  have hfit := h.read n _ hx item hmem
  obtain ⟨l, hl, hout⟩ := hfit.origin
  rw [hdst] at hl
  cases hl
  rw [pathSegments_inTrash hcollection (hname ▸ hfit.isName)] at hsrc
  cases hsrc
  have htaken : Taken root texts (fun entry => entry = name) s.1 t' :=
    taken_of_rename h.valid (names_of_pathSegments hdst) hout hrename
  refine h.taking hx rfl htaken hcross fun e he => ?_
  have he : e ∈ note root s.1 s.2 (.rename (inTrash collection name) item.originalPath) (.ok ()) :=
    hentries ▸ he
  rw [note, movedIn_outside hdst hout, List.append_nil,
    mem_spared (pathSegments_inTrash hcollection (hname ▸ hfit.isName)), entry_prefix_iff] at he
  exact ⟨he.1, decide_eq_false fun heq => he.2 heq.symm⟩

/-- The removal of an entry. -/
theorem inv_remove (hcollection : pathSegments collection = .ok root)
    (h : Inv root texts s tracks) (hx : tracks n = some ⟨.deleteTrashItem name, .before, items⟩)
    (hworld : World root texts s (.remove (inTrash collection name) true) (.ok ()) s')
    (hcross : ∀ m y, m ≠ n → tracks m = some y →
      ¬ Crossing y ⟨.deleteTrashItem name, .taken, items⟩) :
    Inv root texts s' (Function.update tracks n (some ⟨.deleteTrashItem name, .taken, items⟩)) := by
  obtain ⟨t', entries⟩ := s'
  obtain ⟨⟨clock, hserves⟩, hentries⟩ := hworld
  obtain ⟨l, hl, hremove⟩ := of_writing (served_ok hserves)
  have hentry := pathSegments_inTrash hcollection (h.proper n _ hx)
  rw [hentry] at hl
  cases hl
  refine h.taking hx rfl (taken_of_remove h.valid hremove) hcross fun e he => ?_
  have he : e ∈ note root s.1 s.2 (.remove (inTrash collection name) true) (.ok ()) := hentries ▸ he
  rw [note, mem_spared hentry, entry_prefix_iff] at he
  exact ⟨he.1, decide_eq_false fun heq => he.2 heq.symm⟩

/-- The removal of the directory. -/
theorem inv_removeTrash (hcollection : pathSegments collection = .ok root)
    (h : Inv root texts s tracks) (hx : tracks n = some ⟨.emptyTrash, .before, items⟩)
    (hworld : World root texts s (.remove (trashPath collection) true) (.ok ()) s')
    (hcross : ∀ m y, m ≠ n → tracks m = some y → ¬ Crossing y ⟨.emptyTrash, .taken, items⟩) :
    Inv root texts s' (Function.update tracks n (some ⟨.emptyTrash, .taken, items⟩)) := by
  obtain ⟨t', entries⟩ := s'
  obtain ⟨⟨clock, hserves⟩, hentries⟩ := hworld
  obtain ⟨l, hl, hremove⟩ := of_writing (served_ok hserves)
  have htrash := pathSegments_trashPath hcollection
  rw [htrash] at hl
  cases hl
  refine h.taking hx rfl (taken_of_removeAll h.valid hremove) hcross fun e he => ?_
  have he : e ∈ note root s.1 s.2 (.remove (trashPath collection) true) (.ok ()) := hentries ▸ he
  rw [note, mem_spared htrash] at he
  exact absurd (List.prefix_append _ _) he.2

/-- The write of the manifest by a move. -/
theorem inv_list (hcollection : pathSegments collection = .ok root) (h : Inv root texts s tracks)
    (hx : tracks n = some ⟨.moveToTrash path isFolder, .put name, items⟩) {deletedAt : Text}
    {ans : StorageAns (.writeTextFile (manifestPath collection)
      (texts.stringify (items ++ [⟨name, path, deletedAt, isFolder⟩])))}
    (hworld : World root texts s (.writeTextFile (manifestPath collection)
      (texts.stringify (items ++ [⟨name, path, deletedAt, isFolder⟩]))) ans s')
    (hsaved : Saved root texts s.1 ⟨.moveToTrash path isFolder, .put name, items⟩
      (.writeTextFile (manifestPath collection)
        (texts.stringify (items ++ [⟨name, path, deletedAt, isFolder⟩]))) ans) :
    Inv root texts s' (Function.update tracks n
      (some ⟨.moveToTrash path isFolder, .written, items⟩)) := by
  cases ans with
  | error e => cases hsaved.1
  | ok =>
      obtain ⟨t', entries⟩ := s'
      obtain ⟨⟨clock, hserves⟩, hentries⟩ := hworld
      obtain ⟨l, hl, hwrite⟩ := of_writing (served_ok hserves)
      obtain rfl : entries = s.2 := hentries
      rw [pathSegments_manifestPath hcollection] at hl
      cases hl
      have hlisted := listed_of_write h.valid (names_of_pathSegments hcollection) hwrite
      -- a move keeps every item
      have hitems : items = manifestItems root texts s.1 := by
        have hkeep : TrashCall.keep (.moveToTrash path isFolder) items =
            TrashCall.keep (.moveToTrash path isFolder) (manifestItems root texts s.1) := hsaved
        simpa [TrashCall.keep, TrashCall.takes] using hkeep
      rw [hitems] at hlisted
      exact h.listing hx rfl rfl hlisted

/-- The write of the manifest by a call that has taken its entries out. -/
theorem inv_unlist (hcollection : pathSegments collection = .ok root) (h : Inv root texts s tracks)
    {call : TrashCall} (hx : tracks n = some ⟨call, .taken, items⟩)
    {ans : StorageAns (.writeTextFile (manifestPath collection) (texts.stringify (call.keep items)))}
    (hworld : World root texts s
      (.writeTextFile (manifestPath collection) (texts.stringify (call.keep items))) ans s')
    (hsaved : Saved root texts s.1 ⟨call, .taken, items⟩
      (.writeTextFile (manifestPath collection) (texts.stringify (call.keep items))) ans) :
    Inv root texts s' (Function.update tracks n (some ⟨call, .written, items⟩)) := by
  cases ans with
  | error e =>
      obtain rfl := world_failed hworld (by simp)
      have hsame : Listed root texts (call.keep (manifestItems root texts s'.1)) s'.1 s'.1 :=
        ⟨h.valid, hsaved.2.symm, fun _ _ => rfl⟩
      exact h.unlisting hx rfl hsame
  | ok =>
      obtain ⟨t', entries⟩ := s'
      obtain ⟨⟨clock, hserves⟩, hentries⟩ := hworld
      obtain ⟨l, hl, hwrite⟩ := of_writing (served_ok hserves)
      obtain rfl : entries = s.2 := hentries
      rw [pathSegments_manifestPath hcollection] at hl
      cases hl
      have hlisted := listed_of_write h.valid (names_of_pathSegments hcollection) hwrite
      have hkeep : call.keep items = call.keep (manifestItems root texts s.1) := hsaved
      rw [hkeep] at hlisted
      exact h.unlisting hx rfl hlisted

end Rounds

/-- What a step of a call preserves. -/
theorem inv_asked (hcollection : pathSegments collection = .ok root) (h : Inv root texts s tracks)
    (hx : tracks n = some x) (hasks : Asks texts collection x o) {ans : StorageAns o}
    (hworld : World root texts s o ans s') (hsaved : Saved root texts s.1 x o ans)
    (hcross : ∀ m y, m ≠ n → tracks m = some y →
      ¬ Crossing (observe texts x o ans) y ∧ ¬ Crossing y (observe texts x o ans)) :
    Inv root texts s' (Function.update tracks n (some (observe texts x o ans))) := by
  have hroot := names_of_pathSegments hcollection
  have htrash := pathSegments_trashPath hcollection
  cases hasks with
  | now =>
      obtain rfl : s' = s := by
        refine world_same hworld (fun clock t' hserves => ?_) ?_
        · cases serves_now hserves
          exact (Prod.mk.inj (served_ok hserves)).2.symm
        · cases ans <;> rfl
      obtain ⟨⟨clock, hserves⟩, -⟩ := hworld
      cases serves_now hserves
      exact h.same hx
  | makeTrash path isFolder items =>
      obtain ⟨hentries, hapart⟩ := world_mkdir hworld h.valid fun l hl => by
        rw [htrash] at hl
        cases hl
        exact not_entry_prefix_trashDir
      obtain ⟨t', entries⟩ := s'
      obtain rfl : entries = s.2 := hentries
      cases ans with
      | ok => exact (h.apart hapart).same hx
      | error e => exact (h.apart hapart).same hx
  | isTaken path isFolder items name =>
      obtain rfl := world_exists hworld
      cases ans with
      | ok => exact h.same hx
      | error e => exact h.same hx
  | put path isFolder items name hname =>
      cases ans with
      | error e =>
          obtain rfl := world_failed hworld (by simp)
          exact h.same hx
      | ok =>
          have hname := hname (h.proper n _ hx).1
          have htrack : observe texts ⟨.moveToTrash path isFolder, .before, items⟩
              (.rename path (inTrash collection name)) (.ok ()) =
              ⟨.moveToTrash path isFolder, .put name, items⟩ := by
            dsimp only [observe, Phase.next]
            rw [inTrash, lastSegment_slash hname.noSlash]
          rw [htrack] at hcross ⊢
          exact inv_put hcollection h hx hname hworld fun m y hm hy => (hcross m y hm hy).1
  | readPut path isFolder items name => exact h.reading hx hcollection hworld
  | list path isFolder items name deletedAt =>
      have hlist := inv_list hcollection h hx hworld hsaved
      cases ans with
      | ok => exact hlist
      | error e => exact hlist
  | readItem name items => exact h.reading hx hcollection hworld
  | isBack name items item hmem hname =>
      obtain rfl := world_exists hworld
      cases ans with
      | ok => exact h.same hx
      | error e => exact h.same hx
  | makeParent name items item hmem hname =>
      obtain ⟨l, hl, hout⟩ := (h.read n _ hx item hmem).origin
      obtain ⟨hentries, hapart⟩ := world_mkdir hworld h.valid fun dir hdir name rest hbelow =>
        hout.1 (((List.prefix_append _ _).trans hbelow).trans (pathSegments_dirOf hl hdir))
      obtain ⟨t', entries⟩ := s'
      obtain rfl : entries = s.2 := hentries
      cases ans with
      | ok => exact (h.apart hapart).same hx
      | error e => exact (h.apart hapart).same hx
  | takeBack name items item hmem hname =>
      cases ans with
      | error e =>
          obtain rfl := world_failed hworld (by simp)
          exact h.same hx
      | ok => exact inv_takeBack hcollection h hx hmem hname hworld fun m y hm hy => (hcross m y hm hy).2
  | isThere name items =>
      obtain rfl := world_exists hworld
      cases ans with
      | error e => exact h.same hx
      | ok there =>
          cases there with
          | true => exact h.same hx
          | false =>
              refine h.taken_absent hx rfl (fun m y hm hy => (hcross m y hm hy).2) fun other hother => ?_
              rw [of_decide_eq_true hother]
              exact none_of_exists (pathSegments_inTrash hcollection (h.proper n _ hx)) hworld
  | remove name items =>
      cases ans with
      | error e =>
          obtain rfl := world_failed hworld (by simp)
          exact h.same hx
      | ok => exact inv_remove hcollection h hx hworld fun m y hm hy => (hcross m y hm hy).2
  | readTaken name items => exact h.reading hx hcollection hworld
  | isTrash items =>
      obtain rfl := world_exists hworld
      cases ans with
      | error e => exact h.same hx
      | ok there =>
          cases there with
          | true => exact h.same hx
          | false =>
              refine h.taken_absent hx rfl (fun m y hm hy => (hcross m y hm hy).2) fun other _ => ?_
              exact free_below h.valid (none_of_exists htrash hworld) (by simp [trashDir]) [other]
  | removeTrash items =>
      cases ans with
      | error e =>
          obtain rfl := world_failed hworld (by simp)
          exact h.same hx
      | ok => exact inv_removeTrash hcollection h hx hworld fun m y hm hy => (hcross m y hm hy).2
  | renewTrash items =>
      obtain ⟨hentries, hapart⟩ := world_mkdir hworld h.valid fun l hl => by
        rw [htrash] at hl
        cases hl
        exact not_entry_prefix_trashDir
      obtain ⟨t', entries⟩ := s'
      obtain rfl : entries = s.2 := hentries
      cases ans with
      | ok => exact (h.apart hapart).same hx
      | error e =>
          have hlisted : Listed root texts
              (TrashCall.keep .emptyTrash (manifestItems root texts s.1)) s.1 t' :=
            ⟨hapart.valid, hapart.items.trans (hsaved rfl).symm, hapart.entries⟩
          exact h.unlisting hx rfl hlisted
  | unlist call items =>
      have hunlist := inv_unlist hcollection h hx hworld hsaved
      cases ans with
      | ok => exact hunlist
      | error e => exact hunlist

theorem tracksOf_insert (p : TrashPool) (n : ℕ) (th) (s : State) :
    tracksOf { shared := s, threads := p.threads.insert n th } =
      Function.update (tracksOf p) n (some th.track) := by
  funext m
  rw [tracksOf, lookup_insert_eq, Function.update_apply]
  split
  next => rfl
  next => rfl

theorem tracksOf_eq_some {p : TrashPool} {y : Track} (h : tracksOf p n = some y) :
    ∃ th, p.threads.lookup n = some th ∧ th.track = y :=
  Option.map_eq_some_iff.mp h

theorem inv_start {p : TrashPool} {q : Prog StorageOp StorageAns (Except TrashError Unit × Unit)}
    (h : Inv root texts p.shared (tracksOf p)) (hfree : p.threads.lookup n = none)
    (hq : StartTrash texts collection p.shared x q) (hproper : Proper root x.call) :
    Inv root texts p.shared (Function.update (tracksOf p) n (some x)) := by
  obtain ⟨hbefore, hitems, -⟩ := hq
  refine h.quiet (fun y hy => ?_) (fun _ => hbefore) hproper (by simp [hitems])
  rw [tracksOf, hfree, Option.map_none] at hy
  cases hy

theorem start_follows {q : Prog StorageOp StorageAns (Except TrashError Unit × Unit)}
    (hq : StartTrash texts collection s x q) :
    Holds (Observes (observe texts)) (Asks texts collection)
      (Outcome (fun _ _ => Settled) fun _ _ => Settled) q x := by
  obtain ⟨call, phase, items⟩ := x
  obtain ⟨hbefore, hitems, rfl⟩ := hq
  cases hbefore
  cases hitems
  exact follows_method call

/-- What a pool of calls preserves. -/
def Sound (root : List Text) (texts : TrashTexts) (p : TrashPool) : Prop :=
  Inv root texts p.shared (tracksOf p)

theorem sound_run {p : TrashPool} {es : List TrashEvent} (hcollection : pathSegments collection = .ok root)
    (hrun : Runs (fun p e p' => TrashStep root texts collection p e p' ∧ Careful root texts p e)
      ⟨s, ∅⟩ es p) (hinv : Sound root texts ⟨s, ∅⟩) :
    Guarantees (observe texts) (Asks texts collection)
      (Outcome (fun _ _ => Settled) fun _ _ => Settled) p ∧ Sound root texts p := by
  refine invariant (fun _ _ _ => start_follows) (fun p n x q h hfree hq hproper => ?_)
    (fun p n x o next ans s' h hth hasks hworld hcareful => ?_) hrun (guarantees_empty s) hinv
  · rw [Sound, tracksOf_insert]
    exact inv_start h hfree hq hproper
  · obtain ⟨hsaved, hothers⟩ := hcareful _ hth
    have hx : tracksOf p n = some x := by rw [tracksOf, hth, Option.map_some]
    rw [Sound, tracksOf_insert]
    refine inv_asked hcollection h hx hasks hworld hsaved fun m y hm hy => ?_
    obtain ⟨other, hother, rfl⟩ := tracksOf_eq_some hy
    exact hothers m other hm hother

/-- At rest nothing is on its way into the trash or out of it. -/
theorem Inv.at_rest (h : Inv root texts s tracks) (hrest : ∀ n x, tracks n = some x → Settled x) :
    OneToOne root texts s.1 ∧ ∀ e ∈ s.2, Held root texts s.1 e := by
  have hnot : ∀ {P : Track → Prop}, (∀ x, P x → ¬ Settled x) → ¬ ∃ n x, tracks n = some x ∧ P x := by
    rintro P hP ⟨n, x, hx, hPx⟩
    exact hP x hPx (hrest n x hx)
  have hput : ∀ name x, x.phase = .put name → ¬ Settled x := by
    rintro name x hx (hbefore | hwritten)
    · rw [hx] at hbefore
      cases hbefore
    · rw [hx] at hwritten
      cases hwritten
  have htaken : ∀ x : Track, x.phase = .taken → ¬ Settled x := by
    rintro x hx (hbefore | hwritten)
    · rw [hx] at hbefore
      cases hbefore
    · rw [hx] at hwritten
      cases hwritten
  refine ⟨⟨h.nodup, fun name => ⟨fun hname => ?_, fun hsome => ?_⟩⟩, fun e he => ⟨?_, ?_⟩⟩
  · exact (h.present name hname).resolve_right (hnot fun x hx => htaken x hx.1)
  · exact (h.listed name hsome).resolve_right (hnot fun x hx => hput name x hx)
  · exact (h.contents e he).2
  · exact (h.recorded e he).resolve_right (hnot fun x hx => hput e.name x hx.1)

/-- A trash that is one to one, with what has been moved into it, meets the invariant. -/
theorem inv_of_held (hvalid : s.1.Valid) (hone : OneToOne root texts s.1)
    (hfit : ∀ item ∈ manifestItems root texts s.1, Fit root item)
    (hheld : ∀ e ∈ s.2, Held root texts s.1 e) : Inv root texts s fun _ => none where
  valid := hvalid
  nodup := hone.1
  fit := hfit
  read _ _ h := by cases h
  proper _ _ h := by cases h
  moved _ _ _ h := by cases h
  put _ _ _ h := by cases h
  alone _ _ _ _ _ h := by cases h
  taken _ _ _ h := by cases h
  listed name hsome := .inl ((hone.2 name).mpr hsome)
  present name hname := .inl ((hone.2 name).mp hname)
  contents e he := by
    obtain ⟨hcontents, item, hitem, hname, -⟩ := hheld e he
    refine ⟨?_, hcontents⟩
    rw [← hcontents]
    exact (hone.2 e.name).mp (hname ▸ List.mem_map_of_mem hitem)
  recorded e he := .inl (hheld e he).2

/-- Once all calls have returned, the items of the manifest are the entries of the directory, and
what has been moved into the trash and not out of it is there with its contents and its path, in
every run whose steps are careful. -/
theorem trash_consistent (root : List Text) (texts : TrashTexts) (collection : Text) (s : State)
    (es : List TrashEvent) (p : TrashPool) (hcollection : pathSegments collection = .ok root)
    (hvalid : s.1.Valid) (hone : OneToOne root texts s.1)
    (hfit : ∀ item ∈ manifestItems root texts s.1, Fit root item)
    (hheld : ∀ e ∈ s.2, Held root texts s.1 e)
    (hrun : Runs (fun p e p' => TrashStep root texts collection p e p' ∧ Careful root texts p e)
      ⟨s, ∅⟩ es p)
    (hreturned : ∀ n th, p.threads.lookup n = some th → ∃ result, th.left = .ret result) :
    OneToOne root texts p.shared.1 ∧ ∀ e ∈ p.shared.2, Held root texts p.shared.1 e := by
  have hnone : tracksOf ⟨s, ∅⟩ = fun _ => none := by
    funext n
    rw [tracksOf, AList.lookup_empty, Option.map_none]
  have hsound : Sound root texts ⟨s, ∅⟩ := by
    rw [Sound, hnone]
    exact inv_of_held hvalid hone hfit hheld
  obtain ⟨hguar, hend⟩ := sound_run hcollection hrun hsound
  refine Inv.at_rest hend fun n x hx => ?_
  obtain ⟨th, hth, rfl⟩ := tracksOf_eq_some hx
  obtain ⟨⟨result, mem⟩, hresult⟩ := hreturned n th hth
  have hsettled := hguar n th hth
  rw [hresult] at hsettled
  cases result with
  | ok => exact hsettled
  | error e => exact hsettled

end Run

section Examples

/-- A character of a JSON string, where it is no control character. -/
def escaped (c : Char) : Text := if c = '"' ∨ c = '\\' then ['\\', c] else [c]

def quoted (s : Text) : Text := '"' :: (s.flatMap escaped ++ ['"'])

theorem escaped_ne_quote (c : Char) (r r' : Text) : escaped c ++ r ≠ '"' :: r' := by
  intro h
  rw [escaped] at h
  split at h
  next => simp at h
  next hplain => exact hplain (.inl (List.cons.inj h).1)

theorem escaped_inj {c d : Char} {r r' : Text} (h : escaped c ++ r = escaped d ++ r') :
    c = d ∧ r = r' := by
  rw [escaped, escaped] at h
  split at h
  next =>
    split at h
    next =>
      obtain ⟨-, h⟩ := List.cons.inj h
      exact List.cons.inj h
    next hd => exact absurd (.inr (List.cons.inj h).1.symm) hd
  next hc =>
    split at h
    next => exact absurd (.inr (List.cons.inj h).1) hc
    next => exact List.cons.inj h

theorem escapedAll_inj {a b r r' : Text}
    (h : a.flatMap escaped ++ '"' :: r = b.flatMap escaped ++ '"' :: r') : a = b ∧ r = r' := by
  induction a generalizing b with
  | nil =>
      cases b with
      | nil => exact ⟨rfl, (List.cons.inj h).2⟩
      | cons d b =>
          rw [List.flatMap_cons, List.append_assoc] at h
          exact absurd h.symm (escaped_ne_quote d _ _)
  | cons c a ih =>
      rw [List.flatMap_cons, List.append_assoc] at h
      cases b with
      | nil => exact absurd h (escaped_ne_quote c _ _)
      | cons d b =>
          rw [List.flatMap_cons, List.append_assoc] at h
          obtain ⟨rfl, hrest⟩ := escaped_inj h
          obtain ⟨rfl, hr⟩ := ih hrest
          exact ⟨rfl, hr⟩

theorem quoted_inj {a b r r' : Text} (h : quoted a ++ r = quoted b ++ r') : a = b ∧ r = r' := by
  rw [quoted, quoted, List.cons_append, List.cons_append, List.append_assoc, List.append_assoc] at h
  exact escapedAll_inj (List.cons.inj h).2

def flagText (isFolder : Bool) : Text := if isFolder then "true".toList else "false".toList

theorem flagText_inj {a b : Bool} {r r' : Text} (h : flagText a ++ r = flagText b ++ r') :
    a = b ∧ r = r' := by
  cases a <;> cases b <;> simp_all [flagText]

def member (key : String) (value : Text) : Text := quoted key.toList ++ ':' :: value

theorem member_append_inj {key : String} {v v' r r' : Text}
    (h : member key v ++ r = member key v' ++ r') : v ++ r = v' ++ r' := by
  simpa [member] using h

def itemText (item : TrashItem) : Text :=
  '\x7b' :: (member "name" (quoted item.name) ++
    ',' :: (member "originalPath" (quoted item.originalPath) ++
      ',' :: (member "deletedAt" (quoted item.deletedAt) ++
        ',' :: (member "isFolder" (flagText item.isFolder) ++ ['\x7d']))))

theorem itemText_inj {a b : TrashItem} {r r' : Text} (h : itemText a ++ r = itemText b ++ r') :
    a = b ∧ r = r' := by
  simp only [itemText, List.append_assoc, List.cons_append] at h
  obtain ⟨hname, h⟩ := quoted_inj (member_append_inj (List.cons.inj h).2)
  obtain ⟨hpath, h⟩ := quoted_inj (member_append_inj (List.cons.inj h).2)
  obtain ⟨hdeleted, h⟩ := quoted_inj (member_append_inj (List.cons.inj h).2)
  obtain ⟨hfolder, h⟩ := flagText_inj (member_append_inj (List.cons.inj h).2)
  refine ⟨?_, (List.cons.inj h).2⟩
  cases a
  cases b
  simp_all

def itemsText : List TrashItem → Text
  | [] => [']', '\x7d']
  | [item] => itemText item ++ [']', '\x7d']
  | item :: next :: rest => itemText item ++ ',' :: itemsText (next :: rest)

theorem itemText_ne (item : TrashItem) (r r' : Text) : itemText item ++ r ≠ ']' :: r' := by
  simp [itemText]

theorem itemsText_inj {a b : List TrashItem} (h : itemsText a = itemsText b) : a = b := by
  induction a generalizing b with
  | nil =>
      cases b with
      | nil => rfl
      | cons item b => cases b with
        | nil => exact absurd h.symm (itemText_ne item _ _)
        | cons next rest => exact absurd h.symm (itemText_ne item _ _)
  | cons item a ih =>
      cases b with
      | nil => cases a with
        | nil => exact absurd h (itemText_ne item _ _)
        | cons next rest => exact absurd h (itemText_ne item _ _)
      | cons item' b =>
          cases a with
          | nil =>
              cases b with
              | nil =>
                  obtain ⟨rfl, -⟩ := itemText_inj h
                  rfl
              | cons next rest => exact absurd (itemText_inj h).2 (by simp)
          | cons next rest =>
              cases b with
              | nil => exact absurd (itemText_inj h).2 (by simp)
              | cons next' rest' =>
                  obtain ⟨rfl, hrest⟩ := itemText_inj h
                  rw [ih (List.cons.inj hrest).2]

/-- `JSON.stringify({ items })` -/
def jsonText (items : List TrashItem) : String :=
  String.ofList ('\x7b' :: member "items" ('[' :: itemsText items))

theorem jsonText_inj {a b : List TrashItem} (h : jsonText a = jsonText b) : a = b := by
  have h := (List.cons.inj (String.ofList_injective h)).2
  rw [← List.append_nil (member _ _), ← List.append_nil (member _ ('[' :: itemsText b))] at h
  have h := member_append_inj h
  rw [List.append_nil, List.append_nil] at h
  exact itemsText_inj (List.cons.inj h).2

theorem decode_jsonText (items : List TrashItem) :
    utf8Codec.decode (utf8Codec.encode (jsonText items)) = jsonText items := by
  have hmark : ¬ bom <+: utf8 (jsonText items).toList := by
    rw [jsonText, String.toList_ofList, utf8_cons]
    rintro ⟨rest, h⟩
    exact absurd (List.cons.inj h).1 (by decide)
  calc
    utf8Codec.decode (utf8Codec.encode (jsonText items)) =
        String.ofList (decode (utf8 (jsonText items).toList)) := rfl
    _ = jsonText items := by rw [decode_utf8 hmark, String.ofList_toList]

open Classical in
noncomputable def jsonTexts : TrashTexts where
  codec := utf8Codec
  toISOString _ := "1970-01-01T00:00:00.000Z".toList
  stringify := jsonText
  parse text := if h : ∃ items, jsonText items = text then some h.choose else none
  parse_stringify items := by
    have hex : ∃ items', jsonText items' = jsonText items := ⟨items, rfl⟩
    rw [decode_jsonText, dif_pos hex, jsonText_inj hex.choose_spec]

def notes : Text := "/Notes".toList

def notesRoot : List Text := ["Notes".toList]

def notePath : Text := "/Notes/a.md".toList

/-- A collection with one note. -/
def noteTree : Tree :=
  AList.insert ["Notes".toList, "a.md".toList] (.file [104, 105])
    (AList.insert ["Notes".toList] .dir ∅)

def started (call : TrashCall) : TrashEvent := .start 1 ⟨call, .before, []⟩

def epoch : Clock := ⟨0, fun _ => none⟩

/-- A move of the note, with the answer to its write of the manifest. -/
def noteMoved (saved : Except Failure Unit) : List TrashEvent :=
  [.start 1 ⟨.moveToTrash notePath false, .before, []⟩,
    .op 1 (.mkdir (trashPath notes) true) (.ok ()),
    .op 1 (.exists (inTrash notes "a.md".toList)) (.ok false),
    .op 1 (.rename notePath (inTrash notes "a.md".toList)) (.ok ()),
    .op 1 (.readTextFile (manifestPath notes)) (.error (.dom .notFound)),
    .op 1 .now (.ok (0 : ℤ)),
    .op 1 (.writeTextFile (manifestPath notes) (jsonText
      [⟨"a.md".toList, notePath, "1970-01-01T00:00:00.000Z".toList, false⟩])) saved]

theorem world_served (clock : Clock) (s : State) (o : StorageOp) :
    World notesRoot jsonTexts s o (respond utf8Codec clock o s.1).1
      ((respond utf8Codec clock o s.1).2, note notesRoot s.1 s.2 o (respond utf8Codec clock o s.1).1) :=
  ⟨⟨clock, .served _ _⟩, rfl⟩

theorem world_failing (clock : Clock) (s : State) {o : StorageOp} (e : Failure) (h : o ≠ .now) :
    World notesRoot jsonTexts s o (.error e) s :=
  ⟨⟨clock, .failed _ _ _ h⟩, (note_error e s.2).symm⟩

/-- A pool with one call. -/
def alone (s : State) (left : Prog StorageOp StorageAns (Except TrashError Unit × Unit))
    (x : Track) : TrashPool :=
  ⟨s, AList.insert 1 ⟨left, x⟩ ∅⟩

theorem alone_step {s s' : State} {x : Track} {o : StorageOp} {ans : StorageAns o}
    {next : StorageAns o → Prog StorageOp StorageAns (Except TrashError Unit × Unit)}
    (hworld : World notesRoot jsonTexts s o ans s') :
    TrashStep notesRoot jsonTexts notes (alone s (.call o next) x) (.op 1 o ans)
      (alone s' (next ans) (observe jsonTexts x o ans)) := by
  have hstep : TrashStep notesRoot jsonTexts notes (alone s (.call o next) x) (.op 1 o ans) _ :=
    .op (AList.lookup_insert _) hworld
  rw [alone, AList.insert_insert] at hstep
  exact hstep

theorem alone_careful {s s' : State} {x : Track} {o : StorageOp} {ans : StorageAns o}
    {next : StorageAns o → Prog StorageOp StorageAns (Except TrashError Unit × Unit)}
    (hworld : World notesRoot jsonTexts s o ans s') (hsaved : Saved notesRoot jsonTexts s.1 x o ans) :
    TrashStep notesRoot jsonTexts notes (alone s (.call o next) x) (.op 1 o ans)
        (alone s' (next ans) (observe jsonTexts x o ans)) ∧
      Careful notesRoot jsonTexts (alone s (.call o next) x) (.op 1 o ans) := by
  refine ⟨alone_step hworld, fun th hth => ?_⟩
  rw [alone, AList.lookup_insert] at hth
  cases hth
  refine ⟨hsaved, fun m other hm hother => ?_⟩
  rw [alone, lookup_insert_eq, if_neg hm] at hother
  cases hother

theorem alone_returned {s : State} {result : Except TrashError Unit × Unit} {x : Track} (n : ℕ) (th)
    (hth : (alone s (.ret result) x).threads.lookup n = some th) : ∃ result, th.left = .ret result := by
  rw [alone, lookup_insert_eq] at hth
  split at hth
  next =>
    cases hth
    exact ⟨result, rfl⟩
  next => cases hth

theorem oneToOne_noteTree : OneToOne notesRoot jsonTexts noteTree := by
  have hitems : manifestItems notesRoot jsonTexts noteTree = [] := rfl
  rw [OneToOne, hitems]
  refine ⟨List.nodup_nil, fun name => ⟨fun h => ?_, fun h => ?_⟩⟩
  · cases h
  · rw [noteTree, lookup_insert_eq, lookup_insert_eq] at h
    simp [trashDir, notesRoot] at h

theorem trash_consistent_note : ∃ p : TrashPool,
    (∃ e ∈ p.shared.2, e.name = "a.md".toList ∧ e.originalPath = notePath) ∧
      OneToOne notesRoot jsonTexts p.shared.1 ∧
      ∀ e ∈ p.shared.2, Held notesRoot jsonTexts p.shared.1 e := by
  have hproper : Proper notesRoot (.moveToTrash notePath false) := by
    refine ⟨by decide, fun l hl => ?_⟩
    cases hl
    exact ⟨by decide, by decide⟩
  have hrun : ∃ (s : State) (result : _) (x : Track), Runs (fun p e p' =>
      TrashStep notesRoot jsonTexts notes p e p' ∧ Careful notesRoot jsonTexts p e)
      ⟨(noteTree, []), ∅⟩ (noteMoved (.ok ())) (alone s (.ret result) x) ∧
      ∃ e ∈ s.2, e.name = "a.md".toList ∧ e.originalPath = notePath :=
    ⟨_, _, _,
      .cons ⟨.start rfl ⟨rfl, rfl, rfl⟩, hproper⟩ <|
      .cons (alone_careful (world_served epoch _ _) trivial) <|
      .cons (alone_careful (world_served epoch _ _) trivial) <|
      .cons (alone_careful (world_served epoch _ _) trivial) <|
      .cons (alone_careful (world_failing epoch _ _ (by simp)) trivial) <|
      .cons (alone_careful (world_served epoch _ _) trivial) <|
      .cons (alone_careful (world_served epoch _ _) rfl) <| .nil _,
      _, List.mem_cons_self, rfl, rfl⟩
  obtain ⟨s, result, x, hruns, hmoved⟩ := hrun
  exact ⟨_, hmoved, trash_consistent notesRoot jsonTexts notes (noteTree, []) _ _ rfl (by decide)
    oneToOne_noteTree (fun item hitem => by cases hitem) (fun e he => by cases he) hruns alone_returned⟩

/-- A move whose write of the manifest fails leaves an entry that is not listed. -/
theorem trash_unlisted_note : OneToOne notesRoot jsonTexts noteTree ∧
    ∃ (es : List TrashEvent) (p : TrashPool),
      Runs (TrashStep notesRoot jsonTexts notes) ⟨(noteTree, []), ∅⟩ es p ∧
      (∀ n th, p.threads.lookup n = some th → ∃ result, th.left = .ret result) ∧
      ¬ OneToOne notesRoot jsonTexts p.shared.1 ∧
      ∃ e ∈ p.shared.2, ¬ Held notesRoot jsonTexts p.shared.1 e := by
  have hrun : ∃ (s : State) (result : _) (x : Track),
      Runs (TrashStep notesRoot jsonTexts notes) ⟨(noteTree, []), ∅⟩
        (noteMoved (.error (.dom .quotaExceeded))) (alone s (.ret result) x) ∧
      (s.1.lookup (trashDir notesRoot ++ ["a.md".toList])).isSome ∧
      s.1.lookup (manifest notesRoot) = none ∧ s.2 ≠ [] :=
    ⟨_, _, _,
      .cons (.start rfl ⟨rfl, rfl, rfl⟩) <|
      .cons (alone_step (world_served epoch _ _)) <|
      .cons (alone_step (world_served epoch _ _)) <|
      .cons (alone_step (world_served epoch _ _)) <|
      .cons (alone_step (world_failing epoch _ _ (by simp))) <|
      .cons (alone_step (world_served epoch _ _)) <|
      .cons (alone_step (world_failing epoch _ _ (by simp))) <| .nil _,
      rfl, rfl, List.cons_ne_nil _ _⟩
  obtain ⟨s, result, x, hruns, hsome, hnone, hmoved⟩ := hrun
  have hitems : manifestItems notesRoot jsonTexts s.1 = [] := by rw [manifestItems, hnone]
  obtain ⟨e, he⟩ := List.exists_mem_of_ne_nil _ hmoved
  refine ⟨oneToOne_noteTree, _, _, hruns, alone_returned, fun hone => ?_, e, he, fun hheld => ?_⟩
  · have hname := (hone.2 _).mpr hsome
    rw [alone, hitems] at hname
    cases hname
  · obtain ⟨item, hitem, -⟩ := hheld.2
    rw [alone, hitems] at hitem
    cases hitem

end Examples

end Tactile.Notes.TrashRuns

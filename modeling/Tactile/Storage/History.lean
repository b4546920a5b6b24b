import Tactile.Lib.Transition
import Tactile.Storage.Returning

/-!
The versions that a run of writes leaves of a file: the latest contents it had,
as long as the clock keeps up with the writes.
-/

namespace Tactile.Storage.History

open Tactile.Lib.Program Tactile.Lib.Script Tactile.Lib.FiniteMap Tactile.Lib.Transition
open Tactile.Storage.Paths Tactile.Storage.Idb Tactile.Storage.Opfs Tactile.Storage.Backend
open Tactile.Storage.Versioned Tactile.Storage.VersionDirs Tactile.Storage.Returning

section Stamps

/-- The times of the snapshots taken at some readings of the clock, both the
latest first: each time is bumped past the one before. -/
def stamps : List ℤ → List ℤ
  | [] => []
  | now :: earlier =>
    match stamps earlier with
    | [] => [now]
    | last :: rest => max now (last + 1) :: last :: rest

variable {now : ℤ} {earlier : List ℤ}

theorem tail_stamps (now : ℤ) (earlier : List ℤ) :
    ∃ time, stamps (now :: earlier) = time :: stamps earlier ∧ now ≤ time ∧
      ∀ last ∈ (stamps earlier).head?, time = max now (last + 1) := by
  rw [stamps]
  cases stamps earlier with
  | nil => exact ⟨now, rfl, le_refl _, by simp⟩
  | cons last rest => exact ⟨_, rfl, le_max_left .., by simp⟩

@[simp] theorem length_stamps (readings : List ℤ) : (stamps readings).length = readings.length := by
  induction readings with
  | nil => rfl
  | cons now earlier ih =>
      obtain ⟨time, heq, -⟩ := tail_stamps now earlier
      simp [heq, ih]

theorem stamps_decreasing (readings : List ℤ) : (stamps readings).Pairwise (· > ·) := by
  induction readings with
  | nil => exact List.Pairwise.nil
  | cons now earlier ih =>
      rw [stamps]
      cases hstamps : stamps earlier with
      | nil => simp
      | cons last rest =>
          rw [hstamps] at ih
          refine List.pairwise_cons.mpr ⟨fun time htime => ?_, ih⟩
          have hlast : time ≤ last := by
            rcases List.mem_cons.mp htime with rfl | hrest
            · exact le_refl _
            · exact (List.rel_of_pairwise_cons ih hrest).le
          have hmax := le_max_right now (last + 1)
          show time < max now (last + 1)
          omega

/-- A time comes from the reading of its snapshot or of an earlier one, by as
many bumps as there are snapshots between them. -/
theorem stamps_reading {readings : List ℤ} {i : ℕ} {time : ℤ}
    (h : (stamps readings)[i]? = some time) :
    ∃ m now, readings[i + m]? = some now ∧ time = now + m := by
  induction readings generalizing i time with
  | nil => simp [stamps] at h
  | cons now earlier ih =>
      rw [stamps] at h
      cases hstamps : stamps earlier with
      | nil =>
          rw [hstamps] at h
          cases i with
          | zero => exact ⟨0, now, by simp, by simpa using h.symm⟩
          | succ i => simp at h
      | cons last rest =>
          rw [hstamps] at h ih
          cases i with
          | zero =>
              rcases max_choice now (last + 1) with hmax | hmax
              · exact ⟨0, now, by simp, by simpa [hmax] using h.symm⟩
              · obtain ⟨m, now', hread, hlast⟩ := ih (i := 0) rfl
                refine ⟨m + 1, now', by simpa using hread, ?_⟩
                have htime : last + 1 = time := by simpa [hmax] using h
                push_cast
                omega
          | succ i =>
              obtain ⟨m, now', hread, htime⟩ := ih (by simpa using h)
              refine ⟨m, now', ?_, htime⟩
              have hindex : i + 1 + m = i + m + 1 := by omega
              simpa [hindex] using hread

/-- From the last reading on, each time up to the last snapshot is taken. -/
theorem mem_stamps {time last : ℤ} (hlast : (stamps (now :: earlier)).head? = some last)
    (hforward : (now :: earlier).Pairwise (· ≥ ·)) (hfrom : now ≤ time) (hto : time ≤ last) :
    time ∈ stamps (now :: earlier) := by
  induction earlier generalizing now last with
  | nil =>
      simp only [stamps, List.head?_cons, Option.some.injEq] at hlast
      simp [stamps]
      omega
  | cons before earlier ih =>
      obtain ⟨last', heq, -, hmax⟩ := tail_stamps now (before :: earlier)
      rw [heq, List.head?_cons, Option.some.injEq] at hlast
      subst hlast
      rw [heq]
      have hbefore : before ≤ now := List.rel_of_pairwise_cons hforward List.mem_cons_self
      obtain ⟨time', heq', -⟩ := tail_stamps before earlier
      have hhead : (stamps (before :: earlier)).head? = some time' := by rw [heq']; rfl
      have hlast := hmax time' hhead
      by_cases hnew : time = last'
      · exact hnew ▸ List.mem_cons_self
      · refine List.mem_cons_of_mem _ (ih hhead hforward.of_cons (hbefore.trans hfrom) ?_)
        omega

end Stamps

/-- The clock keeps up with the overwrites at some readings of it, the latest
first: since each of them it has advanced by as many milliseconds as there were
overwrites, less the cap, and the name of a version is in the order of names
before those of the `cap` versions that follow it. -/
structure KeepsUp (cap : ℕ) (readings : List ℤ) : Prop where
  advances : ∀ (i m : ℕ) (now reading : ℤ), readings[i]? = some now →
    readings[i + m]? = some reading → (m : ℤ) - cap ≤ now - reading
  sorted : ∀ (i m : ℕ) (oldest time : ℤ), (stamps readings)[i + cap]? = some oldest → m < cap →
    (stamps readings)[i + m]? = some time →
    codeUnits (versionName oldest) < codeUnits (versionName time)

section Directory

variable {d : List Text} {t t' : Tree} {cap : ℕ} {now time : ℤ} {earlier : List ℤ}

theorem KeepsUp.before (h : KeepsUp cap (now :: earlier)) : KeepsUp cap earlier := by
  obtain ⟨time, heq, -⟩ := tail_stamps now earlier
  constructor
  · intro i m now' reading hnow hreading
    have hindex : i + 1 + m = i + m + 1 := by omega
    exact h.advances (i + 1) m now' reading (by simpa using hnow) (by simpa [hindex] using hreading)
  · intro i m oldest time' holdest hm htime
    have hshift : ∀ n, (i + 1) + n = (i + n) + 1 := by omega
    refine h.sorted (i + 1) m oldest time' ?_ hm ?_
    · simpa [heq, hshift] using holdest
    · simpa [heq, hshift] using htime

/-- What the directory of the versions holds: a file for each version. -/
def HoldsVersions (d : List Text) (kept : List (ℤ × List UInt8)) (t : Tree) : Prop :=
  ∀ name node, t.lookup (d ++ [name]) = some node ↔
    ∃ v ∈ kept, name = versionName v.1 ∧ node = .file v.2

theorem HoldsVersions.perm {kept : List (ℤ × List UInt8)} (h : HoldsVersions d kept t)
    (hnodup : (kept.map Prod.fst).Nodup) :
    (versionFiles t d).Perm (kept.map fun v => versionName v.1) := by
  have hmap : (kept.map fun v => versionName v.1) = (kept.map Prod.fst).map versionName := by
    rw [List.map_map]
    rfl
  rw [hmap, List.perm_ext_iff_of_nodup (nodup_versionFiles t d)
    (hnodup.map fun _ _ => versionName_inj), ← hmap]
  intro name
  rw [mem_versionFiles, List.mem_map]
  constructor
  · rintro ⟨-, bytes, hstored⟩
    obtain ⟨v, hv, hname, -⟩ := (h _ _).mp hstored
    exact ⟨v, hv, hname.symm⟩
  · rintro ⟨v, hv, rfl⟩
    exact ⟨List.suffix_append _ _, v.2, (h _ _).mpr ⟨v, hv, rfl, rfl⟩⟩

/-- The time of a snapshot is the one that bumping past the last one gives. -/
theorem HoldsVersions.stamp {kept : List (ℤ × List UInt8)} (h : HoldsVersions d kept t)
    (hkept : kept.map Prod.fst = (stamps earlier).take cap) (hforward : (now :: earlier).Pairwise (· ≥ ·))
    (hkeeps : KeepsUp cap (now :: earlier)) (hfirst : FirstFree t d now time) :
    stamps (now :: earlier) = time :: stamps earlier := by
  obtain ⟨time', heq, hnow, hmax⟩ := tail_stamps now earlier
  have htaken : ∀ u, t.lookup (d ++ [versionName u]) ≠ none ↔ u ∈ (stamps earlier).take cap := by
    intro u
    rw [← hkept, Option.ne_none_iff_exists', List.mem_map]
    constructor
    · rintro ⟨node, hnode⟩
      obtain ⟨v, hv, hname, -⟩ := (h _ node).mp hnode
      exact ⟨v, hv, (versionName_inj hname).symm⟩
    · rintro ⟨v, hv, rfl⟩
      exact ⟨_, (h _ _).mpr ⟨v, hv, rfl, rfl⟩⟩
  have hdecreasing := stamps_decreasing (now :: earlier)
  rw [heq] at hdecreasing
  have hfree : FirstFree t d now time' := by
    refine ⟨hnow, fun u hu hlt => (htaken u).mpr ?_, ?_⟩
    · -- below the time of the last snapshot every time is taken, and none of them is pruned
      cases hearlier : earlier with
      | nil =>
          rw [hearlier] at heq
          have hsame : now = time' := by simpa [stamps] using heq
          omega
      | cons before rest =>
          subst hearlier
          obtain ⟨last, hlast, -⟩ := tail_stamps before rest
          have hhead : (stamps (before :: rest)).head? = some last := by simp [hlast]
          have htime := hmax last hhead
          have hbefore : before ≤ now := List.rel_of_pairwise_cons hforward List.mem_cons_self
          have hmem := mem_stamps hhead hforward.of_cons (hbefore.trans hu) (by omega)
          obtain ⟨i, hi, hget⟩ := List.getElem_of_mem hmem
          rw [List.mem_take_iff_getElem]
          by_cases hcap : i < cap
          · exact ⟨i, by omega, hget⟩
          · obtain ⟨m, reading, hreading, hu'⟩ :=
              stamps_reading (List.getElem?_eq_some_iff.mpr ⟨hi, hget⟩)
            have hread : (now :: before :: rest)[0 + (i + m + 1)]? = some reading := by
              simpa using hreading
            have hadvance := hkeeps.advances 0 (i + m + 1) now reading rfl hread
            push_cast at hadvance
            omega
    · by_contra hstored
      have hmem := List.mem_of_mem_take ((htaken time').mp hstored)
      exact absurd (List.rel_of_pairwise_cons hdecreasing hmem) (by omega)
  rw [heq, hfree.unique hfirst]

variable {cfg : Config}

/-- Pruning takes out the one version too many that is first in the order of names. -/
theorem staleNames_oldest {names kept : List Text} {oldest : Text}
    (hperm : names.Perm (kept ++ [oldest])) (hlen : (kept.length : ℤ) = cfg.maxVersions)
    (hfirst : ∀ name ∈ kept, codeUnits oldest < codeUnits name) :
    staleNames cfg names = [oldest] := by
  have hone : (names.length - cfg.maxVersions).toNat = 1 := by
    rw [hperm.length_eq, List.length_append, ← hlen]
    simp
  have hsorted : (sortNames names).Pairwise fun a b => codeUnits a ≤ codeUnits b := by
    refine (List.pairwise_mergeSort ?_ ?_ names).imp fun h => of_decide_eq_true h
    · intro a b c hab hbc
      exact decide_eq_true (le_trans (of_decide_eq_true hab) (of_decide_eq_true hbc))
    · intro a b
      rw [Bool.or_eq_true, decide_eq_true_eq, decide_eq_true_eq]
      exact le_total (codeUnits a) (codeUnits b)
  have hmem : ∀ name, name ∈ sortNames names ↔ name ∈ kept ∨ name = oldest := by
    intro name
    rw [sortNames, List.mem_mergeSort, hperm.mem_iff]
    simp
  rw [staleNames, hone]
  cases hnames : sortNames names with
  | nil =>
      have holdest := (hmem oldest).mpr (.inr rfl)
      rw [hnames] at holdest
      exact absurd holdest List.not_mem_nil
  | cons first rest =>
      rw [hnames] at hsorted hmem
      rcases (hmem first).mp List.mem_cons_self with hkept | rfl
      · have hlt := hfirst first hkept
        have hle : codeUnits first ≤ codeUnits oldest := by
          rcases List.mem_cons.mp ((hmem oldest).mpr (.inr rfl)) with heq | hrest
          · rw [heq]
          · exact List.rel_of_pairwise_cons hsorted hrest
        exact absurd hlt (not_lt_of_ge hle)
      · simp

theorem staleNames_few {names : List Text} (h : (names.length : ℤ) ≤ cfg.maxVersions) :
    staleNames cfg names = [] := by
  have hnone : (names.length - cfg.maxVersions).toNat = 0 := by omega
  simp [staleNames, hnone]

/-- A snapshot puts its version before the others, and the oldest one beyond the
cap is gone. -/
theorem HoldsVersions.snapshot {kept : List (ℤ × List UInt8)} {before : List UInt8}
    (h : HoldsVersions d kept t) (hnodup : (kept.map Prod.fst).Nodup)
    (hfree : t.lookup (d ++ [versionName time]) = none)
    (hlookup : ∀ name, t'.lookup (d ++ [name]) =
      if name ∈ staleNames cfg (versionName time :: versionFiles t d) then none
      else if name = versionName time then some (.file before) else t.lookup (d ++ [name]))
    (hcap : cfg.maxVersions = cap) (hlen : kept.length ≤ cap)
    (hsorted : ∀ oldest, ((time, before) :: kept)[cap]? = some oldest →
      ∀ v ∈ ((time, before) :: kept).take cap,
        codeUnits (versionName oldest.1) < codeUnits (versionName v.1)) :
    HoldsVersions d (((time, before) :: kept).take cap) t' := by
  let all := (time, before) :: kept
  let nameOf : ℤ × List UInt8 → Text := fun v => versionName v.1
  have hfresh : ∀ v ∈ kept, v.1 ≠ time := by
    rintro v hv rfl
    rw [(h _ _).mpr ⟨v, hv, rfl, rfl⟩] at hfree
    cases hfree
  have hall : (all.map nameOf).Nodup := by
    have htimes : (all.map Prod.fst).Nodup := by
      refine List.nodup_cons.mpr ⟨fun hmem => ?_, hnodup⟩
      obtain ⟨v, hv, heq⟩ := List.mem_map.mp hmem
      exact hfresh v hv heq
    have hmap : all.map nameOf = (all.map Prod.fst).map versionName := by
      rw [List.map_map]
      rfl
    rw [hmap]
    exact htimes.map fun _ _ => versionName_inj
  have hperm : (versionName time :: versionFiles t d).Perm (all.map nameOf) :=
    (h.perm hnodup).cons _
  have hstale : staleNames cfg (versionName time :: versionFiles t d) =
      (all.drop cap).map nameOf := by
    rcases Nat.lt_or_ge kept.length cap with hlt | hge
    · have hdrop : all.drop cap = [] := List.drop_eq_nil_of_le hlt
      rw [hdrop]
      apply staleNames_few
      rw [hperm.length_eq, hcap]
      simp only [all, List.length_map, List.length_cons]
      omega
    · have hcapped : kept.length = cap := Nat.le_antisymm hlen hge
      have hbound : cap < all.length := by simp [all, hcapped]
      have hdrop : all.drop cap = [all[cap]] := by
        rw [List.drop_eq_getElem_cons hbound, List.drop_eq_nil_of_le]
        simp [all, hcapped]
      have hsplit := List.take_append_drop cap all
      rw [hdrop] at hsplit ⊢
      have hnames : (versionName time :: versionFiles t d).Perm
          ((all.take cap).map nameOf ++ [nameOf all[cap]]) := by
        rw [← hsplit, List.map_append] at hperm
        exact hperm
      apply staleNames_oldest hnames
      · rw [hcap]
        simp [all, hcapped]
      · intro name hname
        obtain ⟨v, hv, rfl⟩ := List.mem_map.mp hname
        exact hsorted _ (List.getElem?_eq_getElem hbound) v hv
  have hboth : ∀ v ∈ all.take cap, ∀ w ∈ all.drop cap, nameOf v ≠ nameOf w := by
    rw [← List.take_append_drop cap all, List.map_append] at hall
    intro v hv w hw heq
    exact List.disjoint_of_nodup_append hall (List.mem_map_of_mem hv)
      (heq ▸ List.mem_map_of_mem hw)
  intro name node
  rw [hlookup, hstale]
  have hmem : ∀ v, v ∈ all ↔ v ∈ all.take cap ∨ v ∈ all.drop cap := by
    intro v
    rw [← List.mem_append, List.take_append_drop]
  constructor
  · intro hstored
    split at hstored
    next => cases hstored
    next hkept =>
      have hnew : ∃ v ∈ all, name = nameOf v ∧ node = .file v.2 := by
        split at hstored
        next heq => exact ⟨_, List.mem_cons_self, heq, (Option.some.inj hstored).symm⟩
        next =>
          obtain ⟨v, hv, heq⟩ := (h _ _).mp hstored
          exact ⟨v, List.mem_cons_of_mem _ hv, heq⟩
      obtain ⟨v, hv, rfl, rfl⟩ := hnew
      refine ⟨v, ((hmem v).mp hv).resolve_right fun hdrop => ?_, rfl, rfl⟩
      exact hkept (List.mem_map_of_mem hdrop)
  · rintro ⟨v, hv, rfl, rfl⟩
    rw [if_neg]
    · rcases List.mem_cons.mp ((hmem v).mpr (.inl hv)) with rfl | hold
      · rw [if_pos rfl]
      · rw [if_neg fun heq => hfresh v hold (versionName_inj heq)]
        exact (h _ _).mpr ⟨v, hold, rfl, rfl⟩
    · intro hdrop
      obtain ⟨w, hw, heq⟩ := List.mem_map.mp hdrop
      exact hboth v hv w hw heq.symm

/-- A snapshot whose name comes before those of as many versions as may be kept is
pruned at once. -/
theorem HoldsVersions.pruned {kept : List (ℤ × List UInt8)} {before : List UInt8}
    (h : HoldsVersions d kept t) (hnodup : (kept.map Prod.fst).Nodup)
    (hlookup : ∀ name, t'.lookup (d ++ [name]) =
      if name ∈ staleNames cfg (versionName time :: versionFiles t d) then none
      else if name = versionName time then some (.file before) else t.lookup (d ++ [name]))
    (hlen : (kept.length : ℤ) = cfg.maxVersions)
    (hfirst : ∀ v ∈ kept, codeUnits (versionName time) < codeUnits (versionName v.1)) :
    HoldsVersions d kept t' := by
  have hstale : staleNames cfg (versionName time :: versionFiles t d) = [versionName time] := by
    have hperm : (versionName time :: versionFiles t d).Perm
        ((kept.map fun v => versionName v.1) ++ [versionName time]) :=
      ((h.perm hnodup).cons _).trans (List.perm_append_singleton _ _).symm
    apply staleNames_oldest hperm
    · rwa [List.length_map]
    · intro name hname
      obtain ⟨v, hv, rfl⟩ := List.mem_map.mp hname
      exact hfirst v hv
  intro name node
  rw [hlookup, hstale]
  by_cases hnew : name = versionName time
  · rw [if_pos (List.mem_singleton.mpr hnew)]
    constructor
    · intro hstored
      cases hstored
    · rintro ⟨v, hv, hname, -⟩
      have hlt := hfirst v hv
      rw [← hname, hnew] at hlt
      exact absurd hlt (lt_irrefl _)
  · rw [if_neg fun hmem => hnew (List.mem_singleton.mp hmem), if_neg hnew]
    exact h name node

theorem HoldsVersions.mkdir {kept : List (ℤ × List UInt8)} (h : HoldsVersions d kept t)
    (hmkdir : mkdirAt t d true = (.ok (), t')) : HoldsVersions d kept t' := by
  intro name node
  have happart : ¬ d ++ [name] <+: d := fun hpre => by simpa using hpre.length_le
  have hsame := lookup_mkdirAt_apart (t := t) happart
  rw [hmkdir] at hsame
  rw [hsame]
  exact h name node

end Directory

section Writes

/-- A write of contents when the clock shows a time. -/
structure Write where
  clock : Clock
  contents : Contents

/-- The memory of the backend and the tree below it. -/
structure Store where
  last : LastSnapshotAt
  tree : Tree

variable {codec : TextCodec} {cfg : Config} {path dir : Text} {segs d : List Text}

/-- A write that goes through, whatever calls of the backend below fail. -/
def Overwrites (codec : TextCodec) (cfg : Config) (path : Text) (s : Store) (w : Write) (s' : Store) :
    Prop :=
  ∃ fuel, Exec (Serves codec w.clock) s.tree ((w.contents.write cfg fuel path).call s.last)
    (.ok (), s'.last) s'.tree

/-- The readings of the clock at some writes, the latest first. -/
def readings (ws : List Write) : List ℤ := (ws.map fun w => w.clock.now).reverse

/-- The contents of a file at first and after each write, the latest first. -/
def contentsOf (codec : TextCodec) (first : List UInt8) (ws : List Write) : List (List UInt8) :=
  (ws.map fun w => w.contents.encode codec).reverse ++ [first]

/-- The versions that there should be: the contents before each write, the latest
first, up to the cap. -/
def latest (codec : TextCodec) (first : List UInt8) (ws : List Write) (cap : ℕ) :
    List (ℤ × List UInt8) :=
  ((stamps (readings ws)).zip (contentsOf codec first ws).tail).take cap

/-- The store after some writes. -/
structure Kept (codec : TextCodec) (segs d : List Text) (first : List UInt8) (cap : ℕ)
    (ws : List Write) (t : Tree) : Prop where
  valid : t.Valid
  apart : ¬ d <+: segs
  file : ∃ current, (contentsOf codec first ws).head? = some current ∧
    t.lookup segs = some (.file current)
  versions : HoldsVersions d (latest codec first ws cap) t

variable {first current before : List UInt8} {cap : ℕ} {pre : List Write} {w : Write} {t t' t₁ : Tree}

theorem readings_concat : readings (pre ++ [w]) = w.clock.now :: readings pre := by
  simp [readings]

theorem contentsOf_concat :
    contentsOf codec first (pre ++ [w]) = w.contents.encode codec :: contentsOf codec first pre := by
  simp [contentsOf]

theorem contentsOf_cons (codec : TextCodec) (first : List UInt8) (pre : List Write) :
    ∃ current previous, contentsOf codec first pre = current :: previous ∧
      previous.length = (readings pre).length := by
  cases h : contentsOf codec first pre with
  | nil => simp [contentsOf] at h
  | cons current previous =>
      refine ⟨current, previous, rfl, ?_⟩
      have hlen := congrArg List.length h
      simp only [contentsOf, List.length_append, List.length_reverse, List.length_map,
        List.length_cons, List.length_nil] at hlen
      simp only [readings, List.length_reverse, List.length_map]
      omega

theorem times_latest : (latest codec first pre cap).map Prod.fst = (stamps (readings pre)).take cap := by
  obtain ⟨current, previous, hcontents, hlen⟩ := contentsOf_cons codec first pre
  rw [latest, hcontents, List.tail_cons, List.map_take, List.map_fst_zip]
  rw [length_stamps, hlen]

/-- A snapshot before a write keeps the versions the latest ones. -/
theorem versions_snapshot (hversions : HoldsVersions d (latest codec first pre cap) t)
    (hcurrent : (contentsOf codec first pre).head? = some current)
    (hcap : cfg.maxVersions = cap) (hpos : 0 < cap)
    (hforward : (readings (pre ++ [w])).Pairwise (· ≥ ·)) (hkeeps : KeepsUp cap (readings (pre ++ [w])))
    (hsnap : Snapshots cfg d current w.clock.now t t₁) :
    HoldsVersions d (latest codec first (pre ++ [w]) cap) t₁ := by
  obtain ⟨t₂, hmkdir, time, hfirst, hlookup⟩ := hsnap
  have hmade := hversions.mkdir hmkdir
  rw [readings_concat] at hforward hkeeps
  have hstamps := hmade.stamp times_latest hforward hkeeps hfirst
  obtain ⟨current', previous, hcontents, hlen⟩ := contentsOf_cons codec first pre
  obtain rfl : current' = current := by simpa [hcontents] using hcurrent
  let vs := (stamps (readings pre)).zip previous
  have hlatest : latest codec first pre cap = vs.take cap := by simp only [latest, hcontents]; rfl
  have hnext : latest codec first (pre ++ [w]) cap = ((time, current') :: vs).take cap := by
    simp only [latest, readings_concat, contentsOf_concat, hstamps, hcontents]
    rfl
  have htake : ((time, current') :: vs.take cap).take cap = ((time, current') :: vs).take cap := by
    obtain ⟨n, rfl⟩ := Nat.exists_eq_succ_of_ne_zero hpos.ne'
    simp [List.take_take]
  have htimes : ((time, current') :: vs.take cap).map Prod.fst =
      (stamps (w.clock.now :: readings pre)).take (cap + 1) := by
    rw [List.map_cons, ← hlatest, times_latest, hstamps]
    rfl
  have hat : ∀ i v, i ≤ cap → ((time, current') :: vs.take cap)[i]? = some v →
      (stamps (w.clock.now :: readings pre))[i]? = some v.1 := by
    intro i v hi hv
    have hmap := congrArg (·[i]?) htimes
    simp only [List.getElem?_map, hv, List.getElem?_take] at hmap
    rw [if_pos (by omega)] at hmap
    exact hmap.symm
  rw [hnext, ← htake]
  rw [hlatest] at hmade
  apply hmade.snapshot _ hfirst.2.2 (lookup_version hlookup) hcap
  · simp
  · intro oldest holdest v hv
    obtain ⟨i, hi, hget⟩ := List.mem_take_iff_getElem.mp hv
    have hnew := hat i v (by omega) (List.getElem?_eq_some_iff.mpr ⟨by omega, hget⟩)
    refine hkeeps.sorted 0 i oldest.1 v.1 ?_ (by omega) ?_
    · simpa using hat cap oldest le_rfl holdest
    · simpa using hnew
  · rw [← hlatest, times_latest]
    exact ((stamps_decreasing _).imp fun h => h.ne').sublist (List.take_sublist ..)

section Existence

variable (hversioned : cfg.shouldVersion path = .ok true) (hpath : pathSegments path = .ok segs)
variable (hdir : versionDirFor cfg path = .ok (some dir)) (hd : pathSegments dir = .ok d)

/-- A file that is not among its own versions, with a directory for them. -/
structure Ready (segs d : List Text) (t : Tree) : Prop where
  valid : t.Valid
  file : ∃ current, t.lookup segs = some (.file current)
  apart : ¬ d <+: segs
  dir : ∃ t', mkdirAt t d true = (.ok (), t')

include hversioned hpath hdir hd

theorem Ready.exists_overwrite (h : Ready segs d t) (w : Write) (last : LastSnapshotAt) :
    ∃ s' : Store, Overwrites codec cfg path ⟨last, t⟩ w s' ∧ Ready segs d s'.tree := by
  obtain ⟨current, hfile⟩ := h.file
  obtain ⟨t₁, hmade⟩ := h.dir
  obtain ⟨fuel, last', t', hexec⟩ :=
    exists_write h.valid hpath hfile hdir hd hmade h.apart hversioned w.contents
  refine ⟨⟨last', t'⟩, ⟨fuel, hexec⟩, valid_steps hexec h.valid, ?_, h.apart, ?_⟩
  · obtain ⟨t₂, rfl, -⟩ :=
      (write_spec h.valid hpath hfile hdir hd fuel w.contents hversioned).exec hexec
    exact ⟨_, AList.lookup_insert _⟩
  · have hmade' := hmade
    rw [mkdirAt, if_pos rfl] at hmade'
    have hway := makeDirs_ok_iff.mp ⟨t₁, hmade'⟩
    obtain ⟨t₂, rfl, hleft⟩ :=
      (write_spec h.valid hpath hfile hdir hd fuel w.contents hversioned).exec hexec
    simp only [mkdirAt, if_true]
    apply makeDirs_ok_iff.mpr
    intro p hp contents
    have hpre : p <+: d := (List.mem_inits p d).mp (List.mem_of_mem_tail hp)
    have hsegs : p ≠ segs := fun heq => hway p hp current (heq ▸ hfile)
    rw [lookup_insert_eq, if_neg hsegs]
    rcases hleft with ⟨-, rfl⟩ | ⟨-, t₃, hmkdir, time, -, hlookup⟩
    · exact hway p hp contents
    · rw [hmade] at hmkdir
      cases hmkdir
      have hbelow : ∀ name, ¬ d ++ [name] <+: p := fun name hname => by
        simpa using (hname.trans hpre).length_le
      have hnew : p ≠ d ++ [versionName time] := by
        rintro rfl
        exact hbelow _ List.prefix_rfl
      rw [hlookup, if_neg fun h => hbelow _ h.choose_spec.2, if_neg hnew, lookup_makeDirs hmade',
        if_pos hp]
      intro hfile
      cases hfile

/-- Every sequence of writes over such a file has a run. -/
theorem Ready.exists_run (h : Ready segs d t) (ws : List Write) (last : LastSnapshotAt) :
    ∃ s' : Store, Runs (Overwrites codec cfg path) ⟨last, t⟩ ws s' := by
  induction ws generalizing last t with
  | nil => exact ⟨_, .nil _⟩
  | cons w ws ih =>
      obtain ⟨⟨last', t'⟩, hwrite, hready⟩ := h.exists_overwrite hversioned hpath hdir hd w last
      obtain ⟨s', hrun⟩ := ih hready last'
      exact ⟨s', .cons hwrite hrun⟩

end Existence

section Run

variable (hmin : cfg.minInterval = 0) (hcap : cfg.maxVersions = cap) (hpos : 0 < cap)
variable (hversioned : cfg.shouldVersion path = .ok true) (hpath : pathSegments path = .ok segs)
variable (hdir : versionDirFor cfg path = .ok (some dir)) (hd : pathSegments dir = .ok d)

include hmin hcap hpos hversioned hpath hdir hd

omit hcap hpos in
/-- A write over a file of a size to keep takes a snapshot. -/
theorem Overwrites.snapshots {last last' : LastSnapshotAt}
    (hwrite : Overwrites codec cfg path ⟨last, t⟩ w ⟨last', t'⟩) (hv : t.Valid)
    (hfile : t.lookup segs = some (.file current)) (hsize : (current.length : ℤ) ≤ cfg.maxFileBytes) :
    ∃ t₁, t' = t₁.insert segs (.file (w.contents.encode codec)) ∧
      Snapshots cfg d current w.clock.now t t₁ := by
  obtain ⟨fuel, hexec⟩ := hwrite
  have hleft := (write_spec hv hpath hfile hdir hd fuel w.contents hversioned).exec hexec
  obtain ⟨t₁, ht', hleft⟩ := hleft
  have hnotHeld : ¬ HeldBack cfg last path w.clock.now current.length := by
    rintro (hlarge | ⟨hinterval, -⟩)
    · omega
    · omega
  exact ⟨t₁, ht', (hleft.resolve_left fun hheld => hnotHeld hheld.1).2⟩

theorem Kept.overwrite (h : Kept codec segs d first cap pre t)
    (hsizes : ∀ b ∈ contentsOf codec first pre, (b.length : ℤ) ≤ cfg.maxFileBytes)
    (hforward : (readings (pre ++ [w])).Pairwise (· ≥ ·)) (hkeeps : KeepsUp cap (readings (pre ++ [w])))
    {last last' : LastSnapshotAt} (hwrite : Overwrites codec cfg path ⟨last, t⟩ w ⟨last', t'⟩) :
    Kept codec segs d first cap (pre ++ [w]) t' := by
  obtain ⟨current, hcurrent, hfile⟩ := h.file
  have hsize := hsizes current (List.mem_of_mem_head? hcurrent)
  obtain ⟨t₁, rfl, hsnap⟩ :=
    hwrite.snapshots hmin hversioned hpath hdir hd h.valid hfile hsize
  have hversions := versions_snapshot h.versions hcurrent hcap hpos hforward hkeeps hsnap
  obtain ⟨fuel, hexec⟩ := hwrite
  refine ⟨valid_steps hexec h.valid, h.apart, ⟨w.contents.encode codec, ?_, ?_⟩, fun name node => ?_⟩
  · rw [contentsOf_concat]
    rfl
  · rw [lookup_insert_eq, if_pos rfl]
  · rw [lookup_insert_eq, if_neg fun heq : d ++ [name] = segs => h.apart (heq ▸ List.prefix_append ..)]
    exact hversions name node

/-- After a run of writes the directory holds the latest versions. -/
theorem kept_of_runs {ws : List Write} {s s' : Store} (hv : s.tree.Valid)
    (hfile : s.tree.lookup segs = some (.file first)) (hfresh : s.tree.lookup d = none)
    (hsizes : ∀ b ∈ contentsOf codec first ws, (b.length : ℤ) ≤ cfg.maxFileBytes)
    (hforward : (readings ws).Pairwise (· ≥ ·)) (hkeeps : KeepsUp cap (readings ws))
    (hrun : Runs (Overwrites codec cfg path) s ws s') : Kept codec segs d first cap ws s'.tree := by
  have hdroot : d ≠ [] := by
    obtain ⟨_, above, -, rfl⟩ := versionDir_name hdir hd
    simp
  have hempty : ∀ rest, s.tree.lookup (d ++ rest) = none := free_below hv hfresh hdroot
  have hstart : Kept codec segs d first cap [] s.tree := by
    refine ⟨hv, ?_, ⟨first, rfl, hfile⟩, fun name node => ?_⟩
    · rintro ⟨rest, rfl⟩
      rw [hempty] at hfile
      cases hfile
    · rw [hempty]
      simp [latest, readings, stamps]
  let Inv : List Write → Store → Prop := fun pre s =>
    (∀ b ∈ contentsOf codec first pre, (b.length : ℤ) ≤ cfg.maxFileBytes) →
      (readings pre).Pairwise (· ≥ ·) → KeepsUp cap (readings pre) → Kept codec segs d first cap pre s.tree
  have hinv : Inv ws s' := by
    refine hrun.history (fun pre s w s' hpre hstep hsizes hforward hkeeps => ?_) fun _ _ _ => hstart
    have hbefore := hforward
    have hkeepsBefore := hkeeps
    rw [readings_concat] at hbefore hkeepsBefore
    have hsizesBefore : ∀ b ∈ contentsOf codec first pre, (b.length : ℤ) ≤ cfg.maxFileBytes := by
      intro b hb
      apply hsizes
      rw [contentsOf_concat]
      exact List.mem_cons_of_mem _ hb
    have hkept := hpre hsizesBefore hbefore.of_cons hkeepsBefore.before
    exact hkept.overwrite hmin hcap hpos hversioned hpath hdir hd hsizesBefore hforward hkeeps hstep
  exact hinv hsizes hforward hkeeps

end Run

end Writes

section Listing

variable {number : Text → ℤ} {d : List Text} {t : Tree} {versions : List (FileVersion ℤ)}
variable {kept : List (ℤ × List UInt8)}

theorem withoutMd_versionName (time : ℤ) : withoutMd (versionName time) = (toString time).toList := by
  have hsuffix : ".md".toList <:+ versionName time := List.suffix_append _ _
  rw [withoutMd, if_pos hsuffix, versionName, List.length_append]
  exact List.take_left

/-- A directory that holds versions, listed: they come with the latest first. -/
theorem HoldsVersions.listed (h : HoldsVersions d kept t) (hsorted : (kept.map Prod.fst).Pairwise (· > ·))
    (hnumber : ∀ v ∈ kept, number (toString v.1).toList = v.1) (hlists : Lists number t d versions) :
    versions.map FileVersion.id = kept.map fun v => versionName v.1 := by
  obtain ⟨found, hids, htimes, rfl⟩ := hlists
  have hperm : ((found.mergeSort fun a b => decide (b.timestamp ≤ a.timestamp)).map
      FileVersion.id).Perm (kept.map fun v => versionName v.1) := by
    refine ((List.mergeSort_perm found _).map FileVersion.id).trans ?_
    rw [hids]
    exact h.perm (hsorted.imp fun h => h.ne')
  have hlisted : (found.mergeSort fun a b => decide (b.timestamp ≤ a.timestamp)).Pairwise
      fun a b => b.timestamp ≤ a.timestamp := by
    refine (List.pairwise_mergeSort ?_ ?_ found).imp fun h => of_decide_eq_true h
    · intro a b c hab hbc
      have hab := of_decide_eq_true hab
      have hbc := of_decide_eq_true hbc
      exact decide_eq_true (by omega)
    · intro a b
      rw [Bool.or_eq_true, decide_eq_true_eq, decide_eq_true_eq]
      omega
  let timeOf : Text → ℤ := fun name => number (withoutMd name)
  have hname : ∀ v ∈ kept, timeOf (versionName v.1) = v.1 := by
    intro v hv
    show number (withoutMd (versionName v.1)) = v.1
    rw [withoutMd_versionName, hnumber v hv]
  have hsortedIds : ((found.mergeSort fun a b => decide (b.timestamp ≤ a.timestamp)).map
      FileVersion.id).Pairwise fun a b => timeOf b ≤ timeOf a := by
    rw [List.pairwise_map]
    refine hlisted.imp_of_mem fun ha hb hle => ?_
    rw [htimes _ (List.mem_mergeSort.mp ha), htimes _ (List.mem_mergeSort.mp hb)] at hle
    exact hle
  have hsortedNames : (kept.map fun v => versionName v.1).Pairwise fun a b => timeOf b ≤ timeOf a := by
    rw [List.pairwise_map]
    refine (List.pairwise_map.mp hsorted).imp_of_mem fun ha hb hlt => ?_
    rw [hname _ ha, hname _ hb]
    exact hlt.le
  refine List.Perm.eq_of_pairwise (fun a b ha hb hab hba => ?_) hsortedIds hsortedNames hperm
  obtain ⟨v, hv, rfl⟩ := List.mem_map.mp (hperm.subset ha)
  obtain ⟨w, hw, rfl⟩ := List.mem_map.mp hb
  rw [hname v hv, hname w hw] at hab hba
  rw [le_antisymm hba hab]

end Listing

/-- The versions of a path are the wanted contents, in their order: the list
returns, and every list shows them. -/
def ListsContents (codec : TextCodec) (cfg : Config) (number : Text → ℤ) (later : Clock) (path : Text)
    (d : List Text) (wanted : List (List UInt8)) (s : Store) : Prop :=
  (∃ versions, Exec (Responds (respond codec later)) s.tree
    ((listVersions cfg number path).call s.last) (.ok versions, s.last) s.tree) ∧
  ∀ versions last t, Exec (Serves codec later) s.tree ((listVersions cfg number path).call s.last)
      (.ok versions, last) t →
    versions.map (fun v => s.tree.lookup (d ++ [v.id])) = wanted.map fun b => some (.file b)

/-- What a directory that holds versions is listed as. -/
theorem HoldsVersions.lists {codec : TextCodec} {cfg : Config} {number : Text → ℤ} {later : Clock}
    {path dir : Text} {d : List Text} {kept : List (ℤ × List UInt8)} {s : Store}
    (h : HoldsVersions d kept s.tree) (hv : s.tree.Valid) (hdir : versionDirFor cfg path = .ok (some dir))
    (hd : pathSegments dir = .ok d) (hsorted : (kept.map Prod.fst).Pairwise (· > ·))
    (hnumber : ∀ v ∈ kept, number (toString v.1).toList = v.1)
    (hplace : existsAt s.tree d = true → s.tree.isDir d) :
    ListsContents codec cfg number later path d (kept.map Prod.snd) s := by
  constructor
  · have hlists : Meets (Responds (respond codec later)) _ _ _ (listVersions cfg number path) s.last s.tree :=
      listVersions_spec number hv hdir hd
    obtain ⟨⟨out, last⟩, t, hexec, hout⟩ := hlists.exists_exec fun _ _ _ => ⟨_, _, rfl⟩
    cases out with
    | error e => exact absurd (hplace hout.1) hout.2
    | ok versions =>
        obtain ⟨rfl, rfl, -⟩ := hout
        exact ⟨versions, hexec⟩
  · intro versions last t hexec
    obtain ⟨-, -, hlists⟩ := (listVersions_lists number hv hdir hd serves_answersAs).exec hexec
    have hids := h.listed hsorted hnumber hlists
    have hlookup : versions.map (fun v => s.tree.lookup (d ++ [v.id])) =
        (versions.map FileVersion.id).map fun name => s.tree.lookup (d ++ [name]) := by
      rw [List.map_map]
      rfl
    rw [hlookup, hids, List.map_map, List.map_map]
    refine List.map_congr_left fun v hv => ?_
    exact (h _ _).mpr ⟨v, hv, rfl, rfl⟩

/-- With no interval between snapshots, the versions after a run of writes are the
latest contents that the file had before, as many as there were writes up to the
cap, in every run in which the clock keeps up. -/
theorem listVersions_latest (codec : TextCodec) (cfg : Config) (path dir : Text) (segs d : List Text)
    (cap : ℕ) (first : List UInt8) (ws : List Write) (s s' : Store) (number : Text → ℤ) (later : Clock)
    (hmin : cfg.minInterval = 0) (hcap : cfg.maxVersions = cap) (hpos : 1 ≤ cap)
    (hversioned : cfg.shouldVersion path = .ok true) (hpath : pathSegments path = .ok segs)
    (hdir : versionDirFor cfg path = .ok (some dir)) (hd : pathSegments dir = .ok d)
    (hv : s.tree.Valid) (hfile : s.tree.lookup segs = some (.file first))
    (hfresh : s.tree.lookup d = none)
    (hsizes : ∀ b ∈ contentsOf codec first ws, (b.length : ℤ) ≤ cfg.maxFileBytes)
    (hforward : (readings ws).Pairwise (· ≥ ·)) (hkeeps : KeepsUp cap (readings ws))
    (hnumber : ∀ time ∈ stamps (readings ws), number (toString time).toList = time)
    (hrun : Runs (Overwrites codec cfg path) s ws s') :
    ((contentsOf codec first ws).tail.take cap).length = min ws.length cap ∧
      ListsContents codec cfg number later path d ((contentsOf codec first ws).tail.take cap) s' := by
  have hkept := kept_of_runs hmin hcap hpos hversioned hpath hdir hd hv hfile hfresh hsizes hforward
    hkeeps hrun
  obtain ⟨current, previous, hcontents, hlen⟩ := contentsOf_cons codec first ws
  have hreadings : (readings ws).length = ws.length := by simp [readings]
  have hlength : ((contentsOf codec first ws).tail.take cap).length = min ws.length cap := by
    rw [hcontents, List.tail_cons, List.length_take, hlen, hreadings, Nat.min_comm]
  have hwanted : (contentsOf codec first ws).tail.take cap = (latest codec first ws cap).map Prod.snd := by
    rw [latest, hcontents, List.tail_cons, List.map_take, List.map_snd_zip]
    rw [length_stamps, hlen]
  refine ⟨hlength, ?_⟩
  rw [hwanted] at hlength ⊢
  apply hkept.versions.lists hkept.valid hdir hd
  · rw [times_latest]
    exact (stamps_decreasing _).sublist (List.take_sublist ..)
  · intro v hv
    apply hnumber
    have hmem := List.mem_map_of_mem (f := Prod.fst) hv
    rw [times_latest] at hmem
    exact List.mem_of_mem_take hmem
  · intro hthere
    cases hlatest : latest codec first ws cap with
    | nil =>
        have hnone : ws = [] := by
          rw [hlatest] at hlength
          simp only [List.map_nil, List.length_nil] at hlength
          exact List.eq_nil_of_length_eq_zero (by omega)
        subst hnone
        cases hrun
        obtain ⟨_, above, -, rfl⟩ := versionDir_name hdir hd
        simp [existsAt, hfresh] at hthere
    | cons v rest =>
        have hstored := (hkept.versions _ _).mpr ⟨v, hlatest ▸ List.mem_cons_self, rfl, rfl⟩
        exact isDir_of_stored hkept.valid (List.cons_ne_nil _ _) hstored

section Sample

/-- One version, and a snapshot at every write. -/
def capped : Config := VersioningOptions.config ⟨none, some 1, none, some 0, none, none⟩

/-- A note without versions. -/
def freshNote : Store :=
  ⟨∅, ofPairs [(noteVersions.take 1, .dir), (noteSegments, .file (latin.encode "a"))]⟩

def writeAt (time : ℤ) (contents : String) : Write := ⟨⟨time, fun _ => none⟩, .text contents⟩

/-- The number that digits are read as. -/
def digitsNumber (s : Text) : ℤ := Nat.ofDigitChars 10 s 0

theorem freshNote_ready : Ready noteSegments noteVersions freshNote.tree where
  valid := by decide
  file := ⟨_, rfl⟩
  apart := by decide
  dir := ⟨_, rfl⟩

theorem capped_versionDir : versionDirFor capped notePath = .ok (some (render noteVersions)) := rfl

theorem freshNote_run (ws : List Write) :
    ∃ s', Runs (Overwrites latin capped notePath) freshNote ws s' :=
  freshNote_ready.exists_run rfl rfl capped_versionDir rfl ws ∅

/-- Two writes with room for one version. -/
theorem keepsUp_pair {now before : ℤ} (hforward : before ≤ now)
    (hsorted : codeUnits (versionName before) < codeUnits (versionName (max now (before + 1)))) :
    KeepsUp 1 [now, before] := by
  constructor
  · intro i m now' reading hnow hreading
    rcases i with _ | _ | i
    · rcases m with _ | _ | m
      · simp_all
      · simp at hnow hreading
        omega
      · simp at hreading
    · rcases m with _ | m
      · simp_all
      · simp [show 1 + (m + 1) = m + 1 + 1 by omega] at hreading
    · simp at hnow
  · intro i m oldest time holdest hm htime
    obtain rfl : m = 0 := by omega
    have hstamps : stamps [now, before] = [max now (before + 1), before] := rfl
    rw [hstamps] at holdest htime
    rcases i with _ | i
    · simp at holdest htime
      subst holdest htime
      exact hsorted
    · simp at holdest

/-- Two writes at different times, with room for one version. -/
theorem listVersions_latest_twice : ∃ s',
    Runs (Overwrites latin capped notePath) freshNote [writeAt 5 "b", writeAt 7 "c"] s' ∧
      ListsContents latin capped digitsNumber laterClock notePath noteVersions [latin.encode "b"] s' := by
  obtain ⟨s', hrun⟩ := freshNote_run [writeAt 5 "b", writeAt 7 "c"]
  have hkeeps : KeepsUp 1 (readings [writeAt 5 "b", writeAt 7 "c"]) :=
    keepsUp_pair (by decide) (by decide)
  refine ⟨s', hrun, ?_⟩
  exact (listVersions_latest latin capped notePath (render noteVersions) noteSegments noteVersions 1
    (latin.encode "a") [writeAt 5 "b", writeAt 7 "c"] freshNote s' digitsNumber laterClock rfl rfl le_rfl
    rfl rfl capped_versionDir rfl (by decide) rfl rfl (by decide) (by decide) hkeeps (by decide) hrun).2

/-- Three writes while the clock shows one time. -/
def burst : List Write := [writeAt 5 "b", writeAt 5 "c", writeAt 5 "d"]

/-- The snapshot before the third write takes the name of the version that was pruned
before the second, and is pruned at once in its turn: the version kept is older than
the latest contents. -/
theorem burst_loses_latest :
    (readings burst).Pairwise (· ≥ ·) ∧
      (contentsOf latin (latin.encode "a") burst).tail.take 1 = [latin.encode "c"] ∧
      ∃ s', Runs (Overwrites latin capped notePath) freshNote burst s' ∧
        ListsContents latin capped digitsNumber laterClock notePath noteVersions [latin.encode "b"] s' ∧
        ¬ ListsContents latin capped digitsNumber laterClock notePath noteVersions
          [latin.encode "c"] s' := by
  refine ⟨by decide, rfl, ?_⟩
  obtain ⟨s', hrun⟩ := freshNote_run burst
  refine ⟨s', hrun, ?_⟩
  let pre := [writeAt 5 "b", writeAt 5 "c"]
  have hsplit : Runs (Overwrites latin capped notePath) freshNote (pre ++ writeAt 5 "d" :: []) s' := hrun
  obtain ⟨s, s₃, hpre, hlast, hnil⟩ := hsplit.split
  cases hnil
  have hkept : Kept latin noteSegments noteVersions (latin.encode "a") 1 pre s.tree := by
    refine kept_of_runs rfl rfl Nat.one_pos rfl rfl capped_versionDir rfl freshNote_ready.valid rfl rfl
      (by decide) (by decide) ?_ hpre
    exact keepsUp_pair (by decide) (by decide)
  have hfile : s.tree.lookup noteSegments = some (.file (latin.encode "c")) := by
    obtain ⟨current, hcurrent, hfile⟩ := hkept.file
    rw [hfile]
    exact congrArg (some ∘ Node.file) (Option.some.inj hcurrent.symm)
  have hversions : HoldsVersions noteVersions [(6, latin.encode "b")] s.tree := hkept.versions
  obtain ⟨t₁, ht', t₂, hmkdir, time, hfirst, hlookup⟩ :=
    hlast.snapshots rfl rfl rfl capped_versionDir rfl hkept.valid hfile (by decide)
  have hmade := hversions.mkdir hmkdir
  have hfree : FirstFree t₂ noteVersions 5 5 := by
    refine ⟨le_rfl, fun u hu hlt => absurd hlt (by omega), ?_⟩
    by_contra hstored
    obtain ⟨node, hnode⟩ := Option.ne_none_iff_exists'.mp hstored
    obtain ⟨v, hv, hname, -⟩ := (hmade _ _).mp hnode
    rw [List.mem_singleton.mp hv] at hname
    exact absurd (versionName_inj hname) (by decide)
  obtain rfl : time = 5 := hfree.unique hfirst
  have hpruned := hmade.pruned (by decide) (lookup_version hlookup) rfl fun v hv => by
    rw [List.mem_singleton.mp hv]
    decide
  have hvalid : s'.tree.Valid := by
    obtain ⟨fuel, hexec⟩ := hlast
    exact valid_steps hexec hkept.valid
  have hleft : HoldsVersions noteVersions [(6, latin.encode "b")] s'.tree := by
    intro name node
    have happart : noteVersions ++ [name] ≠ noteSegments := fun heq =>
      hkept.apart (heq ▸ List.prefix_append noteVersions [name])
    rw [ht', lookup_insert_eq, if_neg happart]
    exact hpruned name node
  have hlists : ListsContents latin capped digitsNumber laterClock notePath noteVersions
      [latin.encode "b"] s' := by
    have hstored := (hleft (versionName 6) _).mpr ⟨_, List.mem_singleton_self _, rfl, rfl⟩
    refine hleft.lists hvalid capped_versionDir rfl (by decide) (by decide) fun _ => ?_
    exact isDir_of_stored hvalid (List.cons_ne_nil _ _) hstored
  refine ⟨hlists, fun hwanted => ?_⟩
  obtain ⟨versions, hexec⟩ := hlists.1
  have hserved := Steps.mono (fun _ _ _ _ hans => serves_of_responds hans) hexec
  have hshown := hlists.2 versions _ _ hserved
  rw [hwanted.2 versions _ _ hserved] at hshown
  exact absurd hshown (by decide)

end Sample

end Tactile.Storage.History

import Mathlib.Data.List.Perm.Subperm
import Mathlib.Data.List.Range
import Mathlib.Data.List.Nodup

/-!
The search for a number that is not taken.
-/

namespace Tactile.Lib.Fresh

section Search

variable (taken : ℕ → Prop) [DecidablePred taken]

/-- The first number from a start that is not taken, of so many. -/
def freeFrom : ℕ → ℕ → ℕ
  | 0, i => i
  | n + 1, i => if taken i then freeFrom n (i + 1) else i

variable {taken}

/-- A search that finds a free number finds the least one. -/
theorem freeFrom_least {n start : ℕ} (h : ∃ i, start ≤ i ∧ i ≤ start + n ∧ ¬ taken i) :
    start ≤ freeFrom taken n start ∧ ¬ taken (freeFrom taken n start) ∧
      ∀ j, start ≤ j → j < freeFrom taken n start → taken j := by
  induction n generalizing start with
  | zero =>
      obtain ⟨i, hle, hi, hfree⟩ := h
      obtain rfl : i = start := by omega
      exact ⟨le_refl _, hfree, fun j hj hlt => absurd hlt (not_lt.mpr hj)⟩
  | succ n ih =>
      rw [freeFrom]
      split
      next htaken =>
        obtain ⟨i, hle, hi, hfree⟩ := h
        have hne : start ≠ i := fun heq => hfree (heq ▸ htaken)
        obtain ⟨hstart, hnone, hbefore⟩ := @ih (start + 1) ⟨i, by omega, by omega, hfree⟩
        refine ⟨by omega, hnone, fun j hj hlt => ?_⟩
        rcases Nat.eq_or_lt_of_le hj with rfl | hlater
        · exact htaken
        · exact hbefore j hlater hlt
      next hfree => exact ⟨le_refl _, hfree, fun j hj hlt => absurd hlt (not_lt.mpr hj)⟩

end Search

/-- Of distinct names one more than those in a list is not in the list. -/
theorem exists_free {β : Type} {name : ℕ → β} (hinj : ∀ i j, name i = name j → i = j) (used : List β)
    (start : ℕ) : ∃ i, start ≤ i ∧ i ≤ start + used.length ∧ name i ∉ used := by
  by_contra hnone
  push Not at hnone
  let names := (List.range' start (used.length + 1)).map name
  have hnodup : names.Nodup :=
    List.Nodup.map (fun i j h => hinj i j h) List.nodup_range'
  have hsubset : names ⊆ used := by
    intro b hb
    obtain ⟨i, hi, rfl⟩ := List.mem_map.mp hb
    rw [List.mem_range'_1] at hi
    exact hnone i hi.1 (by omega)
  have hle := (List.subperm_of_subset hnodup hsubset).length_le
  simp only [names, List.length_map, List.length_range'] at hle
  omega

/-- Of distinct names there is a first one that is not in a list. -/
theorem exists_least_free {β : Type} {name : ℕ → β} (hinj : ∀ i j, name i = name j → i = j)
    (used : List β) (start : ℕ) :
    ∃ k, start ≤ k ∧ name k ∉ used ∧ ∀ j, start ≤ j → j < k → name j ∈ used := by
  classical
  exact ⟨_, @freeFrom_least (fun i => name i ∈ used) _ _ _ (exists_free hinj used start)⟩

end Tactile.Lib.Fresh

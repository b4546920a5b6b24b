import Tactile.Lib.FiniteMap

/-!
Maps in two levels, in which an inner map goes when its last entry goes.
-/

namespace Tactile.Lib.NestedMap

open Tactile.Lib.FiniteMap

/-- A map from outer keys to maps from inner keys. -/
abbrev Nested (κ ι α : Type) : Type := Dict κ (Dict ι α)

variable {κ ι α : Type} [DecidableEq κ] [DecidableEq ι]

/-- The inner map of a key, empty when there is none. -/
def inner (d : Nested κ ι α) (k : κ) : Dict ι α := (d.lookup k).getD ∅

def find (d : Nested κ ι α) (k : κ) (i : ι) : Option α := (inner d k).lookup i

def put (d : Nested κ ι α) (k : κ) (i : ι) (a : α) : Nested κ ι α :=
  d.insert k ((inner d k).insert i a)

/-- Removes an entry, and the inner map when the entry was its last. -/
def drop (d : Nested κ ι α) (k : κ) (i : ι) : Nested κ ι α :=
  match d.lookup k with
  | none => d
  | some m => if (m.erase i).entries = [] then d.erase k else d.insert k (m.erase i)

omit [DecidableEq ι] in
theorem inner_insert (d : Nested κ ι α) (k k' : κ) (m : Dict ι α) :
    inner (d.insert k m) k' = if k' = k then m else inner d k' := by
  rw [inner, lookup_insert_eq]
  split
  next => rfl
  next => rfl

theorem find_empty (k : κ) (i : ι) : find (∅ : Nested κ ι α) k i = none := rfl

theorem find_put (d : Nested κ ι α) (k k' : κ) (i i' : ι) (a : α) :
    find (put d k i a) k' i' = if k' = k ∧ i' = i then some a else find d k' i' := by
  rw [find, put, inner_insert]
  rcases Decidable.em (k' = k) with rfl | hk
  · rw [if_pos rfl, lookup_insert_eq]
    rcases Decidable.em (i' = i) with rfl | hi
    · rw [if_pos rfl, if_pos ⟨rfl, rfl⟩]
    · rw [if_neg hi, if_neg fun h => hi h.2]
      rfl
  · rw [if_neg hk, if_neg fun h => hk h.1]
    rfl

theorem find_drop (d : Nested κ ι α) (k k' : κ) (i i' : ι) :
    find (drop d k i) k' i' = if k' = k ∧ i' = i then none else find d k' i' := by
  have hinner : (inner (drop d k i) k').lookup i' =
      if k' = k then ((inner d k).erase i).lookup i' else (inner d k').lookup i' := by
    rw [drop]
    cases hm : d.lookup k with
    | none =>
        rcases Decidable.em (k' = k) with rfl | hk
        · simp [inner, hm, lookup_erase_eq]
        · rw [if_neg hk]
    | some m =>
        have hinner : inner d k = m := by simp [inner, hm]
        dsimp only
        split
        next hempty =>
          rcases Decidable.em (k' = k) with rfl | hk
          · have hnone : m.erase i = ∅ := AList.ext hempty
            rw [if_pos rfl, hinner, hnone]
            simp [inner]
          · rw [if_neg hk, inner, AList.lookup_erase_ne hk]
            rfl
        next =>
          rw [inner_insert]
          rcases Decidable.em (k' = k) with rfl | hk
          · rw [if_pos rfl, if_pos rfl, hinner]
          · rw [if_neg hk, if_neg hk]
  rw [find, hinner]
  rcases Decidable.em (k' = k) with rfl | hk
  · rw [if_pos rfl, lookup_erase_eq]
    rcases Decidable.em (i' = i) with rfl | hi
    · rw [if_pos rfl, if_pos ⟨rfl, rfl⟩]
    · rw [if_neg hi, if_neg fun h => hi h.2]
      rfl
  · rw [if_neg hk, if_neg fun h => hk h.1]
    rfl

end Tactile.Lib.NestedMap

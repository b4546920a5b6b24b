import Mathlib.Algebra.Order.Ring.Int
import Mathlib.Data.List.AList
import Mathlib.Algebra.BigOperators.Group.List.Basic
import Mathlib.Algebra.Order.BigOperators.Group.List

/-!
Maps with finitely many keys, and sums over their entries.
-/

namespace Tactile.Lib.FiniteMap

/-- A map with finitely many keys, in the order in which it was filled. -/
abbrev Dict (κ α : Type) : Type := AList (fun _ : κ => α)

variable {κ α β : Type} [DecidableEq κ]

/-- The entries of the map as pairs. -/
def pairs (d : Dict κ α) : List (κ × α) := d.entries.map fun e => (e.1, e.2)

/-- The values of the map. -/
def values (d : Dict κ α) : List α := d.entries.map fun e => e.2

/-- The sum of a quantity over the entries of the map. -/
def total (d : Dict κ α) (f : κ → α → ℤ) : ℤ := (d.entries.map fun e => f e.1 e.2).sum

omit [DecidableEq κ] in
theorem map_fst_pairs (d : Dict κ α) : (pairs d).map Prod.fst = d.keys := by
  simp [pairs, AList.keys, List.keys, Function.comp_def]

omit [DecidableEq κ] in
theorem nodup_pairs (d : Dict κ α) : (pairs d).Nodup := by
  have hkeys : ((pairs d).map Prod.fst).Nodup := by
    rw [map_fst_pairs]
    exact d.keys_nodup
  exact hkeys.of_map

theorem mem_pairs {d : Dict κ α} {k : κ} {a : α} : (k, a) ∈ pairs d ↔ d.lookup k = some a := by
  rw [← Option.mem_def, AList.mem_lookup_iff]
  constructor
  · intro h
    obtain ⟨e, he, heq⟩ := List.mem_map.mp h
    obtain ⟨rfl, rfl⟩ := Prod.mk.injEq .. ▸ heq
    exact he
  · intro h
    exact List.mem_map.mpr ⟨⟨k, a⟩, h, rfl⟩

theorem mem_values {d : Dict κ α} {a : α} : a ∈ values d ↔ ∃ k, d.lookup k = some a := by
  constructor
  · intro h
    obtain ⟨⟨k, b⟩, he, rfl⟩ := List.mem_map.mp h
    exact ⟨k, AList.mem_lookup_iff.mpr he⟩
  · rintro ⟨k, hk⟩
    exact List.mem_map.mpr ⟨⟨k, a⟩, AList.mem_lookup_iff.mp hk, rfl⟩

theorem lookup_insert_eq (d : Dict κ α) (k k' : κ) (a : α) :
    (d.insert k a).lookup k' = if k' = k then some a else d.lookup k' := by
  by_cases h : k' = k
  · subst h
    simp
  · rw [if_neg h, AList.lookup_insert_ne h]

theorem lookup_erase_eq (d : Dict κ α) (k k' : κ) :
    (d.erase k).lookup k' = if k' = k then none else d.lookup k' := by
  by_cases h : k' = k
  · subst h
    simp
  · rw [if_neg h, AList.lookup_erase_ne h]

/-- Every entry meets a condition. -/
def All (P : κ → α → Prop) (d : Dict κ α) : Prop := ∀ k a, d.lookup k = some a → P k a

section All

variable {P : κ → α → Prop} {d : Dict κ α}

theorem all_empty : All P (∅ : Dict κ α) := fun k a h => by
  rw [AList.lookup_empty] at h
  cases h

theorem All.insert (h : All P d) {k : κ} {a : α} (ha : P k a) : All P (d.insert k a) := by
  intro k' a' h'
  rw [lookup_insert_eq] at h'
  split at h'
  next heq =>
    cases h'
    rw [heq]
    exact ha
  next => exact h k' a' h'

theorem All.erase (h : All P d) (k : κ) : All P (d.erase k) := by
  intro k' a' h'
  rw [lookup_erase_eq] at h'
  split at h'
  next => cases h'
  next => exact h k' a' h'

end All

/-- Two maps with the same lookups have the same entries, in some order. -/
theorem perm_of_lookup_eq {d d' : Dict κ α} (h : ∀ k, d.lookup k = d'.lookup k) :
    d.entries.Perm d'.entries := by
  refine (List.perm_ext_iff_of_nodup d.nodupKeys.nodup d'.nodupKeys.nodup).mpr ?_
  rintro ⟨k, a⟩
  rw [← AList.mem_lookup_iff, ← AList.mem_lookup_iff, h]

theorem eq_empty_of_lookup {d : Dict κ α} (h : ∀ k, d.lookup k = none) : d = ∅ := by
  refine AList.ext (List.eq_nil_iff_forall_not_mem.mpr ?_)
  rintro ⟨k, a⟩ he
  have hk : d.lookup k = some a := AList.mem_lookup_iff.mpr he
  rw [h] at hk
  cases hk

/-- The keys of the entries that a test selects. -/
def keysWhere (d : Dict κ α) (p : κ → α → Bool) : List κ :=
  ((pairs d).filter fun e => p e.1 e.2).map Prod.fst

theorem mem_keysWhere {d : Dict κ α} {p : κ → α → Bool} {k : κ} :
    k ∈ keysWhere d p ↔ ∃ a, d.lookup k = some a ∧ p k a := by
  constructor
  · intro h
    obtain ⟨⟨k', a⟩, he, rfl⟩ := List.mem_map.mp h
    obtain ⟨he, hp⟩ := List.mem_filter.mp he
    exact ⟨a, mem_pairs.mp he, hp⟩
  · rintro ⟨a, hk, hp⟩
    exact List.mem_map.mpr ⟨(k, a), List.mem_filter.mpr ⟨mem_pairs.mpr hk, hp⟩, rfl⟩

omit [DecidableEq κ] in
theorem nodup_keysWhere (d : Dict κ α) (p : κ → α → Bool) : (keysWhere d p).Nodup := by
  have hsub : (keysWhere d p).Sublist ((pairs d).map Prod.fst) := List.filter_sublist.map _
  rw [map_fst_pairs] at hsub
  exact hsub.nodup d.keys_nodup

/-- The part of the map whose entries a test selects. -/
def select (d : Dict κ α) (p : κ → α → Bool) : Dict κ α :=
  ⟨d.entries.filter fun e => p e.1 e.2, d.nodupKeys.sublist List.filter_sublist⟩

theorem lookup_select (d : Dict κ α) (p : κ → α → Bool) (k : κ) :
    (select d p).lookup k = (d.lookup k).filter (p k) := by
  ext a
  rw [← Option.mem_def, AList.mem_lookup_iff, Option.filter_eq_some_iff, ← Option.mem_def,
    AList.mem_lookup_iff]
  exact List.mem_filter

theorem All.select {P : κ → α → Prop} {d : Dict κ α} (h : All P d) (p : κ → α → Bool) :
    All P (select d p) := by
  intro k a h'
  rw [lookup_select] at h'
  exact h k a (Option.eq_some_of_filter_eq_some h')

/-- The map with a function applied to its values. -/
def mapValues (f : α → β) (d : Dict κ α) : Dict κ β :=
  ⟨d.entries.map fun e => ⟨e.1, f e.2⟩, by
    have hkeys : (d.entries.map fun e => (⟨e.1, f e.2⟩ : Sigma fun _ => β)).keys =
        d.entries.keys := by
      simp [List.keys, Function.comp_def]
    rw [List.NodupKeys, hkeys]
    exact d.nodupKeys⟩

theorem lookup_mapValues (f : α → β) (d : Dict κ α) (k : κ) :
    (mapValues f d).lookup k = (d.lookup k).map f := by
  ext b
  rw [← Option.mem_def, AList.mem_lookup_iff, Option.map_eq_some_iff]
  constructor
  · intro h
    obtain ⟨⟨k', a⟩, he, heq⟩ := List.mem_map.mp h
    cases heq
    exact ⟨a, AList.mem_lookup_iff.mpr he, rfl⟩
  · rintro ⟨a, ha, rfl⟩
    exact List.mem_map.mpr ⟨⟨k, a⟩, AList.mem_lookup_iff.mp ha, rfl⟩

/-- The map filled with pairs, a later pair in the place of an earlier one. -/
def ofPairs (l : List (κ × α)) : Dict κ α := l.foldl (fun d e => d.insert e.1 e.2) ∅

/-- Where no two pairs give a key different values, the map holds the pairs. -/
theorem lookup_ofPairs {l : List (κ × α)}
    (hfun : ∀ k a a', (k, a) ∈ l → (k, a') ∈ l → a = a') {k : κ} {a : α} :
    (ofPairs l).lookup k = some a ↔ (k, a) ∈ l := by
  have hfold : ∀ (l : List (κ × α)) (d : Dict κ α),
      (∀ k a a', (k, a) ∈ l → (k, a') ∈ l → a = a') →
      (∀ k a a', (k, a) ∈ l → d.lookup k = some a' → a = a') →
      ((l.foldl (fun d e => d.insert e.1 e.2) d).lookup k = some a ↔
        (k, a) ∈ l ∨ d.lookup k = some a) := by
    intro l
    induction l with
    | nil => simp
    | cons e l ih =>
        intro d hl hd
        have hhead : (e.1, e.2) ∈ e :: l := List.mem_cons_self
        rw [List.foldl_cons, ih]
        · rw [lookup_insert_eq, List.mem_cons]
          split
          next hk =>
            constructor
            · rintro (h | h)
              · exact .inl (.inr h)
              · exact .inl (.inl (by rw [hk, ← Option.some.inj h]))
            · rintro ((h | h) | h)
              · exact .inr (by rw [← h])
              · exact .inl h
              · exact .inr (congrArg some (hd _ _ _ (hk ▸ hhead) h))
          next hk =>
            refine ⟨fun h => h.imp .inr id, ?_⟩
            rintro ((h | h) | h)
            · exact absurd (congrArg Prod.fst h) hk
            · exact .inl h
            · exact .inr h
        · exact fun k a a' ha ha' =>
            hl k a a' (List.mem_cons_of_mem _ ha) (List.mem_cons_of_mem _ ha')
        · intro k a a' ha ha'
          rw [lookup_insert_eq] at ha'
          split at ha'
          next hk =>
            have hsame := Option.some.inj ha'
            subst hsame
            exact hl k a e.2 (List.mem_cons_of_mem _ ha) (hk ▸ hhead)
          next => exact hd k a a' (List.mem_cons_of_mem _ ha) ha'
  rw [ofPairs, hfold l ∅ hfun (fun _ _ _ _ h => by simp at h)]
  simp

section Total

variable (f : κ → α → ℤ)

omit [DecidableEq κ] in
@[simp] theorem total_empty : total (∅ : Dict κ α) f = 0 := rfl

/-- Erasing a key takes its value out of the sum. -/
theorem total_erase (d : Dict κ α) (k : κ) :
    total (d.erase k) f = total d f - (d.lookup k).elim 0 (f k) := by
  by_cases h : k ∈ d
  · obtain ⟨a, pre, post, hfresh, hold, hnew⟩ := List.exists_of_kerase (AList.mem_keys.mp h)
    have hk : d.lookup k = some a := by
      rw [← Option.mem_def, AList.mem_lookup_iff, hold]
      simp
    have hnew' : (d.erase k).entries = pre ++ post := hnew
    rw [hk]
    simp only [total, hold, hnew', List.map_append, List.map_cons, List.sum_append, List.sum_cons,
      Option.elim_some]
    omega
  · have hsame : (d.erase k).entries = d.entries := List.kerase_of_notMem_keys h
    rw [total, total, hsame, AList.lookup_eq_none.mpr h]
    simp

/-- Inserting at a key puts the new value in the place of the old one. -/
theorem total_insert (d : Dict κ α) (k : κ) (a : α) :
    total (d.insert k a) f = total d f - (d.lookup k).elim 0 (f k) + f k a := by
  have hins : (d.insert k a).entries = ⟨k, a⟩ :: (d.erase k).entries := AList.entries_insert
  have hsum : total (d.insert k a) f = f k a + total (d.erase k) f := by
    rw [total, hins]
    rfl
  rw [hsum, total_erase]
  omega

theorem total_nonneg (d : Dict κ α) (h : ∀ k a, d.lookup k = some a → 0 ≤ f k a) :
    0 ≤ total d f := by
  refine List.sum_nonneg fun x hx => ?_
  obtain ⟨⟨k, a⟩, he, rfl⟩ := List.mem_map.mp hx
  exact h k a (AList.mem_lookup_iff.mpr he)

/-- A quantity that is larger on every entry has the larger sum. -/
theorem total_le_total (d : Dict κ α) (g : κ → α → ℤ)
    (h : ∀ k a, d.lookup k = some a → f k a ≤ g k a) : total d f ≤ total d g := by
  refine List.sum_le_sum fun e he => ?_
  exact h e.1 e.2 (AList.mem_lookup_iff.mpr he)

omit [DecidableEq κ] in
theorem total_congr (d : Dict κ α) (g : κ → α → ℤ)
    (h : ∀ e ∈ d.entries, f e.1 e.2 = g e.1 e.2) : total d f = total d g := by
  rw [total, total, List.map_congr_left h]

omit [DecidableEq κ] in
theorem total_eq_sum_values (d : Dict κ α) (g : α → ℤ) :
    total d (fun _ a => g a) = ((values d).map g).sum := by
  rw [total, values, List.map_map]
  rfl

/-- Looking up keys that have all those of the map among them finds all its
values. -/
theorem total_le_sum_lookups (d : Dict κ α) (g : α → ℤ) (hg : ∀ a, 0 ≤ g a) (keys : List κ)
    (hkeys : ∀ k a, d.lookup k = some a → k ∈ keys) :
    total d (fun _ a => g a) ≤ ((keys.filterMap d.lookup).map g).sum := by
  have hvalues : d.keys.filterMap d.lookup = values d := by
    have hlookup : ∀ e ∈ d.entries, d.lookup e.1 = some e.2 := fun e he =>
      AList.mem_lookup_iff.mpr he
    rw [AList.keys, List.keys, List.filterMap_map, values, ← List.filterMap_eq_map]
    exact List.filterMap_congr hlookup
  have hsub : d.keys ⊆ keys := by
    intro k hk
    obtain ⟨a, ha⟩ := Option.isSome_iff_exists.mp (AList.lookup_isSome.mpr (AList.mem_keys.mpr hk))
    exact hkeys k a ha
  obtain ⟨l, hperm, hsublist⟩ := List.subperm_of_subset d.keys_nodup hsub
  have hle : ((l.filterMap d.lookup).map g).sum ≤ ((keys.filterMap d.lookup).map g).sum := by
    refine List.Sublist.sum_le_sum ((hsublist.filterMap _).map g) fun x hx => ?_
    obtain ⟨a, _, rfl⟩ := List.mem_map.mp hx
    exact hg a
  rw [total_eq_sum_values, ← hvalues, ← ((hperm.filterMap _).map g).sum_eq]
  exact hle

omit [DecidableEq κ] in
theorem total_add (d : Dict κ α) (g : κ → α → ℤ) :
    total d (fun k a => f k a + g k a) = total d f + total d g :=
  List.sum_map_add

/-- A quantity that is never negative is at most its sum. -/
theorem le_total {d : Dict κ α} {k : κ} {a : α} (h : ∀ k a, 0 ≤ f k a)
    (hk : d.lookup k = some a) : f k a ≤ total d f := by
  have hrest := total_erase f d k
  have hnonneg := total_nonneg f (d.erase k) fun k a _ => h k a
  rw [hk, Option.elim_some] at hrest
  omega

theorem total_eq_zero_iff {d : Dict κ α} (h : ∀ k a, 0 ≤ f k a) :
    total d f = 0 ↔ ∀ k a, d.lookup k = some a → f k a = 0 := by
  constructor
  · intro hzero k a hk
    have hle := le_total f h hk
    have hnonneg := h k a
    omega
  · intro hall
    have hsum : ∀ x ∈ d.entries.map fun e => f e.1 e.2, x = 0 := by
      intro x hx
      obtain ⟨e, he, rfl⟩ := List.mem_map.mp hx
      exact hall e.1 e.2 (AList.mem_lookup_iff.mpr he)
    exact List.sum_eq_zero hsum

theorem total_eq_of_lookup_eq {d d' : Dict κ α} (h : ∀ k, d.lookup k = d'.lookup k) :
    total d f = total d' f :=
  ((perm_of_lookup_eq h).map _).sum_eq

end Total

end Tactile.Lib.FiniteMap

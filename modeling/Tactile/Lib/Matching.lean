import Mathlib.Data.List.Infix
import Mathlib.Data.List.Range

/-!
Patterns in lists: the first position at which something holds, the positions at
which a pattern stands, the greedy embedding of a pattern as a subsequence, and scans.
-/

namespace Tactile.Lib.Matching

open scoped List

section First

variable (P : ℕ → Prop) [DecidablePred P]

/-- The first of the positions below `n` at which `P` holds. -/
def first (n : ℕ) : Option ℕ := (List.range n).find? fun i => decide (P i)

variable {P}

theorem first_eq_some {n k : ℕ} : first P n = some k ↔ k < n ∧ P k ∧ ∀ j < k, ¬ P j := by
  rw [first, List.find?_range_eq_some]
  simp only [decide_eq_true_eq, List.mem_range, Bool.not_eq_true', decide_eq_false_iff_not]
  exact and_left_comm

theorem first_eq_none {n : ℕ} : first P n = none ↔ ∀ k < n, ¬ P k := by
  rw [first, List.find?_range_eq_none]
  simp only [Bool.not_eq_true', decide_eq_false_iff_not]

theorem first_congr {Q : ℕ → Prop} [DecidablePred Q] {n m : ℕ}
    (h : ∀ k, k < n ∧ P k ↔ k < m ∧ Q k) : first P n = first Q m := by
  apply Option.ext
  intro k
  rw [first_eq_some, first_eq_some]
  constructor
  · rintro ⟨hk, hP, hbefore⟩
    obtain ⟨hk', hQ⟩ := (h k).mp ⟨hk, hP⟩
    exact ⟨hk', hQ, fun j hj hQj => hbefore j hj ((h j).mpr ⟨by omega, hQj⟩).2⟩
  · rintro ⟨hk, hQ, hbefore⟩
    obtain ⟨hk', hP⟩ := (h k).mpr ⟨hk, hQ⟩
    exact ⟨hk', hP, fun j hj hPj => hbefore j hj ((h j).mp ⟨by omega, hPj⟩).2⟩

/-- What holds at fewer positions holds at none where the other does not. -/
theorem firstFrom_eq_none {S : ℕ → Prop} [DecidablePred S] {start n : ℕ} (hPS : ∀ i, P i → S i)
    (h : first (fun i => start ≤ i ∧ S i) n = none) : first (fun i => start ≤ i ∧ P i) n = none :=
  first_eq_none.mpr fun k hk hP => first_eq_none.mp h k hk ⟨hP.1, hPS k hP.2⟩

/-- A search for the first position that passes a further check goes on after one that
does not pass it. -/
theorem firstFrom_eq {S : ℕ → Prop} [DecidablePred S] {start n found : ℕ}
    (hPS : ∀ i, P i → S i) (h : first (fun i => start ≤ i ∧ S i) n = some found) :
    first (fun i => start ≤ i ∧ P i) n =
      if P found then some found else first (fun i => found + 1 ≤ i ∧ P i) n := by
  obtain ⟨hlt, ⟨hle, -⟩, hbefore⟩ := first_eq_some.mp h
  split
  next hP =>
    exact first_eq_some.mpr ⟨hlt, ⟨hle, hP⟩, fun j hj hPj => hbefore j hj ⟨hPj.1, hPS j hPj.2⟩⟩
  next hP =>
    apply first_congr
    intro k
    constructor
    · rintro ⟨hk, hstart, hPk⟩
      refine ⟨hk, ?_, hPk⟩
      rcases Nat.lt_trichotomy k found with hbelow | rfl | habove
      · exact absurd ⟨hstart, hPS k hPk⟩ (hbefore k hbelow)
      · exact absurd hPk hP
      · exact habove
    · rintro ⟨hk, hfound, hPk⟩
      exact ⟨hk, by omega, hPk⟩

end First

section Standing

variable {α : Type}

/-- The pattern stands at the position. -/
def Stands (p h : List α) (i : ℕ) : Prop := p <+: h.drop i

instance [DecidableEq α] (p h : List α) : DecidablePred (Stands p h) :=
  fun i => inferInstanceAs (Decidable (p <+: h.drop i))

variable {p h : List α} {i n : ℕ}

theorem Stands.add_le (hi : Stands p h i) (hp : p ≠ []) : i + p.length ≤ h.length := by
  have hlen := List.IsPrefix.length_le hi
  rw [List.length_drop] at hlen
  have hpos := List.length_pos_of_ne_nil hp
  omega

/-- A pattern is in a list when it stands at a position of it. -/
theorem infix_iff_stands : p <:+: h ↔ ∃ i, i < h.length + 1 ∧ Stands p h i := by
  constructor
  · rintro ⟨s, t, rfl⟩
    refine ⟨s.length, ?_, t, ?_⟩
    · simp only [List.length_append]
      omega
    · rw [List.append_assoc, List.drop_left]
  · rintro ⟨i, _, hi⟩
    exact hi.isInfix.trans (List.drop_suffix i h).isInfix

/-- A pattern stands in the first part of a list where it stands in the list and
ends in the part. -/
theorem stands_take (hp : p ≠ []) :
    Stands p (h.take n) i ↔ Stands p h i ∧ i + p.length ≤ n := by
  constructor
  · intro hi
    have hle := hi.add_le hp
    rw [List.length_take] at hle
    refine ⟨?_, by omega⟩
    rw [Stands, List.drop_take] at hi
    exact hi.trans (List.take_prefix _ _)
  · rintro ⟨hi, hle⟩
    rw [Stands, List.drop_take, List.prefix_take_iff]
    exact ⟨hi, by omega⟩

/-- Around an element that the pattern does not have, it stands on one side. -/
theorem occurs_append_cons {c : α} {a b : List α} (hp : c ∉ p) (h : p <:+: a ++ c :: b) :
    p <:+: a ∨ p <:+: b := by
  obtain ⟨s, t, h⟩ := h
  rcases List.append_eq_append_iff.mp h with ⟨a', ha, -⟩ | ⟨d, hd, hcb⟩
  · exact .inl ⟨s, a', ha.symm⟩
  · cases d with
    | nil => exact .inl ⟨s, [], by simpa using hd⟩
    | cons c' d =>
        obtain ⟨rfl, hb⟩ := List.cons.inj hcb
        rcases List.append_eq_append_iff.mp hd with ⟨a', -, hpd⟩ | ⟨e, -, hpe⟩
        · exact absurd (hpd ▸ List.mem_append_right a' List.mem_cons_self) hp
        · cases e with
          | nil =>
              have hpc : c :: d = p := hpe
              exact absurd (hpc ▸ List.mem_cons_self) hp
          | cons c' e =>
              obtain ⟨-, rfl⟩ := List.cons.inj hpe
              exact .inr ⟨e, t, hb.symm⟩

variable [DecidableEq α]

/-- The first position at which the pattern stands. -/
def occurrence (p h : List α) : Option ℕ := first (Stands p h) (h.length + 1)

theorem occurrence_isSome : (occurrence p h).isSome ↔ p <:+: h := by
  rw [infix_iff_stands]
  constructor
  · intro hsome
    obtain ⟨k, hk⟩ := Option.isSome_iff_exists.mp hsome
    obtain ⟨hlt, hstands, _⟩ := first_eq_some.mp hk
    exact ⟨k, hlt, hstands⟩
  · rintro ⟨i, hlt, hi⟩
    cases hocc : occurrence p h with
    | some k => rfl
    | none => exact absurd hi (first_eq_none.mp hocc i hlt)

omit [DecidableEq α] in
theorem stands_singleton {c : α} : Stands [c] h i ↔ h[i]? = some c := by
  rw [Stands, ← List.head?_drop]
  cases h.drop i with
  | nil => simp
  | cons a rest => simp [eq_comm]

/-- The first place of a character. -/
theorem findIdx_eq_some {c : α} {k : ℕ} :
    h.findIdx? (· == c) = some k ↔ h[k]? = some c ∧ ∀ j < k, h[j]? ≠ some c := by
  rw [List.findIdx?_eq_some_iff_getElem]
  constructor
  · rintro ⟨hk, heq, hbefore⟩
    refine ⟨by rw [List.getElem?_eq_getElem hk, beq_iff_eq.mp heq], fun j hj hc => ?_⟩
    rw [List.getElem?_eq_getElem (by omega)] at hc
    exact hbefore j hj (beq_iff_eq.mpr (Option.some.inj hc))
  · rintro ⟨hc, hbefore⟩
    obtain ⟨hk, heq⟩ := List.getElem?_eq_some_iff.mp hc
    refine ⟨hk, beq_iff_eq.mpr heq, fun j hj hcj => hbefore j hj ?_⟩
    rw [List.getElem?_eq_getElem (by omega), beq_iff_eq.mp hcj]

/-- The search for one character from a start. -/
theorem first_singleton (h : List α) (c : α) (start : ℕ) :
    first (fun i => start ≤ i ∧ Stands [c] h i) (h.length + 1) =
      ((h.drop start).findIdx? (· == c)).map (start + ·) := by
  apply Option.ext
  intro k
  rw [first_eq_some, Option.map_eq_some_iff]
  simp only [stands_singleton, findIdx_eq_some, List.getElem?_drop]
  constructor
  · rintro ⟨_, ⟨hle, hc⟩, hbefore⟩
    refine ⟨k - start, ⟨?_, fun j hj hcj => hbefore (start + j) (by omega) ⟨by omega, hcj⟩⟩,
      by omega⟩
    rw [Nat.add_sub_cancel' hle]
    exact hc
  · rintro ⟨a, ⟨hc, hbefore⟩, rfl⟩
    have hlt := (List.getElem?_eq_some_iff.mp hc).1
    refine ⟨by omega, ⟨by omega, hc⟩, fun j hj hcj => hbefore (j - start) (by omega) ?_⟩
    rw [Nat.add_sub_cancel' hcj.1]
    exact hcj.2

/-- The first occurrence ends early when the pattern occurs early. -/
theorem occurrence_add_le_iff (hp : p ≠ []) {k m : ℕ} (hk : occurrence p h = some k) :
    k + p.length ≤ m ↔ p <:+: h.take m := by
  obtain ⟨hlt, hstands, hbefore⟩ := first_eq_some.mp hk
  rw [infix_iff_stands]
  constructor
  · intro hkm
    have hle := hstands.add_le hp
    refine ⟨k, ?_, (stands_take hp).mpr ⟨hstands, hkm⟩⟩
    rw [List.length_take]
    omega
  · rintro ⟨i, _, hi⟩
    obtain ⟨hi, hle⟩ := (stands_take hp).mp hi
    have hki : ¬ i < k := fun hlt => hbefore i hlt hi
    omega

/-- The first occurrence of a pattern cuts the list. -/
theorem occurrence_eq_some (hp : p ≠ []) {k : ℕ} :
    occurrence p h = some k ↔
      ∃ a rest, h = a ++ p ++ rest ∧ a.length = k ∧ ¬ p <:+: a ++ p.dropLast := by
  have hbefore : ∀ a rest, (∃ j < a.length, Stands p (a ++ p ++ rest) j) ↔ p <:+: a ++ p.dropLast := by
    intro a rest
    have hlen := List.length_pos_of_ne_nil hp
    have htake : (a ++ p ++ rest).take (a.length + p.length - 1) = a ++ p.dropLast := by
      rw [List.append_assoc, List.dropLast_eq_take, List.take_append, List.take_append_of_le_length]
      · rw [List.take_of_length_le (by omega)]
        congr 1
        congr 1
        omega
      · omega
    rw [← htake, infix_iff_stands]
    constructor
    · rintro ⟨j, hj, hstands⟩
      refine ⟨j, ?_, (stands_take hp).mpr ⟨hstands, by omega⟩⟩
      rw [List.length_take, List.length_append, List.length_append]
      omega
    · rintro ⟨j, -, hstands⟩
      obtain ⟨hstands, hle⟩ := (stands_take hp).mp hstands
      exact ⟨j, by omega, hstands⟩
  rw [occurrence, first_eq_some]
  constructor
  · rintro ⟨-, hstands, hfirst⟩
    have hle := hstands.add_le hp
    obtain ⟨rest, hrest⟩ := hstands
    have hcut : h = h.take k ++ p ++ rest := by
      rw [List.append_assoc, hrest, List.take_append_drop]
    have htaken : (h.take k).length = k := List.length_take_of_le (by omega)
    refine ⟨h.take k, rest, hcut, htaken, fun hoccurs => ?_⟩
    obtain ⟨j, hj, hearlier⟩ := (hbefore (h.take k) rest).mpr hoccurs
    rw [← hcut] at hearlier
    exact hfirst j (by omega) hearlier
  · rintro ⟨a, rest, rfl, rfl, hnot⟩
    refine ⟨?_, ?_, fun j hj hstands => hnot ((hbefore a rest).mp ⟨j, hj, hstands⟩)⟩
    · simp only [List.length_append]
      omega
    · rw [Stands, List.append_assoc, List.drop_left]
      exact List.prefix_append p rest

end Standing

section Embedding

variable {α : Type} [DecidableEq α]

/-- The positions that a greedy search for the pattern as a subsequence reaches, up
to the first character that it does not find; the list starts at position `i`. -/
def reached : List α → List α → ℕ → List ℕ
  | [], _, _ => []
  | _ :: _, [], _ => []
  | c :: p, a :: h, i => if a = c then i :: reached p h (i + 1) else reached (c :: p) h (i + 1)

theorem reached_nil (h : List α) (i : ℕ) : reached [] h i = [] := by
  cases h with
  | nil => rfl
  | cons a h => rfl

/-- The search goes on after the first place of the pattern's first character. -/
theorem reached_cons (c : α) (p h : List α) (i : ℕ) :
    reached (c :: p) h i =
      match h.findIdx? (· == c) with
      | none => []
      | some k => (i + k) :: reached p (h.drop (k + 1)) (i + k + 1) := by
  induction h generalizing i with
  | nil => rfl
  | cons a h ih =>
      rw [reached, List.findIdx?_cons]
      rcases Decidable.em (a = c) with heq | hne
      · rw [if_pos heq, if_pos (beq_iff_eq.mpr heq)]
        rfl
      · rw [if_neg hne, if_neg (by simpa using hne), ih]
        cases h.findIdx? (· == c) with
        | none => rfl
        | some k =>
            change (i + 1 + k) :: _ = (i + (k + 1)) :: reached p (h.drop (k + 1)) _
            have hi : i + 1 + k = i + (k + 1) := by omega
            rw [hi]

theorem cons_sublist_iff_findIdx (c : α) (p h : List α) :
    c :: p <+ h ↔ ∃ k, h.findIdx? (· == c) = some k ∧ p <+ h.drop (k + 1) := by
  induction h with
  | nil => simp
  | cons a h ih =>
      rw [List.findIdx?_cons]
      rcases Decidable.em (a = c) with rfl | hne
      · rw [List.cons_sublist_cons]
        simp
      · rw [List.sublist_cons_iff, ih, if_neg (by simpa using hne)]
        constructor
        · rintro (⟨k, hk, hp⟩ | ⟨r, heq, -⟩)
          · exact ⟨k + 1, by rw [hk]; rfl, hp⟩
          · exact absurd (List.cons.inj heq).1.symm hne
        · rintro ⟨k, hk, hp⟩
          obtain ⟨j, hj, rfl⟩ := Option.map_eq_some_iff.mp hk
          exact .inl ⟨j, hj, hp⟩

/-- The search reaches a place for every character of a pattern that is a
subsequence. -/
theorem length_reached_iff (p h : List α) (i : ℕ) :
    (reached p h i).length = p.length ↔ p <+ h := by
  induction p generalizing h i with
  | nil => simp [reached_nil]
  | cons c p ih =>
      rw [reached_cons, cons_sublist_iff_findIdx]
      cases h.findIdx? (· == c) with
      | none => simp
      | some k => simp [ih]

theorem le_of_mem_reached {p h : List α} {i j : ℕ} (hj : j ∈ reached p h i) : i ≤ j := by
  induction h generalizing p i with
  | nil =>
      cases p with
      | nil => cases hj
      | cons c p => cases hj
  | cons a h ih =>
      cases p with
      | nil => cases hj
      | cons c p =>
          rw [reached] at hj
          split at hj
          · rcases List.mem_cons.mp hj with rfl | hj
            · exact le_refl j
            · have := ih hj
              omega
          · have := ih hj
            omega

omit [DecidableEq α] in
theorem cons_sublist_cons_of_ne {a c : α} (hne : a ≠ c) (p h : List α) :
    c :: p <+ a :: h ↔ c :: p <+ h := by
  rw [List.sublist_cons_iff]
  constructor
  · rintro (hp | ⟨r, heq, -⟩)
    · exact hp
    · exact absurd (List.cons.inj heq).1.symm hne
  · exact .inl

/-- All places reached are among the first `m` when the parts of the pattern that embed
in the list embed in its first `m` places. -/
theorem reached_lt_iff (p h : List α) (i m : ℕ) :
    (∀ j ∈ reached p h i, j < i + m) ↔ ∀ k, p.take k <+ h → p.take k <+ h.take m := by
  induction h generalizing p i m with
  | nil =>
      cases p with
      | nil => simp [reached]
      | cons c p => simp [reached]
  | cons a h ih =>
      cases p with
      | nil => simp [reached]
      | cons c p =>
          rw [reached]
          rcases Decidable.em (a = c) with rfl | hne
          · rw [if_pos rfl]
            cases m with
            | zero =>
                refine ⟨fun hall => absurd (hall i List.mem_cons_self) (lt_irrefl i), fun hall => ?_⟩
                have hone := hall 1 (by simp)
                simp at hone
            | succ m =>
                have hrest := ih p (i + 1) m
                rw [List.take_succ_cons, List.forall_mem_cons]
                constructor
                · rintro ⟨-, hlt⟩ k
                  cases k with
                  | zero => simp
                  | succ k =>
                      rw [List.take_succ_cons, List.cons_sublist_cons, List.cons_sublist_cons]
                      exact hrest.mp (fun j hj => by have := hlt j hj; omega) k
                · intro hall
                  refine ⟨by omega, fun j hj => ?_⟩
                  have hparts : ∀ k, p.take k <+ h → p.take k <+ h.take m := by
                    intro k hk
                    have hnext := hall (k + 1)
                    rw [List.take_succ_cons, List.cons_sublist_cons, List.cons_sublist_cons] at hnext
                    exact hnext hk
                  have := hrest.mpr hparts j hj
                  omega
          · rw [if_neg hne]
            have hskip : ∀ k h', (c :: p).take k <+ a :: h' ↔ (c :: p).take k <+ h' := by
              intro k h'
              cases k with
              | zero => simp
              | succ k => exact cons_sublist_cons_of_ne hne _ _
            cases m with
            | zero =>
                have hrest := ih (c :: p) (i + 1) 0
                simp only [List.take_zero] at hrest ⊢
                simp only [hskip, ← hrest]
                constructor
                · intro hall j hj
                  have := hall j hj
                  omega
                · intro hall j hj
                  have hlt := hall j hj
                  have hle := le_of_mem_reached hj
                  omega
            | succ m =>
                have hrest := ih (c :: p) (i + 1) m
                rw [List.take_succ_cons]
                simp only [hskip, ← hrest]
                constructor
                · intro hall j hj
                  have := hall j hj
                  omega
                · intro hall j hj
                  have := hall j hj
                  omega

theorem reached_lt {p h : List α} {i j : ℕ} (hj : j ∈ reached p h i) : j < i + h.length := by
  refine (reached_lt_iff p h i h.length).mpr (fun k hk => ?_) j hj
  rw [List.take_length]
  exact hk

/-- The places are reached in order. -/
theorem reached_ascending (p h : List α) (i : ℕ) : (reached p h i).Pairwise (· < ·) := by
  induction h generalizing p i with
  | nil =>
      cases p with
      | nil => exact List.Pairwise.nil
      | cons c p => exact List.Pairwise.nil
  | cons a h ih =>
      cases p with
      | nil => exact List.Pairwise.nil
      | cons c p =>
          rw [reached]
          split
          · exact List.Pairwise.cons (fun j hj => le_of_mem_reached hj) (ih p (i + 1))
          · exact ih (c :: p) (i + 1)

end Embedding

section Hits

variable {α β : Type} (f : α → Option β)

/-- The first `cap` elements at which `f` has a value, numbered from `i` on. -/
def firstHits : ℕ → ℕ → List α → List (ℕ × β)
  | _, _, [] => []
  | 0, _, _ :: _ => []
  | cap + 1, i, a :: rest =>
    match f a with
    | none => firstHits (cap + 1) (i + 1) rest
    | some b => (i, b) :: firstHits cap (i + 1) rest

theorem firstHits_zero (i : ℕ) (l : List α) : firstHits f 0 i l = [] := by
  cases l with
  | nil => rfl
  | cons a rest => rfl

theorem firstHits_congr {g : α → Option β} (l : List α) (h : ∀ a ∈ l, f a = g a) (cap i : ℕ) :
    firstHits f cap i l = firstHits g cap i l := by
  induction l generalizing cap i with
  | nil => rfl
  | cons a rest ih =>
      rw [List.forall_mem_cons] at h
      cases cap with
      | zero => rfl
      | succ cap => simp only [firstHits, h.1, ih h.2]

theorem mem_firstHits {l : List α} {cap i k : ℕ} {b : β} (hmem : (k, b) ∈ firstHits f cap i l) :
    ∃ j a, k = i + j ∧ l[j]? = some a ∧ f a = some b := by
  induction l generalizing cap i with
  | nil => cases hmem
  | cons a rest ih =>
      cases cap with
      | zero => cases hmem
      | succ cap =>
          rw [firstHits] at hmem
          cases hfa : f a with
          | none =>
              rw [hfa] at hmem
              obtain ⟨j, a', rfl, ha', hb⟩ := ih hmem
              exact ⟨j + 1, a', by omega, ha', hb⟩
          | some b' =>
              rw [hfa] at hmem
              rcases List.mem_cons.mp hmem with heq | hmem
              · cases heq
                exact ⟨0, a, rfl, rfl, hfa⟩
              · obtain ⟨j, a', rfl, ha', hb⟩ := ih hmem
                exact ⟨j + 1, a', by omega, ha', hb⟩

/-- The numbers of the first hits increase. -/
theorem pairwise_firstHits (l : List α) (cap i : ℕ) :
    (firstHits f cap i l).Pairwise fun hit hit' => hit.1 < hit'.1 := by
  induction l generalizing cap i with
  | nil => exact List.Pairwise.nil
  | cons a rest ih =>
      cases cap with
      | zero => exact List.Pairwise.nil
      | succ cap =>
          rw [firstHits]
          cases f a with
          | none => exact ih (cap + 1) (i + 1)
          | some b =>
              refine List.Pairwise.cons (fun hit hhit => ?_) (ih cap (i + 1))
              obtain ⟨j, a', heq, -⟩ := mem_firstHits f hhit
              omega

/-- `P` holds of every element, numbered from `i` on, before which there are fewer than
`cap` hits: those that a search for the first hits looks at. -/
def AllVisited (P : ℕ → α → Prop) (cap i : ℕ) (l : List α) : Prop :=
  ∀ j a, l[j]? = some a → (l.take j).countP (fun a => (f a).isSome) < cap → P (i + j) a

theorem allVisited_nil (P : ℕ → α → Prop) (cap i : ℕ) : AllVisited f P cap i [] ↔ True :=
  iff_true_intro fun _ _ h => by simp at h

theorem allVisited_zero (P : ℕ → α → Prop) (i : ℕ) (l : List α) :
    AllVisited f P 0 i l ↔ True :=
  iff_true_intro fun _ _ _ h => absurd h (Nat.not_lt_zero _)

theorem allVisited_cons (P : ℕ → α → Prop) (cap i : ℕ) (a : α) (rest : List α) :
    AllVisited f P (cap + 1) i (a :: rest) ↔
      P i a ∧ AllVisited f P (if (f a).isSome then cap else cap + 1) (i + 1) rest := by
  have hcount : ∀ j, (((a :: rest).take (j + 1)).countP fun a => (f a).isSome) < cap + 1 ↔
      ((rest.take j).countP fun a => (f a).isSome) < if (f a).isSome then cap else cap + 1 := by
    intro j
    rw [List.take_succ_cons, List.countP_cons]
    split
    · omega
    · omega
  constructor
  · intro hall
    refine ⟨hall 0 a rfl (Nat.succ_pos cap), fun j a' ha' hj => ?_⟩
    have hnext := hall (j + 1) a' ha' ((hcount j).mpr hj)
    rwa [show i + 1 + j = i + (j + 1) by omega]
  · rintro ⟨hhead, htail⟩ j a' ha' hj
    cases j with
    | zero =>
        cases ha'
        exact hhead
    | succ j =>
        have hnext := htail j a' ha' ((hcount j).mp hj)
        rwa [show i + (j + 1) = i + 1 + j by omega]

end Hits

section Scanning

variable {β : Type}

/-- A scan from a position, which a rule tells what is there and where to go on. -/
def scanFrom (rule : ℕ → Option (β × ℕ)) : ℕ → ℕ → List β
  | 0, _ => []
  | n + 1, pos =>
    match rule pos with
    | some (b, next) => b :: scanFrom rule n next
    | none => scanFrom rule n (pos + 1)

/-- A scan of the positions below a bound. -/
def scan (rule : ℕ → Option (β × ℕ)) (len pos : ℕ) : List β := scanFrom rule (len - pos) pos

/-- A rule that finds things below a bound only, and goes on after them. -/
def Advances (rule : ℕ → Option (β × ℕ)) (len : ℕ) : Prop :=
  ∀ pos b next, rule pos = some (b, next) → pos < len ∧ pos < next

variable {rule : ℕ → Option (β × ℕ)} {len : ℕ}

theorem scanFrom_beyond (hrule : Advances rule len) (n : ℕ) {pos : ℕ} (h : len ≤ pos) :
    scanFrom rule n pos = [] := by
  induction n generalizing pos with
  | zero => rfl
  | succ n ih =>
      rw [scanFrom]
      cases hfound : rule pos with
      | none => exact ih (by omega)
      | some found => exact absurd (hrule pos found.1 found.2 hfound).1 (by omega)

theorem scanFrom_eq (hrule : Advances rule len) {n pos : ℕ} (hn : len - pos ≤ n) :
    scanFrom rule n pos = scan rule len pos := by
  rw [scan]
  induction hleft : len - pos using Nat.strongRecOn generalizing n pos with
  | _ left ih =>
      cases left with
      | zero => rw [scanFrom_beyond hrule n (by omega), scanFrom]
      | succ left =>
          obtain ⟨m, rfl⟩ : ∃ m, n = m + 1 := ⟨n - 1, by omega⟩
          rw [scanFrom, scanFrom]
          cases hfound : rule pos with
          | none => exact (ih _ (by omega) (by omega) rfl).trans (ih _ (by omega) (by omega) rfl).symm
          | some found =>
              have hnext := (hrule pos found.1 found.2 hfound).2
              exact congrArg (found.1 :: ·)
                ((ih _ (by omega) (by omega) rfl).trans (ih _ (by omega) (by omega) rfl).symm)

theorem scan_of_some (hrule : Advances rule len) {pos next : ℕ} {b : β}
    (h : rule pos = some (b, next)) : scan rule len pos = b :: scan rule len next := by
  obtain ⟨hlt, hnext⟩ := hrule pos b next h
  obtain ⟨m, hm⟩ : ∃ m, len - pos = m + 1 := ⟨len - pos - 1, by omega⟩
  rw [scan, hm, scanFrom, h]
  exact congrArg (b :: ·) (scanFrom_eq hrule (by omega))

theorem scan_of_none (hrule : Advances rule len) {pos : ℕ} (h : rule pos = none) :
    scan rule len pos = scan rule len (pos + 1) := by
  by_cases hlt : pos < len
  · obtain ⟨m, hm⟩ : ∃ m, len - pos = m + 1 := ⟨len - pos - 1, by omega⟩
    rw [scan, hm, scanFrom, h]
    exact scanFrom_eq hrule (by omega)
  · rw [scan, scan, scanFrom_beyond hrule _ (by omega), scanFrom_beyond hrule _ (by omega)]

/-- A scan passes over positions at which there is nothing. -/
theorem scan_skip (hrule : Advances rule len) {first last : ℕ} (hle : first ≤ last)
    (h : ∀ pos, first ≤ pos → pos < last → rule pos = none) :
    scan rule len first = scan rule len last := by
  induction last, hle using Nat.le_induction with
  | base => rfl
  | succ last hle ih =>
      rw [ih fun pos hfirst hlt => h pos hfirst (by omega), scan_of_none hrule (h last hle (by omega))]

/-- A scan that finds only what passes a check is the scan with the check. -/
theorem scanFrom_filter (p : β → Bool) {n pos : ℕ}
    (h : ∀ b ∈ scanFrom rule n pos, p b = true) :
    scanFrom (fun pos => (rule pos).filter fun found => p found.1) n pos = scanFrom rule n pos := by
  induction n generalizing pos with
  | zero => rfl
  | succ n ih =>
      rw [scanFrom] at h
      rw [scanFrom, scanFrom]
      cases hfound : rule pos with
      | none =>
          rw [hfound] at h
          exact ih h
      | some found =>
          rw [hfound] at h
          obtain ⟨hp, hrest⟩ := List.forall_mem_cons.mp h
          rw [Option.filter_some, if_pos hp]
          exact congrArg (found.1 :: ·) (ih hrest)

end Scanning

end Tactile.Lib.Matching

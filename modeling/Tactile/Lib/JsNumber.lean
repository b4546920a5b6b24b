import Tactile.Lib.Text

/-!
The integers among the doubles of JavaScript, and the texts that
`Number.prototype.toString` gives them.
-/

namespace Tactile.Lib.JsNumber

open Tactile.Lib.Text

/-- A number rounded to 53 significant bits, ties to even. -/
def roundDouble (m : ℕ) : ℕ :=
  if m < 2 ^ 53 then m
  else
    let unit := 2 ^ (m.log2 - 52)
    let low := m / unit
    let rest := m % unit
    if unit < 2 * rest ∨ (unit = 2 * rest ∧ low % 2 = 1) then (low + 1) * unit else low * unit

/-- An integer that is a double. -/
def IsDouble (z : ℤ) : Prop := roundDouble z.natAbs = z.natAbs

instance (z : ℤ) : Decidable (IsDouble z) := inferInstanceAs (Decidable (_ = _))

/-- The number before `zeros` zeros that is read back as a double, if there is
one; of two the closer one. -/
def significand (x zeros : ℕ) : Option ℕ :=
  let low := x / 10 ^ zeros
  let reads (s : ℕ) : Bool := s ≠ 0 ∧ roundDouble (s * 10 ^ zeros) = x
  let below := x - low * 10 ^ zeros
  let above := (low + 1) * 10 ^ zeros - x
  if reads low ∧ (¬ reads (low + 1) ∨ below < above ∨ (below = above ∧ low % 2 = 0)) then some low
  else if reads (low + 1) then some (low + 1)
  else none

/-- The fewest digits that are read back as a double, and the zeros behind them. -/
def shortest (x : ℕ) : ℕ × ℕ :=
  ((List.range (Nat.toDigits 10 x).length).reverse.findSome? fun zeros =>
    (significand x zeros).map fun s => (s, zeros)).getD (x, 0)

/-- The text of a double that is a natural number. -/
def natText (x : ℕ) : List Char :=
  if x = 0 then ['0']
  else
    let (s, zeros) := shortest x
    let digits := Nat.toDigits 10 s
    let exponent := digits.length + zeros - 1
    if exponent < 21 then digits ++ List.replicate zeros '0'
    else
      match digits with
      | [] => []
      | [d] => d :: "e+".toList ++ Nat.toDigits 10 exponent
      | d :: ds => d :: '.' :: ds ++ "e+".toList ++ Nat.toDigits 10 exponent

/-- The text of a double that is an integer. -/
def numberText (z : ℤ) : List Char := if z < 0 then '-' :: natText z.natAbs else natText z.natAbs

theorem le_roundDouble {m : ℕ} (h : 2 ^ 53 ≤ m) : 2 ^ 53 ≤ roundDouble m := by
  have hpos : m ≠ 0 := by
    rintro rfl
    exact absurd h (by decide)
  have hlog : 53 ≤ m.log2 := (Nat.le_log2 hpos).mpr h
  have hself : 2 ^ 53 * 2 ^ (m.log2 - 53) ≤ m := by
    rw [← Nat.pow_add]
    exact (Nat.pow_le_pow_right (by omega) (by omega)).trans (Nat.log2_self_le hpos)
  have hunit : 2 ^ (m.log2 - 52) = 2 * 2 ^ (m.log2 - 53) := by
    rw [← Nat.pow_succ']
    congr 1
    omega
  have hone : 0 < 2 ^ (m.log2 - 53) := Nat.two_pow_pos _
  have hlow : 2 ^ 52 ≤ m / 2 ^ (m.log2 - 52) := by
    rw [Nat.le_div_iff_mul_le (Nat.two_pow_pos _), hunit]
    omega
  have hproduct : 2 ^ 53 ≤ m / 2 ^ (m.log2 - 52) * 2 ^ (m.log2 - 52) := by
    have htwo : 2 ≤ 2 ^ (m.log2 - 52) := by omega
    exact (Nat.mul_le_mul hlow htwo)
  unfold roundDouble
  dsimp only
  rw [if_neg (by omega)]
  split
  next => exact hproduct.trans (Nat.mul_le_mul_right _ (Nat.le_succ _))
  next => exact hproduct

/-- Below 2^53 only the number itself is read back as it. -/
theorem eq_of_roundDouble {m x : ℕ} (hx : x < 2 ^ 53) (h : roundDouble m = x) : m = x := by
  by_cases hm : m < 2 ^ 53
  · rw [← h, roundDouble, if_pos hm]
  · have hle := le_roundDouble (Nat.not_lt.mp hm)
    omega

theorem isDouble_of_lt {z : ℤ} (h : z.natAbs < 2 ^ 53) : IsDouble z := if_pos h

theorem significand_mul {x zeros s : ℕ} (hx : x < 2 ^ 53) (h : significand x zeros = some s) :
    s ≠ 0 ∧ s * 10 ^ zeros = x := by
  unfold significand at h
  dsimp only at h
  split at h
  next hlow =>
    cases h
    have hreads := of_decide_eq_true hlow.1
    exact ⟨hreads.1, eq_of_roundDouble hx hreads.2⟩
  next =>
    split at h
    next hhigh =>
      cases h
      have hreads := of_decide_eq_true hhigh
      exact ⟨hreads.1, eq_of_roundDouble hx hreads.2⟩
    next => cases h

theorem shortest_mul {x : ℕ} (hx : x < 2 ^ 53) (hpos : x ≠ 0) :
    (shortest x).1 ≠ 0 ∧ (shortest x).1 * 10 ^ (shortest x).2 = x := by
  unfold shortest
  cases hfound : (List.range (Nat.toDigits 10 x).length).reverse.findSome? fun zeros =>
      (significand x zeros).map fun s => (s, zeros) with
  | none => exact ⟨hpos, Nat.mul_one x⟩
  | some p =>
      obtain ⟨zeros, -, hzeros⟩ := List.exists_of_findSome?_eq_some hfound
      obtain ⟨s, hs, rfl⟩ := Option.map_eq_some_iff.mp hzeros
      exact significand_mul hx hs

theorem toDigits_mul_pow {s : ℕ} (hs : s ≠ 0) (zeros : ℕ) :
    Nat.toDigits 10 (s * 10 ^ zeros) = Nat.toDigits 10 s ++ List.replicate zeros '0' := by
  induction zeros with
  | zero => simp
  | succ zeros ih =>
      have hpos : 0 < s * 10 ^ zeros :=
        Nat.mul_pos (Nat.pos_of_ne_zero hs) (Nat.pow_pos (by omega))
      have hsplit : s * 10 ^ (zeros + 1) = s * 10 ^ zeros * 10 := by
        rw [Nat.pow_succ, Nat.mul_assoc]
      rw [hsplit, Nat.toDigits_of_base_le (by omega) (by omega), Nat.mul_div_cancel _ (by omega),
        Nat.mul_mod_left, ih, List.append_assoc, List.replicate_succ']
      rfl

/-- The text of an integer below 2^53 is its decimal numeral. -/
theorem natText_of_lt {x : ℕ} (hx : x < 2 ^ 53) : natText x = Nat.toDigits 10 x := by
  by_cases hzero : x = 0
  · rw [hzero]
    rfl
  · obtain ⟨hs, hmul⟩ := shortest_mul hx hzero
    have hdigits := toDigits_mul_pow hs (shortest x).2
    rw [hmul] at hdigits
    have hlength : (Nat.toDigits 10 x).length ≤ 16 :=
      (Nat.length_toDigits_le_iff (by omega) (by omega)).mpr (by omega)
    rw [hdigits, List.length_append, List.length_replicate] at hlength
    unfold natText
    rw [if_neg hzero]
    dsimp only
    rw [if_pos (by omega), hdigits]

theorem numberText_of_lt {z : ℤ} (hz : z.natAbs < 2 ^ 53) : numberText z = decimal z := by
  rw [numberText, natText_of_lt hz]
  cases z with
  | ofNat n =>
      rw [if_neg (by simp)]
      exact (decimal_natCast n).symm
  | negSucc n =>
      rw [if_pos (Int.negSucc_lt_zero n), decimal_negSucc]
      rfl

example : numberText (2 ^ 60) = "1152921504606847000".toList := by decide +kernel

end Tactile.Lib.JsNumber

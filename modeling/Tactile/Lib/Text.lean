import Tactile.Lib.ByteString
import Mathlib.Tactic.Positivity

/-!
ASCII texts as byte strings, and decimal numerals.
-/

namespace Tactile.Lib.Text

open Tactile.Lib.ByteString

/-- The bytes of an ASCII text. -/
def ascii (cs : List Char) : Bytes := cs.map fun c => UInt8.ofNat c.toNat

@[simp] theorem length_ascii (cs : List Char) : (ascii cs).length = cs.length := List.length_map _

/-- ASCII texts with the same bytes are the same. -/
theorem ascii_inj {xs ys : List Char} (hxs : ∀ c ∈ xs, c.toNat < 128) (hys : ∀ c ∈ ys, c.toNat < 128)
    (h : ascii xs = ascii ys) : xs = ys := by
  induction xs generalizing ys with
  | nil =>
      cases ys with
      | nil => rfl
      | cons y ys => cases h
  | cons x xs ih =>
      cases ys with
      | nil => cases h
      | cons y ys =>
          obtain ⟨hhead, htail⟩ := List.cons.inj h
          have hx := hxs x List.mem_cons_self
          have hy := hys y List.mem_cons_self
          have hbyte : x.toNat % 256 = y.toNat % 256 := by
            have hnat := congrArg UInt8.toNat hhead
            rwa [UInt8.toNat_ofNat', UInt8.toNat_ofNat'] at hnat
          have hchar : x = y := by
            rw [← Char.ofNat_toNat x, ← Char.ofNat_toNat y]
            congr 1
            omega
          rw [hchar, ih (fun c hc => hxs c (List.mem_cons_of_mem _ hc))
            (fun c hc => hys c (List.mem_cons_of_mem _ hc)) htail]

/-- The bytes of a text in UTF-8. -/
def utf8 (cs : List Char) : Bytes := cs.flatMap String.utf8EncodeChar

theorem utf8_eq (cs : List Char) : utf8 cs = cs.utf8Encode.data.toList := by
  rw [List.utf8Encode, List.toList_data_toByteArray]
  rfl

/-- Texts with the same bytes are the same. -/
theorem utf8_inj {xs ys : List Char} (h : utf8 xs = utf8 ys) : xs = ys := by
  rw [utf8_eq, utf8_eq] at h
  have hbytes : xs.utf8Encode = ys.utf8Encode := ByteArray.ext (Array.toList_inj.mp h)
  have hdecode := congrArg ByteArray.utf8Decode? hbytes
  rw [List.utf8Decode?_utf8Encode, List.utf8Decode?_utf8Encode] at hdecode
  exact List.toArray_inj (Option.some.inj hdecode)

theorem utf8_cons (c : Char) (cs : List Char) :
    utf8 (c :: cs) = String.utf8EncodeChar c ++ utf8 cs := List.flatMap_cons

/-- An ASCII text has one byte for each character. -/
theorem utf8_eq_ascii {cs : List Char} (h : ∀ c ∈ cs, c.toNat < 128) : utf8 cs = ascii cs := by
  induction cs with
  | nil => rfl
  | cons c cs ih =>
      obtain ⟨hc, hcs⟩ := List.forall_mem_cons.mp h
      have hsize : c.utf8Size = 1 := by
        rw [Char.utf8Size, if_pos]
        exact UInt32.le_iff_toNat_le.mpr (Nat.le_of_lt_succ hc)
      rw [utf8_cons, String.utf8EncodeChar_eq_singleton hsize, ih hcs]
      rfl

/-- The decimal numeral of a number, without leading zeros. -/
def decimal (z : ℤ) : List Char := (toString z).toList

theorem decimal_natCast (n : ℕ) : decimal n = Nat.toDigits 10 n := Nat.toList_repr

theorem decimal_negSucc (n : ℕ) : decimal (Int.negSucc n) = '-' :: Nat.toDigits 10 (n + 1) := by
  change ("-" ++ Nat.repr (n + 1)).toList = _
  rw [String.toList_append, Nat.toList_repr]
  rfl

theorem isDigit_of_mem_digits {n : ℕ} {c : Char} (h : c ∈ Nat.toDigits 10 n) : c.isDigit = true :=
  Nat.isDigit_of_mem_toDigits (by omega) (by omega) h

theorem digit_bounds {c : Char} (h : c.isDigit = true) : 48 ≤ c.toNat ∧ c.toNat ≤ 57 := by
  obtain ⟨hlow, hhigh⟩ := (Bool.and_eq_true _ _).mp h
  exact ⟨UInt32.le_iff_toNat_le.mp (of_decide_eq_true hlow),
    UInt32.le_iff_toNat_le.mp (of_decide_eq_true hhigh)⟩

theorem digits_inj {m n : ℕ} (h : Nat.toDigits 10 m = Nat.toDigits 10 n) : m = n := by
  rw [← Nat.ofDigitChars_ten_toDigits (n := m), h, Nat.ofDigitChars_ten_toDigits]

theorem slash_ne_digit (n : ℕ) : n.digitChar ≠ '/' := Nat.digitChar_ne '/' (by decide)

theorem slash_notMem_toDigits {b : ℕ} (hb : 1 < b) (n : ℕ) : '/' ∉ Nat.toDigits b n := by
  induction n using Nat.strongRecOn with
  | ind n ih =>
      rcases Nat.lt_or_ge n b with hlt | hge
      · rw [Nat.toDigits_of_lt_base hlt, List.mem_singleton]
        exact (slash_ne_digit n).symm
      · rw [Nat.toDigits_of_base_le hb hge, List.mem_append, not_or, List.mem_singleton]
        exact ⟨ih _ (Nat.div_lt_self (by omega) hb), (slash_ne_digit _).symm⟩

theorem digits_ne_minus (m n : ℕ) : Nat.toDigits 10 m ≠ '-' :: Nat.toDigits 10 n := by
  intro h
  have hminus : '-' ∈ Nat.toDigits 10 m := h ▸ List.mem_cons_self
  have hdigit := isDigit_of_mem_digits hminus
  cases hdigit

theorem decimal_inj {y z : ℤ} (h : decimal y = decimal z) : y = z := by
  cases y with
  | ofNat m =>
      cases z with
      | ofNat n =>
          change decimal m = decimal n at h
          rw [decimal_natCast, decimal_natCast] at h
          rw [digits_inj h]
      | negSucc n =>
          change decimal m = _ at h
          rw [decimal_natCast, decimal_negSucc] at h
          exact absurd h (digits_ne_minus m (n + 1))
  | negSucc m =>
      cases z with
      | ofNat n =>
          change _ = decimal n at h
          rw [decimal_natCast, decimal_negSucc] at h
          exact absurd h.symm (digits_ne_minus n (m + 1))
      | negSucc n =>
          rw [decimal_negSucc, decimal_negSucc] at h
          have hsucc := digits_inj (List.cons.inj h).2
          rw [Nat.succ.inj hsucc]

theorem ascii_of_mem_decimal {z : ℤ} {c : Char} (h : c ∈ decimal z) : c.toNat < 128 := by
  rcases mem_toString_int h with hdigit | hminus
  · rw [Char.isDigit, Bool.and_eq_true, decide_eq_true_eq, decide_eq_true_eq] at hdigit
    have hle : c.toNat ≤ 57 := hdigit.2
    omega
  · rw [hminus]
    decide

/-- A number with this many digits. -/
theorem length_decimal {z : ℤ} {k : ℕ} (hlow : 10 ^ k ≤ z) (hhigh : z < 10 ^ (k + 1)) :
    (decimal z).length = k + 1 := by
  obtain ⟨n, rfl⟩ := Int.eq_ofNat_of_zero_le (Int.le_trans (by positivity) hlow)
  have hlow' : 10 ^ k ≤ n := by exact_mod_cast hlow
  have hhigh' : n < 10 ^ (k + 1) := by exact_mod_cast hhigh
  have hle := (Nat.length_toDigits_le_iff (n := n) (k := k + 1) (by decide) (by omega)).mpr hhigh'
  rw [decimal_natCast]
  cases k with
  | zero =>
      have hpos := Nat.length_toDigits_pos (b := 10) (n := n)
      omega
  | succ k =>
      have hgt := mt (Nat.length_toDigits_le_iff (n := n) (k := k + 1) (b := 10) (by decide)
        (by omega)).mp (by omega)
      omega

/-- Numerals with the same bytes are of the same number. -/
theorem ascii_decimal_inj {y z : ℤ} (h : ascii (decimal y) = ascii (decimal z)) : y = z :=
  decimal_inj (ascii_inj (fun _ => ascii_of_mem_decimal) (fun _ => ascii_of_mem_decimal) h)

end Tactile.Lib.Text

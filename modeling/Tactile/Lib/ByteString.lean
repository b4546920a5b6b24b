import Mathlib.Data.List.Basic
import Mathlib.Algebra.Order.Ring.Nat
import Mathlib.Tactic.Ring

/-!
Byte strings, their little-endian reading, their hexadecimal names and the
file-name extension.
-/

namespace Tactile.Lib.ByteString

abbrev Bytes : Type := List UInt8

/-- A byte array of a fixed length. -/
abbrev ByteArr (n : ℕ) : Type := { bs : Bytes // bs.length = n }

theorem length_zeros4 : [0, 0, 0, (0 : UInt8)].length = 4 := rfl

theorem length_zeros32 : (List.replicate 32 (0 : UInt8)).length = 32 := rfl

theorem length_zeros64 : (List.replicate 64 (0 : UInt8)).length = 64 := rfl

theorem lawfulBEq_byteArr32 : LawfulBEq (ByteArr 32) := inferInstance

/-- The part of a byte string at an offset, as an array. -/
def slice (bs : Bytes) (start n : ℕ) (h : start + n ≤ bs.length) : ByteArr n :=
  ⟨(bs.drop start).take n, by rw [List.length_take, List.length_drop]; omega⟩

/-- The `width` low bytes of a number, least significant first. -/
def putLE : ℕ → ℕ → Bytes
  | 0, _ => []
  | width + 1, value => UInt8.ofNat value :: putLE width (value / 256)

/-- The number whose bytes these are, least significant first. -/
def readLE : Bytes → ℕ
  | [] => 0
  | b :: bs => b.toNat + 256 * readLE bs

@[simp] theorem length_putLE (width value : ℕ) : (putLE width value).length = width := by
  induction width generalizing value with
  | zero => rfl
  | succ width ih => rw [putLE, List.length_cons, ih]

theorem readLE_putLE (width value : ℕ) : readLE (putLE width value) = value % 256 ^ width := by
  induction width generalizing value with
  | zero => rw [putLE, readLE, Nat.pow_zero, Nat.mod_one]
  | succ width ih =>
      have hbyte : (UInt8.ofNat value).toNat = value % 256 := UInt8.toNat_ofNat'
      rw [putLE, readLE, ih, hbyte, Nat.pow_succ', Nat.mod_mul]

/-- The lower-case hexadecimal digits of a byte. -/
def hexByte (b : UInt8) : List Char := [(b.toNat / 16).digitChar, (b.toNat % 16).digitChar]

/-- The lower-case hexadecimal name of a byte string. -/
def hexEncode (bs : Bytes) : String := String.ofList (bs.flatMap hexByte)

private theorem digitChar_inj {m n : ℕ} (hm : m < 16) (hn : n < 16)
    (h : m.digitChar = n.digitChar) : m = n := by
  have hall : ∀ m n : Fin 16, m.val.digitChar = n.val.digitChar → m = n := by decide
  exact congrArg Fin.val (hall ⟨m, hm⟩ ⟨n, hn⟩ h)

theorem hexByte_inj {a b : UInt8} (h : hexByte a = hexByte b) : a = b := by
  have ha := a.toNat_lt
  have hb := b.toNat_lt
  injection h with hhigh hlow
  injection hlow with hlow
  have hdiv := digitChar_inj (by omega) (by omega) hhigh
  have hmod := digitChar_inj (by omega) (by omega) hlow
  exact UInt8.toNat_inj.mp (by omega)

private theorem flatMap_hexByte_inj (xs ys : Bytes) (h : xs.flatMap hexByte = ys.flatMap hexByte) :
    xs = ys := by
  induction xs generalizing ys with
  | nil =>
      cases ys with
      | nil => rfl
      | cons y ys => simp [hexByte] at h
  | cons x xs ih =>
      cases ys with
      | nil => simp [hexByte] at h
      | cons y ys =>
          rw [List.flatMap_cons, List.flatMap_cons] at h
          have hlen : (hexByte x).length = (hexByte y).length := rfl
          obtain ⟨hhead, htail⟩ := List.append_inj h hlen
          rw [hexByte_inj hhead, ih ys htail]

theorem length_toList_hexEncode (bs : Bytes) : (hexEncode bs).toList.length = 2 * bs.length := by
  rw [hexEncode, String.toList_ofList]
  induction bs with
  | nil => rfl
  | cons b bs ih =>
      rw [List.flatMap_cons, List.length_append, ih, List.length_cons]
      have hbyte : (hexByte b).length = 2 := rfl
      omega

/-- Distinct byte strings have distinct hexadecimal names. -/
theorem hexEncode_inj {xs ys : Bytes} (h : hexEncode xs = hexEncode ys) : xs = ys :=
  flatMap_hexByte_inj xs ys (String.ofList_injective h)

/-- The value of a lower-case hexadecimal digit. -/
def hexVal (c : Char) : Option ℕ :=
  if '0' ≤ c ∧ c ≤ '9' then some (c.toNat - '0'.toNat)
  else if 'a' ≤ c ∧ c ≤ 'f' then some (c.toNat - 'a'.toNat + 10)
  else none

/-- The bytes of a text of lower-case hexadecimal digits. -/
def hexDecode : List Char → Option Bytes
  | [] => some []
  | [_] => none
  | high :: low :: rest => do
    let x ← hexVal high
    let y ← hexVal low
    let bs ← hexDecode rest
    return UInt8.ofNat (16 * x + y) :: bs

private theorem hexVal_digitChar {n : ℕ} (h : n < 16) : hexVal n.digitChar = some n := by
  have hall : ∀ n : Fin 16, hexVal n.val.digitChar = some n.val := by decide
  exact hall ⟨n, h⟩

theorem hexDecode_hexEncode (bs : Bytes) : hexDecode (hexEncode bs).toList = some bs := by
  rw [hexEncode, String.toList_ofList]
  induction bs with
  | nil => rfl
  | cons b bs ih =>
      have hb := b.toNat_lt
      have hhigh : hexVal (b.toNat / 16).digitChar = some (b.toNat / 16) :=
        hexVal_digitChar (by omega)
      have hlow : hexVal (b.toNat % 16).digitChar = some (b.toNat % 16) :=
        hexVal_digitChar (by omega)
      have hbyte : UInt8.ofNat (16 * (b.toNat / 16) + b.toNat % 16) = b := by
        rw [Nat.div_add_mod, UInt8.ofNat_toNat]
      rw [List.flatMap_cons, hexByte, List.cons_append, List.cons_append, List.nil_append,
        hexDecode, hhigh, hlow, ih]
      change some (UInt8.ofNat (16 * (b.toNat / 16) + b.toNat % 16) :: bs) = _
      rw [hbyte]

theorem mem_hexEncode {bs : Bytes} {c : Char} (h : c ∈ (hexEncode bs).toList) :
    ∃ n, n < 16 ∧ c = n.digitChar := by
  rw [hexEncode, String.toList_ofList, List.mem_flatMap] at h
  obtain ⟨b, -, hc⟩ := h
  have hb := b.toNat_lt
  rw [hexByte, List.mem_cons, List.mem_singleton] at hc
  rcases hc with hc | hc
  · exact ⟨b.toNat / 16, by omega, hc⟩
  · exact ⟨b.toNat % 16, by omega, hc⟩

/-- The extension of a file name: its part from the last dot on, empty when it
has none. -/
def ext (name : String) : String :=
  let afterDot := name.toList.reverse.takeWhile (· ≠ '.')
  if afterDot.length = name.toList.length then "" else String.ofList ('.' :: afterDot.reverse)

theorem ext_of_dot (stem suffix : List Char) (h : '.' ∉ suffix) :
    ext (String.ofList (stem ++ '.' :: suffix)) = String.ofList ('.' :: suffix) := by
  have hrev : (stem ++ '.' :: suffix).reverse = suffix.reverse ++ '.' :: stem.reverse := by simp
  have hall : ∀ c ∈ suffix.reverse, decide (c ≠ '.') = true := by
    intro c hc
    have hmem := List.mem_reverse.mp hc
    exact decide_eq_true fun heq => h (heq ▸ hmem)
  have hafter : (stem ++ '.' :: suffix).reverse.takeWhile (· ≠ '.') = suffix.reverse := by
    rw [hrev, List.takeWhile_append_of_pos hall]
    simp
  have hlen : suffix.reverse.length ≠ (stem ++ '.' :: suffix).length := by
    simp only [List.length_reverse, List.length_append, List.length_cons]
    omega
  rw [ext, String.toList_ofList, hafter]
  simp only [if_neg hlen, List.reverse_reverse]

/-- A decimal number has no dot. -/
theorem dot_notMem_digits (n : ℕ) : '.' ∉ Nat.toDigits 10 n := fun h =>
  absurd (Nat.isDigit_of_mem_toDigits (by decide) (by decide) h) (by decide)

theorem mem_toString_int {z : ℤ} {c : Char} (h : c ∈ (toString z).toList) :
    c.isDigit ∨ c = '-' := by
  cases z with
  | ofNat n =>
      change c ∈ (Nat.repr n).toList at h
      rw [Nat.toList_repr] at h
      exact .inl (Nat.isDigit_of_mem_toDigits (by omega) (by omega) h)
  | negSucc n =>
      change c ∈ ("-" ++ Nat.repr (n + 1)).toList at h
      rw [String.toList_append, Nat.toList_repr, List.mem_append] at h
      rcases h with h | h
      · exact .inr (List.mem_singleton.mp h)
      · exact .inl (Nat.isDigit_of_mem_toDigits (by omega) (by omega) h)

end Tactile.Lib.ByteString

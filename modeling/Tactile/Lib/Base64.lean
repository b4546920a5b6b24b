import Mathlib.Data.List.GetD
import Mathlib.Data.List.Nodup
import Mathlib.Data.List.TakeWhile
import Mathlib.Tactic.Ring
import Tactile.Lib.ByteString

/-!
Base64 over an alphabet, with padding or without it.
-/

namespace Tactile.Lib.Base64

open Tactile.Lib.ByteString

/-- An alphabet of 64 characters, none of them the padding or a line break. -/
structure Alphabet where
  chars : List Char
  length : chars.length = 64
  nodup : chars.Nodup
  plain : ∀ c ∈ chars, c ≠ '=' ∧ c ≠ '\r' ∧ c ≠ '\n'

/-- Consecutive characters. -/
def charsFrom (first : Char) (n : ℕ) : List Char :=
  (List.range n).map fun i => Char.ofNat (first.toNat + i)

theorem plain_of_all {chars : List Char}
    (h : (chars.all fun c => decide (c ≠ '=' ∧ c ≠ '\r' ∧ c ≠ '\n')) = true) :
    ∀ c ∈ chars, c ≠ '=' ∧ c ≠ '\r' ∧ c ≠ '\n' :=
  fun c hc => of_decide_eq_true (List.all_eq_true.mp h c hc)

def std : Alphabet where
  chars := charsFrom 'A' 26 ++ charsFrom 'a' 26 ++ charsFrom '0' 10 ++ ['+', '/']
  length := by decide +kernel
  nodup := by decide +kernel
  plain := plain_of_all (by decide +kernel)

/-- The alphabet that is safe in URLs and file names. -/
def url : Alphabet where
  chars := charsFrom 'A' 26 ++ charsFrom 'a' 26 ++ charsFrom '0' 10 ++ ['-', '_']
  length := by decide +kernel
  nodup := by decide +kernel
  plain := plain_of_all (by decide +kernel)

def Alphabet.digit (α : Alphabet) (n : ℕ) : Char := α.chars.getD n 'A'

def Alphabet.value (α : Alphabet) (c : Char) : Option ℕ :=
  if c ∈ α.chars then some (α.chars.idxOf c) else none

section Codec

variable (α : Alphabet) (padded : Bool)

/-- The characters of a byte string, four for three bytes. -/
def digits : Bytes → List Char
  | [] => []
  | [x] => [α.digit (x.toNat / 4), α.digit (x.toNat % 4 * 16)]
  | [x, y] =>
    [α.digit (x.toNat / 4), α.digit (x.toNat % 4 * 16 + y.toNat / 16),
      α.digit (y.toNat % 16 * 4)]
  | x :: y :: z :: rest =>
    α.digit (x.toNat / 4) :: α.digit (x.toNat % 4 * 16 + y.toNat / 16) ::
      α.digit (y.toNat % 16 * 4 + z.toNat / 64) :: α.digit (z.toNat % 64) :: digits rest

/-- What fills the last four characters. -/
def padding (bs : Bytes) : List Char := List.replicate ((3 - bs.length % 3) % 3) '='

def encode (bs : Bytes) : List Char := digits α bs ++ if padded then padding bs else []

def decodeOne (a b : Char) : Option Bytes := do
  let i ← α.value a
  let j ← α.value b
  return [UInt8.ofNat (i * 4 + j / 16)]

def decodeTwo (a b c : Char) : Option Bytes := do
  let i ← α.value a
  let j ← α.value b
  let k ← α.value c
  return [UInt8.ofNat (i * 4 + j / 16), UInt8.ofNat (j % 16 * 16 + k / 4)]

def decodeThree (a b c d : Char) : Option Bytes := do
  let i ← α.value a
  let j ← α.value b
  let k ← α.value c
  let l ← α.value d
  return [UInt8.ofNat (i * 4 + j / 16), UInt8.ofNat (j % 16 * 16 + k / 4),
    UInt8.ofNat (k % 4 * 64 + l)]

/-- The bytes of a text without line breaks; the bits that the last character
has in excess are ignored. -/
def decodeQuads : List Char → Option Bytes
  | [] => some []
  | [_] => none
  | [a, b] => if padded then none else decodeOne α a b
  | [a, b, c] => if padded then none else decodeTwo α a b c
  | a :: b :: c :: d :: rest =>
    if padded = true ∧ d = '=' then
      if rest ≠ [] then none else if c = '=' then decodeOne α a b else decodeTwo α a b c
    else do
      let bytes ← decodeThree α a b c d
      let more ← decodeQuads rest
      return bytes ++ more

/-- The bytes of a text, whose line breaks are ignored. -/
def decode (cs : List Char) : Option Bytes :=
  decodeQuads α padded (cs.filter fun c => c ≠ '\r' ∧ c ≠ '\n')

variable {α}

theorem digit_mem {n : ℕ} (h : n < 64) : α.digit n ∈ α.chars := by
  rw [← α.length] at h
  rw [Alphabet.digit, List.getD_eq_getElem _ _ h]
  exact List.getElem_mem h

theorem value_digit {n : ℕ} (h : n < 64) : α.value (α.digit n) = some n := by
  have hmem := digit_mem (α := α) h
  rw [← α.length] at h
  rw [Alphabet.value, if_pos hmem, Alphabet.digit, List.getD_eq_getElem _ _ h,
    α.nodup.idxOf_getElem]

theorem mem_digits {bs : Bytes} {c : Char} (h : c ∈ digits α bs) : c ∈ α.chars := by
  have hdigit : ∀ {n : ℕ}, n < 64 → c = α.digit n → c ∈ α.chars := by
    rintro n hn rfl
    exact digit_mem hn
  fun_induction digits α bs with
  | case1 => cases h
  | case2 x =>
      have hx := x.toNat_lt
      simp only [List.mem_cons, List.not_mem_nil, or_false] at h
      rcases h with h | h
      · exact hdigit (by omega) h
      · exact hdigit (by omega) h
  | case3 x y =>
      have hx := x.toNat_lt
      have hy := y.toNat_lt
      simp only [List.mem_cons, List.not_mem_nil, or_false] at h
      rcases h with h | h | h
      · exact hdigit (by omega) h
      · exact hdigit (by omega) h
      · exact hdigit (by omega) h
  | case4 x y z rest ih =>
      have hx := x.toNat_lt
      have hy := y.toNat_lt
      have hz := z.toNat_lt
      simp only [List.mem_cons] at h
      rcases h with h | h | h | h | h
      · exact hdigit (by omega) h
      · exact hdigit (by omega) h
      · exact hdigit (by omega) h
      · exact hdigit (by omega) h
      · exact ih h

theorem padding_cons_three (x y z : UInt8) (rest : Bytes) :
    padding (x :: y :: z :: rest) = padding rest := by
  have hlength : (x :: y :: z :: rest).length % 3 = rest.length % 3 := Nat.add_mod_right _ 3
  rw [padding, padding, hlength]

theorem encode_cons_three (x y z : UInt8) (rest : Bytes) :
    encode α padded (x :: y :: z :: rest) =
      α.digit (x.toNat / 4) :: α.digit (x.toNat % 4 * 16 + y.toNat / 16) ::
        α.digit (y.toNat % 16 * 4 + z.toNat / 64) :: α.digit (z.toNat % 64) ::
        encode α padded rest := by
  rw [encode, encode, digits, padding_cons_three]
  rfl

theorem decodeOne_digits (x : UInt8) :
    decodeOne α (α.digit (x.toNat / 4)) (α.digit (x.toNat % 4 * 16)) = some [x] := by
  have hx := x.toNat_lt
  have hbyte : UInt8.ofNat (x.toNat / 4 * 4 + x.toNat % 4 * 16 / 16) = x := by
    rw [show x.toNat / 4 * 4 + x.toNat % 4 * 16 / 16 = x.toNat by omega, UInt8.ofNat_toNat]
  rw [decodeOne, value_digit (by omega), value_digit (by omega)]
  exact congrArg (fun b => some [b]) hbyte

theorem decodeTwo_digits (x y : UInt8) :
    decodeTwo α (α.digit (x.toNat / 4)) (α.digit (x.toNat % 4 * 16 + y.toNat / 16))
      (α.digit (y.toNat % 16 * 4)) = some [x, y] := by
  have hx := x.toNat_lt
  have hy := y.toNat_lt
  have hfirst : x.toNat / 4 * 4 + (x.toNat % 4 * 16 + y.toNat / 16) / 16 = x.toNat := by omega
  have hsecond : (x.toNat % 4 * 16 + y.toNat / 16) % 16 * 16 + y.toNat % 16 * 4 / 4 = y.toNat := by
    omega
  rw [decodeTwo, value_digit (by omega), value_digit (by omega), value_digit (by omega)]
  change some [UInt8.ofNat _, UInt8.ofNat _] = _
  rw [hfirst, hsecond, UInt8.ofNat_toNat, UInt8.ofNat_toNat]

theorem decodeThree_digits (x y z : UInt8) :
    decodeThree α (α.digit (x.toNat / 4)) (α.digit (x.toNat % 4 * 16 + y.toNat / 16))
      (α.digit (y.toNat % 16 * 4 + z.toNat / 64)) (α.digit (z.toNat % 64)) = some [x, y, z] := by
  have hx := x.toNat_lt
  have hy := y.toNat_lt
  have hz := z.toNat_lt
  have hfirst : x.toNat / 4 * 4 + (x.toNat % 4 * 16 + y.toNat / 16) / 16 = x.toNat := by omega
  have hsecond : (x.toNat % 4 * 16 + y.toNat / 16) % 16 * 16 +
      (y.toNat % 16 * 4 + z.toNat / 64) / 4 = y.toNat := by omega
  have hthird : (y.toNat % 16 * 4 + z.toNat / 64) % 4 * 64 + z.toNat % 64 = z.toNat := by omega
  rw [decodeThree, value_digit (by omega), value_digit (by omega), value_digit (by omega),
    value_digit (by omega)]
  change some [UInt8.ofNat _, UInt8.ofNat _, UInt8.ofNat _] = _
  rw [hfirst, hsecond, hthird, UInt8.ofNat_toNat, UInt8.ofNat_toNat, UInt8.ofNat_toNat]

theorem decodeQuads_encode (bs : Bytes) : decodeQuads α padded (encode α padded bs) = some bs := by
  induction bs using digits.induct with
  | case1 => cases padded <;> rfl
  | case2 x =>
      have hone := decodeOne_digits (α := α) x
      cases padded with
      | false => exact hone
      | true => exact hone
  | case3 x y =>
      have htwo := decodeTwo_digits (α := α) x y
      have hplain := (α.plain _ (digit_mem (α := α) (n := y.toNat % 16 * 4) (by omega))).1
      cases padded with
      | false => exact htwo
      | true =>
          change (if true = true ∧ '=' = '=' then if [] ≠ [] then none
            else if α.digit (y.toNat % 16 * 4) = '=' then _ else _ else _) = _
          rw [if_pos ⟨rfl, rfl⟩, if_neg (not_not_intro rfl), if_neg hplain]
          exact htwo
  | case4 x y z rest ih =>
      have hplain := (α.plain _ (digit_mem (α := α) (n := z.toNat % 64) (by omega))).1
      rw [encode_cons_three, decodeQuads, if_neg fun h => hplain h.2, decodeThree_digits, ih]
      rfl

/-- Decoding undoes encoding. -/
theorem decode_encode (bs : Bytes) : decode α padded (encode α padded bs) = some bs := by
  have hbreaks : (encode α padded bs).filter (fun c => c ≠ '\r' ∧ c ≠ '\n') =
      encode α padded bs := by
    rw [List.filter_eq_self]
    intro c hc
    rw [encode, List.mem_append] at hc
    rcases hc with hc | hc
    · exact decide_eq_true (α.plain c (mem_digits hc)).2
    · cases padded with
      | false => cases hc
      | true =>
          rw [List.eq_of_mem_replicate hc]
          decide
  rw [decode, hbreaks, decodeQuads_encode]

end Codec

section Alphabets

/-- The character of the URL alphabet for one of the standard alphabet. -/
def toUrl (c : Char) : Char := if c = '+' then '-' else if c = '/' then '_' else c

theorem toUrl_digit {n : ℕ} (h : n < 64) : toUrl (std.digit n) = url.digit n := by
  have hall : ∀ n : Fin 64, toUrl (std.digit n) = url.digit n := by decide +kernel
  exact hall ⟨n, h⟩

theorem map_toUrl_digits (bs : Bytes) : (digits std bs).map toUrl = digits url bs := by
  induction bs using digits.induct with
  | case1 => rfl
  | case2 x =>
      have hx := x.toNat_lt
      simp only [digits, List.map_cons, List.map_nil]
      rw [toUrl_digit (by omega), toUrl_digit (by omega)]
  | case3 x y =>
      have hx := x.toNat_lt
      have hy := y.toNat_lt
      simp only [digits, List.map_cons, List.map_nil]
      rw [toUrl_digit (by omega), toUrl_digit (by omega), toUrl_digit (by omega)]
  | case4 x y z rest ih =>
      have hx := x.toNat_lt
      have hy := y.toNat_lt
      have hz := z.toNat_lt
      simp only [digits, List.map_cons, ih]
      rw [toUrl_digit (by omega), toUrl_digit (by omega), toUrl_digit (by omega),
        toUrl_digit (by omega)]

/-- The text without the padding at its end. -/
def stripPadding (cs : List Char) : List Char := (cs.reverse.dropWhile (· = '=')).reverse

theorem stripPadding_digits (α : Alphabet) (bs : Bytes) (n : ℕ) :
    stripPadding (digits α bs ++ List.replicate n '=') = digits α bs := by
  have hdigits : (digits α bs).reverse.dropWhile (· = '=') = (digits α bs).reverse := by
    rw [List.dropWhile_eq_self_iff]
    intro hpos h
    have hmem := List.mem_reverse.mp (List.getElem_mem hpos)
    exact (α.plain _ (mem_digits hmem)).1 (of_decide_eq_true h)
  rw [stripPadding, List.reverse_append, List.reverse_replicate, List.dropWhile_append_of_pos,
    hdigits, List.reverse_reverse]
  intro c hc
  exact decide_eq_true (List.eq_of_mem_replicate hc)

/-- The padded text in the standard alphabet, translated and stripped, is the
unpadded text in the URL alphabet. -/
theorem stripPadding_toUrl (bs : Bytes) :
    stripPadding ((encode std true bs).map toUrl) = encode url false bs := by
  have hpadding : (padding bs).map toUrl = padding bs := by
    rw [padding, List.map_replicate]
    rfl
  rw [encode, if_pos rfl, List.map_append, map_toUrl_digits, hpadding, padding,
    stripPadding_digits, encode]
  exact (List.append_nil _).symm

end Alphabets

section Bits

/-- The low bits of a number, the most significant first. -/
def bits : ℕ → ℕ → List Bool
  | 0, _ => []
  | width + 1, n => bits width (n / 2) ++ [decide (n % 2 = 1)]

@[simp] theorem length_bits (width n : ℕ) : (bits width n).length = width := by
  induction width generalizing n with
  | zero => rfl
  | succ width ih => simp [bits, ih]

/-- The bits of a number are those of its high and of its low part. -/
theorem bits_add (high low m n : ℕ) (h : n < 2 ^ low) :
    bits (high + low) (m * 2 ^ low + n) = bits high m ++ bits low n := by
  induction low generalizing n with
  | zero =>
      have hn : n = 0 := Nat.lt_one_iff.mp h
      simp [hn, bits]
  | succ low ih =>
      have hpow : m * 2 ^ (low + 1) = 2 * (m * 2 ^ low) := by ring
      have hhalf : (m * 2 ^ (low + 1) + n) / 2 = m * 2 ^ low + n / 2 := by omega
      have hlast : (m * 2 ^ (low + 1) + n) % 2 = n % 2 := by omega
      rw [← Nat.add_assoc, bits, bits, hhalf, hlast, ih (n / 2) (by omega), List.append_assoc]

def byteBits (bs : Bytes) : List Bool := bs.flatMap fun b => bits 8 b.toNat

def sextetBits (ns : List ℕ) : List Bool := ns.flatMap (bits 6)

theorem length_byteBits (bs : Bytes) : (byteBits bs).length = 8 * bs.length := by
  induction bs with
  | nil => rfl
  | cons b bs ih =>
      simp only [byteBits, List.flatMap_cons, List.length_append] at ih ⊢
      rw [ih, length_bits, List.length_cons]
      omega

theorem bits_inj {width m n : ℕ} (hm : m < 2 ^ width) (hn : n < 2 ^ width)
    (h : bits width m = bits width n) : m = n := by
  induction width generalizing m n with
  | zero => omega
  | succ width ih =>
      obtain ⟨hhalf, hlast⟩ := List.append_inj' h rfl
      have hhalves := ih (by omega) (by omega) hhalf
      have hparity : m % 2 = 1 ↔ n % 2 = 1 := by simpa using hlast
      omega

theorem byteBits_inj {xs ys : Bytes} (h : byteBits xs = byteBits ys) : xs = ys := by
  induction xs generalizing ys with
  | nil =>
      have hlength := congrArg List.length h
      rw [length_byteBits, length_byteBits] at hlength
      exact (List.length_eq_zero_iff.mp (by simpa using hlength.symm)).symm
  | cons x xs ih =>
      rcases ys with _ | ⟨y, ys⟩
      · have hlength := congrArg List.length h
        rw [length_byteBits, length_byteBits] at hlength
        simp at hlength
      · obtain ⟨hhead, htail⟩ := List.append_inj (show bits 8 x.toNat ++ byteBits xs =
          bits 8 y.toNat ++ byteBits ys from h) (by simp)
        rw [UInt8.toNat_inj.mp (bits_inj x.toNat_lt y.toNat_lt hhead), ih htail]

variable {α : Alphabet}

theorem value_lt {c : Char} {n : ℕ} (h : α.value c = some n) : n < 64 := by
  rw [Alphabet.value] at h
  split at h
  next hmem =>
    cases h
    rw [← α.length]
    exact List.idxOf_lt_length_of_mem hmem
  next => cases h

/-- The values of consecutive characters. -/
def Reads (α : Alphabet) (cs : List Char) (ns : List ℕ) : Prop := cs.map α.value = ns.map some

theorem digit_value {c : Char} {n : ℕ} (h : α.value c = some n) : α.digit n = c := by
  rw [Alphabet.value] at h
  split at h
  next hmem =>
    cases h
    have hlt := List.idxOf_lt_length_of_mem hmem
    rw [Alphabet.digit, List.getD_eq_getElem _ _ hlt, List.getElem_idxOf]
  next => cases h

/-- What reads in the standard alphabet reads in the URL alphabet once translated. -/
theorem Reads.toUrl {cs : List Char} {ns : List ℕ} (h : Reads std cs ns) :
    Reads url (cs.map toUrl) ns := by
  rw [Reads] at h ⊢
  induction cs generalizing ns with
  | nil =>
      cases ns with
      | nil => rfl
      | cons n ns => cases h
  | cons c cs ih =>
      cases ns with
      | nil => cases h
      | cons n ns =>
          obtain ⟨hhead, htail⟩ := List.cons.inj h
          have hdigit : Base64.toUrl c = url.digit n := by
            rw [← digit_value hhead, toUrl_digit (value_lt hhead)]
          rw [List.map_cons, List.map_cons, ih htail, hdigit, value_digit (value_lt hhead)]
          rfl

/-- Bytes are the bits of the characters, less than a byte of them left over. -/
def BitsOf (bs : Bytes) (ns : List ℕ) : Prop :=
  byteBits bs <+: sextetBits ns ∧ (sextetBits ns).length < (byteBits bs).length + 8

theorem bits_first {i j : ℕ} (hi : i < 64) (hj : j < 64) :
    bits 8 (UInt8.ofNat (i * 4 + j / 16)).toNat = bits 6 i ++ bits 2 (j / 16) := by
  rw [UInt8.toNat_ofNat', Nat.mod_eq_of_lt (by omega)]
  exact bits_add 6 2 i (j / 16) (by omega)

theorem bits_second {j k : ℕ} (hk : k < 64) :
    bits 8 (UInt8.ofNat (j % 16 * 16 + k / 4)).toNat = bits 4 (j % 16) ++ bits 4 (k / 4) := by
  rw [UInt8.toNat_ofNat', Nat.mod_eq_of_lt (by omega)]
  exact bits_add 4 4 (j % 16) (k / 4) (by omega)

theorem bits_third {k l : ℕ} (hl : l < 64) :
    bits 8 (UInt8.ofNat (k % 4 * 64 + l)).toNat = bits 2 (k % 4) ++ bits 6 l := by
  rw [UInt8.toNat_ofNat', Nat.mod_eq_of_lt (by omega)]
  exact bits_add 2 6 (k % 4) l hl

theorem bits_two_four (j : ℕ) : bits 2 (j / 16) ++ bits 4 (j % 16) = bits 6 j := by
  have hsplit : j / 16 * 2 ^ 4 + j % 16 = j := Nat.div_add_mod' j 16
  rw [← bits_add 2 4 (j / 16) (j % 16) (Nat.mod_lt _ (by decide)), hsplit]

theorem bits_four_two (k : ℕ) : bits 4 (k / 4) ++ bits 2 (k % 4) = bits 6 k := by
  have hsplit : k / 4 * 2 ^ 2 + k % 4 = k := Nat.div_add_mod' k 4
  rw [← bits_add 4 2 (k / 4) (k % 4) (Nat.mod_lt _ (by decide)), hsplit]

theorem decodeOne_bits {a b : Char} {bs : Bytes} (h : decodeOne α a b = some bs) :
    ∃ ns, Reads α [a, b] ns ∧ BitsOf bs ns := by
  simp only [decodeOne, Option.bind_eq_bind, Option.bind_eq_some_iff, pure, Option.some.injEq] at h
  obtain ⟨i, hi, j, hj, rfl⟩ := h
  refine ⟨[i, j], by simp [Reads, hi, hj], ?_⟩
  have hbits : byteBits [UInt8.ofNat (i * 4 + j / 16)] = bits 6 i ++ bits 2 (j / 16) := by
    simp only [byteBits, List.flatMap_cons, List.flatMap_nil, List.append_nil,
      bits_first (value_lt hi) (value_lt hj)]
  rw [BitsOf, hbits]
  refine ⟨⟨bits 4 (j % 16), ?_⟩, ?_⟩
  · simp [sextetBits, bits_two_four]
  · simp [sextetBits]

theorem decodeTwo_bits {a b c : Char} {bs : Bytes} (h : decodeTwo α a b c = some bs) :
    ∃ ns, Reads α [a, b, c] ns ∧ BitsOf bs ns := by
  simp only [decodeTwo, Option.bind_eq_bind, Option.bind_eq_some_iff, pure, Option.some.injEq] at h
  obtain ⟨i, hi, j, hj, k, hk, rfl⟩ := h
  refine ⟨[i, j, k], by simp [Reads, hi, hj, hk], ?_⟩
  have hbits : byteBits [UInt8.ofNat (i * 4 + j / 16), UInt8.ofNat (j % 16 * 16 + k / 4)] =
      bits 6 i ++ bits 6 j ++ bits 4 (k / 4) := by
    simp only [byteBits, List.flatMap_cons, List.flatMap_nil, List.append_nil,
      bits_first (value_lt hi) (value_lt hj), bits_second (value_lt hk)]
    rw [List.append_assoc, ← List.append_assoc (bits 2 _), bits_two_four, List.append_assoc]
  rw [BitsOf, hbits]
  refine ⟨⟨bits 2 (k % 4), ?_⟩, ?_⟩
  · simp [sextetBits, bits_four_two]
  · simp [sextetBits]

theorem decodeThree_bits {a b c d : Char} {bs : Bytes} (h : decodeThree α a b c d = some bs) :
    ∃ ns, Reads α [a, b, c, d] ns ∧ byteBits bs = sextetBits ns := by
  simp only [decodeThree, Option.bind_eq_bind, Option.bind_eq_some_iff, pure, Option.some.injEq] at h
  obtain ⟨i, hi, j, hj, k, hk, l, hl, rfl⟩ := h
  refine ⟨[i, j, k, l], by simp [Reads, hi, hj, hk, hl], ?_⟩
  simp only [byteBits, sextetBits, List.flatMap_cons, List.flatMap_nil, List.append_nil,
    bits_first (value_lt hi) (value_lt hj), bits_second (value_lt hk), bits_third (value_lt hl)]
  rw [List.append_assoc, List.append_assoc, ← List.append_assoc (bits 2 _), bits_two_four,
    ← List.append_assoc (bits 4 _), bits_four_two]

/-- What decodes without padding are the bits of the characters. -/
theorem decodeQuads_bits {cs : List Char} {bs : Bytes} (h : decodeQuads α false cs = some bs) :
    ∃ ns, Reads α cs ns ∧ BitsOf bs ns := by
  fun_induction decodeQuads α false cs generalizing bs with
  | case1 =>
      cases h
      exact ⟨[], rfl, List.prefix_refl _, by simp [sextetBits, byteBits]⟩
  | case2 => cases h
  | case3 => simp_all
  | case4 a b => exact decodeOne_bits h
  | case5 => simp_all
  | case6 a b c => exact decodeTwo_bits h
  | case7 => simp_all
  | case8 => simp_all
  | case9 => simp_all
  | case10 a b c d rest _ ih =>
      simp only [Option.bind_eq_bind, Option.bind_eq_some_iff, pure, Option.some.injEq] at h
      obtain ⟨bytes, hbytes, more, hmore, rfl⟩ := h
      obtain ⟨ns, hns, hbits⟩ := decodeThree_bits hbytes
      obtain ⟨ns', hns', hinit, hlength⟩ := ih hmore
      refine ⟨ns ++ ns', ?_, ?_, ?_⟩
      · rw [Reads] at hns hns' ⊢
        rw [List.map_append, ← hns, ← hns']
        rfl
      · simp only [byteBits, sextetBits, List.flatMap_append] at hbits hinit ⊢
        rw [hbits]
        exact (List.prefix_append_right_inj _).mpr hinit
      · simp only [byteBits, sextetBits, List.flatMap_append, List.length_append] at hbits hlength ⊢
        rw [hbits]
        omega

/-- The bits of the characters determine the bytes. -/
theorem BitsOf.unique {bs bs' : Bytes} {ns : List ℕ} (h : BitsOf bs ns) (h' : BitsOf bs' ns) :
    bs = bs' := by
  obtain ⟨hinit, hlength⟩ := h
  obtain ⟨hinit', hlength'⟩ := h'
  have hle := hinit.length_le
  have hle' := hinit'.length_le
  have hbits : (byteBits bs).length = (byteBits bs').length := by
    simp only [length_byteBits] at *
    omega
  exact byteBits_inj ((List.prefix_of_prefix_length_le hinit hinit' hbits.le).eq_of_length hbits)

end Bits

end Tactile.Lib.Base64

import Mathlib.Data.List.DropRight
import Tactile.Lib.Base64

/-!
Strings of JavaScript, which are sequences of code units, and the functions that its
runtimes have for numerals and for base64.
-/

namespace Tactile.Lib.CodeUnits

open Tactile.Lib.ByteString Tactile.Lib.Base64

abbrev JsString : Type := List UInt16

/-- The code unit of a character below the surrogates. -/
def unit (c : Char) : UInt16 := UInt16.ofNat c.toNat

/-- The string of characters below the surrogates. -/
def js (cs : List Char) : JsString := cs.map unit

/-- The character of a code unit; half of a surrogate pair has none. -/
def charOf (u : UInt16) : Char := Char.ofNat u.toNat

theorem charOf_unit {c : Char} (h : c.toNat < 65536) : charOf (unit c) = c := by
  rw [charOf, unit, UInt16.toNat_ofNat', Nat.mod_eq_of_lt h, Char.ofNat_toNat]

theorem unit_inj {c d : Char} (hc : c.toNat < 65536) (hd : d.toNat < 65536) (h : unit c = unit d) :
    c = d := by
  rw [← charOf_unit hc, ← charOf_unit hd, h]

section Trim

/-- White space and line terminators. -/
def isSpace (u : UInt16) : Bool :=
  (9 ≤ u && u ≤ 13) || u == 0x20 || u == 0xA0 || u == 0x1680 || (0x2000 ≤ u && u ≤ 0x200A) ||
    u == 0x2028 || u == 0x2029 || u == 0x202F || u == 0x205F || u == 0x3000 || u == 0xFEFF

def trim (s : JsString) : JsString := ((s.dropWhile isSpace).reverse.dropWhile isSpace).reverse

theorem dropWhile_isSpace {s : JsString} (h : ∀ u ∈ s, isSpace u = false) :
    s.dropWhile isSpace = s := by
  cases s with
  | nil => rfl
  | cons u s => exact List.dropWhile_cons_of_neg (by simp [h u List.mem_cons_self])

/-- A string is what is left of it between white space. -/
theorem exists_trim (s : JsString) :
    ∃ pre post, (∀ u ∈ pre, isSpace u = true) ∧ (∀ u ∈ post, isSpace u = true) ∧
      s = pre ++ trim s ++ post := by
  refine ⟨s.takeWhile isSpace, ((s.dropWhile isSpace).reverse.takeWhile isSpace).reverse, ?_, ?_, ?_⟩
  · exact fun u hu => List.mem_takeWhile_imp hu
  · exact fun u hu => List.mem_takeWhile_imp (List.mem_reverse.mp hu)
  · rw [trim, List.append_assoc, ← List.reverse_append, List.takeWhile_append_dropWhile,
      List.reverse_reverse, List.takeWhile_append_dropWhile]

/-- White space around a string is trimmed with that at its ends. -/
theorem trim_around {pre s post : JsString} (hpre : ∀ u ∈ pre, isSpace u = true)
    (hpost : ∀ u ∈ post, isSpace u = true) : trim (pre ++ s ++ post) = trim s := by
  have hpost' : ∀ u ∈ post.reverse, isSpace u = true :=
    fun u hu => hpost u (List.mem_reverse.mp hu)
  rw [trim, trim, List.append_assoc, List.dropWhile_append_of_pos hpre, List.dropWhile_append]
  split
  next hempty =>
    rw [List.isEmpty_iff.mp hempty, List.dropWhile_eq_nil_iff.mpr hpost]
  next => rw [List.reverse_append, List.dropWhile_append_of_pos hpost']

/-- A last unit that is no white space stays. -/
theorem trim_concat (s : JsString) {u : UInt16} (hu : isSpace u = false) :
    trim (s ++ [u]) = s.dropWhile isSpace ++ [u] := by
  have hdrop : (s ++ [u]).dropWhile isSpace = s.dropWhile isSpace ++ [u] := by
    rw [List.dropWhile_append]
    split
    next hempty =>
      rw [List.isEmpty_iff.mp hempty, List.dropWhile_cons_of_neg (by simp [hu]), List.nil_append]
    next => rfl
  rw [trim, hdrop, List.reverse_append, List.reverse_singleton, List.singleton_append,
    List.dropWhile_cons_of_neg (by simp [hu]), List.reverse_cons, List.reverse_reverse]

theorem not_isSpace_head_trim (s : JsString) {u : UInt16} (hu : u ∈ (trim s).head?) :
    isSpace u = false := by
  have hpre : trim s <+: s.dropWhile isSpace := List.rdropWhile_prefix isSpace _
  obtain ⟨rest, hrest⟩ := hpre
  have hhead := List.head?_dropWhile_not isSpace s
  rw [← hrest, List.head?_append, Option.mem_def.mp hu] at hhead
  simpa using hhead

theorem not_isSpace_getLast_trim (s : JsString) {u : UInt16} (hu : u ∈ (trim s).getLast?) :
    isSpace u = false := by
  rw [trim, List.getLast?_reverse] at hu
  have hhead := List.head?_dropWhile_not isSpace (s.dropWhile isSpace).reverse
  rw [Option.mem_def.mp hu] at hhead
  simpa using hhead

/-- A string without white space at its ends stays as it is. -/
theorem trim_eq_self {s : JsString} (hhead : ∀ u ∈ s.head?, isSpace u = false)
    (hlast : ∀ u ∈ s.getLast?, isSpace u = false) : trim s = s := by
  cases s with
  | nil => rfl
  | cons u s =>
      rw [trim, List.dropWhile_cons_of_neg (by simp [hhead u rfl])]
      cases hrev : (u :: s).reverse with
      | nil => simp at hrev
      | cons v t =>
          have hv : isSpace v = false := hlast v (by rw [← List.head?_reverse, hrev]; rfl)
          rw [List.dropWhile_cons_of_neg (by simp [hv]), ← hrev, List.reverse_reverse]

theorem trim_append {pre s post : JsString} (hpre : ∀ u ∈ pre, isSpace u = true)
    (hs : ∀ u ∈ s, isSpace u = false) (hpost : ∀ u ∈ post, isSpace u = true) :
    trim (pre ++ s ++ post) = s := by
  rw [trim_around hpre hpost]
  apply trim_eq_self
  · exact fun u hu => hs u (List.mem_of_head? hu)
  · exact fun u hu => hs u (List.mem_of_getLast? hu)

theorem trim_trim (s : JsString) : trim (trim s) = trim s :=
  trim_eq_self (fun _ => not_isSpace_head_trim s) fun _ => not_isSpace_getLast_trim s

theorem trim_eq_nil {s : JsString} : trim s = [] ↔ ∀ u ∈ s, isSpace u = true := by
  constructor
  · intro h
    obtain ⟨pre, post, hpre, hpost, hs⟩ := exists_trim s
    rw [h, List.append_nil] at hs
    intro u hu
    rw [hs] at hu
    exact (List.mem_append.mp hu).elim (hpre u) (hpost u)
  · intro h
    have hblank : trim (s ++ [] ++ []) = trim [] := trim_around h fun _ hu => absurd hu List.not_mem_nil
    rw [List.append_nil, List.append_nil] at hblank
    exact hblank

theorem trim_within (s : JsString) : trim s <:+: s := by
  obtain ⟨pre, post, -, -, h⟩ := exists_trim s
  exact ⟨pre, post, h.symm⟩

end Trim

section Hex

def hexDigit (u : UInt16) : Option ℕ :=
  let c := charOf u
  if '0' ≤ c ∧ c ≤ '9' then some (c.toNat - '0'.toNat)
  else if 'a' ≤ c ∧ c ≤ 'f' then some (c.toNat - 'a'.toNat + 10)
  else if 'A' ≤ c ∧ c ≤ 'F' then some (c.toNat - 'A'.toNat + 10)
  else none

/-- The sign of a numeral and what follows it. -/
def takeSign : JsString → ℤ × JsString
  | [] => (1, [])
  | u :: s => if u = unit '-' then (-1, s) else if u = unit '+' then (1, s) else (1, u :: s)

/-- A numeral without its base. -/
def dropBase : JsString → JsString
  | u :: v :: s => if u = unit '0' ∧ (v = unit 'x' ∨ v = unit 'X') then s else u :: v :: s
  | s => s

/-- `parseInt` in base 16: what follows the digits is ignored, without digits there is no
number. -/
def parseHex (s : JsString) : Option ℤ :=
  let (sign, numeral) := takeSign (s.dropWhile isSpace)
  let digits := ((dropBase numeral).map hexDigit).takeWhile Option.isSome
  if digits.length = 0 then none
  else some (sign * (digits.foldl (fun n digit => 16 * n + digit.getD 0) 0 : ℕ))

/-- The number that a byte array keeps; what is no number is kept as zero. -/
def toUint8 : Option ℤ → UInt8
  | none => 0
  | some n => UInt8.ofNat (n % 256).toNat

end Hex

section Base64

def isAsciiSpace (u : UInt16) : Bool := u == 9 || u == 10 || u == 12 || u == 13 || u == 32

/-- The string without one padding character at its end. -/
def dropPad (s : JsString) : JsString := if s.getLast? = some (unit '=') then s.dropLast else s

/-- The digits of a base64 string: without white space, and without one or two padding
characters at the end of a whole number of quads. -/
def digitsOf (s : JsString) : JsString :=
  let data := s.filter fun u => !isAsciiSpace u
  if data.length % 4 = 0 then dropPad (dropPad data) else data

/-- The string of bytes of a base64 string; bits that its last digit has in excess are
ignored. -/
def atob (s : JsString) : Option JsString :=
  (decodeQuads std false ((digitsOf s).map charOf)).map fun bytes => bytes.map UInt8.toUInt16

/-- The base64 string of a string of bytes; other strings have none. -/
def btoa (binary : JsString) : Option JsString :=
  if binary.all (· < 256) then some (js (encode std true (binary.map UInt16.toUInt8))) else none

end Base64

end Tactile.Lib.CodeUnits

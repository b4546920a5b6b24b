import Mathlib.Data.Nat.Bitwise
import Mathlib.Logic.Function.Iterate

/-!
Cyclic redundancy checks on a reflected shift register, and the table that feeds
eight bits at once.
-/

namespace Tactile.Lib.Crc

variable {w : ℕ}

/-- One bit out of the register, the lowest one first. -/
def shift (poly x : BitVec w) : BitVec w :=
  if x.getLsbD 0 then poly ^^^ (x >>> 1) else x >>> 1

/-- A byte into the register. -/
def feed (poly crc : BitVec w) (b : UInt8) : BitVec w :=
  (shift poly)^[8] (crc ^^^ b.toBitVec.setWidth w)

/-- The checksum of a byte string, bit by bit. -/
def checksum (poly init final : BitVec w) (data : List UInt8) : BitVec w :=
  data.foldl (feed poly) init ^^^ final

theorem shift_xor (poly x y : BitVec w) : shift poly (x ^^^ y) = shift poly x ^^^ shift poly y := by
  rw [shift, shift, shift, BitVec.getLsbD_xor, BitVec.ushiftRight_xor_distrib]
  cases x.getLsbD 0 with
  | false =>
      cases y.getLsbD 0 with
      | false => rfl
      | true =>
          change poly ^^^ ((x >>> 1) ^^^ (y >>> 1)) = (x >>> 1) ^^^ (poly ^^^ (y >>> 1))
          rw [← BitVec.xor_assoc, BitVec.xor_comm poly, BitVec.xor_assoc]
  | true =>
      cases y.getLsbD 0 with
      | false => exact (BitVec.xor_assoc poly _ _).symm
      | true =>
          change (x >>> 1) ^^^ (y >>> 1) = (poly ^^^ (x >>> 1)) ^^^ (poly ^^^ (y >>> 1))
          rw [BitVec.xor_comm poly (x >>> 1), BitVec.xor_assoc, ← BitVec.xor_assoc poly poly,
            BitVec.xor_self, BitVec.zero_xor]

theorem iterate_shift_xor (poly : BitVec w) (n : ℕ) (x y : BitVec w) :
    (shift poly)^[n] (x ^^^ y) = (shift poly)^[n] x ^^^ (shift poly)^[n] y := by
  induction n generalizing x y with
  | zero => rfl
  | succ n ih => rw [Function.iterate_succ_apply, shift_xor, ih]; rfl

/-- Low bits that are clear leave the register without a trace. -/
theorem iterate_shift_clear (poly : BitVec w) (n : ℕ) (x : BitVec w)
    (h : ∀ i < n, x.getLsbD i = false) : (shift poly)^[n] x = x >>> n := by
  induction n generalizing x with
  | zero => exact (BitVec.ushiftRight_zero x).symm
  | succ n ih =>
      have hfirst : shift poly x = x >>> 1 := by
        rw [shift, h 0 (Nat.succ_pos n)]
        rfl
      have hrest : ∀ i < n, (x >>> 1).getLsbD i = false := by
        intro i hi
        rw [BitVec.getLsbD_ushiftRight]
        exact h (1 + i) (by omega)
      rw [Function.iterate_succ_apply, hfirst, ih (x >>> 1) hrest, ← BitVec.shiftRight_add,
        Nat.add_comm]

/-- The register after `n` shifts, from its `n` low bits and the others apart. -/
theorem iterate_shift_split (poly : BitVec w) (n : ℕ) (x : BitVec w) :
    (shift poly)^[n] x =
      (shift poly)^[n] (x &&& BitVec.ofNat w (2 ^ n - 1)) ^^^ (x >>> n) := by
  have hmask : ∀ i, (BitVec.ofNat w (2 ^ n - 1)).getLsbD i = decide (i < w ∧ i < n) := by
    intro i
    rw [BitVec.getLsbD_ofNat, Nat.testBit_two_pow_sub_one, Bool.decide_and]
  have hsplit : x = (x &&& BitVec.ofNat w (2 ^ n - 1)) ^^^
      (x &&& ~~~BitVec.ofNat w (2 ^ n - 1)) := by
    apply BitVec.eq_of_getLsbD_eq
    intro i hi
    rw [BitVec.getLsbD_xor, BitVec.getLsbD_and, BitVec.getLsbD_and, BitVec.getLsbD_not, hmask]
    cases x.getLsbD i <;> simp [hi]
  have hclear : ∀ i < n, (x &&& ~~~BitVec.ofNat w (2 ^ n - 1)).getLsbD i = false := by
    intro i hi
    rw [BitVec.getLsbD_and, BitVec.getLsbD_not, hmask]
    simp [hi]
  have hhigh : (x &&& ~~~BitVec.ofNat w (2 ^ n - 1)) >>> n = x >>> n := by
    apply BitVec.eq_of_getLsbD_eq
    intro i hi
    rw [BitVec.getLsbD_ushiftRight, BitVec.getLsbD_ushiftRight, BitVec.getLsbD_and,
      BitVec.getLsbD_not, hmask]
    cases hbit : x.getLsbD (n + i) with
    | false => rfl
    | true => simp [BitVec.lt_of_getLsbD hbit]
  conv => lhs; rw [hsplit]
  rw [iterate_shift_xor, iterate_shift_clear poly n _ hclear, hhigh]

/-- A byte into the register, from a table of the shifted bytes. -/
theorem feed_table (poly crc : BitVec w) (b : UInt8) :
    feed poly crc b =
      (shift poly)^[8] ((crc ^^^ b.toBitVec.setWidth w) &&& BitVec.ofNat w 255) ^^^
        (crc >>> 8) := by
  have hgone : b.toBitVec.setWidth w >>> 8 = 0#w := by
    apply BitVec.eq_of_getLsbD_eq
    intro i hi
    rw [BitVec.getLsbD_ushiftRight, BitVec.getLsbD_setWidth,
      BitVec.getLsbD_of_ge b.toBitVec (8 + i) (by omega), Bool.and_false, BitVec.getLsbD_zero]
  rw [feed, iterate_shift_split, BitVec.ushiftRight_xor_distrib, hgone, BitVec.xor_zero]
  rfl

end Tactile.Lib.Crc

import Tactile.Relay.Sessions

/-!
The proof of work of an identity: leading zero bits as a bound on the value of a digest.
-/

namespace Tactile.Relay.ProofOfWork

open Tactile.Lib.ByteString
open Tactile.Relay.Blob Tactile.Relay.Sessions

/-- The value of bytes, the most significant one first. -/
def bigEndian : Bytes → ℕ
  | [] => 0
  | c :: b => c.toNat * 2 ^ (8 * b.length) + bigEndian b

def checkPoW (sha256 : Bytes → ByteArr 32) (challenge : Bytes) (pub : PubKey) (nonce : Bytes)
    (bits : ℤ) : Bool :=
  bits ≤ 0 ∨ (leadingZeroBits (sha256 (challenge ++ pub.val ++ nonce)).val : ℤ) ≥ bits

/-- The server checks with its own difficulty. -/
theorem WsServer.checkPoW_eq (srv : WsServer) (challenge : ByteArr 32) (pub : PubKey)
    (nonce : Bytes) :
    srv.checkPoW challenge pub nonce = checkPoW srv.sha256 challenge.val pub nonce srv.powBits :=
  rfl

section Value

theorem bigEndian_lt (b : Bytes) : bigEndian b < 2 ^ (8 * b.length) := by
  induction b with
  | nil => exact Nat.one_pos
  | cons c b ih =>
      have hbyte : c.toNat + 1 ≤ 2 ^ 8 := c.toNat_lt
      calc bigEndian (c :: b)
          = c.toNat * 2 ^ (8 * b.length) + bigEndian b := rfl
        _ < (c.toNat + 1) * 2 ^ (8 * b.length) := by
            rw [Nat.add_mul, Nat.one_mul]
            exact Nat.add_lt_add_left ih _
        _ ≤ 2 ^ 8 * 2 ^ (8 * b.length) := Nat.mul_le_mul_right _ hbyte
        _ = 2 ^ (8 * (c :: b).length) := by
            rw [← Nat.pow_add, List.length_cons, Nat.mul_succ, Nat.add_comm]

/-- A byte that is not zero lies between the powers of two at its highest bit. -/
theorem highest_bit {c : UInt8} (hc : c ≠ 0) :
    2 ^ (7 - leadingZeros8 c) ≤ c.toNat ∧ c.toNat < 2 ^ (8 - leadingZeros8 c) ∧
      leadingZeros8 c ≤ 7 := by
  have hne : c.toNat ≠ 0 := fun h => hc (UInt8.toNat_inj.mp h)
  have hlog : c.toNat.log2 ≤ 7 := Nat.lt_succ_iff.mp ((Nat.log2_lt hne).mpr c.toNat_lt)
  have hlow : 7 - leadingZeros8 c = c.toNat.log2 := by
    rw [leadingZeros8, if_neg hc]
    omega
  have hhigh : 8 - leadingZeros8 c = c.toNat.log2 + 1 := by
    rw [leadingZeros8, if_neg hc]
    omega
  refine ⟨?_, ?_, ?_⟩
  · rw [hlow]
    exact Nat.log2_self_le hne
  · rw [hhigh]
    exact Nat.lt_log2_self
  · rw [leadingZeros8, if_neg hc]
    exact Nat.sub_le _ _

theorem leadingZeroBits_le (b : Bytes) : leadingZeroBits b ≤ 8 * b.length := by
  induction b with
  | nil => exact le_refl 0
  | cons c b ih =>
      rw [leadingZeroBits, List.length_cons]
      split
      next => omega
      next hc =>
        have hbit := (highest_bit hc).2.2
        omega

/-- So many leading zero bits are there exactly if the value is below the power of two that
leaves them out. -/
theorem le_leadingZeroBits_iff {b : Bytes} {k : ℕ} (hk : k ≤ 8 * b.length) :
    k ≤ leadingZeroBits b ↔ bigEndian b < 2 ^ (8 * b.length - k) := by
  induction b generalizing k with
  | nil =>
      have hzero : k = 0 := Nat.le_zero.mp hk
      subst hzero
      exact ⟨fun _ => by decide, fun _ => le_refl 0⟩
  | cons c b ih =>
      rw [List.length_cons] at hk ⊢
      rw [leadingZeroBits, bigEndian]
      split
      next hc =>
        have hvalue : c.toNat * 2 ^ (8 * b.length) + bigEndian b = bigEndian b := by
          rw [hc]
          simp
        rw [hvalue]
        by_cases hfirst : k ≤ 8
        -- the zero byte alone has them
        · have hlt := bigEndian_lt b
          have hpow : 2 ^ (8 * b.length) ≤ 2 ^ (8 * (b.length + 1) - k) :=
            Nat.pow_le_pow_right (by decide) (by omega)
          exact ⟨fun _ => lt_of_lt_of_le hlt hpow, fun _ => by omega⟩
        · have hrest : 8 * (b.length + 1) - k = 8 * b.length - (k - 8) := by omega
          rw [hrest, ← ih (by omega)]
          omega
      next hc =>
        obtain ⟨hlow, hhigh, hbound⟩ := highest_bit hc
        have hrest := bigEndian_lt b
        constructor
        · intro hle
          have hbyte : c.toNat + 1 ≤ 2 ^ (8 - k) :=
            le_trans hhigh (Nat.pow_le_pow_right (by decide) (by omega))
          have hsplit : 8 * (b.length + 1) - k = (8 - k) + 8 * b.length := by omega
          calc c.toNat * 2 ^ (8 * b.length) + bigEndian b
              < c.toNat * 2 ^ (8 * b.length) + 2 ^ (8 * b.length) := by omega
            _ = (c.toNat + 1) * 2 ^ (8 * b.length) := by rw [Nat.add_mul, Nat.one_mul]
            _ ≤ 2 ^ (8 - k) * 2 ^ (8 * b.length) := Nat.mul_le_mul_right _ hbyte
            _ = 2 ^ (8 * (b.length + 1) - k) := by rw [hsplit, pow_add]
        · intro hlt
          by_contra hgt
          have hexp : 8 * (b.length + 1) - k ≤ (7 - leadingZeros8 c) + 8 * b.length := by omega
          have hvalue : 2 ^ (8 * (b.length + 1) - k) ≤ c.toNat * 2 ^ (8 * b.length) := by
            calc 2 ^ (8 * (b.length + 1) - k)
                ≤ 2 ^ ((7 - leadingZeros8 c) + 8 * b.length) :=
                  Nat.pow_le_pow_right (by decide) hexp
              _ = 2 ^ (7 - leadingZeros8 c) * 2 ^ (8 * b.length) := pow_add ..
              _ ≤ c.toNat * 2 ^ (8 * b.length) := Nat.mul_le_mul_right _ hlow
          omega

end Value

section Difficulty

variable (sha256 : Bytes → ByteArr 32) (challenge nonce : Bytes) (pub : PubKey)

theorem checkPoW_iff (bits : ℤ) :
    checkPoW sha256 challenge pub nonce bits = true ↔
      bits ≤ 0 ∨ bits ≤ 256 ∧
        bigEndian (sha256 (challenge ++ pub.val ++ nonce)).val < 2 ^ (256 - bits.toNat) := by
  have hlen : 8 * (sha256 (challenge ++ pub.val ++ nonce)).val.length = 256 := by
    rw [(sha256 _).property]
  have hle := leadingZeroBits_le (sha256 (challenge ++ pub.val ++ nonce)).val
  rw [checkPoW, decide_eq_true_eq, ge_iff_le]
  refine or_congr_right' fun hpos => ?_
  constructor
  · intro hbits
    have hsmall : bits.toNat ≤ 8 * (sha256 (challenge ++ pub.val ++ nonce)).val.length := by omega
    refine ⟨by omega, ?_⟩
    rw [← hlen, ← le_leadingZeroBits_iff hsmall]
    omega
  · rintro ⟨hbits, hlt⟩
    have hsmall : bits.toNat ≤ 8 * (sha256 (challenge ++ pub.val ++ nonce)).val.length := by omega
    rw [← hlen, ← le_leadingZeroBits_iff hsmall] at hlt
    omega

theorem checkPoW_mono {bits bits' : ℤ} (hle : bits ≤ bits')
    (h : checkPoW sha256 challenge pub nonce bits' = true) :
    checkPoW sha256 challenge pub nonce bits = true := by
  rw [checkPoW, decide_eq_true_eq] at h ⊢
  omega

end Difficulty

/-- Leading zero bits are a threshold on the value, and so the check of the work accepts the
digests under a target, fewer of them for more bits. -/
theorem work_is_threshold :
    (∀ (b : Bytes) (k : ℕ), k ≤ 8 * b.length →
      (k ≤ leadingZeroBits b ↔ bigEndian b < 2 ^ (8 * b.length - k))) ∧
    ∀ (sha256 : Bytes → ByteArr 32) (challenge : Bytes) (pub : PubKey) (nonce : Bytes),
      (∀ bits : ℤ, checkPoW sha256 challenge pub nonce bits = true ↔
        bits ≤ 0 ∨ bits ≤ 256 ∧
          bigEndian (sha256 (challenge ++ pub.val ++ nonce)).val < 2 ^ (256 - bits.toNat)) ∧
      ∀ bits bits' : ℤ, bits ≤ bits' → checkPoW sha256 challenge pub nonce bits' = true →
        checkPoW sha256 challenge pub nonce bits = true :=
  ⟨fun _ _ hk => le_leadingZeroBits_iff hk, fun sha256 challenge pub nonce =>
    ⟨checkPoW_iff sha256 challenge nonce pub, fun _ _ => checkPoW_mono sha256 challenge nonce pub⟩⟩

/-- Eleven zero bits, the last three of them inside the second byte. -/
theorem work_is_threshold_eleven :
    11 ≤ leadingZeroBits [0, 0x1F, 0xFF] ↔ bigEndian [0, 0x1F, 0xFF] < 2 ^ 13 :=
  work_is_threshold.1 [0, 0x1F, 0xFF] 11 (by decide)

end Tactile.Relay.ProofOfWork

import Tactile.Relay.Blob
import Mathlib.Data.List.Infix

/-!
The envelope of a blob as a format: what is written is read back, nothing
shorter is accepted, and what is accepted is what is written.
-/

namespace Tactile.Relay.Envelope

open Tactile.Lib.ByteString
open Tactile.Relay.Blob

section Bytes

theorem readLE_lt (bs : Bytes) : readLE bs < 256 ^ bs.length := by
  induction bs with
  | nil => exact Nat.one_pos
  | cons b bs ih =>
      have hb := b.toNat_lt
      rw [readLE, List.length_cons, Nat.pow_succ']
      omega

theorem putLE_readLE (bs : Bytes) : putLE bs.length (readLE bs) = bs := by
  induction bs with
  | nil => rfl
  | cons b bs ih =>
      have hb := b.toNat_lt
      have hlow : UInt8.ofNat (b.toNat + 256 * readLE bs) = b := by
        apply UInt8.toNat_inj.mp
        rw [UInt8.toNat_ofNat']
        omega
      have hhigh : (b.toNat + 256 * readLE bs) / 256 = readLE bs := by omega
      rw [List.length_cons, readLE, putLE, hlow, hhigh, ih]

/-- A slice is read and written back at its own width. -/
theorem putLE_slice {n : ℕ} (bs : ByteArr n) : putLE n (readLE bs.val) = bs.val := by
  have hbytes := putLE_readLE bs.val
  rw [bs.2] at hbytes
  exact hbytes

theorem slice_append (bs : Bytes) (start n : ℕ) (h : start + n ≤ bs.length) :
    bs.take start ++ (slice bs start n h).val = bs.take (start + n) := by
  rw [List.take_add]
  rfl

end Bytes

section Prefixes

variable {maxPayload : ℤ}

theorem unmarshal_short {file : Bytes} (h : file.length < headerSize) :
    unmarshal file maxPayload = .error .short := by
  have hshort : ¬ 148 ≤ file.length := Nat.not_le.mpr h
  rw [unmarshal, unmarshalHeader, dif_neg hshort]
  rfl

theorem unmarshal_overLimit {file : Bytes} {m : Meta} (hm : unmarshalHeader file = .ok m)
    (h : maxPayload < m.payloadN.toNat) :
    unmarshal file maxPayload = .error (.overLimit m.payloadN.toNat maxPayload) := by
  rw [unmarshal, hm]
  simp only [Except.bind, bind, if_pos h, throw, throwThe, MonadExceptOf.throw]

/-- A header whose payload is not all there is rejected. -/
theorem unmarshal_truncated {file : Bytes} {m : Meta} (hm : unmarshalHeader file = .ok m)
    (h : (file.drop headerSize).length < m.payloadN.toNat) :
    ∃ e, unmarshal file maxPayload = .error e := by
  by_cases hlimit : maxPayload < m.payloadN.toNat
  · exact ⟨_, unmarshal_overLimit hm hlimit⟩
  · refine ⟨.unexpectedEOF, ?_⟩
    rw [unmarshal, hm]
    simp only [Except.bind, bind, if_neg hlimit, if_pos h, throw, throwThe, MonadExceptOf.throw,
      pure, Except.pure]

theorem payloadN_metaOf {r : Record} (h : r.payload.length < 2 ^ 32) :
    (metaOf r).payloadN.toNat = r.payload.length := by
  have hmod : (metaOf r).payloadN.toNat = r.payload.length % 2 ^ 32 := UInt32.toNat_ofNat'
  rw [hmod, Nat.mod_eq_of_lt h]

theorem unmarshal_prefix {r : Record} (hlt : r.payload.length < 2 ^ 32) {bs : Bytes}
    (hpre : bs <+: marshal r) (hne : bs ≠ marshal r) :
    ∃ e, unmarshal bs maxPayload = .error e := by
  obtain ⟨rest, hrest⟩ := hpre
  by_cases hshort : bs.length < headerSize
  · exact ⟨_, unmarshal_short hshort⟩
  · -- the header is whole, so what is missing is missing of the payload
    obtain ⟨payload, rfl⟩ : header r <+: bs := by
      refine List.prefix_of_prefix_length_le (List.prefix_append _ r.payload) ⟨rest, hrest⟩ ?_
      rw [length_header]
      exact Nat.not_lt.mp hshort
    have hpayload : payload ++ rest = r.payload := by
      rw [List.append_assoc] at hrest
      exact List.append_cancel_left hrest
    have hrest_ne : rest ≠ [] := by
      rintro rfl
      exact hne (by rw [← hrest, List.append_nil])
    refine unmarshal_truncated (unmarshalHeader_append r payload) ?_
    rw [payloadN_metaOf hlt, ← length_header r, List.drop_left, ← hpayload, List.length_append]
    exact Nat.lt_add_of_pos_right (List.length_pos_iff.mpr hrest_ne)

end Prefixes

section Accepted

variable {maxPayload : ℤ} {file : Bytes}

/-- What an accepted file consists of. -/
theorem unmarshal_eq_ok {r : Record} (h : unmarshal file maxPayload = .ok r) :
    ∃ m, unmarshalHeader file = .ok m ∧ (m.payloadN.toNat : ℤ) ≤ maxPayload ∧
      m.payloadN.toNat ≤ (file.drop headerSize).length ∧
      r = { id := m.id, identity := m.identity, sig := m.sig, expiresAt := m.expiresAt
            payload := (file.drop headerSize).take m.payloadN.toNat } := by
  unfold unmarshal at h
  cases hm : unmarshalHeader file with
  | error e =>
      rw [hm] at h
      cases h
  | ok m =>
      rw [hm] at h
      simp only [Except.bind, bind, throw, throwThe, MonadExceptOf.throw, pure, Except.pure] at h
      split at h
      next => cases h
      next hlimit =>
        split at h
        next => cases h
        next hlength =>
          cases h
          exact ⟨m, rfl, Int.not_lt.mp hlimit, Nat.not_lt.mp hlength, rfl⟩

theorem unmarshalHeader_eq_ok {m : Meta} (h : unmarshalHeader file = .ok m) :
    148 ≤ file.length ∧ file.take 4 = magic ∧ (∀ _ : 4 < file.length, file[4] = version) ∧
      ∀ h8 h16 h20 h52 h84, m = {
        expiresAt := (UInt64.ofNat (readLE (slice file 8 8 h8).val)).toInt64
        payloadN := UInt32.ofNat (readLE (slice file 16 4 h16).val)
        identity := slice file 20 32 h20
        id := slice file 52 32 h52
        sig := slice file 84 64 h84 } := by
  unfold unmarshalHeader at h
  split at h
  next hlen =>
    split at h
    next => cases h
    next hmagic =>
      split at h
      next => cases h
      next hversion =>
        cases h
        exact ⟨hlen, not_not.mp hmagic, fun _ => not_not.mp hversion, fun _ _ _ _ _ => rfl⟩
  next => cases h

/-- The header that is written for an accepted file is the file's own, when its
flags and its reserved bytes are zero. -/
theorem header_unmarshal {r : Record} (h : unmarshal file maxPayload = .ok r)
    (hzero : (file.drop 5).take 3 = [0, 0, 0]) : header r = file.take headerSize := by
  obtain ⟨m, hm, -, hlength, rfl⟩ := unmarshal_eq_ok h
  obtain ⟨hlen, hmagic, hversion, hfields⟩ := unmarshalHeader_eq_ok hm
  obtain rfl := hfields (Nat.le_trans (by decide) hlen) (Nat.le_trans (by decide) hlen)
    (Nat.le_trans (by decide) hlen) (Nat.le_trans (by decide) hlen) hlen
  have hexpires : putLE 8
      (UInt64.ofNat (readLE (slice file 8 8 (by omega)).val)).toInt64.toUInt64.toNat =
      (slice file 8 8 (by omega)).val := by
    have hlt := readLE_lt (slice file 8 8 (by omega)).val
    rw [(slice file 8 8 (by omega)).2] at hlt
    have hback : (UInt64.ofNat (readLE (slice file 8 8 (by omega)).val)).toInt64.toUInt64.toNat =
        readLE (slice file 8 8 (by omega)).val := UInt64.toNat_ofNat_of_lt' hlt
    rw [hback, putLE_slice]
  have hpayloadN : putLE 4 (UInt32.ofNat ((file.drop headerSize).take
      (UInt32.ofNat (readLE (slice file 16 4 (by omega)).val)).toNat).length).toNat =
      (slice file 16 4 (by omega)).val := by
    have hlt := readLE_lt (slice file 16 4 (by omega)).val
    rw [(slice file 16 4 (by omega)).2] at hlt
    have hback : (UInt32.ofNat (readLE (slice file 16 4 (by omega)).val)).toNat =
        readLE (slice file 16 4 (by omega)).val := UInt32.toNat_ofNat_of_lt' hlt
    rw [List.length_take, Nat.min_eq_left hlength, UInt32.ofNat_toNat, hback, putLE_slice]
  have hstart : magic ++ [version, 0, 0, 0] = file.take 8 := by
    have hdrop : file.drop 4 = file[4] :: file.drop 5 := List.drop_eq_getElem_cons (by omega)
    have htake : file.take (4 + 4) = file.take 4 ++ (file.drop 4).take 4 := List.take_add
    change _ = file.take (4 + 4)
    rw [htake, hmagic, hdrop, List.take_succ_cons, hzero, hversion]
  unfold header
  dsimp only
  rw [hstart, hexpires, hpayloadN]
  calc
    _ = file.take 16 ++ (slice file 16 4 (by omega)).val ++ (slice file 20 32 (by omega)).val ++
          (slice file 52 32 (by omega)).val ++ (slice file 84 64 (by omega)).val := by
        rw [slice_append file 8 8]
    _ = file.take 20 ++ (slice file 20 32 (by omega)).val ++ (slice file 52 32 (by omega)).val ++
          (slice file 84 64 (by omega)).val := by rw [slice_append file 16 4]
    _ = file.take 52 ++ (slice file 52 32 (by omega)).val ++ (slice file 84 64 (by omega)).val := by
        rw [slice_append file 20 32]
    _ = file.take 84 ++ (slice file 84 64 (by omega)).val := by rw [slice_append file 52 32]
    _ = file.take 148 := by rw [slice_append file 84 64]

/-- An accepted file is read up to what is written for its record. -/
theorem marshal_unmarshal {r : Record} (h : unmarshal file maxPayload = .ok r)
    (hzero : (file.drop 5).take 3 = [0, 0, 0]) :
    marshal r = file.take (headerSize + r.payload.length) := by
  obtain ⟨m, -, -, hlength, hr⟩ := unmarshal_eq_ok h
  have hpayload : r.payload = (file.drop headerSize).take r.payload.length := by
    rw [hr]
    dsimp only
    rw [List.length_take, Nat.min_eq_left hlength]
  rw [marshal, header_unmarshal h hzero, List.take_add, ← hpayload]

end Accepted

/-- The envelope round-trips: for a limit that fits the header's length field,
records within it are read back, no strict prefix and no longer payload is
accepted, and an accepted file with zero flags and reserved bytes begins with
what is written for its record. -/
theorem envelope_roundtrips (maxPayload : ℤ) (hmax : maxPayload < 2 ^ 32) :
    (∀ r : Record, (r.payload.length : ℤ) ≤ maxPayload →
      unmarshal (marshal r) maxPayload = .ok r ∧
      (∃ m, unmarshalHeader (marshal r) = .ok m ∧ m.id = r.id ∧ m.identity = r.identity ∧
        m.sig = r.sig ∧ m.expiresAt = r.expiresAt ∧ m.payloadN.toNat = r.payload.length) ∧
      ((marshal r).length : ℤ) = r.size ∧
      ∀ bs, bs <+: marshal r → bs ≠ marshal r → ∃ e, unmarshal bs maxPayload = .error e) ∧
    (∀ file m, unmarshalHeader file = .ok m → maxPayload < m.payloadN.toNat →
      unmarshal file maxPayload = .error (.overLimit m.payloadN.toNat maxPayload)) ∧
    (∀ r : Record, maxPayload < r.payload.length → r.payload.length < 2 ^ 32 →
      unmarshal (marshal r) maxPayload = .error (.overLimit r.payload.length maxPayload)) ∧
    ∀ file r, unmarshal file maxPayload = .ok r →
      (r.payload.length : ℤ) ≤ maxPayload ∧
      ((file.drop 5).take 3 = [0, 0, 0] →
        marshal r = file.take (headerSize + r.payload.length)) := by
  refine ⟨fun r hfits => ?_, fun file m hm h => unmarshal_overLimit hm h, fun r h hlt => ?_,
    fun file r h => ⟨?_, marshal_unmarshal h⟩⟩
  · have hlt : r.payload.length < 2 ^ 32 := by omega
    exact ⟨unmarshal_marshal_of_lt r maxPayload hfits hlt,
      ⟨metaOf r, unmarshalHeader_marshal r, rfl, rfl, rfl, rfl, payloadN_metaOf hlt⟩,
      length_marshal r, fun bs => unmarshal_prefix hlt⟩
  · have hover : maxPayload < (metaOf r).payloadN.toNat → unmarshal (marshal r) maxPayload =
        .error (.overLimit (metaOf r).payloadN.toNat maxPayload) :=
      unmarshal_overLimit (unmarshalHeader_marshal r)
    rw [payloadN_metaOf hlt] at hover
    exact hover h
  · obtain ⟨m, -, hlimit, hlength, rfl⟩ := unmarshal_eq_ok h
    dsimp only
    rw [List.length_take, Nat.min_eq_left hlength]
    exact hlimit

theorem envelope_roundtrips_zero : unmarshal (marshal (zeroRecord [7, 8])) 64 = .ok (zeroRecord [7, 8]) :=
  ((envelope_roundtrips 64 (by decide)).1 (zeroRecord [7, 8]) (by decide)).1

end Tactile.Relay.Envelope

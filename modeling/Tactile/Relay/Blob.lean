import Tactile.Lib.ByteString

/-!
The relay's stored record and its on-disk form.
-/

namespace Tactile.Relay.Blob

open Tactile.Lib.ByteString

/-- An Ed25519 public key, which is the whole identity. -/
abbrev PubKey : Type := ByteArr 32

/-- An Ed25519 signature. -/
abbrev Sig : Type := ByteArr 64

/-- The identity's addressable form, the SHA-256 digest of the public key. -/
abbrev IdentityID : Type := ByteArr 32

abbrev BlobID : Type := ByteArr 32

/-- Failures of the file system and of the object service. -/
inductive Errno
  | notExist
  | other (code : ℕ)
  deriving DecidableEq, Repr

/-- Errors of blob parsing and of the stores. -/
inductive Err
  | badMagic
  | badVersion
  | short
  | badID
  | exists
  | notFound
  | expired
  | overLimit (payloadN : ℕ) (maxPayload : ℤ)
  | unexpectedEOF
  | quotaExceeded
  | storageFull
  | io (e : Errno)
  deriving DecidableEq, Repr

def headerSize : ℕ := 148

/-- The bytes of `"TBLB"`. -/
def magic : Bytes := [84, 66, 76, 66]

def version : UInt8 := 1

/-- A stored blob with its verified envelope. -/
structure Record where
  id : BlobID
  identity : PubKey
  payload : Bytes
  sig : Sig
  expiresAt : Int64
  deriving DecidableEq

/-- The on-disk size. -/
def Record.size (r : Record) : ℤ := headerSize + r.payload.length

/-- The header of a record: magic, version, flags and reserved, expiry, payload
length, identity, id and signature. -/
def header (r : Record) : Bytes :=
  magic ++ [version, 0, 0, 0] ++ putLE 8 r.expiresAt.toUInt64.toNat ++
    putLE 4 (UInt32.ofNat r.payload.length).toNat ++ r.identity.val ++ r.id.val ++ r.sig.val

/-- The on-disk form of a record. -/
def marshal (r : Record) : Bytes := header r ++ r.payload

/-- A parsed header without the payload. -/
structure Meta where
  id : BlobID
  identity : PubKey
  sig : Sig
  expiresAt : Int64
  payloadN : UInt32
  deriving DecidableEq

/-- Parses a header from the front of a file. -/
def unmarshalHeader (file : Bytes) : Except Err Meta :=
  if h : 148 ≤ file.length then
    if file.take 4 ≠ magic then .error .badMagic
    else if file[4] ≠ version then .error .badVersion
    else .ok {
      expiresAt := (UInt64.ofNat (readLE (slice file 8 8 (by omega)).val)).toInt64
      payloadN := UInt32.ofNat (readLE (slice file 16 4 (by omega)).val)
      identity := slice file 20 32 (by omega)
      id := slice file 52 32 (by omega)
      sig := slice file 84 64 (by omega) }
  else .error .short

/-- Reads a full record; a header that advertises more than `maxPayload` is
rejected before the payload is read. -/
def unmarshal (file : Bytes) (maxPayload : ℤ) : Except Err Record := do
  let m ← unmarshalHeader file
  if (m.payloadN.toNat : ℤ) > maxPayload then
    throw (.overLimit m.payloadN.toNat maxPayload)
  let rest := file.drop headerSize
  if rest.length < m.payloadN.toNat then
    throw .unexpectedEOF
  return {
    id := m.id, identity := m.identity, sig := m.sig, expiresAt := m.expiresAt
    payload := rest.take m.payloadN.toNat }

@[simp] theorem length_header (r : Record) : (header r).length = headerSize := by
  simp [header, magic, headerSize, r.identity.2, r.id.2, r.sig.2]

theorem length_marshal (r : Record) : ((marshal r).length : ℤ) = r.size := by
  rw [marshal, List.length_append, length_header, Record.size]
  push_cast
  rfl

/-- The part of a file behind a prefix of known length. -/
private theorem slice_val {file : Bytes} (pre mid post : Bytes) {start n : ℕ}
    (h : start + n ≤ file.length) (hfile : file = pre ++ (mid ++ post))
    (hpre : pre.length = start) (hmid : mid.length = n) :
    (slice file start n h).val = mid := by
  subst hfile hpre hmid
  simp [slice]

/-- What the header of a marshalled record says: the payload length is the
record's, in 32 bits. -/
def metaOf (r : Record) : Meta where
  id := r.id
  identity := r.identity
  sig := r.sig
  expiresAt := r.expiresAt
  payloadN := UInt32.ofNat r.payload.length

theorem unmarshalHeader_append (r : Record) (rest : Bytes) :
    unmarshalHeader (header r ++ rest) = .ok (metaOf r) := by
  have hlen : 148 ≤ (header r ++ rest).length := by
    rw [List.length_append, length_header]
    exact Nat.le_add_right _ _
  have hmagic : (header r ++ rest).take 4 = magic := rfl
  have hversion : (header r ++ rest)[4] = version := rfl
  let start := magic ++ [version, 0, 0, 0]
  let expires := putLE 8 r.expiresAt.toUInt64.toNat
  let payloadN := putLE 4 (UInt32.ofNat r.payload.length).toNat
  have hexpires : (slice (header r ++ rest) 8 8 (by omega)).val = expires :=
    slice_val start expires (payloadN ++ r.identity.val ++ r.id.val ++ r.sig.val ++ rest) _
      (by simp [header, start, expires, payloadN]) rfl (length_putLE _ _)
  have hpayloadN : (slice (header r ++ rest) 16 4 (by omega)).val = payloadN :=
    slice_val (start ++ expires) payloadN (r.identity.val ++ r.id.val ++ r.sig.val ++ rest) _
      (by simp [header, start, expires, payloadN])
      (by simp [start, expires, magic]) (length_putLE _ _)
  have hidentity : slice (header r ++ rest) 20 32 (by omega) = r.identity :=
    Subtype.ext <| slice_val (start ++ expires ++ payloadN) r.identity.val
      (r.id.val ++ r.sig.val ++ rest) _
      (by simp [header, start, expires, payloadN])
      (by simp [start, expires, payloadN, magic]) r.identity.2
  have hid : slice (header r ++ rest) 52 32 (by omega) = r.id :=
    Subtype.ext <| slice_val (start ++ expires ++ payloadN ++ r.identity.val) r.id.val
      (r.sig.val ++ rest) _
      (by simp [header, start, expires, payloadN])
      (by simp [start, expires, payloadN, magic, r.identity.2]) r.id.2
  have hsig : slice (header r ++ rest) 84 64 (by omega) = r.sig :=
    Subtype.ext <| slice_val (start ++ expires ++ payloadN ++ r.identity.val ++ r.id.val) r.sig.val
      rest _
      (by simp [header, start, expires, payloadN])
      (by simp [start, expires, payloadN, magic, r.identity.2, r.id.2]) r.sig.2
  have hexpires64 : UInt64.ofNat (readLE expires) = r.expiresAt.toUInt64 := by
    have hlt := r.expiresAt.toUInt64.toNat_lt
    rw [readLE_putLE, Nat.mod_eq_of_lt (by omega), UInt64.ofNat_toNat]
  have hpayloadN32 : UInt32.ofNat (readLE payloadN) = UInt32.ofNat r.payload.length := by
    have hlt := (UInt32.ofNat r.payload.length).toNat_lt
    rw [readLE_putLE, Nat.mod_eq_of_lt (by omega), UInt32.ofNat_toNat]
  simp only [unmarshalHeader, hlen, hmagic, hversion, hexpires, hpayloadN, hidentity, hid, hsig,
    hexpires64, hpayloadN32, metaOf, ne_eq, not_true_eq_false, if_false, dif_pos]
  rfl

theorem unmarshalHeader_marshal (r : Record) : unmarshalHeader (marshal r) = .ok (metaOf r) :=
  unmarshalHeader_append r r.payload

/-- Reading a marshalled record gives back the record with the part of the
payload that its 32-bit length covers. -/
theorem unmarshal_marshal (r : Record) (maxPayload : ℤ)
    (hfits : (r.payload.length : ℤ) ≤ maxPayload) :
    unmarshal (marshal r) maxPayload =
      .ok { r with payload := r.payload.take (r.payload.length % 2 ^ 32) } := by
  have hmod : (UInt32.ofNat r.payload.length).toNat = r.payload.length % 2 ^ 32 :=
    UInt32.toNat_ofNat'
  have hle : r.payload.length % 2 ^ 32 ≤ r.payload.length := Nat.mod_le _ _
  have hrest : (marshal r).drop headerSize = r.payload := by
    rw [marshal, ← length_header r, List.drop_left]
  have hlimit : ¬ ((r.payload.length % 2 ^ 32 : ℕ) : ℤ) > maxPayload := by omega
  have hshort : ¬ r.payload.length < r.payload.length % 2 ^ 32 := by omega
  rw [unmarshal, unmarshalHeader_marshal]
  simp only [metaOf, hmod, hrest, Except.bind, bind, if_neg hlimit, if_neg hshort, pure,
    Except.pure]

/-- A payload whose length fits the header's 32 bits is read back whole. -/
theorem unmarshal_marshal_of_lt (r : Record) (maxPayload : ℤ)
    (hfits : (r.payload.length : ℤ) ≤ maxPayload) (hlt : r.payload.length < 2 ^ 32) :
    unmarshal (marshal r) maxPayload = .ok r := by
  rw [unmarshal_marshal r maxPayload hfits, Nat.mod_eq_of_lt hlt, List.take_length]

/-- The all-zero public key. -/
def zeroKey : PubKey := ⟨List.replicate 32 0, length_zeros32⟩

/-- The SHA-256 digest of the all-zero key, for every key. -/
def zeroDigest : PubKey → IdentityID := fun _ =>
  ⟨[0x66, 0x68, 0x7a, 0xad, 0xf8, 0x62, 0xbd, 0x77, 0x6c, 0x8f, 0xc1, 0x8b, 0x8e, 0x9f, 0x8e,
    0x20, 0x08, 0x97, 0x14, 0x85, 0x6e, 0xe2, 0x33, 0xb3, 0x90, 0x2a, 0x59, 0x1d, 0x0d, 0x5f,
    0x29, 0x25], rfl⟩

/-- A record of the all-zero identity, expiring at time 1. -/
def zeroRecord (payload : Bytes) : Record where
  id := ⟨List.replicate 32 0, length_zeros32⟩
  identity := zeroKey
  payload := payload
  sig := ⟨List.replicate 64 0, length_zeros64⟩
  expiresAt := 1

end Tactile.Relay.Blob

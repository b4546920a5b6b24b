import Tactile.Lib.Text
import Tactile.Relay.Blob

/-!
The byte strings that relay clients sign, and that none of them is a message of
two operations.
-/

namespace Tactile.Relay.Signing

open Tactile.Lib.ByteString Tactile.Lib.Text
open Tactile.Relay.Blob

def domainAuth : Bytes := ascii "tactile-relay/auth/v1".toList

def domainBlob : Bytes := ascii "tactile-relay/blob/v1".toList

def domainDel : Bytes := ascii "tactile-relay/del/v1".toList

def domainREST : Bytes := ascii "tactile-relay/rest/v1".toList

/-- The message of a connection's `auth`. -/
def authMessage (challenge : ByteArr 32) (pub : PubKey) : Bytes :=
  domainAuth ++ challenge.val ++ pub.val

/-- `SigMessage`: the message of a put. -/
def sigMessage (id : BlobID) (ttlSeconds : Int64) (payload : Bytes) : Bytes :=
  domainBlob ++ id.val ++ putLE 8 ttlSeconds.toUInt64.toNat ++ payload

/-- `DelSigMessage`: the message of a delete. -/
def delSigMessage (id : BlobID) : Bytes := domainDel ++ id.val

/-- The message of `checkFreshSig`. -/
def restMessage (method : List Char) (id : Bytes) (ts : ℤ) : Bytes :=
  domainREST ++ ascii method ++ id ++ ascii (decimal ts)

/-- The operations that are signed, with what they are signed for. -/
inductive Signed
  | auth (challenge : ByteArr 32) (pub : PubKey)
  | put (id : BlobID) (ttlSeconds : Int64) (payload : Bytes)
  | delete (id : BlobID)
  | get (id : BlobID) (ts : ℤ)
  | head (id : BlobID) (ts : ℤ)
  | list (ts : ℤ)

def Signed.message : Signed → Bytes
  | .auth challenge pub => authMessage challenge pub
  | .put id ttlSeconds payload => sigMessage id ttlSeconds payload
  | .delete id => delSigMessage id
  | .get id ts => restMessage "GET".toList id.val ts
  | .head id ts => restMessage "HEAD".toList id.val ts
  | .list ts => restMessage "LIST".toList [] ts

section Kinds

/-- An operation without its arguments. -/
inductive Kind
  | auth
  | put
  | delete
  | get
  | head
  | list
  deriving DecidableEq

def Signed.kind : Signed → Kind
  | .auth .. => .auth
  | .put .. => .put
  | .delete .. => .delete
  | .get .. => .get
  | .head .. => .head
  | .list .. => .list

/-- The bytes behind `tactile-relay/`, which differ between the domains, and at
the start of the method, behind the REST domain. -/
def Kind.tag : Kind → UInt8 × Option UInt8
  | .auth => (97, none)
  | .put => (98, none)
  | .delete => (100, none)
  | .get => (114, some 71)
  | .head => (114, some 72)
  | .list => (114, some 76)

/-- The tag that a message carries. -/
def tagOf (message : Bytes) : Option (UInt8 × Option UInt8) := do
  let domainByte ← message[14]?
  if domainByte = 114 then
    let methodByte ← message[21]?
    return (domainByte, some methodByte)
  else return (domainByte, none)

theorem tagOf_message (s : Signed) : tagOf s.message = some s.kind.tag := by
  cases s <;> rfl

theorem Kind.tag_injective : Function.Injective Kind.tag := by
  intro k k' h
  cases k <;> cases k' <;> first | rfl | cases h

theorem kind_of_message {s t : Signed} (h : s.message = t.message) : s.kind = t.kind := by
  have htag := tagOf_message s
  rw [h, tagOf_message t] at htag
  exact Kind.tag_injective (Option.some.inj htag).symm

end Kinds

section Fields

theorem byteArr_append_inj {n : ℕ} {x y : ByteArr n} {xs ys : Bytes}
    (h : x.val ++ xs = y.val ++ ys) : x = y ∧ xs = ys := by
  obtain ⟨hhead, htail⟩ := List.append_inj h (x.2.trans y.2.symm)
  exact ⟨Subtype.ext hhead, htail⟩

theorem putLE_int64_inj {a b : Int64}
    (h : putLE 8 a.toUInt64.toNat = putLE 8 b.toUInt64.toNat) : a = b := by
  have hread := congrArg readLE h
  have ha := a.toUInt64.toNat_lt
  have hb := b.toUInt64.toNat_lt
  rw [readLE_putLE, readLE_putLE, Nat.mod_eq_of_lt (by omega), Nat.mod_eq_of_lt (by omega)] at hread
  have hbits : a.toUInt64 = b.toUInt64 := UInt64.toNat_inj.mp hread
  cases a
  cases b
  exact congrArg Int64.ofUInt64 hbits

theorem authMessage_inj {c c' : ByteArr 32} {pub pub' : PubKey}
    (h : authMessage c pub = authMessage c' pub') : c = c' ∧ pub = pub' := by
  rw [authMessage, authMessage, List.append_assoc, List.append_assoc] at h
  obtain ⟨hc, hpub⟩ := byteArr_append_inj (List.append_cancel_left h)
  exact ⟨hc, Subtype.ext hpub⟩

theorem sigMessage_inj {id id' : BlobID} {ttl ttl' : Int64} {payload payload' : Bytes}
    (h : sigMessage id ttl payload = sigMessage id' ttl' payload') :
    id = id' ∧ ttl = ttl' ∧ payload = payload' := by
  simp only [sigMessage, List.append_assoc] at h
  obtain ⟨hid, hrest⟩ := byteArr_append_inj (List.append_cancel_left h)
  obtain ⟨httl, hpayload⟩ := List.append_inj hrest (by rw [length_putLE, length_putLE])
  exact ⟨hid, putLE_int64_inj httl, hpayload⟩

theorem delSigMessage_inj {id id' : BlobID} (h : delSigMessage id = delSigMessage id') : id = id' :=
  Subtype.ext (List.append_cancel_left h)

/-- Within one method, whose ids all have one length. -/
theorem restMessage_inj {method : List Char} {id id' : Bytes} {ts ts' : ℤ}
    (hlen : id.length = id'.length) (h : restMessage method id ts = restMessage method id' ts') :
    id = id' ∧ ts = ts' := by
  simp only [restMessage, List.append_assoc] at h
  obtain ⟨hid, hts⟩ := List.append_inj (List.append_cancel_left (List.append_cancel_left h)) hlen
  exact ⟨hid, ascii_decimal_inj hts⟩

end Fields

/-- A signed byte string is the message of one operation with one choice of
arguments. -/
theorem signed_message_injective : Function.Injective Signed.message := by
  intro s t h
  have hkind := kind_of_message h
  cases s with
  | auth challenge pub =>
      cases t with
      | auth challenge' pub' =>
          obtain ⟨rfl, rfl⟩ := authMessage_inj h
          rfl
      | _ => cases hkind
  | put id ttl payload =>
      cases t with
      | put id' ttl' payload' =>
          obtain ⟨rfl, rfl, rfl⟩ := sigMessage_inj h
          rfl
      | _ => cases hkind
  | delete id =>
      cases t with
      | delete id' =>
          obtain rfl := delSigMessage_inj h
          rfl
      | _ => cases hkind
  | get id ts =>
      cases t with
      | get id' ts' =>
          obtain ⟨hid, rfl⟩ := restMessage_inj (id.2.trans id'.2.symm) h
          rw [Subtype.ext hid]
      | _ => cases hkind
  | head id ts =>
      cases t with
      | head id' ts' =>
          obtain ⟨hid, rfl⟩ := restMessage_inj (id.2.trans id'.2.symm) h
          rw [Subtype.ext hid]
      | _ => cases hkind
  | list ts =>
      cases t with
      | list ts' =>
          obtain ⟨-, rfl⟩ := restMessage_inj rfl h
          rfl
      | _ => cases hkind

end Tactile.Relay.Signing

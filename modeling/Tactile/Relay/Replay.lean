import Tactile.Relay.Rest

/-!
Replayed REST requests: what is rejected once the time window of a signature has
passed, and the delete that is not.
-/

namespace Tactile.Relay.Replay

open Tactile.Lib.Program Tactile.Lib.FiniteMap Tactile.Lib.Transition Tactile.Lib.ByteString
open Tactile.Lib.Text Tactile.Lib.Base64
open Tactile.Relay.Blob Tactile.Relay.Oracle Tactile.Relay.Ranges Tactile.Relay.Signing
open Tactile.Relay.Rest

section Decoding

theorem sized_some {n : ℕ} (bs : ByteArr n) : sized n (some bs.val) = some bs := dif_pos bs.2

theorem decodePubKey_b64 (pub : PubKey) : decodePubKey (b64 pub.val) = some pub := by
  rw [decodePubKey, b64, decode_encode, sized_some]

theorem decodeSig_b64 (sig : Sig) : decodeSig (b64 sig.val) = some sig := by
  rw [decodeSig, b64, decode_encode, sized_some]

theorem decodeBlobID_b64 (id : BlobID) : decodeBlobID (b64 id.val) = some id := by
  rw [decodeBlobID, b64, decode_encode, sized_some]

theorem decodeBlobIDURL_encode (id : BlobID) :
    decodeBlobIDURL (encode url false id.val) = some id := by
  rw [decodeBlobIDURL, decode_encode]
  exact sized_some id

/-- The value of a numeral without a sign. -/
theorem parseInt_digits (n : ℕ) :
    parseInt (Nat.toDigits 10 n) = if (n : ℤ) < 2 ^ 63 then some (n : ℤ) else none := by
  have hall : ∀ c ∈ Nat.toDigits 10 n, c.isDigit = true := fun _ => isDigit_of_mem_digits
  have hne : Nat.toDigits 10 n ≠ [] := Nat.toDigits_ne_nil
  have hvalue : decimalValue (Nat.toDigits 10 n) = n := Nat.ofDigitChars_ten_toDigits
  generalize Nat.toDigits 10 n = s at hall hne hvalue
  cases s with
  | nil => exact absurd rfl hne
  | cons c cs =>
      have hc := hall c List.mem_cons_self
      have hplus : c ≠ '+' := fun h => by
        rw [h] at hc
        cases hc
      have hminus : c ≠ '-' := fun h => by
        rw [h] at hc
        cases hc
      have hhead : (c :: cs).head? ≠ some '-' := fun h => hminus (Option.some.inj h)
      unfold parseInt
      split
      next h => exact absurd (List.cons.inj h).1 hplus
      next h => exact absurd (List.cons.inj h).1 hminus
      next =>
        dsimp only
        rw [List.all_eq_true.mpr hall, if_neg (by simp), if_neg hhead, hvalue]

/-- `strconv.ParseInt` reads the numerals of the 64-bit integers. -/
theorem parseInt_decimal (z : ℤ) :
    parseInt (decimal z) = if -2 ^ 63 ≤ z ∧ z < 2 ^ 63 then some z else none := by
  cases z with
  | ofNat n =>
      change parseInt (decimal n) = _
      rw [decimal_natCast, parseInt_digits]
      have hnonneg : -2 ^ 63 ≤ Int.ofNat n := by
        have := Int.natCast_nonneg n
        change -2 ^ 63 ≤ (n : ℤ)
        omega
      simp only [hnonneg, true_and]
      rfl
  | negSucc n =>
      have hall : (Nat.toDigits 10 (n + 1)).all Char.isDigit = true :=
        List.all_eq_true.mpr fun _ => isDigit_of_mem_digits
      have hne : Nat.toDigits 10 (n + 1) ≠ [] := Nat.toDigits_ne_nil
      have hvalue : decimalValue (Nat.toDigits 10 (n + 1)) = n + 1 := Nat.ofDigitChars_ten_toDigits
      have hneg : -((n + 1 : ℕ) : ℤ) = Int.negSucc n := rfl
      rw [decimal_negSucc]
      change (if Nat.toDigits 10 (n + 1) = [] ∨ (!(Nat.toDigits 10 (n + 1)).all Char.isDigit) = true
        then none
        else if some '-' = some '-' then
          if (decimalValue (Nat.toDigits 10 (n + 1)) : ℤ) ≤ 2 ^ 63 then
            some (-(decimalValue (Nat.toDigits 10 (n + 1)) : ℤ)) else none
        else _) = _
      rw [hall, if_neg (by simp [hne]), if_pos rfl, hvalue, hneg]
      have hlt : Int.negSucc n < 2 ^ 63 := by omega
      by_cases hle : -2 ^ 63 ≤ Int.negSucc n
      · rw [if_pos (by omega), if_pos ⟨hle, hlt⟩]
      · rw [if_neg (by omega), if_neg fun h => hle h.1]

end Decoding

section Statement

/-- A client's key. -/
structure Signer where
  pub : PubKey
  sign : Bytes → Sig

/-- The relay's check accepts what the key signs. -/
def Signer.Honest (key : Signer) (srv : Server) : Prop :=
  ∀ msg, srv.verify key.pub msg (key.sign msg) = true

/-- The requests that read and the one that deletes. -/
inductive Query
  | get
  | head
  | list
  | delete
  deriving DecidableEq

def Query.method : Query → Method
  | .get => .get
  | .head => .head
  | .list => .list
  | .delete => .delete

/-- What a client signs for a request at a time. -/
def Query.signed (id : BlobID) (t : ℤ) : Query → Signed
  | .get => .get id t
  | .head => .head id t
  | .list => .list t
  | .delete => .delete id

/-- A request that a client has signed at a time: its identity, its id where it
has one, its signature and, where that covers one, its timestamp. -/
structure SignedAt (key : Signer) (query : Query) (id : BlobID) (t : ℤ) (q : RestRequest) :
    Prop where
  identity : q.identity = b64 key.pub.val
  pathID : query ≠ .list → q.pathID = encode url false id.val
  timestamp : query ≠ .delete → q.timestamp = decimal t
  signature : q.signature = b64 (key.sign (query.signed id t).message).val

/-- A request and its answer, or whatever else happens to the store: the calls of
the WebSocket handlers, sweeps, restarts. -/
inductive RelayEvent
  | request (method : Method) (q : RestRequest) (arr : Arrival) (res : Response)
  | other

inductive RelayStep (srv : Server) : Model srv.idOf → RelayEvent → Model srv.idOf → Prop
  | request {m m' : Model srv.idOf} {method : Method} {q : RestRequest} {arr : Arrival}
      {res : Response} :
      Exec Serves m (srv.handle method q arr) res m' →
      RelayStep srv m (.request method q arr res) m'
  | other (m m' : Model srv.idOf) : RelayStep srv m .other m'

/-- Whatever the answer to a request in a state is, it is an error and the store
stays as it is. -/
def Rejected (srv : Server) (m : Model srv.idOf) (method : Method) (q : RestRequest)
    (arr : Arrival) : Prop :=
  ∀ res m', RelayStep srv m (.request method q arr res) m' → 400 ≤ res.status ∧ m' = m

/-- The request gets past the user agents, the rate limit and the allowlist. -/
def Admitted (srv : Server) (key : Signer) (q : RestRequest) (arr : Arrival) : Prop :=
  srv.checkUA q.userAgent = true ∧ arr.limited = false ∧ srv.allowIdentity key.pub = true

end Statement

section Refusals

/-- A check ends with an error. -/
def Refuses {α : Type} (c : Except Response α) : Prop := ∃ res, c = .error res ∧ 400 ≤ res.status

/-- A check that refuses what does not pass it. -/
def Strict {α : Type} (c : Except Response α) : Prop := ∀ res, c = .error res → 400 ≤ res.status

theorem Refuses.error {α : Type} {res : Response} (h : 400 ≤ res.status) :
    Refuses (.error res : Except Response α) := ⟨res, rfl, h⟩

theorem Refuses.bind {α β : Type} {c : Except Response α} (f : α → Except Response β)
    (h : Refuses c) : Refuses (c >>= f) := by
  obtain ⟨res, rfl, hstatus⟩ := h
  exact ⟨res, rfl, hstatus⟩

theorem Strict.bind {α β : Type} {c : Except Response α} {f : α → Except Response β} (h : Strict c)
    (hf : ∀ a, c = .ok a → Refuses (f a)) : Refuses (c >>= f) := by
  cases hc : c with
  | error res => exact ⟨res, rfl, h res hc⟩
  | ok a => exact hf a hc

variable {srv : Server} {q : RestRequest} {arr : Arrival}

theorem checkCaller_strict {limited : Response} (h : 400 ≤ limited.status) :
    Strict (srv.checkCaller q arr limited) := by
  intro res hres
  unfold Server.checkCaller at hres
  split at hres
  next =>
    cases hres
    decide
  next =>
    split at hres
    next =>
      cases hres
      exact h
    next => cases hres

theorem restIdentity_strict : Strict (srv.restIdentity q) := by
  intro res hres
  unfold Server.restIdentity at hres
  split at hres
  next =>
    cases hres
    decide
  next =>
    split at hres
    next =>
      cases hres
      decide
    next => cases hres

theorem freshMessage_outside {t clock : ℤ} (ht : q.timestamp = decimal t)
    (hout : clock < t - restTimeWindow ∨ t + restTimeWindow < clock) (method : ClientIP.Text)
    (id : Bytes) : ∃ message, freshMessage q method id clock = .error message := by
  unfold freshMessage
  rw [ht, parseInt_decimal]
  split
  next => exact ⟨_, rfl⟩
  next ts hts =>
    split at hts
    next =>
      cases hts
      rw [if_pos (by omega)]
      exact ⟨_, rfl⟩
    next => cases hts

/-- A timestamp outside the window fails the check, whatever the signature. -/
theorem checkFreshSig_outside (srv : Server) {t clock : ℤ} (ht : q.timestamp = decimal t)
    (hout : clock < t - restTimeWindow ∨ t + restTimeWindow < clock) (pub : PubKey)
    (method : ClientIP.Text) (id : Bytes) :
    ∃ message, srv.checkFreshSig q pub method id clock = .error message := by
  obtain ⟨message, hmessage⟩ := freshMessage_outside ht hout method id
  refine ⟨message, ?_⟩
  unfold Server.checkFreshSig
  rw [hmessage]
  rfl

theorem blobLookup_outside {t clock : ℤ} (ht : q.timestamp = decimal t)
    (hout : clock < t - restTimeWindow ∨ t + restTimeWindow < clock) (method : ClientIP.Text) :
    Refuses (srv.blobLookup q method clock) := by
  unfold Server.blobLookup
  refine restIdentity_strict.bind fun pub _ => ?_
  split
  next => exact .error (by decide)
  next id _ =>
    obtain ⟨message, hmessage⟩ := checkFreshSig_outside srv ht hout pub method id.val
    rw [hmessage]
    exact .error (Nat.le_add_right 400 3)

/-- A handler whose check refuses a request makes no call. -/
theorem rejected_of_pure {m : Model srv.idOf} {method : Method} (res : Response)
    (hpure : srv.handle method q arr = pure res) (hstatus : 400 ≤ res.status) :
    Rejected srv m method q arr := by
  rintro res' m' (hexec : RelayStep srv m _ m')
  cases hexec with
  | request hexec =>
      rw [hpure] at hexec
      cases hexec
      exact ⟨hstatus, rfl⟩

/-- Outside the window a read that is signed for a time is rejected. -/
theorem read_rejected {key : Signer} {query : Query} {id : BlobID} {t : ℤ} {m : Model srv.idOf}
    (hq : SignedAt key query id t q) (hquery : query ≠ .delete)
    (hout : arr.clock < t - restTimeWindow ∨ t + restTimeWindow < arr.clock) :
    Rejected srv m query.method q arr := by
  have ht := hq.timestamp hquery
  cases query with
  | get =>
      obtain ⟨res, hres, hstatus⟩ : Refuses (srv.checkGet q arr) :=
        (checkCaller_strict (by decide)).bind fun _ _ => blobLookup_outside ht hout _
      refine rejected_of_pure res ?_ hstatus
      change srv.handleGet q arr = _
      rw [Server.handleGet, hres]
  | head =>
      obtain ⟨res, hres, hstatus⟩ : Refuses (srv.checkHead q arr) :=
        (checkCaller_strict (by decide)).bind fun _ _ => blobLookup_outside ht hout _
      refine rejected_of_pure res ?_ hstatus
      change srv.handleHead q arr = _
      rw [Server.handleHead, hres]
  | list =>
      obtain ⟨res, hres, hstatus⟩ : Refuses (srv.checkList q arr) := by
        refine (checkCaller_strict (by decide)).bind fun _ _ => restIdentity_strict.bind fun pub _ => ?_
        obtain ⟨message, hmessage⟩ :=
          checkFreshSig_outside srv ht hout pub "LIST".toList []
        rw [hmessage]
        exact .error (Nat.le_add_right 400 3)
      refine rejected_of_pure res ?_ hstatus
      change srv.handleList q arr = _
      rw [Server.handleList, hres]
  | delete => exact absurd rfl hquery

end Refusals

section Deletes

variable {srv : Server} {key : Signer} {q : RestRequest} {arr : Arrival} {id : BlobID} {t : ℤ}

theorem restIdentity_signed {query : Query} (hq : SignedAt key query id t q) :
    srv.restIdentity q =
      if ¬ srv.allowIdentity key.pub then .error (.error 403 "not_allowed" "identity not allowed")
      else .ok key.pub := by
  rw [Server.restIdentity, hq.identity, decodePubKey_b64]

/-- An honest delete passes the checks when it is admitted, and only then. -/
theorem checkDelete_signed (hkey : key.Honest srv) (hq : SignedAt key .delete id t q)
    (arr : Arrival) :
    (Admitted srv key q arr → srv.checkDelete q arr = .ok (key.pub, id)) ∧
    (¬ Admitted srv key q arr → Refuses (srv.checkDelete q arr)) := by
  constructor
  · rintro ⟨hua, hlimited, hallowed⟩
    have hcaller : srv.checkCaller q arr rateLimited = .ok () := by
      rw [Server.checkCaller, if_neg (not_not_intro hua), hlimited]
      rfl
    have hverify : srv.verify key.pub (delSigMessage id) (key.sign (delSigMessage id)) = true :=
      hkey _
    have hsig : decodeSig q.signature = some (key.sign (delSigMessage id)) := by
      rw [hq.signature, decodeSig_b64]
      rfl
    rw [Server.checkDelete, hcaller, restIdentity_signed hq, if_neg (not_not_intro hallowed)]
    dsimp only [bind, Except.bind]
    rw [hq.pathID (by decide), decodeBlobIDURL_encode, hsig]
    exact if_neg (not_not_intro hverify)
  · intro hnot
    unfold Server.checkDelete
    by_cases hua : srv.checkUA q.userAgent = true
    · by_cases hlimited : arr.limited = true
      · refine Refuses.bind _ ?_
        rw [Server.checkCaller, if_neg (not_not_intro hua), if_pos hlimited]
        exact .error (by decide)
      · refine (checkCaller_strict (by decide)).bind fun _ _ => Refuses.bind _ ?_
        have hallowed : ¬ srv.allowIdentity key.pub = true := fun h =>
          hnot ⟨hua, by simpa using hlimited, h⟩
        rw [restIdentity_signed hq, if_pos hallowed]
        exact .error (by decide)
    · refine Refuses.bind _ ?_
      rw [Server.checkCaller, if_pos hua]
      exact .error (by decide)

/-- A delete that passes the checks removes the blob. -/
theorem handleDelete_removes {m : Model srv.idOf} (hcheck : srv.checkDelete q arr = .ok (key.pub, id))
    (hheld : (m.held.lookup (srv.idOf key.pub, id)).isSome = true) :
    RelayStep srv m (.request .delete q arr (.bare 204)) (m.erase (srv.idOf key.pub, id)) := by
  have hdelete : m.delete (srv.idOf key.pub, id) = (.ok (), m.erase (srv.idOf key.pub, id)) :=
    if_pos hheld
  have hserves := Serves.delete m key.pub id
  rw [hdelete] at hserves
  refine .request ?_
  change Exec Serves m (srv.handleDelete q arr) _ _
  rw [Server.handleDelete, hcheck]
  exact .step hserves (.step (.publish _ _ _ _) (.refl _ _))

/-- A delete of what is not held has no effect. -/
theorem delete_rejected {m : Model srv.idOf} (hcheck : srv.checkDelete q arr = .ok (key.pub, id))
    (hheld : m.held.lookup (srv.idOf key.pub, id) = none) : Rejected srv m .delete q arr := by
  have hdelete : m.delete (srv.idOf key.pub, id) = (.error .notFound, m) := by
    rw [Model.delete, hheld]
    rfl
  have hholds : Holds Serves (fun _ _ => True) (fun (res : Response) m' => 400 ≤ res.status ∧ m' = m)
      (srv.handleDelete q arr) m := by
    rw [Server.handleDelete, hcheck]
    refine ⟨trivial, fun ans m' hserves => ?_⟩
    cases hserves with
    | delete =>
        rw [hdelete]
        exact ⟨Nat.le_add_right 400 4, rfl⟩
    | deleteFailed => exact ⟨Nat.le_add_right 400 4, rfl⟩
  rintro res m' hstep
  cases hstep with
  | request hexec => exact hholds.exec hexec

end Deletes

/-- In every state that a run of the relay reaches, a request signed for a time and
replayed outside the window is rejected without effect exactly when it is no
delete, or one that is turned away, or one of a blob that is not held. -/
theorem replay_rejected_iff {srv : Server} {key : Signer} (hkey : key.Honest srv)
    {m₀ m : Model srv.idOf} {es : List RelayEvent} (_ : Runs (RelayStep srv) m₀ es m)
    {query : Query} {id : BlobID} {t : ℤ} {q : RestRequest} {arr : Arrival}
    (hq : SignedAt key query id t q)
    (hout : arr.clock < t - restTimeWindow ∨ t + restTimeWindow < arr.clock) :
    Rejected srv m query.method q arr ↔
      (query = .delete → ¬ Admitted srv key q arr ∨
        m.held.lookup (srv.idOf key.pub, id) = none) := by
  constructor
  · rintro hrejected rfl
    by_contra hnot
    obtain ⟨hadmitted, hheld⟩ := not_or.mp hnot
    have hcheck := (checkDelete_signed hkey hq arr).1 (not_not.mp hadmitted)
    have hremoved := handleDelete_removes hcheck (Option.isSome_iff_ne_none.mpr hheld)
    exact absurd (hrejected _ _ hremoved).1 (by decide)
  · intro hcond
    by_cases hquery : query = .delete
    · subst hquery
      by_cases hadmitted : Admitted srv key q arr
      · rcases hcond rfl with hnot | hheld
        · exact absurd hadmitted hnot
        · exact delete_rejected ((checkDelete_signed hkey hq arr).1 hadmitted) hheld
      · obtain ⟨res, hres, hstatus⟩ := (checkDelete_signed hkey hq arr).2 hadmitted
        refine rejected_of_pure res ?_ hstatus
        change srv.handleDelete q arr = _
        rw [Server.handleDelete, hres]
    · exact read_rejected hq hquery hout

section Example

/-- A put that passes the checks stores its record where none is held. -/
theorem handlePut_stores {srv : Server} {q : RestRequest} {arr : Arrival} {f : PutFields}
    {m : Model srv.idOf} (hcheck : srv.checkPut q arr = .ok f)
    (hfree : m.held.lookup (srv.idOf f.pub, f.id) = none) :
    RelayStep srv m
      (.request .put q arr (.putOK (b64 f.id.val) (srv.putRecord f arr.now).expiresAt))
      (m.insert (srv.putRecord f arr.now)) := by
  have hput : m.put (srv.putRecord f arr.now) = (.ok (), m.insert (srv.putRecord f arr.now)) := by
    have hkey : m.held.lookup (keyOf srv.idOf (srv.putRecord f arr.now)) = none := hfree
    rw [Model.put, hkey]
    rfl
  have hserves := Serves.put m (srv.putRecord f arr.now) srv.identityQuota srv.maxStorage
  rw [hput] at hserves
  refine .request ?_
  change Exec Serves m (srv.handlePut q arr) _ _
  rw [Server.handlePut, hcheck]
  exact .step hserves (.step (.publish _ _ _ _) (.refl _ _))

def zeroSig : Sig := ⟨List.replicate 64 0, length_zeros64⟩

def zeroID : BlobID := ⟨List.replicate 32 0, length_zeros32⟩

/-- The all-zero key, which signs everything with zeros. -/
def zeroSigner : Signer := ⟨zeroKey, fun _ => zeroSig⟩

def openServer : Server where
  uaPrefixes := []
  allowPublic := true
  allowed := []
  maxBlobSize := 64
  minTTL := 3600
  maxTTL := 31536000
  identityQuota := 1024
  maxStorage := 4096
  idOf := zeroDigest
  verify := fun pub _ sig => pub = zeroKey ∧ sig = zeroSig

def blankRequest : RestRequest where
  userAgent := []
  identity := b64 zeroKey.val
  blobID := []
  ttl := []
  timestamp := []
  signature := b64 zeroSig.val
  accept := []
  range := []
  ifNoneMatch := []
  pathID := encode url false zeroID.val
  raw := false
  body := []

def putRequest : RestRequest :=
  { blankRequest with blobID := b64 zeroID.val, ttl := "3600".toList, body := [7] }

/-- An arrival at a time. -/
def arrivalAt (now : Int64) : Arrival := ⟨false, now.toInt, now, now⟩

theorem zeroSigner_honest : zeroSigner.Honest openServer := fun _ =>
  decide_eq_true (p := zeroKey = zeroKey ∧ zeroSig = zeroSig) ⟨rfl, rfl⟩

theorem blankRequest_signedAt (t : ℤ) : SignedAt zeroSigner .delete zeroID t blankRequest where
  identity := rfl
  pathID := fun _ => rfl
  timestamp := fun h => absurd rfl h
  signature := rfl

/-- What a put of the example brings. -/
def putFields : PutFields := ⟨zeroKey, zeroID, 3600, zeroSig, [7]⟩

theorem checkPut_putRequest (now : Int64) :
    openServer.checkPut putRequest (arrivalAt now) = .ok putFields := by
  have hcheck : openServer.checkPut putRequest ⟨false, 0, 0, 0⟩ = .ok putFields := by
    decide +kernel
  exact hcheck

theorem replay_rejected_iff_empty :
    Rejected openServer Model.empty .delete blankRequest (arrivalAt 1000) ↔
      (Query.delete = .delete →
        ¬ Admitted openServer zeroSigner blankRequest (arrivalAt 1000) ∨
          (Model.empty : Model openServer.idOf).held.lookup
            (openServer.idOf zeroSigner.pub, zeroID) = none) :=
  replay_rejected_iff zeroSigner_honest (.nil Model.empty) (blankRequest_signedAt 0)
    (.inr (by decide))

/-- A delete signed at time 0 removes the blob, which is stored again; replayed
1000 seconds later it removes the blob once more. -/
theorem replayed_delete_removes :
    ∃ (m m' : Model openServer.idOf) (expiresAt expiresAt' : Int64),
      Runs (RelayStep openServer) Model.empty
        [.request .put putRequest (arrivalAt 0) (.putOK (b64 zeroID.val) expiresAt),
          .request .delete blankRequest (arrivalAt 0) (.bare 204),
          .request .put putRequest (arrivalAt 10) (.putOK (b64 zeroID.val) expiresAt')] m ∧
      SignedAt zeroSigner .delete zeroID 0 blankRequest ∧
      RelayStep openServer m (.request .delete blankRequest (arrivalAt 1000) (.bare 204)) m' ∧
      (m.held.lookup (zeroDigest zeroKey, zeroID)).isSome = true ∧
      m'.held.lookup (zeroDigest zeroKey, zeroID) = none ∧
      ¬ Rejected openServer m .delete blankRequest (arrivalAt 1000) := by
  let k : Key := (openServer.idOf zeroSigner.pub, zeroID)
  let m₁ := (Model.empty : Model openServer.idOf).insert (openServer.putRecord putFields 0)
  let m₃ := (m₁.erase k).insert (openServer.putRecord putFields 10)
  have hcheck : ∀ now, openServer.checkDelete blankRequest (arrivalAt now) =
      .ok (zeroSigner.pub, zeroID) := fun now =>
    (checkDelete_signed zeroSigner_honest (blankRequest_signedAt 0) (arrivalAt now)).1
      ⟨rfl, rfl, rfl⟩
  have hput := handlePut_stores (m := Model.empty) (checkPut_putRequest 0) (AList.lookup_empty k)
  have hdelete := handleDelete_removes (m := m₁) (hcheck 0) (by
    change (m₁.held.lookup k).isSome = true
    exact congrArg Option.isSome (AList.lookup_insert _))
  have hfree : (m₁.erase k).held.lookup k = none := by
    rw [Model.erase, lookup_erase_eq, if_pos rfl]
  have hagain := handlePut_stores (m := m₁.erase k) (checkPut_putRequest 10) hfree
  have hheld : (m₃.held.lookup k).isSome = true :=
    congrArg Option.isSome (AList.lookup_insert _)
  have hreplay := handleDelete_removes (m := m₃) (hcheck 1000) hheld
  refine ⟨m₃, _, _, _, .cons hput (.cons hdelete (.single hagain)), blankRequest_signedAt 0,
    hreplay, hheld, ?_, fun hrejected => ?_⟩
  · change ((m₃.erase k).held.lookup k) = none
    rw [Model.erase, lookup_erase_eq, if_pos rfl]
  · exact absurd (hrejected _ _ hreplay).1 (by decide)

end Example

end Tactile.Relay.Replay

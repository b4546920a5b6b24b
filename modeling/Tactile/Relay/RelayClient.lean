import Tactile.Lib.JsNumber
import Tactile.Relay.Replay

/-!
The requests of the TypeScript relay client, and that the relay verifies the
bytes that the client signs.
-/

namespace Tactile.Relay.RelayClient

open Tactile.Lib.ByteString Tactile.Lib.Text Tactile.Lib.Base64 Tactile.Lib.JsNumber
open Tactile.Relay.Blob Tactile.Relay.Signing Tactile.Relay.Rest Tactile.Relay.Replay
open Tactile.Relay.ClientIP (Text)
open Tactile.Relay.Ranges (parseInt)

section Encoding

/-- `btoa` of the bytes; the chunks in which they are turned to characters leave
no trace. -/
def bytesToBase64 (bytes : Bytes) : Text := encode std true bytes

/-- `replaceAll` of one character by another. -/
def replaceAll (old new : Char) (text : Text) : Text :=
  text.map fun c => if c = old then new else c

def bytesToBase64Url (bytes : Bytes) : Text :=
  stripPadding (replaceAll '/' '_' (replaceAll '+' '-' (bytesToBase64 bytes)))

def utf8ToBytes (text : Text) : Bytes := ascii text

/-- `BigInt` of the number in 64 bits, little-endian. -/
def int64LE (value : ℤ) : Bytes := putLE 8 (value % 2 ^ 64).toNat

def concatBytes (parts : List Bytes) : Bytes := parts.flatten

end Encoding

section Client

def clientDomainBlob : Bytes := utf8ToBytes "tactile-relay/blob/v1".toList

def clientDomainDel : Bytes := utf8ToBytes "tactile-relay/del/v1".toList

def clientDomainREST : Bytes := utf8ToBytes "tactile-relay/rest/v1".toList

/-- What the client signs, and the request that it sends. -/
structure Sent where
  message : Bytes
  request : RestRequest

/-- The headers that a browser adds. -/
def emptyRequest (userAgent : Text) : RestRequest where
  userAgent := userAgent
  identity := []
  blobID := []
  ttl := []
  timestamp := []
  signature := []
  accept := "*/*".toList
  range := []
  ifNoneMatch := []
  pathID := []
  raw := false
  body := []

variable (key : Signer) (userAgent : Text)

/-- The seconds of a `Date.now()`. -/
def seconds (dateNow : ℤ) : ℤ := dateNow / 1000

/-- A request with `freshSigHeaders`. -/
def freshSigRequest (dateNow : ℤ) (method : Text) (id : Bytes) : Sent :=
  let ts := numberText (seconds dateNow)
  let message := concatBytes [clientDomainREST, utf8ToBytes method, id, utf8ToBytes ts]
  { message
    request := { emptyRequest userAgent with
      identity := bytesToBase64 key.pub.val
      timestamp := ts
      signature := bytesToBase64 (key.sign message).val } }

/-- `RelayClient.put`. -/
def put (id : BlobID) (payload : Bytes) (ttlSeconds : ℤ) : Sent :=
  let message := concatBytes [clientDomainBlob, id.val, int64LE ttlSeconds, payload]
  { message
    request := { emptyRequest userAgent with
      identity := bytesToBase64 key.pub.val
      blobID := bytesToBase64 id.val
      ttl := numberText ttlSeconds
      signature := bytesToBase64 (key.sign message).val
      body := payload } }

/-- `RelayClient.get`. -/
def get (dateNow : ℤ) (id : BlobID) : Sent :=
  let sent := freshSigRequest key userAgent dateNow "GET".toList id.val
  { sent with request := { sent.request with pathID := bytesToBase64Url id.val } }

/-- `RelayClient.list`. -/
def list (dateNow : ℤ) : Sent := freshSigRequest key userAgent dateNow "LIST".toList []

/-- `RelayClient.remove`. -/
def remove (id : BlobID) : Sent :=
  let message := concatBytes [clientDomainDel, id.val]
  { message
    request := { emptyRequest userAgent with
      identity := bytesToBase64 key.pub.val
      signature := bytesToBase64 (key.sign message).val
      pathID := bytesToBase64Url id.val } }

end Client

section Bytes

theorem bytesToBase64Url_eq (bytes : Bytes) : bytesToBase64Url bytes = encode url false bytes := by
  have hmap : replaceAll '/' '_' (replaceAll '+' '-' (bytesToBase64 bytes)) =
      (encode std true bytes).map toUrl := by
    rw [replaceAll, replaceAll, List.map_map, bytesToBase64]
    apply List.map_congr_left
    intro c _
    change (if (if c = '+' then '-' else c) = '/' then '_' else if c = '+' then '-' else c) = toUrl c
    unfold toUrl
    by_cases hplus : c = '+'
    · rw [if_pos hplus, if_pos hplus]
      rfl
    · rw [if_neg hplus, if_neg hplus]
  rw [bytesToBase64Url, hmap, stripPadding_toUrl]

theorem int64LE_eq (value : ℤ) : int64LE value = putLE 8 (Int64.ofInt value).toUInt64.toNat := by
  have hbits : (Int64.ofInt value).toUInt64.toNat = (value % 2 ^ 64).toNat :=
    BitVec.toNat_ofInt value
  rw [int64LE, hbits]

theorem put_message (key : Signer) (userAgent : Text) (id : BlobID) (payload : Bytes)
    (ttlSeconds : ℤ) :
    (put key userAgent id payload ttlSeconds).message =
      sigMessage id (Int64.ofInt ttlSeconds) payload := by
  change clientDomainBlob ++ (id.val ++ (int64LE ttlSeconds ++ (payload ++ []))) = _
  rw [int64LE_eq, List.append_nil, sigMessage, List.append_assoc, List.append_assoc]
  rfl

theorem remove_message (key : Signer) (userAgent : Text) (id : BlobID) :
    (remove key userAgent id).message = delSigMessage id := by
  change clientDomainDel ++ (id.val ++ []) = _
  rw [List.append_nil]
  rfl

/-- `Date.now()` is a time value. -/
def IsTimeValue (dateNow : ℤ) : Prop := dateNow.natAbs ≤ 8640000000000000

theorem natAbs_seconds {dateNow : ℤ} (h : IsTimeValue dateNow) :
    (seconds dateNow).natAbs < 2 ^ 53 := by
  unfold IsTimeValue at h
  unfold seconds
  omega

theorem freshSigRequest_message (key : Signer) (userAgent : Text) {dateNow : ℤ}
    (h : IsTimeValue dateNow) (method : Text) (id : Bytes) :
    (freshSigRequest key userAgent dateNow method id).message =
      restMessage method id (seconds dateNow) := by
  change clientDomainREST ++ (utf8ToBytes method ++ (id ++
    (utf8ToBytes (numberText (seconds dateNow)) ++ []))) = _
  rw [List.append_nil, numberText_of_lt (natAbs_seconds h), restMessage, List.append_assoc,
    List.append_assoc]
  rfl

end Bytes

section Verdicts

/-- What comes of a request that is well formed, from the relay's limits and its
signature check. -/
def verdict {α : Type} (srv : Server) (pub : PubKey) (userAgent : Text) (arr : Arrival)
    (tooLarge signed : Bool) (target : α) : Except Response α :=
  if ¬ srv.checkUA userAgent then .error (.error 403 "forbidden" "user-agent not allowed")
  else if arr.limited then .error rateLimited
  else if ¬ srv.allowIdentity pub then .error (.error 403 "not_allowed" "identity not allowed")
  else if tooLarge then .error (.error 413 "too_large" "payload over max_blob_size")
  else if ¬ signed then .error (badSignature "signature check failed")
  else .ok target

/-- A handler's check of a request that the client has sent: the signature is
checked over the bytes that the client signed, and an honest one passes. -/
structure Verified {α : Type} (srv : Server) (key : Signer) (userAgent : Text) (arr : Arrival)
    (check : RestRequest → Arrival → Except Response α) (sent : Sent) (tooLarge : Bool)
    (target : α) : Prop where
  bytes : check sent.request arr =
    verdict srv key.pub userAgent arr tooLarge
      (srv.verify key.pub sent.message (key.sign sent.message)) target
  passes : key.Honest srv →
    check sent.request arr = verdict srv key.pub userAgent arr tooLarge true target

variable {srv : Server} {key : Signer} {userAgent : Text} {arr : Arrival}

theorem Verified.of_bytes {α : Type} {check : RestRequest → Arrival → Except Response α}
    {sent : Sent} {tooLarge : Bool} {target : α}
    (h : check sent.request arr = verdict srv key.pub userAgent arr tooLarge
      (srv.verify key.pub sent.message (key.sign sent.message)) target) :
    Verified srv key userAgent arr check sent tooLarge target where
  bytes := h
  passes := fun hkey => by rw [h, hkey]

/-- What every handler does before it looks at more than the identity. -/
theorem admit_restIdentity {α : Type} (key : Signer) (userAgent : Text) {q : RestRequest}
    (hagent : q.userAgent = userAgent)
    (hidentity : q.identity = b64 key.pub.val) (f : PubKey → Except Response α) :
    (do
      srv.checkCaller q arr rateLimited
      let pub ← srv.restIdentity q
      f pub) =
    if ¬ srv.checkUA userAgent then .error (.error 403 "forbidden" "user-agent not allowed")
    else if arr.limited then .error rateLimited
    else if ¬ srv.allowIdentity key.pub then
      .error (.error 403 "not_allowed" "identity not allowed")
    else f key.pub := by
  have hpub : srv.restIdentity q =
      if ¬ srv.allowIdentity key.pub then .error (.error 403 "not_allowed" "identity not allowed")
      else .ok key.pub := by
    rw [Server.restIdentity, hidentity, decodePubKey_b64]
  rw [Server.checkCaller, hagent, hpub]
  by_cases hua : srv.checkUA userAgent = true
  · rw [if_neg (not_not_intro hua), if_neg (not_not_intro hua)]
    by_cases hlimited : arr.limited = true
    · rw [if_pos hlimited, if_pos hlimited]
      rfl
    · rw [if_neg hlimited, if_neg hlimited]
      by_cases hallowed : srv.allowIdentity key.pub = true
      · rw [if_neg (not_not_intro hallowed), if_neg (not_not_intro hallowed)]
        rfl
      · rw [if_pos hallowed, if_pos hallowed]
        rfl
  · rw [if_pos hua, if_pos hua]
    rfl

/-- The two clocks differ by no more than the window. -/
def Timely (arr : Arrival) (dateNow : ℤ) : Prop :=
  arr.clock - restTimeWindow ≤ seconds dateNow ∧ seconds dateNow ≤ arr.clock + restTimeWindow

theorem checkFreshSig_sent (userAgent : Text) {q : RestRequest} {dateNow : ℤ} (hdate : IsTimeValue dateNow)
    (hwindow : Timely arr dateNow) {method : Text} {id : Bytes}
    (hts : q.timestamp = numberText (seconds dateNow))
    (hsig : q.signature =
      b64 (key.sign (freshSigRequest key userAgent dateNow method id).message).val) :
    srv.checkFreshSig q key.pub method id arr.clock =
      if ¬ srv.verify key.pub (freshSigRequest key userAgent dateNow method id).message
        (key.sign (freshSigRequest key userAgent dateNow method id).message)
      then .error "signature check failed" else .ok () := by
  have hlt := natAbs_seconds hdate
  have hparse : parseInt q.timestamp = some (seconds dateNow) := by
    rw [hts, numberText_of_lt hlt, parseInt_decimal, if_pos (by omega)]
  have hfresh : freshMessage q method id arr.clock =
      .ok ((freshSigRequest key userAgent dateNow method id).message,
        key.sign (freshSigRequest key userAgent dateNow method id).message) := by
    unfold freshMessage
    rw [hparse]
    dsimp only
    rw [if_neg (by have := hwindow.1; have := hwindow.2; omega), hsig, decodeSig_b64]
    dsimp only
    rw [freshSigRequest_message key userAgent hdate]
  unfold Server.checkFreshSig
  rw [hfresh]
  rfl

theorem checkPut_sent (id : BlobID) (payload : Bytes) {ttlSeconds : ℤ}
    (httl : ttlSeconds.natAbs < 2 ^ 53) :
    Verified srv key userAgent arr srv.checkPut (put key userAgent id payload ttlSeconds)
      (payload = [] ∨ (payload.length : ℤ) > srv.maxBlobSize)
      ⟨key.pub, id, Int64.ofInt ttlSeconds,
        key.sign (put key userAgent id payload ttlSeconds).message, payload⟩ := by
  have hparse : parseInt (numberText ttlSeconds) = some ttlSeconds := by
    rw [numberText_of_lt httl, parseInt_decimal, if_pos (by omega)]
  have hid : decodeBlobID (put key userAgent id payload ttlSeconds).request.blobID = some id :=
    decodeBlobID_b64 id
  have hsig : decodeSig (put key userAgent id payload ttlSeconds).request.signature =
      some (key.sign (put key userAgent id payload ttlSeconds).message) := decodeSig_b64 _
  refine .of_bytes ?_
  unfold Server.checkPut verdict
  rw [admit_restIdentity key userAgent rfl rfl, hid]
  dsimp only
  rw [show (put key userAgent id payload ttlSeconds).request.ttl = numberText ttlSeconds from rfl,
    hparse]
  dsimp only
  rw [hsig]
  dsimp only
  rw [← put_message key userAgent]
  simp only [decide_eq_true_eq]
  rfl

/-- A failed timestamp check is answered, a passed one goes on to the target. -/
theorem match_checkFreshSig {α : Type} {srv : Server} {arr : Arrival} {pub : PubKey}
    {userAgent : Text} {signed : Bool} {target : α} :
    (if ¬ srv.checkUA userAgent then
      (.error (.error 403 "forbidden" "user-agent not allowed") : Except Response α)
    else if arr.limited then .error rateLimited
    else if ¬ srv.allowIdentity pub then .error (.error 403 "not_allowed" "identity not allowed")
    else
      match (if ¬ signed then .error "signature check failed" else .ok () : Except String Unit) with
      | .error message => .error (badSignature message)
      | .ok () => .ok target) =
    verdict srv pub userAgent arr false signed target := by
  unfold verdict
  cases signed <;> rfl

theorem checkGet_sent (id : BlobID) {dateNow : ℤ} (hdate : IsTimeValue dateNow)
    (hwindow : Timely arr dateNow) :
    Verified srv key userAgent arr srv.checkGet (get key userAgent dateNow id) false
      (key.pub, id) := by
  have hid : decodeBlobIDURL (get key userAgent dateNow id).request.pathID = some id := by
    change decodeBlobIDURL (bytesToBase64Url id.val) = some id
    rw [bytesToBase64Url_eq, decodeBlobIDURL_encode]
  refine .of_bytes ?_
  unfold Server.checkGet Server.blobLookup verdict
  rw [admit_restIdentity key userAgent rfl rfl, hid]
  dsimp only
  rw [checkFreshSig_sent userAgent hdate hwindow rfl rfl]
  exact match_checkFreshSig

theorem checkList_sent {dateNow : ℤ} (hdate : IsTimeValue dateNow) (hwindow : Timely arr dateNow) :
    Verified srv key userAgent arr srv.checkList (list key userAgent dateNow) false key.pub := by
  refine .of_bytes ?_
  unfold Server.checkList verdict
  rw [admit_restIdentity key userAgent rfl rfl,
    checkFreshSig_sent userAgent hdate hwindow rfl rfl]
  exact match_checkFreshSig

theorem checkDelete_sent (id : BlobID) :
    Verified srv key userAgent arr srv.checkDelete (remove key userAgent id) false
      (key.pub, id) := by
  have hid : decodeBlobIDURL (remove key userAgent id).request.pathID = some id := by
    change decodeBlobIDURL (bytesToBase64Url id.val) = some id
    rw [bytesToBase64Url_eq, decodeBlobIDURL_encode]
  have hsig : decodeSig (remove key userAgent id).request.signature =
      some (key.sign (remove key userAgent id).message) := decodeSig_b64 _
  refine .of_bytes ?_
  unfold Server.checkDelete verdict
  rw [admit_restIdentity key userAgent rfl rfl, hid]
  dsimp only
  rw [hsig]
  dsimp only
  rw [← remove_message key userAgent]
  rfl

/-- For every id, payload, time to live and clock value, the relay checks the
signature of a put, a get, a list and a delete over the bytes that the client has
signed, and one of an honest client within the window passes. The time to live is
an integer below 2^53, where texts of doubles are exact. -/
theorem relay_verifies_client_message (srv : Server) (key : Signer) (userAgent : Text)
    (arr : Arrival) (id : BlobID) (payload : Bytes) (ttlSeconds dateNow : ℤ)
    (httl : ttlSeconds.natAbs < 2 ^ 53) (hdate : IsTimeValue dateNow)
    (hwindow : Timely arr dateNow) :
    Verified srv key userAgent arr srv.checkPut (put key userAgent id payload ttlSeconds)
      (payload = [] ∨ (payload.length : ℤ) > srv.maxBlobSize)
      ⟨key.pub, id, Int64.ofInt ttlSeconds,
        key.sign (put key userAgent id payload ttlSeconds).message, payload⟩ ∧
    Verified srv key userAgent arr srv.checkGet (get key userAgent dateNow id) false
      (key.pub, id) ∧
    Verified srv key userAgent arr srv.checkList (list key userAgent dateNow) false key.pub ∧
    Verified srv key userAgent arr srv.checkDelete (remove key userAgent id) false
      (key.pub, id) :=
  ⟨checkPut_sent id payload httl, checkGet_sent id hdate hwindow, checkList_sent hdate hwindow,
    checkDelete_sent id⟩

end Verdicts

section Example

/-- A signature that shows the start of the message, and its check. -/
def prefixSign (message : Bytes) : Sig :=
  ⟨(message ++ List.replicate 64 0).take 64, by simp⟩

def prefixSigner : Signer := ⟨zeroKey, prefixSign⟩

def prefixServer : Server :=
  { openServer with verify := fun pub message sig => pub = zeroKey ∧ sig = prefixSign message }

theorem prefixSigner_honest : prefixSigner.Honest prefixServer := fun message =>
  decide_eq_true (p := zeroKey = zeroKey ∧ prefixSign message = prefixSign message) ⟨rfl, rfl⟩

theorem relay_verifies_client_message_hour :
    prefixServer.checkPut (put prefixSigner [] zeroID [7] 3600).request (arrivalAt 0) =
      verdict prefixServer zeroKey [] (arrivalAt 0) ([7] = [] ∨ ([7].length : ℤ) > 64) true
        ⟨zeroKey, zeroID, Int64.ofInt 3600,
          prefixSign (put prefixSigner [] zeroID [7] 3600).message, [7]⟩ :=
  (relay_verifies_client_message prefixServer prefixSigner [] (arrivalAt 0) zeroID [7]
    3600 500 (by decide) (show (500 : ℤ).natAbs ≤ 8640000000000000 by decide)
    ⟨by decide, by decide⟩).1.passes prefixSigner_honest

/-- A time to live of 2^60 is a double. The client signs its 64 bits and sends
its text, which ends in zeros; the relay rebuilds another message and rejects
the honest signature. -/
theorem large_ttl_rejected :
    IsDouble (2 ^ 60) ∧
    (put prefixSigner [] zeroID [7] (2 ^ 60)).request.ttl = "1152921504606847000".toList ∧
    prefixSigner.Honest prefixServer ∧
    prefixServer.checkPut (put prefixSigner [] zeroID [7] (2 ^ 60)).request (arrivalAt 0) =
      .error (badSignature "signature check failed") := by
  refine ⟨by decide +kernel, by decide +kernel, prefixSigner_honest, by decide +kernel⟩

end Example

end Tactile.Relay.RelayClient

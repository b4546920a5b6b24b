import Tactile.Relay.RelayClient
import Tactile.Sync.StoreView
import Tactile.Utils.Encoding

/-!
The relay over its REST interface as the devices of an identity see it: what the requests of the
TypeScript client are answered, whatever else is asked of the relay.
-/

namespace Tactile.Sync.HttpView

open Tactile.Lib.Program Tactile.Lib.ByteString Tactile.Lib.Base64 Tactile.Lib.CodeUnits
open Tactile.Lib.FiniteMap Tactile.Lib.JsNumber Tactile.Lib.Transition
open Tactile.Relay.Blob Tactile.Relay.FsStore Tactile.Relay.Oracle Tactile.Relay.Signing
open Tactile.Relay.ClientIP (Text)
open Tactile.Relay.FsRefinement (Call answer)
open Tactile.Relay.Ranges (serveRange parseRange parseInt)
open Tactile.Relay.Rest (Server RestRequest Arrival Response RelayProg PutFields storeGetErr rateLimited
  badSignature b64 decodePubKey decodeSig decodeBlobID decodeBlobIDURL freshMessage)
open Tactile.Relay.Replay (Signer decodePubKey_b64 decodeSig_b64 decodeBlobID_b64 parseInt_decimal
  decodeBlobIDURL_encode)
open Tactile.Relay.RelayClient (Timely IsTimeValue Verified verdict bytesToBase64Url_eq put_message
  remove_message)
open Tactile.Utils.Encoding (base64ToBytes base64UrlToBytes base64UrlToBytes_digits replaceAll_ofUrl
  map_ofUrl_digits length_digits js_append js_padding)
open Tactile.Sync.SyncNow Tactile.Sync.RelayView Tactile.Sync.StoreView

section Client

/-- The message of the error that `check` throws. -/
def message : Response → String
  | .error _ _ message => message
  | res => "status " ++ toString res.status

/-- `RelayClient.check`. -/
def check (okStatuses : List ℕ) (res : Response) : Except String Unit :=
  if res.status ∈ okStatuses then .ok () else .error (message res)

/-- What `RelayClient.put` makes of an answer. -/
def putResult (res : Response) : Except String Bool :=
  if res.status = 409 then .ok false
  else do
    check [200, 201] res
    return true

def decodePayload (payload : Text) : Except String (Option Bytes) :=
  match base64ToBytes (js payload) with
  | some bytes => return some bytes
  | none => throw "The string to be decoded is not correctly encoded."

/-- What `RelayClient.get` makes of an answer: the payload of the JSON that a request gets which does not
ask for the raw blob. -/
def getResult (res : Response) : Except String (Option Bytes) :=
  if res.status = 404 ∨ res.status = 410 then .ok none
  else do
    check [200] res
    match res with
    | .blob _ payload _ _ => decodePayload payload
    | _ => throw "Unexpected token"

/-- What `RelayClient.remove` makes of an answer. -/
def removeResult (res : Response) : Except String Unit := check [200, 204, 404] res

/-- A device: its key, its browser and the reading of its clock. -/
structure Device where
  key : Signer
  userAgent : Text
  dateNow : ℤ

/-- The signed calls that a sync makes. -/
inductive Ask
  | get (id : BlobID)
  | put (id : BlobID) (payload : Bytes) (ttl : ℤ)
  | remove (id : BlobID)

def Ask.op : Ask → RelayOp BlobID Bytes
  | .get id => .get id
  | .put id payload ttl => .put id payload ttl
  | .remove id => .remove id

def Ask.method : Ask → Tactile.Relay.Rest.Method
  | .get _ => .get
  | .put .. => .put
  | .remove _ => .delete

def Ask.request (dev : Device) : Ask → RestRequest
  | .get id => (Tactile.Relay.RelayClient.get dev.key dev.userAgent dev.dateNow id).request
  | .put id payload ttl => (Tactile.Relay.RelayClient.put dev.key dev.userAgent id payload ttl).request
  | .remove id => (Tactile.Relay.RelayClient.remove dev.key dev.userAgent id).request

def Ask.received : (a : Ask) → Response → RelayAns BlobID Bytes a.op
  | .get _ => getResult
  | .put .. => putResult
  | .remove _ => removeResult

end Client

section Statement

/-- How a store answers whose disk works: as the map does, and it may refuse a put for its caps. -/
inductive Works {idOf : PubKey → IdentityID} :
    Answers Tactile.Relay.Rest.RelayOp Tactile.Relay.Rest.RelayAns (Model idOf)
  | put (m : Model idOf) (r : Record) (identityCap totalCap : ℤ) :
      Works m (.putWithin r identityCap totalCap) (m.put r).1 (m.put r).2
  | refused (m : Model idOf) (r : Record) (identityCap totalCap : ℤ) (e : Err) : e ≠ .exists →
      Works m (.putWithin r identityCap totalCap) (.error e) m
  | get (m : Model idOf) (pub : PubKey) (bid : BlobID) (now : Int64) :
      Works m (.get pub bid now) (m.get (idOf pub, bid) now).1 (m.get (idOf pub, bid) now).2
  | getRange (m : Model idOf) (pub : PubKey) (bid : BlobID) (start stop : ℤ) (now : Int64) :
      Works m (.getRange pub bid start stop now) (m.getRange (idOf pub, bid) start stop now).1
        (m.getRange (idOf pub, bid) start stop now).2
  | list (m : Model idOf) (pub : PubKey) (now : Int64) :
      Works m (.list pub now) (m.list (idOf pub) now) m
  | delete (m : Model idOf) (pub : PubKey) (bid : BlobID) :
      Works m (.delete pub bid) (m.delete (idOf pub, bid)).1 (m.delete (idOf pub, bid)).2
  | publish (m : Model idOf) (owner : IdentityID) (event : Tactile.Relay.Rest.BlobEvent)
      (excludeConnID : Text) : Works m (.publish owner event excludeConnID) () m

variable (srv : Server) (owner : IdentityID)

/-- What happens to a relay: a call of a device of the identity, which gets an answer or loses it; any
other request; a sweep. -/
inductive HttpEvent
  | asked (dev : Device) (a : Ask) (arr : Arrival) (answer : Option Response)
  | other (method : Tactile.Relay.Rest.Method) (q : RestRequest) (arr : Arrival) (res : Response)
  | swept (now : Int64)

/-- A relay and its clock. A request whose answer is lost was handled or was not. -/
inductive HttpStep : Model srv.idOf × Int64 → HttpEvent → Model srv.idOf × Int64 → Prop
  | answered {m m' : Model srv.idOf} {t : Int64} {dev : Device} {a : Ask} {arr : Arrival} {res : Response} :
      t.toInt ≤ arr.now.toInt → Exec Works m (srv.handle a.method (a.request dev) arr) res m' →
      HttpStep (m, t) (.asked dev a arr (some res)) (m', arr.now)
  | unanswered {m m' : Model srv.idOf} {t : Int64} {dev : Device} {a : Ask} {arr : Arrival} {res : Response} :
      t.toInt ≤ arr.now.toInt → Exec Works m (srv.handle a.method (a.request dev) arr) res m' →
      HttpStep (m, t) (.asked dev a arr none) (m', arr.now)
  | undelivered {m : Model srv.idOf} {t : Int64} {dev : Device} {a : Ask} {arr : Arrival} :
      t.toInt ≤ arr.now.toInt → HttpStep (m, t) (.asked dev a arr none) (m, arr.now)
  | other {m m' : Model srv.idOf} {t : Int64} {method : Tactile.Relay.Rest.Method} {q : RestRequest}
      {arr : Arrival} {res : Response} :
      t.toInt ≤ arr.now.toInt → arr.now.toInt ≤ arr.later.toInt →
      Exec Works m (srv.handle method q arr) res m' →
      HttpStep (m, t) (.other method q arr res) (m', arr.later)
  | swept {m : Model srv.idOf} {t now : Int64} :
      t.toInt ≤ now.toInt → HttpStep (m, t) (.swept now) ((m.sweep now).2, now)

/-- The retention that the relay grants. -/
def granted (ttl : ℤ) : ℤ := (srv.clampTTL (Int64.ofInt ttl)).toInt

/-- A device of the identity asks with a time to live whose text is exact, and no expiry overflows. -/
def HttpEvent.Regular : HttpEvent → Prop
  | .asked dev a arr _ => srv.idOf dev.key.pub = owner ∧
      (∀ id payload ttl, a = .put id payload ttl → ttl.natAbs < 2 ^ 53) ∧
      0 ≤ arr.now.toInt ∧ arr.now.toInt + srv.maxTTL.toInt < 2 ^ 63
  | .other _ _ arr _ => 0 ≤ arr.now.toInt ∧ arr.now.toInt + srv.maxTTL.toInt < 2 ^ 63
  | .swept _ => True

/-- A device whose signatures the relay accepts, that is let in, and whose clock is not off. -/
structure Accepted (dev : Device) (a : Ask) (arr : Arrival) : Prop where
  honest : dev.key.Honest srv
  agent : srv.checkUA dev.userAgent = true
  unlimited : arr.limited = false
  allowed : srv.allowIdentity dev.key.pub = true
  timely : ∀ id, a = .get id → IsTimeValue dev.dateNow ∧ Timely arr dev.dateNow

/-- A put or a delete with a signature that a key of the identity has made of it. -/
def Vouched (q : RestRequest) : RelayOp BlobID Bytes → Prop
  | .put id payload ttl => ∃ pub sig, srv.idOf pub = owner ∧ decodePubKey q.identity = some pub ∧
      decodeSig q.signature = some sig ∧
      srv.verify pub (sigMessage id (Int64.ofInt ttl) payload) sig = true
  | .remove id => ∃ pub sig, srv.idOf pub = owner ∧ decodePubKey q.identity = some pub ∧
      decodeSig q.signature = some sig ∧ srv.verify pub (delSigMessage id) sig = true
  | _ => False

/-- What the devices see of an event: the answers to their own calls, with reads and deletes answered to
whom the relay lets in; the effect of a request with a signature of theirs; and time. -/
inductive Seen : RelayState BlobID Bytes → HttpEvent → RelayState BlobID Bytes → Prop
  | answered {s s' : RelayState BlobID Bytes} {dev : Device} {a : Ask} {arr : Arrival} {res : Response} :
      World (granted srv) s (.relay a.op) (a.received res) s' →
      (Accepted srv dev a arr → (∀ id payload ttl, a ≠ .put id payload ttl) →
        ∃ val, a.received res = .ok val) →
      Seen s (.asked dev a arr (some res)) s'
  | lost {s s' : RelayState BlobID Bytes} {dev : Device} {a : Ask} {arr : Arrival} (e : String) :
      World (granted srv) s (.relay a.op) (.error e) s' → Seen s (.asked dev a arr none) s'
  | vouched {s s' : RelayState BlobID Bytes} {method : Tactile.Relay.Rest.Method} {q : RestRequest}
      {arr : Arrival} {res : Response} {o : RelayOp BlobID Bytes} {val : RelayVal BlobID Bytes o} :
      Vouched srv owner q o → World (granted srv) s (.relay o) (.ok val) s' →
      Seen s (.other method q arr res) s'
  | idle {s s' : RelayState BlobID Bytes} {method : Tactile.Relay.Rest.Method} {q : RestRequest}
      {arr : Arrival} {res : Response} : Idle s s' → Seen s (.other method q arr res) s'
  | swept {s s' : RelayState BlobID Bytes} {now : Int64} : Idle s s' → Seen s (.swept now) s'

/-- The devices see what the relay holds for their identity, as of a time that has come. -/
def Current {idOf : PubKey → IdentityID} (owner : IdentityID) (x : Model idOf × Int64)
    (c : RelayState BlobID Bytes) : Prop :=
  Shows owner x.1 c ∧ c.time ≤ x.2.toInt

end Statement

section Checks

variable {srv : Server} {q : RestRequest} {arr : Arrival}

/-- What a check answers is none of the statuses that the client takes for a result. -/
def Refusing {α : Type} (c : Except Response α) : Prop :=
  ∀ res, c = .error res → res.status ∈ [400, 403, 413, 429]

theorem refusing_error {α : Type} {res : Response} (h : res.status ∈ [400, 403, 413, 429]) :
    Refusing (.error res : Except Response α) := by
  rintro res' ⟨⟩
  exact h

theorem refusing_ok {α : Type} (a : α) : Refusing (.ok a : Except Response α) := fun _ h => by cases h

theorem Refusing.bind {α β : Type} {c : Except Response α} {f : α → Except Response β} (h : Refusing c)
    (hf : ∀ a, Refusing (f a)) : Refusing (c >>= f) := by
  cases c with
  | error res =>
      rintro res' ⟨⟩
      exact h res rfl
  | ok a => exact hf a

theorem checkCaller_refusing : Refusing (srv.checkCaller q arr rateLimited) := by
  unfold Server.checkCaller
  split
  · exact refusing_error (by decide)
  · split
    · exact refusing_error (by decide)
    · exact refusing_ok ()

theorem restIdentity_refusing : Refusing (srv.restIdentity q) := by
  unfold Server.restIdentity
  split
  · exact refusing_error (by decide)
  · split
    · exact refusing_error (by decide)
    · exact refusing_ok _

theorem checkGet_refusing : Refusing (srv.checkGet q arr) := by
  refine checkCaller_refusing.bind fun _ => restIdentity_refusing.bind fun pub => ?_
  split
  · exact refusing_error (by decide)
  · split
    next hsig => exact refusing_error (show 403 ∈ _ by decide)
    next => exact refusing_ok _

theorem checkDelete_refusing : Refusing (srv.checkDelete q arr) := by
  refine checkCaller_refusing.bind fun _ => restIdentity_refusing.bind fun pub => ?_
  split
  · exact refusing_error (by decide)
  · split
    · exact refusing_error (by decide)
    · split
      · exact refusing_error (by decide)
      · exact refusing_ok _

theorem checkPut_refusing : Refusing (srv.checkPut q arr) := by
  refine checkCaller_refusing.bind fun _ => restIdentity_refusing.bind fun pub => ?_
  repeat' split
  all_goals first | exact refusing_ok _ | exact refusing_error (by decide)

/-- A refused call ends with an error. -/
theorem received_refused {a : Ask} {res : Response} (h : res.status ∈ [400, 403, 413, 429]) :
    ∃ e, a.received res = .error e := by
  have hstatus : res.status = 400 ∨ res.status = 403 ∨ res.status = 413 ∨ res.status = 429 := by
    simpa using h
  cases a with
  | get id =>
      refine ⟨message res, ?_⟩
      change getResult res = _
      have hcheck : check [200] res = .error (message res) := by
        rw [check, if_neg (by simp; omega)]
      unfold getResult
      rw [if_neg (by omega), hcheck]
      rfl
  | put id payload ttl =>
      refine ⟨message res, ?_⟩
      change putResult res = _
      rw [putResult, check, if_neg (by omega), if_neg (by simp; omega)]
      rfl
  | remove id =>
      refine ⟨message res, ?_⟩
      change removeResult res = .error (message res)
      rw [removeResult, check, if_neg (by simp; omega)]

theorem restIdentity_ok {pub : PubKey} (h : srv.restIdentity q = .ok pub) :
    decodePubKey q.identity = some pub := by
  unfold Server.restIdentity at h
  split at h
  next => cases h
  next pub' hpub =>
    split at h
    next => cases h
    next =>
      cases h
      exact hpub

theorem bind_ok {α β : Type} {c : Except Response α} {f : α → Except Response β} {b : β}
    (h : c >>= f = .ok b) : ∃ a, c = .ok a ∧ f a = .ok b := by
  cases c with
  | error res => cases h
  | ok a => exact ⟨a, rfl, h⟩

theorem checkGet_ok {pub : PubKey} {id : BlobID} (h : srv.checkGet q arr = .ok (pub, id)) :
    decodePubKey q.identity = some pub ∧ decodeBlobIDURL q.pathID = some id := by
  unfold Server.checkGet Server.blobLookup at h
  obtain ⟨-, -, h⟩ := bind_ok h
  obtain ⟨pub', hpub, h⟩ := bind_ok h
  split at h
  next => cases h
  next id' hid =>
    split at h
    next => cases h
    next =>
      cases h
      exact ⟨restIdentity_ok hpub, hid⟩

theorem checkDelete_ok {pub : PubKey} {id : BlobID} (h : srv.checkDelete q arr = .ok (pub, id)) :
    decodePubKey q.identity = some pub ∧ decodeBlobIDURL q.pathID = some id ∧
      ∃ sig, decodeSig q.signature = some sig ∧ srv.verify pub (delSigMessage id) sig = true := by
  unfold Server.checkDelete at h
  obtain ⟨-, -, h⟩ := bind_ok h
  obtain ⟨pub', hpub, h⟩ := bind_ok h
  split at h
  next => cases h
  next id' hid =>
    split at h
    next => cases h
    next sig hsig =>
      split at h
      next => cases h
      next hverify =>
        cases h
        exact ⟨restIdentity_ok hpub, hid, sig, hsig, not_not.mp hverify⟩

theorem checkPut_ok {f : PutFields} (h : srv.checkPut q arr = .ok f) :
    decodePubKey q.identity = some f.pub ∧ decodeBlobID q.blobID = some f.id ∧
      (∃ ttl, parseInt q.ttl = some ttl ∧ f.ttl = Int64.ofInt ttl) ∧ f.payload = q.body ∧
      ∃ sig, decodeSig q.signature = some sig ∧
        srv.verify f.pub (sigMessage f.id f.ttl f.payload) sig = true := by
  unfold Server.checkPut at h
  obtain ⟨-, -, h⟩ := bind_ok h
  obtain ⟨pub', hpub, h⟩ := bind_ok h
  split at h
  next => cases h
  next id' hid =>
    split at h
    next => cases h
    next ttl httl =>
      split at h
      next => cases h
      next sig hsig =>
        split at h
        next => cases h
        next =>
          split at h
          next => cases h
          next hverify =>
            cases h
            exact ⟨restIdentity_ok hpub, hid, ⟨ttl, httl, rfl⟩, rfl, sig, hsig, not_not.mp hverify⟩

end Checks

section Calls

variable {srv : Server} {q : RestRequest} {arr : Arrival} {m : Model srv.idOf}

/-- The payload of an answer is what the relay has encoded. -/
theorem base64ToBytes_b64 (bytes : Bytes) : base64ToBytes (js (b64 bytes)) = some bytes := by
  have hurl := base64UrlToBytes_digits bytes
  have hlength : (js (digits std bytes)).length = (digits std bytes).length := List.length_map _
  rw [base64UrlToBytes, replaceAll_ofUrl, map_ofUrl_digits] at hurl
  rw [hlength, length_digits] at hurl
  rw [b64, encode, if_pos rfl, padding, js_append, js_padding]
  exact hurl

/-- What a put leaves and what the client makes of its answer. -/
theorem put_holds : Holds Works (fun _ _ => True)
    (fun res m' => (srv.checkPut q arr = .error res ∧ m' = m) ∨
      ∃ f, srv.checkPut q arr = .ok f ∧
        ((putResult res = .ok (m.put (srv.putRecord f arr.now)).1.isOk ∧
            m' = (m.put (srv.putRecord f arr.now)).2) ∨
          m' = m ∧ ∃ e, putResult res = .error e))
    (srv.handlePut q arr) m := by
  rw [Server.handlePut]
  cases hcheck : srv.checkPut q arr with
  | error res => exact .inl ⟨rfl, rfl⟩
  | ok f =>
      dsimp only
      generalize hr : srv.putRecord f arr.now = r
      rw [holds_bind]
      refine ⟨trivial, fun ans m' hworks => ?_⟩
      rw [holds_ret]
      cases hworks with
      | put _ _ _ =>
          have hput : (m.put r).1 = .ok () ∨ (m.put r).1 = .error .exists := by
            rw [Model.put]
            split
            · exact .inr rfl
            · exact .inl rfl
          rcases hput with hput | hput
          · rw [hput]
            refine ⟨trivial, fun ans m'' hworks => ?_⟩
            cases hworks
            exact .inr ⟨f, rfl, .inl ⟨by rw [hr, hput]; rfl, by rw [hr]⟩⟩
          · rw [hput]
            exact .inr ⟨f, rfl, .inl ⟨by rw [hr, hput]; rfl, by rw [hr]⟩⟩
      | refused _ _ _ _ e he =>
          have hmessage : ∀ (status : ℕ) (code text : String), status ∈ [403, 500, 507] →
              ∃ e, putResult (.error status code text) = .error e := by
            intro status code text hstatus
            have hcases : status = 403 ∨ status = 500 ∨ status = 507 := by simpa using hstatus
            rcases hcases with rfl | rfl | rfl <;> exact ⟨text, rfl⟩
          cases e with
          | «exists» => exact absurd rfl he
          | quotaExceeded => exact .inr ⟨f, rfl, .inr ⟨rfl, hmessage _ _ _ (by decide)⟩⟩
          | storageFull => exact .inr ⟨f, rfl, .inr ⟨rfl, hmessage _ _ _ (by decide)⟩⟩
          | _ => exact .inr ⟨f, rfl, .inr ⟨rfl, hmessage _ _ _ (by decide)⟩⟩

/-- What a read that does not ask for the raw blob leaves and what the client makes of its answer. -/
theorem get_holds (hraw : q.raw = false) (haccept : q.accept = "*/*".toList) :
    Holds Works (fun _ _ => True)
    (fun res m' => (srv.checkGet q arr = .error res ∧ m' = m) ∨
      ∃ pub id, srv.checkGet q arr = .ok (pub, id) ∧
        getResult res = .ok ((m.get (srv.idOf pub, id) arr.now).1.toOption.map fun r => r.payload) ∧
        m' = (m.get (srv.idOf pub, id) arr.now).2)
    (srv.handleGet q arr) m := by
  rw [Server.handleGet]
  cases hcheck : srv.checkGet q arr with
  | error res => exact .inl ⟨rfl, rfl⟩
  | ok target =>
      obtain ⟨pub, id⟩ := target
      have hplain : (decide (false = true ∨ "application/octet-stream".toList <:+: "*/*".toList)) =
          false := by decide
      dsimp only
      rw [hraw, haccept, hplain, if_neg (by simp), holds_bind]
      refine ⟨trivial, fun ans m' hworks => ?_⟩
      rw [holds_ret]
      cases hworks
      cases hget : (m.get (srv.idOf pub, id) arr.now).1 with
      | error e =>
          refine (holds_pure _ _).mpr (.inr ⟨pub, id, rfl, ?_, rfl⟩)
          rw [hget]
          cases e <;> rfl
      | ok r =>
          refine (holds_pure _ _).mpr (.inr ⟨pub, id, rfl, ?_, rfl⟩)
          rw [hget]
          change decodePayload (b64 r.payload) = _
          rw [decodePayload, base64ToBytes_b64]
          rfl

/-- What a delete leaves and what the client makes of its answer. -/
theorem delete_holds : Holds Works (fun _ _ => True)
    (fun res m' => (srv.checkDelete q arr = .error res ∧ m' = m) ∨
      ∃ pub id, srv.checkDelete q arr = .ok (pub, id) ∧ removeResult res = .ok () ∧
        m' = (m.delete (srv.idOf pub, id)).2)
    (srv.handleDelete q arr) m := by
  rw [Server.handleDelete]
  cases hcheck : srv.checkDelete q arr with
  | error res => exact .inl ⟨rfl, rfl⟩
  | ok target =>
      obtain ⟨pub, id⟩ := target
      dsimp only
      rw [holds_bind]
      refine ⟨trivial, fun ans m' hworks => ?_⟩
      rw [holds_ret]
      cases hworks
      cases (m.delete (srv.idOf pub, id)).1 with
      | error e => exact .inr ⟨pub, id, rfl, rfl, rfl⟩
      | ok u =>
          refine ⟨trivial, fun ans m'' hworks => ?_⟩
          cases hworks
          exact .inr ⟨pub, id, rfl, rfl, rfl⟩

end Calls

section Steps

variable {srv : Server} {owner : IdentityID} {m m' : Model srv.idOf} {c : RelayState BlobID Bytes}
variable {dev : Device} {arr : Arrival} {res : Response}

theorem clampTTL_bounds (hmin : 0 ≤ srv.minTTL.toInt) (hmax : 0 ≤ srv.maxTTL.toInt) (ttl : Int64) :
    0 ≤ (srv.clampTTL ttl).toInt ∧ (srv.clampTTL ttl).toInt ≤ srv.maxTTL.toInt := by
  unfold Server.clampTTL
  dsimp only
  simp only [GT.gt, Int64.lt_iff_toInt_lt]
  split
  · split
    · exact ⟨hmax, le_refl _⟩
    · exact ⟨hmin, by omega⟩
  · split
    · exact ⟨hmax, le_refl _⟩
    · exact ⟨by omega, by omega⟩

theorem expiry_toInt (hmin : 0 ≤ srv.minTTL.toInt) (hmax : 0 ≤ srv.maxTTL.toInt) {now : Int64}
    (hnow : 0 ≤ now.toInt) (hfits : now.toInt + srv.maxTTL.toInt < 2 ^ 63) (ttl : Int64) :
    (now + srv.clampTTL ttl).toInt = now.toInt + (srv.clampTTL ttl).toInt := by
  obtain ⟨hlow, hhigh⟩ := clampTTL_bounds hmin hmax ttl
  rw [Int64.toInt_add, Int.bmod_eq_of_le] <;> omega

/-- A call that the relay answers at the time that the devices see. -/
theorem asked_world (hmin : 0 ≤ srv.minTTL.toInt) (hmax : 0 ≤ srv.maxTTL.toInt) {a : Ask}
    (hshows : Shows owner m c) (htime : c.time = arr.now.toInt) (howner : srv.idOf dev.key.pub = owner)
    (httl : ∀ id payload ttl, a = .put id payload ttl → ttl.natAbs < 2 ^ 53)
    (hnow : 0 ≤ arr.now.toInt) (hfits : arr.now.toInt + srv.maxTTL.toInt < 2 ^ 63)
    (hexec : Exec Works m (srv.handle a.method (a.request dev) arr) res m') :
    ∃ c', World (granted srv) c (.relay a.op) (a.received res) c' ∧ Shows owner m' c' ∧
      c'.time = c.time := by
  have hrejected : ∀ e, a.received res = .error e → m' = m →
      ∃ c', World (granted srv) c (.relay a.op) (a.received res) c' ∧ Shows owner m' c' ∧
        c'.time = c.time := by
    rintro e he rfl
    rw [he]
    exact ⟨c, World.rejected _ e (Idle.refl c), hshows, rfl⟩
  cases a with
  | get id =>
      rcases (get_holds rfl rfl).exec hexec with ⟨hcheck, hm⟩ | ⟨pub, id', hcheck, hresult, rfl⟩
      · obtain ⟨e, he⟩ := received_refused (a := .get id) (checkGet_refusing _ hcheck)
        exact hrejected e he hm
      · obtain ⟨hpub, hid⟩ := checkGet_ok hcheck
        change decodePubKey (b64 dev.key.pub.val) = some pub at hpub
        change decodeBlobIDURL (Tactile.Relay.RelayClient.bytesToBase64Url id.val) = some id' at hid
        rw [decodePubKey_b64] at hpub
        rw [bytesToBase64Url_eq, decodeBlobIDURL_encode] at hid
        cases hpub
        cases hid
        rw [howner] at hresult ⊢
        obtain ⟨hanswer, hafter⟩ :=
          @shows_get srv.idOf owner m c none (granted srv) hshows id arr.now htime.symm
        have hworld := @World.served BlobID Bytes _ (granted srv) c c none (.get id) (Idle.refl c)
        rw [hanswer, ← hresult] at hworld
        exact ⟨_, hworld, hafter, respond_time _ none⟩
  | put id payload ttl =>
      rcases put_holds.exec hexec with ⟨hcheck, hm⟩ | ⟨f, hcheck, hstored | ⟨hm, e, he⟩⟩
      · obtain ⟨e, he⟩ := received_refused (a := .put id payload ttl) (checkPut_refusing _ hcheck)
        exact hrejected e he hm
      · obtain ⟨hresult, rfl⟩ := hstored
        obtain ⟨hpub, hid, ⟨ttl', httl', hf⟩, hpayload, -⟩ := checkPut_ok hcheck
        change decodePubKey (b64 dev.key.pub.val) = some f.pub at hpub
        change decodeBlobID (b64 id.val) = some f.id at hid
        change parseInt (numberText ttl) = some ttl' at httl'
        change f.payload = payload at hpayload
        have hlt := httl id payload ttl rfl
        rw [decodePubKey_b64, Option.some.injEq] at hpub
        rw [decodeBlobID_b64, Option.some.injEq] at hid
        rw [numberText_of_lt hlt, parseInt_decimal, if_pos (by omega), Option.some.injEq] at httl'
        have hexpiry : (srv.putRecord f arr.now).expiresAt.toInt = c.time + granted srv ttl := by
          rw [htime, granted, httl', ← hf]
          exact expiry_toInt hmin hmax hnow hfits f.ttl
        have hidentity : srv.idOf (srv.putRecord f arr.now).identity = owner := by
          rw [← howner, hpub]
          rfl
        obtain ⟨hanswer, hafter⟩ :=
          @shows_put srv.idOf owner m c none (granted srv) hshows _ ttl hidentity hexpiry
        have hworld :=
          @World.served BlobID Bytes _ (granted srv) c c none (.put f.id f.payload ttl) (Idle.refl c)
        rw [show respond none (granted srv) (.put f.id f.payload ttl) c =
          respond none (granted srv)
            (.put (srv.putRecord f arr.now).id (srv.putRecord f arr.now).payload ttl) c from rfl,
          hanswer, ← hresult, hpayload, ← hid] at hworld
        exact ⟨_, hworld, hafter, respond_time _ none⟩
      · exact hrejected e he hm
  | remove id =>
      rcases delete_holds.exec hexec with ⟨hcheck, hm⟩ | ⟨pub, id', hcheck, hresult, rfl⟩
      · obtain ⟨e, he⟩ := received_refused (a := .remove id) (checkDelete_refusing _ hcheck)
        exact hrejected e he hm
      · obtain ⟨hpub, hid, -⟩ := checkDelete_ok hcheck
        change decodePubKey (b64 dev.key.pub.val) = some pub at hpub
        change decodeBlobIDURL (Tactile.Relay.RelayClient.bytesToBase64Url id.val) = some id' at hid
        rw [decodePubKey_b64] at hpub
        rw [bytesToBase64Url_eq, decodeBlobIDURL_encode] at hid
        cases hpub
        cases hid
        rw [howner]
        have hafter := @shows_delete srv.idOf owner m c none (granted srv) hshows id
        have hworld := @World.served BlobID Bytes _ (granted srv) c c none (.remove id) (Idle.refl c)
        rw [show (respond none (granted srv) (.remove id) c).1 = removeResult res by rw [hresult]; rfl]
          at hworld
        exact ⟨_, hworld, hafter, respond_time _ none⟩

theorem idle_trans {c c' c'' : RelayState BlobID Bytes} (h : Idle c c') (h' : Idle c' c'') : Idle c c'' := by
  refine ⟨h.later.trans h'.later, fun id => ?_⟩
  rcases h'.blobs id with hsame | ⟨payload, x, hheld, hx, hlapsed⟩
  · rcases h.blobs id with hsame' | ⟨payload, x, hheld, hx, hlapsed⟩
    · exact .inl (hsame.trans hsame')
    · exact .inr ⟨payload, x, hheld, hx.trans h'.later, hsame.trans hlapsed⟩
  · exact .inr ⟨payload, x, h.held hheld, hx, hlapsed⟩

/-- A later answer is an answer. -/
theorem world_after {c₁ c₂ : RelayState BlobID Bytes} {clamp : ℤ → ℤ} {o : RelayOp BlobID Bytes}
    {ans : RelayAns BlobID Bytes o} (h : World clamp c₁ (.relay o) ans c₂) (hidle : Idle c c₁) :
    World clamp c (.relay o) ans c₂ := by
  cases h with
  | served size _ hlater => exact .served size o (idle_trans hidle hlater)
  | lost _ e hlater => exact .lost o e (idle_trans hidle hlater)
  | rejected _ e hlater => exact .rejected o e (idle_trans hidle hlater)

/-- An answer may be lost. -/
theorem world_lost {c' : RelayState BlobID Bytes} {clamp : ℤ → ℤ} {o : RelayOp BlobID Bytes}
    {ans : RelayAns BlobID Bytes o} (h : World clamp c (.relay o) ans c') (e : String) :
    World clamp c (.relay o) (.error e) c' := by
  cases h with
  | served size _ hidle =>
      have hsize : ∀ c₁ : RelayState BlobID Bytes, (respond size clamp o c₁).2 = (respond none clamp o c₁).2 := by
        intro c₁
        cases o <;> rfl
      rw [hsize]
      exact .lost o e hidle
  | lost _ _ hidle => exact .lost o e hidle
  | rejected _ _ hidle => exact .rejected o e hidle

/-- A read or a delete of a device that the relay lets in gets its answer. -/
theorem asked_answered {a : Ask} (hread : ∀ id payload ttl, a ≠ .put id payload ttl)
    (hexec : Exec Works m (srv.handle a.method (a.request dev) arr) res m') (h : Accepted srv dev a arr) :
    ∃ val, a.received res = .ok val := by
  have hverdict : ∀ {α : Type} (target : α),
      verdict srv dev.key.pub dev.userAgent arr false true target = .ok target := by
    intro α target
    rw [verdict, if_neg (not_not_intro h.agent), if_neg (by rw [h.unlimited]; decide),
      if_neg (not_not_intro h.allowed), if_neg Bool.false_ne_true, if_neg (not_not_intro rfl)]
  cases a with
  | get id =>
      obtain ⟨hdate, hwindow⟩ := h.timely id rfl
      have hpasses := (@Tactile.Relay.RelayClient.checkGet_sent srv dev.key dev.userAgent arr id dev.dateNow
        hdate hwindow).passes h.honest
      rw [hverdict] at hpasses
      rcases (get_holds rfl rfl).exec hexec with ⟨hcheck, -⟩ | ⟨pub, id', -, hresult, -⟩
      · exact absurd (hpasses.symm.trans hcheck) (by simp)
      · exact ⟨_, hresult⟩
  | put id payload ttl => exact absurd rfl (hread id payload ttl)
  | remove id =>
      have hpasses :=
        (@Tactile.Relay.RelayClient.checkDelete_sent srv dev.key dev.userAgent arr id).passes h.honest
      rw [hverdict] at hpasses
      rcases delete_holds.exec hexec with ⟨hcheck, -⟩ | ⟨pub, id', -, hresult, -⟩
      · exact absurd (hpasses.symm.trans hcheck) (by simp)
      · exact ⟨(), hresult⟩

/-- The calls of the store that read, at a time. -/
def Reads (now : Int64) : Tactile.Relay.Rest.RelayOp → Prop
  | .get _ _ t | .getRange _ _ _ _ t | .list _ t => t = now
  | .publish .. => True
  | _ => False

/-- What the devices see is what it was but for time. -/
def Aged (owner : IdentityID) (c : RelayState BlobID Bytes) (t : Int64) (m : Model srv.idOf) : Prop :=
  ∃ c', Idle c c' ∧ Shows owner m c' ∧ c'.time ≤ t.toInt

/-- A read changes no more than time does, whoever makes it. -/
theorem read_aged {t now : Int64} {o : Tactile.Relay.Rest.RelayOp} {ans : Tactile.Relay.Rest.RelayAns o}
    (h : Aged owner c t m) (htime : t.toInt ≤ now.toInt) (ho : Reads now o) (hworks : Works m o ans m') :
    Aged owner c now m' := by
  obtain ⟨c₁, hidle, hshows, hpast⟩ := h
  have hbump := idle_trans hidle (idle_atTime (hpast.trans htime))
  have hshows' : Shows owner m (atTime c₁ now.toInt) := hshows
  have hcall : ∀ call : Call, OnTime now call →
      Granted srv.idOf owner (granted srv) now call →
      (∀ o, Requests srv.idOf owner (granted srv) now call o → ∃ bid, o = .get bid) →
      Aged owner c now (answer m call).2 := by
    intro call hon hgranted hget
    rcases @shows_call srv.idOf owner (granted srv) m _ _ hshows' rfl call hon hgranted with
      ⟨o, val, hrequest, -, -, hafter⟩ | ⟨-, c', hdrop, htime', hafter⟩
    · obtain ⟨bid, rfl⟩ := hget o hrequest
      exact ⟨_, idle_trans hbump (idle_respond_get bid none), hafter, le_of_eq (respond_time _ none)⟩
    · exact ⟨c', idle_trans hbump hdrop, hafter, le_of_eq htime'⟩
  cases hworks with
  | put => cases ho
  | refused => cases ho
  | delete => cases ho
  | get _ pub bid t' =>
      have hon : t' = now := ho
      refine hcall (.get pub bid t') hon trivial fun o hrequest => ?_
      cases hrequest
      exact ⟨bid, rfl⟩
  | getRange _ pub bid start stop t' =>
      have hon : t' = now := ho
      refine hcall (.getRange pub bid start stop t') hon trivial fun o hrequest => ?_
      cases hrequest
  | list => exact ⟨_, hbump, hshows', le_refl _⟩
  | publish => exact ⟨_, hbump, hshows', le_refl _⟩

theorem Aged.later {t t' : Int64} (h : Aged owner c t m) (htime : t.toInt ≤ t'.toInt) : Aged owner c t' m := by
  obtain ⟨c', hidle, hshows, hpast⟩ := h
  exact ⟨c', hidle, hshows, hpast.trans htime⟩

/-- A range is read with one call, or with two of which the second is later. -/
theorem serveRange_aged {t now later : Int64} (h : Aged owner c t m) (hnow : t.toInt ≤ now.toInt)
    (hlater : now.toInt ≤ later.toInt) (pub : PubKey) (id : BlobID) (header : Text) :
    Holds Works (fun _ _ => True) (fun _ m' => Aged owner c later m')
      (serveRange (M := RelayProg) (fun start stop now => RelayProg.getRange pub id start stop now) now
        later header) m := by
  unfold serveRange
  split
  · exact (h.later hnow).later hlater
  · split
    · rw [holds_bind]
      refine ⟨trivial, fun probe m' hworks => ?_⟩
      have hprobe : Aged owner c now m' := read_aged h hnow (o := .getRange pub id 0 0 now) rfl hworks
      rw [holds_ret]
      split
      · exact hprobe.later hlater
      · exact hprobe.later hlater
      · refine ⟨trivial, fun found m'' hworks' => ?_⟩
        exact read_aged hprobe hlater (o := .getRange pub id _ _ later) rfl hworks'
    · refine ⟨trivial, fun found m' hworks => ?_⟩
      exact (read_aged h hnow (o := .getRange pub id _ _ now) rfl hworks).later hlater

theorem handleGet_aged {t : Int64} {q : RestRequest} (h : Aged owner c t m) (hnow : t.toInt ≤ arr.now.toInt)
    (hlater : arr.now.toInt ≤ arr.later.toInt) :
    Holds Works (fun _ _ => True) (fun _ m' => Aged owner c arr.later m') (srv.handleGet q arr) m := by
  rw [Server.handleGet]
  split
  · exact (h.later hnow).later hlater
  · next pub id _ =>
    dsimp only
    split
    · rw [holds_bind]
      exact (serveRange_aged h hnow hlater pub id q.range).imp fun _ _ h => h
    · rw [holds_bind]
      refine ⟨trivial, fun ans m' hworks => ?_⟩
      have hread : Aged owner c arr.later m' :=
        (read_aged h hnow (o := .get pub id arr.now) rfl hworks).later hlater
      rw [holds_ret]
      split
      · exact hread
      · split
        · exact hread
        · split <;> exact hread

theorem handleHead_aged {t : Int64} {q : RestRequest} (h : Aged owner c t m) (hnow : t.toInt ≤ arr.now.toInt)
    (hlater : arr.now.toInt ≤ arr.later.toInt) :
    Holds Works (fun _ _ => True) (fun _ m' => Aged owner c arr.later m') (srv.handleHead q arr) m := by
  rw [Server.handleHead]
  split
  · exact (h.later hnow).later hlater
  · next pub id _ =>
    rw [holds_bind]
    refine ⟨trivial, fun ans m' hworks => ?_⟩
    have hread : Aged owner c arr.later m' :=
      (read_aged h hnow (o := .list pub arr.now) rfl hworks).later hlater
    rw [holds_ret]
    split <;> exact hread

theorem handleList_aged {t : Int64} {q : RestRequest} (h : Aged owner c t m) (hnow : t.toInt ≤ arr.now.toInt)
    (hlater : arr.now.toInt ≤ arr.later.toInt) :
    Holds Works (fun _ _ => True) (fun _ m' => Aged owner c arr.later m') (srv.handleList q arr) m := by
  rw [Server.handleList]
  split
  · exact (h.later hnow).later hlater
  · next pub _ =>
    refine ⟨trivial, fun ans m' hworks => ?_⟩
    exact (read_aged h hnow (o := .list pub arr.now) rfl hworks).later hlater

/-- Requests other than the devices' own. -/
theorem other_seen (hmin : 0 ≤ srv.minTTL.toInt) (hmax : 0 ≤ srv.maxTTL.toInt) {t : Int64}
    {method : Tactile.Relay.Rest.Method} {q : RestRequest} (h : Current owner (m, t) c)
    (htime : t.toInt ≤ arr.now.toInt) (hlater : arr.now.toInt ≤ arr.later.toInt)
    (hnow : 0 ≤ arr.now.toInt) (hfits : arr.now.toInt + srv.maxTTL.toInt < 2 ^ 63)
    (hexec : Exec Works m (srv.handle method q arr) res m') :
    ∃ c', Seen srv owner c (.other method q arr res) c' ∧ Current owner (m', arr.later) c' := by
  have haged : Aged owner c t m := ⟨c, Idle.refl c, h.1, h.2⟩
  have hread : Aged owner c arr.later m' →
      ∃ c', Seen srv owner c (.other method q arr res) c' ∧ Current owner (m', arr.later) c' := by
    rintro ⟨c', hidle, hshows, hpast⟩
    exact ⟨c', .idle hidle, hshows, hpast⟩
  have hsame : m' = m →
      ∃ c', Seen srv owner c (.other method q arr res) c' ∧ Current owner (m', arr.later) c' := by
    rintro rfl
    exact hread ((haged.later htime).later hlater)
  have hidle := idle_atTime (h.2.trans htime)
  have hshows : Shows owner m (atTime c arr.now.toInt) := h.1
  have hdropped : ∀ c', Idle (atTime c arr.now.toInt) c' ∧ c'.time = arr.now.toInt ∧ Shows owner m' c' →
      ∃ c', Seen srv owner c (.other method q arr res) c' ∧ Current owner (m', arr.later) c' := by
    rintro c' ⟨hdrop, htime', hafter⟩
    exact ⟨c', .idle (idle_trans hidle hdrop), hafter, (le_of_eq htime').trans hlater⟩
  cases method with
  | get => exact hread ((handleGet_aged haged htime hlater).exec hexec)
  | head => exact hread ((handleHead_aged haged htime hlater).exec hexec)
  | list => exact hread ((handleList_aged haged htime hlater).exec hexec)
  | delete =>
      rcases delete_holds.exec hexec with ⟨-, hm⟩ | ⟨pub, id, hcheck, -, rfl⟩
      · exact hsame hm
      · obtain ⟨hpub, -, sig, hsig, hverify⟩ := checkDelete_ok hcheck
        by_cases howner : srv.idOf pub = owner
        · subst howner
          have hafter := @shows_delete srv.idOf _ m _ none (granted srv) hshows id
          have hworld := @World.served BlobID Bytes _ (granted srv) _ _ none (.remove id) hidle
          have hvouched : Vouched srv (srv.idOf pub) q (.remove id) :=
            ⟨pub, sig, rfl, hpub, hsig, hverify⟩
          exact ⟨_, .vouched hvouched hworld, hafter, (le_of_eq (respond_time _ none)).trans hlater⟩
        · rcases @shows_call srv.idOf owner (granted srv) m _ _ hshows rfl (.delete pub id) trivial trivial with
            ⟨o, -, hrequest, -⟩ | ⟨-, c', hdrop⟩
          · cases hrequest with
            | delete _ _ howner' => exact absurd howner' howner
          · exact hdropped c' hdrop
  | put =>
      rcases put_holds.exec hexec with ⟨-, hm⟩ | ⟨f, hcheck, ⟨-, rfl⟩ | ⟨hm, -⟩⟩
      · exact hsame hm
      · obtain ⟨hpub, -, -, -, sig, hsig, hverify⟩ := checkPut_ok hcheck
        by_cases howner : srv.idOf f.pub = owner
        · have httl : Int64.ofInt f.ttl.toInt = f.ttl := Int64.ofInt_toInt f.ttl
          have hexpiry : (srv.putRecord f arr.now).expiresAt.toInt =
              (atTime c arr.now.toInt).time + granted srv f.ttl.toInt := by
            rw [granted, httl]
            exact expiry_toInt hmin hmax hnow hfits f.ttl
          have hidentity : srv.idOf (srv.putRecord f arr.now).identity = owner := howner
          obtain ⟨hanswer, hafter⟩ :=
            @shows_put srv.idOf owner m _ none (granted srv) hshows _ _ hidentity hexpiry
          have hworld := @World.served BlobID Bytes _ (granted srv) _ _ none
            (.put (srv.putRecord f arr.now).id (srv.putRecord f arr.now).payload f.ttl.toInt) hidle
          rw [hanswer] at hworld
          have hvouched : Vouched srv owner q
              (.put (srv.putRecord f arr.now).id (srv.putRecord f arr.now).payload f.ttl.toInt) := by
            refine ⟨f.pub, sig, howner, hpub, hsig, ?_⟩
            rw [httl]
            exact hverify
          exact ⟨_, .vouched hvouched hworld, hafter, (le_of_eq (respond_time _ none)).trans hlater⟩
        · rcases @shows_call srv.idOf owner (granted srv) m _ _ hshows rfl (.put (srv.putRecord f arr.now)) trivial
            fun howner' => absurd howner' howner with ⟨o, -, hrequest, -⟩ | ⟨-, c', hdrop⟩
          · cases hrequest with
            | put _ _ howner' => exact absurd howner' howner
          · exact hdropped c' hdrop
      · exact hsame hm

/-- An event of the relay, seen by the devices. -/
theorem seen_step (hmin : 0 ≤ srv.minTTL.toInt) (hmax : 0 ≤ srv.maxTTL.toInt)
    {x y : Model srv.idOf × Int64} {e : HttpEvent} (h : Current owner x c) (he : e.Regular srv owner)
    (hstep : HttpStep srv x e y) : ∃ c', Seen srv owner c e c' ∧ Current owner y c' := by
  cases hstep with
  | @answered m m' t dev a arr res htime hexec =>
      obtain ⟨howner, httl, hnow, hfits⟩ := he
      have hidle := idle_atTime (h.2.trans htime)
      have hshows : Shows owner m (atTime c arr.now.toInt) := h.1
      obtain ⟨c', hworld, hafter, htime'⟩ :=
        asked_world hmin hmax hshows rfl howner httl hnow hfits hexec
      exact ⟨c', .answered (world_after hworld hidle) (fun haccepted hread => asked_answered hread hexec haccepted),
        hafter, le_of_eq htime'⟩
  | @unanswered m m' t dev a arr res htime hexec =>
      obtain ⟨howner, httl, hnow, hfits⟩ := he
      have hidle := idle_atTime (h.2.trans htime)
      have hshows : Shows owner m (atTime c arr.now.toInt) := h.1
      obtain ⟨c', hworld, hafter, htime'⟩ :=
        asked_world hmin hmax hshows rfl howner httl hnow hfits hexec
      exact ⟨c', .lost "" (world_lost (world_after hworld hidle) ""), hafter, le_of_eq htime'⟩
  | @undelivered m t dev a arr htime =>
      have hidle := idle_atTime (h.2.trans htime)
      exact ⟨_, .lost "" (World.rejected _ "" hidle), h.1, le_refl _⟩
  | @other m m' t method q arr res htime hlater hexec =>
      obtain ⟨hnow, hfits⟩ := he
      exact other_seen hmin hmax h htime hlater hnow hfits hexec
  | @swept m t now htime =>
      have hidle := idle_atTime (h.2.trans htime)
      have hshows : Shows owner m (atTime c now.toInt) := h.1
      obtain ⟨c', hdrop, htime', hafter⟩ := shows_expired hshows rfl fun k hk => hk
      exact ⟨c', .swept (idle_trans hidle hdrop), hafter, le_of_eq htime'⟩

/-- The relay over HTTP is the relay that a sync relies on. On every run of requests at nondecreasing times,
answered or lost on either way, with any requests by anyone else among them and sweeps, the answers that the
devices of an identity get come from a relay that holds each blob until its expiry, a read or a delete of
a device that is let in is answered, and nothing but time and requests that a key of the identity has
signed changes what they see. -/
theorem http_seen (srv : Server) (owner : IdentityID) (hmin : 0 ≤ srv.minTTL.toInt)
    (hmax : 0 ≤ srv.maxTTL.toInt) {t₀ : Int64} {events : List HttpEvent} {y : Model srv.idOf × Int64}
    (hrun : Runs (HttpStep srv) (Model.empty, t₀) events y)
    (hregular : ∀ e ∈ events, e.Regular srv owner) :
    ∃ c, Runs (Seen srv owner) ⟨t₀.toInt, fun _ => none⟩ events c ∧ Current owner y c := by
  have hsim : ∀ (x : Model srv.idOf × Int64) (c : RelayState BlobID Bytes) (e : HttpEvent)
      (y : Model srv.idOf × Int64), Current owner x c → e.Regular srv owner → HttpStep srv x e y →
        ∃ c', Seen srv owner c e c' ∧ Current owner y c' :=
    fun _ _ _ _ h he hstep => seen_step hmin hmax h he hstep
  have hstart : Current owner ((Model.empty : Model srv.idOf), t₀) ⟨t₀.toInt, fun _ => none⟩ := by
    refine ⟨fun id => ?_, le_refl _⟩
    rw [Model.empty, AList.lookup_empty]
    rfl
  exact hrun.simulate hsim hregular hstart

end Steps

section Example

open Tactile.Relay.Replay Tactile.Relay.RelayClient

/-- A device with the key whose signatures show the start of the message. -/
def prefixDevice : Device := ⟨prefixSigner, [], 500⟩

def letterRecord : Record := prefixServer.putRecord
  ⟨zeroKey, zeroID, 3600, prefixSign (put prefixSigner [] zeroID [7] 3600).message, [7]⟩ 0

theorem letter_put :
    Exec Works (Model.empty : Model prefixServer.idOf)
      (prefixServer.handle .put (Ask.request prefixDevice (.put zeroID [7] 3600)) (arrivalAt 0))
      (.putOK (b64 zeroID.val) 3600) (Model.empty.insert letterRecord) := by
  have hcheck : prefixServer.checkPut (put prefixSigner [] zeroID [7] 3600).request (arrivalAt 0) =
      .ok ⟨zeroKey, zeroID, 3600, prefixSign (put prefixSigner [] zeroID [7] 3600).message, [7]⟩ :=
    (checkPut_sent zeroID [7] (by decide)).passes prefixSigner_honest
  rw [show prefixServer.handle .put = prefixServer.handlePut from rfl, Server.handlePut,
    show Ask.request prefixDevice (.put zeroID [7] 3600) = (put prefixSigner [] zeroID [7] 3600).request from rfl, hcheck]
  exact .step (.put _ letterRecord _ _) (.step (.publish _ _ _ _) (.refl _ _))

theorem letter_get :
    Exec Works (Model.empty.insert letterRecord : Model prefixServer.idOf)
      (prefixServer.handle .get (Ask.request prefixDevice (.get zeroID)) (arrivalAt 0))
      (.blob (b64 zeroID.val) (b64 [7]) 3600 (b64 letterRecord.sig.val))
      (Model.empty.insert letterRecord) := by
  have hcheck : prefixServer.checkGet (get prefixSigner [] 500 zeroID).request (arrivalAt 0) =
      .ok (zeroKey, zeroID) :=
    (checkGet_sent zeroID (show (500 : ℤ).natAbs ≤ 8640000000000000 by decide)
      ⟨by decide, by decide⟩).passes prefixSigner_honest
  have hplain : decide (false = true ∨ "application/octet-stream".toList <:+: "*/*".toList) = false := by
    decide
  rw [show prefixServer.handle .get = prefixServer.handleGet from rfl, Server.handleGet,
    show Ask.request prefixDevice (.get zeroID) = (get prefixSigner [] 500 zeroID).request from rfl, hcheck]
  dsimp only
  rw [show (get prefixSigner [] 500 zeroID).request.raw = false from rfl,
    show (get prefixSigner [] 500 zeroID).request.accept = "*/*".toList from rfl, hplain, if_neg (by simp)]
  exact .step (.get _ zeroKey zeroID 0) (.refl _ _)

def letterPut : HttpEvent :=
  .asked prefixDevice (.put zeroID [7] 3600) (arrivalAt 0) (some (.putOK (b64 zeroID.val) 3600))

def letterGet : HttpEvent :=
  .asked prefixDevice (.get zeroID) (arrivalAt 0)
    (some (.blob (b64 zeroID.val) (b64 [7]) 3600 (b64 letterRecord.sig.val)))

/-- A device puts a letter and has it back. -/
theorem http_seen_letter :
    ∃ c, Runs (Seen prefixServer (zeroDigest zeroKey)) ⟨0, fun _ => none⟩ [letterPut, letterGet] c ∧
      Current (zeroDigest zeroKey) ((Model.empty : Model prefixServer.idOf).insert letterRecord, 0) c := by
  have hput : HttpStep prefixServer (Model.empty, 0) letterPut (Model.empty.insert letterRecord, 0) :=
    .answered (le_refl _) letter_put
  have hget : HttpStep prefixServer (Model.empty.insert letterRecord, 0) letterGet
      (Model.empty.insert letterRecord, 0) := .answered (le_refl _) letter_get
  refine http_seen prefixServer (zeroDigest zeroKey) (by decide) (by decide) (.cons hput (.single hget)) ?_
  intro e he
  rcases List.mem_cons.mp he with rfl | he
  · refine ⟨rfl, ?_, by decide, by decide⟩
    rintro id payload ttl ⟨⟩
    decide
  · rw [List.mem_singleton.mp he]
    refine ⟨rfl, ?_, by decide, by decide⟩
    rintro id payload ttl ⟨⟩

end Example

end Tactile.Sync.HttpView

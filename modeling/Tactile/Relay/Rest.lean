import Tactile.Lib.Base64
import Tactile.Relay.ClientIP
import Tactile.Relay.Ranges
import Tactile.Relay.Signing

/-!
The relay's REST handlers, over the calls of the store and of the hub.
-/

namespace Tactile.Relay.Rest

open Tactile.Lib.Program Tactile.Lib.ByteString Tactile.Lib.Text Tactile.Lib.Base64
open Tactile.Relay.Blob Tactile.Relay.FsStore Tactile.Relay.Oracle
open Tactile.Relay.Ranges Tactile.Relay.Signing
open Tactile.Relay.ClientIP (Text trimSpace)

section Calls

/-- What subscribers are told about a blob. -/
inductive BlobEvent
  | added (id : Text)
  | removed (id : Text)
  deriving DecidableEq

/-- The calls that handlers make. -/
inductive RelayOp
  | putWithin (r : Record) (identityCap totalCap : ℤ)
  | get (pub : PubKey) (bid : BlobID) (now : Int64)
  | getRange (pub : PubKey) (bid : BlobID) (start stop : ℤ) (now : Int64)
  | list (pub : PubKey) (now : Int64)
  | delete (pub : PubKey) (bid : BlobID)
  | publish (owner : IdentityID) (event : BlobEvent) (excludeConnID : Text)

abbrev RelayAns : RelayOp → Type
  | .putWithin .. => Except Err Unit
  | .get .. => Except Err Record
  | .getRange .. => RangeResult
  | .list .. => List ListMeta
  | .delete .. => Except Err Unit
  | .publish .. => Unit

abbrev RelayProg : Type → Type := Prog RelayOp RelayAns

namespace RelayProg

def putWithin (r : Record) (identityCap totalCap : ℤ) : RelayProg (Except Err Unit) :=
  Prog.op (RelayOp.putWithin r identityCap totalCap)

def get (pub : PubKey) (bid : BlobID) (now : Int64) : RelayProg (Except Err Record) :=
  Prog.op (RelayOp.get pub bid now)

def getRange (pub : PubKey) (bid : BlobID) (start stop : ℤ) (now : Int64) :
    RelayProg RangeResult :=
  Prog.op (RelayOp.getRange pub bid start stop now)

def list (pub : PubKey) (now : Int64) : RelayProg (List ListMeta) :=
  Prog.op (RelayOp.list pub now)

def delete (pub : PubKey) (bid : BlobID) : RelayProg (Except Err Unit) :=
  Prog.op (RelayOp.delete pub bid)

def publish (owner : IdentityID) (event : BlobEvent) (excludeConnID : Text) : RelayProg Unit :=
  Prog.op (RelayOp.publish owner event excludeConnID)

end RelayProg

/-- How the store may answer: as the map does, or with a failure that changes
nothing. -/
inductive Serves {idOf : PubKey → IdentityID} : Answers RelayOp RelayAns (Model idOf)
  | put (m : Model idOf) (r : Record) (identityCap totalCap : ℤ) :
      Serves m (.putWithin r identityCap totalCap) (m.put r).1 (m.put r).2
  | putRefused (m : Model idOf) (r : Record) (identityCap totalCap : ℤ) (e : Err) :
      Serves m (.putWithin r identityCap totalCap) (.error e) m
  | get (m : Model idOf) (pub : PubKey) (bid : BlobID) (now : Int64) :
      Serves m (.get pub bid now) (m.get (idOf pub, bid) now).1 (m.get (idOf pub, bid) now).2
  | getFailed (m : Model idOf) (pub : PubKey) (bid : BlobID) (now : Int64) (e : Errno) :
      Serves m (.get pub bid now) (.error (.io e)) m
  | getRange (m : Model idOf) (pub : PubKey) (bid : BlobID) (start stop : ℤ) (now : Int64) :
      Serves m (.getRange pub bid start stop now) (m.getRange (idOf pub, bid) start stop now).1
        (m.getRange (idOf pub, bid) start stop now).2
  | getRangeFailed (m : Model idOf) (pub : PubKey) (bid : BlobID) (start stop : ℤ) (now : Int64)
      (e : Errno) :
      Serves m (.getRange pub bid start stop now) ⟨[], 0, some (.io e)⟩ m
  | list (m : Model idOf) (pub : PubKey) (now : Int64) :
      Serves m (.list pub now) (m.list (idOf pub) now) m
  | delete (m : Model idOf) (pub : PubKey) (bid : BlobID) :
      Serves m (.delete pub bid) (m.delete (idOf pub, bid)).1 (m.delete (idOf pub, bid)).2
  | deleteFailed (m : Model idOf) (pub : PubKey) (bid : BlobID) (e : Errno) :
      Serves m (.delete pub bid) (.error (.io e)) m
  | publish (m : Model idOf) (owner : IdentityID) (event : BlobEvent) (excludeConnID : Text) :
      Serves m (.publish owner event excludeConnID) () m

end Calls

section Requests

/-- The relay's configuration and the signature check. -/
structure Server where
  uaPrefixes : List Text
  allowPublic : Bool
  allowed : List PubKey
  maxBlobSize : ℤ
  minTTL : Int64
  maxTTL : Int64
  identityQuota : ℤ
  maxStorage : ℤ
  idOf : PubKey → IdentityID
  verify : PubKey → Bytes → Sig → Bool

/-- A request: its headers, empty where they are missing, the id in its path,
its `raw=1` and its body. -/
structure RestRequest where
  userAgent : Text
  identity : Text
  blobID : Text
  ttl : Text
  timestamp : Text
  signature : Text
  accept : Text
  range : Text
  ifNoneMatch : Text
  pathID : Text
  raw : Bool
  body : Bytes
  deriving DecidableEq

/-- How a request meets the relay: the verdict of the rate limiter, and the clock
at the check of the timestamp and at the calls of the store. -/
structure Arrival where
  limited : Bool
  clock : ℤ
  now : Int64
  later : Int64

/-- The answers: an error with its code, a bare status, and those of success. -/
inductive Response
  | error (status : ℕ) (code message : String)
  | bare (status : ℕ)
  | putOK (id : Text) (expiresAt : Int64)
  | blob (id payload : Text) (expiresAt : Int64) (sig : Text)
  | raw (etag : Text) (expiresAt : Int64) (sig : Text) (payload : Bytes)
  | range (res : RangeResponse)
  | head (expiresAt : Int64) (sig : Text) (size : ℤ)
  | blobs (items : List (Text × ℤ × Int64))
  deriving DecidableEq

def storeGetErrStatus : Err → ℕ
  | .expired => 410
  | _ => 404

/-- `writeStoreGetErr`. -/
def storeGetErr : Err → Response
  | .expired => .error 410 "expired" "blob expired"
  | _ => .error 404 "not_found" "not found"

def Response.status : Response → ℕ
  | .error status _ _ => status
  | .bare status => status
  | .putOK .. => 201
  | .blob .. | .raw .. | .head .. | .blobs .. => 200
  | .range (.partialContent ..) => 206
  | .range (.rangeNotSatisfiable ..) => 416
  | .range (.storeError e) => storeGetErrStatus e

def b64 (bs : Bytes) : Text := encode std true bs

/-- The array that a text decodes to. -/
def sized (n : ℕ) (bs : Option Bytes) : Option (ByteArr n) :=
  bs.bind fun bs => if h : bs.length = n then some ⟨bs, h⟩ else none

def decodePubKey (s : Text) : Option PubKey := sized 32 (decode std true s)

def decodeSig (s : Text) : Option Sig := sized 64 (decode std true s)

def decodeBlobID (s : Text) : Option BlobID := sized 32 (decode std true s)

/-- The id of a path segment, in the URL alphabet without padding or with it. -/
def decodeBlobIDURL (s : Text) : Option BlobID :=
  sized 32 ((decode url false s).orElse fun _ => decode url true s)

/-- The time window of a timestamp, in seconds. -/
def restTimeWindow : ℤ := 120

end Requests

section Checks

variable (srv : Server)

def Server.checkUA (userAgent : Text) : Bool :=
  srv.uaPrefixes = [] ∨ ∃ p ∈ srv.uaPrefixes, p <+: userAgent

attribute [local instance] lawfulBEq_byteArr32 in
def Server.allowIdentity (pub : PubKey) : Bool := srv.allowPublic || pub ∈ srv.allowed

/-- The user agent and the rate limit, with which every handler begins. -/
def Server.checkCaller (q : RestRequest) (arr : Arrival) (limited : Response) : Except Response Unit :=
  if ¬ srv.checkUA q.userAgent then .error (.error 403 "forbidden" "user-agent not allowed")
  else if arr.limited then .error limited
  else .ok ()

def rateLimited : Response := .error 429 "rate_limited" "rate limited"

/-- The identity header and the allowlist. -/
def Server.restIdentity (q : RestRequest) : Except Response PubKey :=
  match decodePubKey q.identity with
  | none => .error (.error 400 "bad_request" "bad identity header")
  | some pub =>
    if ¬ srv.allowIdentity pub then .error (.error 403 "not_allowed" "identity not allowed")
    else .ok pub

/-- The timestamped message and the signature that a request brings. -/
def freshMessage (q : RestRequest) (method : Text) (id : Bytes) (clock : ℤ) :
    Except String (Bytes × Sig) :=
  match parseInt q.timestamp with
  | none => .error "missing timestamp"
  | some ts =>
    if ts < clock - restTimeWindow ∨ ts > clock + restTimeWindow then
      .error "timestamp outside window"
    else
      match decodeSig q.signature with
      | none => .error "bad signature"
      | some sig => .ok (restMessage method id ts, sig)

/-- Verifies a timestamped signature. -/
def Server.checkFreshSig (q : RestRequest) (pub : PubKey) (method : Text) (id : Bytes)
    (clock : ℤ) : Except String Unit := do
  let (msg, sig) ← freshMessage q method id clock
  if ¬ srv.verify pub msg sig then throw "signature check failed"

def badSignature (message : String) : Response := .error 403 "bad_signature" message

/-- The target of a GET or a HEAD. -/
def Server.blobLookup (q : RestRequest) (method : Text) (clock : ℤ) :
    Except Response (PubKey × BlobID) := do
  let pub ← srv.restIdentity q
  match decodeBlobIDURL q.pathID with
  | none => .error (.error 400 "bad_request" "bad blob id")
  | some id =>
    match srv.checkFreshSig q pub method id.val clock with
    | .error message => .error (badSignature message)
    | .ok () => .ok (pub, id)

def Server.checkGet (q : RestRequest) (arr : Arrival) : Except Response (PubKey × BlobID) := do
  srv.checkCaller q arr rateLimited
  srv.blobLookup q "GET".toList arr.clock

def Server.checkHead (q : RestRequest) (arr : Arrival) : Except Response (PubKey × BlobID) := do
  srv.checkCaller q arr (.bare 429)
  srv.blobLookup q "HEAD".toList arr.clock

def Server.checkList (q : RestRequest) (arr : Arrival) : Except Response PubKey := do
  srv.checkCaller q arr rateLimited
  let pub ← srv.restIdentity q
  match srv.checkFreshSig q pub "LIST".toList [] arr.clock with
  | .error message => .error (badSignature message)
  | .ok () => .ok pub

/-- A delete is authorized without a timestamp. -/
def Server.checkDelete (q : RestRequest) (arr : Arrival) : Except Response (PubKey × BlobID) := do
  srv.checkCaller q arr rateLimited
  let pub ← srv.restIdentity q
  match decodeBlobIDURL q.pathID with
  | none => .error (.error 400 "bad_request" "bad blob id")
  | some id =>
    match decodeSig q.signature with
    | none => .error (.error 400 "bad_request" "bad signature header")
    | some sig =>
      if ¬ srv.verify pub (delSigMessage id) sig then
        .error (badSignature "signature check failed")
      else .ok (pub, id)

/-- What the headers and the body of a put bring. -/
structure PutFields where
  pub : PubKey
  id : BlobID
  ttl : Int64
  sig : Sig
  payload : Bytes
  deriving DecidableEq

def Server.checkPut (q : RestRequest) (arr : Arrival) : Except Response PutFields := do
  srv.checkCaller q arr rateLimited
  let pub ← srv.restIdentity q
  match decodeBlobID q.blobID with
  | none => .error (.error 400 "bad_request" "bad blob id header")
  | some id =>
    match parseInt q.ttl with
    | none => .error (.error 400 "bad_request" "bad ttl header")
    | some ttl =>
      match decodeSig q.signature with
      | none => .error (.error 400 "bad_request" "bad signature header")
      | some sig =>
        if q.body = [] ∨ (q.body.length : ℤ) > srv.maxBlobSize then
          .error (.error 413 "too_large" "payload over max_blob_size")
        else if ¬ srv.verify pub (sigMessage id (Int64.ofInt ttl) q.body) sig then
          .error (badSignature "signature check failed")
        else .ok ⟨pub, id, Int64.ofInt ttl, sig, q.body⟩

end Checks

section Handlers

variable (srv : Server)

/-- The time to live within the relay's bounds. -/
def Server.clampTTL (ttl : Int64) : Int64 :=
  let ttl := if ttl < srv.minTTL then srv.minTTL else ttl
  if ttl > srv.maxTTL then srv.maxTTL else ttl

def Server.putRecord (f : PutFields) (now : Int64) : Record where
  id := f.id
  identity := f.pub
  payload := f.payload
  sig := f.sig
  expiresAt := now + srv.clampTTL f.ttl

/-- `PUT /v1/blobs`. -/
def Server.handlePut (q : RestRequest) (arr : Arrival) : RelayProg Response :=
  match srv.checkPut q arr with
  | .error res => pure res
  | .ok f => do
    let r := srv.putRecord f arr.now
    match ← RelayProg.putWithin r srv.identityQuota srv.maxStorage with
    | .ok () =>
      RelayProg.publish (srv.idOf f.pub) (.added (b64 f.id.val)) []
      pure (.putOK (b64 f.id.val) r.expiresAt)
    | .error .quotaExceeded => pure (.error 403 "quota_exceeded" "identity quota exceeded")
    | .error .storageFull => pure (.error 507 "storage_full" "relay storage full")
    | .error .exists => pure (.error 409 "bad_request" "blob id exists")
    | .error _ => pure (.error 500 "internal" "store failed")

/-- An `If-None-Match` header contains an ETag. -/
def matchETag (ifNoneMatch etag : Text) : Bool :=
  (ifNoneMatch.splitOn ',').any fun t => trimSpace t = etag ∨ trimSpace t = ['*']

/-- `GET /v1/blobs/{id}`. -/
def Server.handleGet (q : RestRequest) (arr : Arrival) : RelayProg Response :=
  match srv.checkGet q arr with
  | .error res => pure res
  | .ok (pub, id) =>
    let raw : Bool := q.raw ∨ "application/octet-stream".toList <:+: q.accept
    if raw ∧ q.range ≠ [] then do
      let res ← serveRange (M := RelayProg)
        (fun start stop now => RelayProg.getRange pub id start stop now) arr.now arr.later q.range
      pure (.range res)
    else do
      match ← RelayProg.get pub id arr.now with
      | .error e => pure (storeGetErr e)
      | .ok r =>
        let etag := '"' :: b64 (r.sig.val.take 16) ++ ['"']
        if raw ∧ matchETag q.ifNoneMatch etag then pure (.bare 304)
        else if ¬ raw then pure (.blob (b64 id.val) (b64 r.payload) r.expiresAt (b64 r.sig.val))
        else pure (.raw etag r.expiresAt (b64 r.sig.val) r.payload)

/-- `HEAD /v1/blobs/{id}`. -/
def Server.handleHead (q : RestRequest) (arr : Arrival) : RelayProg Response :=
  match srv.checkHead q arr with
  | .error res => pure res
  | .ok (pub, id) => do
    let items ← RelayProg.list pub arr.now
    match items.find? fun m => m.id = id with
    | some m => pure (.head m.expiresAt (b64 m.sig.val) m.size)
    | none => pure (.error 404 "not_found" "not found")

/-- `GET /v1/blobs`. -/
def Server.handleList (q : RestRequest) (arr : Arrival) : RelayProg Response :=
  match srv.checkList q arr with
  | .error res => pure res
  | .ok pub => do
    let items ← RelayProg.list pub arr.now
    pure (.blobs (items.map fun m => (b64 m.id.val, m.size, m.expiresAt)))

/-- `DELETE /v1/blobs/{id}`. -/
def Server.handleDelete (q : RestRequest) (arr : Arrival) : RelayProg Response :=
  match srv.checkDelete q arr with
  | .error res => pure res
  | .ok (pub, id) => do
    match ← RelayProg.delete pub id with
    | .error _ => pure (.error 404 "not_found" "not found")
    | .ok () =>
      RelayProg.publish (srv.idOf pub) (.removed (b64 id.val)) []
      pure (.bare 204)

/-- The signed requests. -/
inductive Method
  | put
  | get
  | head
  | list
  | delete
  deriving DecidableEq

def Server.handle : Method → RestRequest → Arrival → RelayProg Response
  | .put => srv.handlePut
  | .get => srv.handleGet
  | .head => srv.handleHead
  | .list => srv.handleList
  | .delete => srv.handleDelete

end Handlers

end Tactile.Relay.Rest

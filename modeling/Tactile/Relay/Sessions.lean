import Tactile.Lib.Threads
import Tactile.Relay.Hub

/-!
WebSocket connections of the relay: what a connection does with each message and
when it is closed, over the shared state of connections, hub and store.
-/

namespace Tactile.Relay.Sessions

open Tactile.Lib.Program Tactile.Lib.FiniteMap Tactile.Lib.NestedMap Tactile.Lib.ByteString
open Tactile.Lib.Base64 Tactile.Lib.Threads
open Tactile.Relay.Blob Tactile.Relay.Oracle Tactile.Relay.FsStore Tactile.Relay.Signing
open Tactile.Relay.Rest Tactile.Relay.Hub
open Tactile.Relay.ClientIP (Text)

section Messages

structure Auth where
  pubkey : Text
  sig : Text
  powNonce : Text
  deriving DecidableEq

structure Put where
  id : Text
  payload : Text
  ttlSeconds : Int64
  sig : Text
  deriving DecidableEq

/-- The messages of a client. -/
inductive Message
  | auth (m : Auth)
  | put (m : Put)
  | get (id : Text)
  | del (id sig : Text)
  | list
  | sub
  | signal (toConn payload : Text)
  deriving DecidableEq

/-- What a connection reads: a message, or data that does not decode to one. -/
inductive Incoming
  | message (m : Message)
  | malformed (err : String)
  deriving DecidableEq

/-- What a connection answers to its own client. -/
inductive Reply
  | hello (version : ℕ) (relayID challenge : Text) (powBits maxBlobSize : ℤ)
      (minTTLSeconds maxTTLSeconds : Int64) (identityQuota challengeTTLMS : ℤ) (now : Int64)
  | ok
  | putOK (id : Text) (expiresAt : Int64)
  | blob (id payload : Text) (expiresAt : Int64) (sig : Text)
  | blobs (items : List (Text × ℤ × Int64))
  | error (code message : String)

/-- What the hub delivers. -/
inductive Frame
  | blob (event : BlobEvent)
  | peerJoined (connID : Text)
  | peerLeft (connID : Text)
  | signal (sender payload : Text)
  deriving DecidableEq

end Messages

section State

/-- The reader of a connection: it has yet to say hello, waits for a message,
works on one, or has returned. -/
inductive Reader
  | fresh
  | idle
  | busy
  | returned
  deriving DecidableEq

/-- The progress of a function that runs once. -/
inductive Once
  | ready
  | running
  | finished
  deriving DecidableEq

/-- One websocket client. -/
structure Conn where
  connID : Text
  challenge : ByteArr 32
  chalAt : ℤ
  pub : PubKey
  id : IdentityID
  authed : Bool
  reader : Reader
  once : Once

def Conn.new (connID : Text) (challenge : ByteArr 32) (chalAt : ℤ) : Conn where
  connID := connID
  challenge := challenge
  chalAt := chalAt
  pub := ⟨List.replicate 32 0, length_zeros32⟩
  id := ⟨List.replicate 32 0, length_zeros32⟩
  authed := false
  reader := .fresh
  once := .ready

/-- A relay: its connections by number, its hub and its store. -/
structure State (idOf : PubKey → IdentityID) where
  conns : Dict ℕ Conn
  hub : Subs
  store : Model idOf

variable {idOf : PubKey → IdentityID}

def State.setConn (s : State idOf) (c : ℕ) (conn : Conn) : State idOf :=
  { s with conns := s.conns.insert c conn }

/-- A relay without connections. -/
def State.start (store : Model idOf) : State idOf := ⟨∅, ∅, store⟩

end State

section Calls

/-- The atomic parts of what connections do. `accept` makes a connection, `greet`
and `turn` start the reader's hello and its next message, `rest` and `leave` end
them; `once` enters the function that `close` runs once, `finish` ends it. -/
inductive WsOp
  | accept (c : ℕ)
  | greet (c : ℕ)
  | turn (c : ℕ)
  | rest (c : ℕ)
  | leave (c : ℕ)
  | read (c : ℕ)
  | allow (c : ℕ)
  | send (c : ℕ) (reply : Reply)
  | fields (c : ℕ)
  | setPub (c : ℕ) (pub : PubKey)
  | setID (c : ℕ) (id : IdentityID)
  | setAuthed (c : ℕ)
  | clock
  | now
  | subscribe (id : IdentityID) (s : Subscriber)
  | setEvents (id : IdentityID) (connID : Text) (on : Bool)
  | unsubscribe (id : IdentityID) (connID : Text)
  | publish (id : IdentityID) (frame : Frame) (excludeConnID : Text)
  | broadcast (id : IdentityID) (frame : Frame) (excludeConnID : Text)
  | route (id : IdentityID) (connID : Text) (frame : Frame)
  | store (o : RelayOp)
  | once (c : ℕ)
  | shut (c : ℕ)
  | finish (c : ℕ)

/-- A publish and a broadcast are answered with the connections whose queues have
taken the frame. -/
abbrev WsAns : WsOp → Type
  | .accept _ => Text × ByteArr 32 × ℤ
  | .read _ => Option Incoming
  | .allow _ => Bool
  | .fields _ => Conn
  | .clock => ℤ
  | .now => Int64
  | .subscribe .. => Bool
  | .setEvents .. => Bool
  | .publish .. => List ℕ
  | .broadcast .. => List ℕ
  | .route .. => Bool
  | .store o => RelayAns o
  | .once _ => Bool
  | _ => Unit

variable {idOf : PubKey → IdentityID}

/-- The answers of a relay. A reader works on one message at a time. Any data may
be read, and a queue takes a frame or is full. Who enters `close` while another
runs it waits until that has finished. -/
inductive Serves : Answers WsOp WsAns (State idOf)
  | accept (s : State idOf) (c : ℕ) (connID : Text) (challenge : ByteArr 32) (chalAt : ℤ) :
      s.conns.lookup c = none →
      Serves s (.accept c) (connID, challenge, chalAt) (s.setConn c (.new connID challenge chalAt))
  | greet (s : State idOf) (c : ℕ) (conn : Conn) :
      s.conns.lookup c = some conn → conn.reader = .fresh →
      Serves s (.greet c) () (s.setConn c { conn with reader := .busy })
  | turn (s : State idOf) (c : ℕ) (conn : Conn) :
      s.conns.lookup c = some conn → conn.reader = .idle →
      Serves s (.turn c) () (s.setConn c { conn with reader := .busy })
  | rest (s : State idOf) (c : ℕ) (conn : Conn) :
      s.conns.lookup c = some conn →
      Serves s (.rest c) () (s.setConn c { conn with reader := .idle })
  | leave (s : State idOf) (c : ℕ) (conn : Conn) :
      s.conns.lookup c = some conn →
      Serves s (.leave c) () (s.setConn c { conn with reader := .returned })
  | read (s : State idOf) (c : ℕ) (incoming : Option Incoming) : Serves s (.read c) incoming s
  | allow (s : State idOf) (c : ℕ) (allowed : Bool) : Serves s (.allow c) allowed s
  | send (s : State idOf) (c : ℕ) (reply : Reply) : Serves s (.send c reply) () s
  | fields (s : State idOf) (c : ℕ) (conn : Conn) :
      s.conns.lookup c = some conn → Serves s (.fields c) conn s
  | setPub (s : State idOf) (c : ℕ) (conn : Conn) (pub : PubKey) :
      s.conns.lookup c = some conn →
      Serves s (.setPub c pub) () (s.setConn c { conn with pub := pub })
  | setID (s : State idOf) (c : ℕ) (conn : Conn) (id : IdentityID) :
      s.conns.lookup c = some conn →
      Serves s (.setID c id) () (s.setConn c { conn with id := id })
  | setAuthed (s : State idOf) (c : ℕ) (conn : Conn) :
      s.conns.lookup c = some conn →
      Serves s (.setAuthed c) () (s.setConn c { conn with authed := true })
  | clock (s : State idOf) (t : ℤ) : Serves s .clock t s
  | now (s : State idOf) (t : Int64) : Serves s .now t s
  | subscribe (s : State idOf) (id : IdentityID) (sub : Subscriber) :
      Serves s (.subscribe id sub) (s.hub.subscribe id sub).1
        { s with hub := (s.hub.subscribe id sub).2 }
  | setEvents (s : State idOf) (id : IdentityID) (connID : Text) (on : Bool) :
      Serves s (.setEvents id connID on) (s.hub.setEvents id connID on).1
        { s with hub := (s.hub.setEvents id connID on).2 }
  | unsubscribe (s : State idOf) (id : IdentityID) (connID : Text) :
      Serves s (.unsubscribe id connID) () { s with hub := s.hub.unsubscribe id connID }
  | publish (s : State idOf) (id : IdentityID) (frame : Frame) (excludeConnID : Text)
      (taken : List ℕ) :
      taken.Sublist ((s.hub.eventReceivers id excludeConnID).map Subscriber.send) →
      Serves s (.publish id frame excludeConnID) taken s
  | broadcast (s : State idOf) (id : IdentityID) (frame : Frame) (excludeConnID : Text)
      (taken : List ℕ) :
      taken.Sublist ((s.hub.receivers id excludeConnID).map Subscriber.send) →
      Serves s (.broadcast id frame excludeConnID) taken s
  | route (s : State idOf) (id : IdentityID) (connID : Text) (frame : Frame) (taken : Bool) :
      (taken = true → (find s.hub id connID).isSome) → Serves s (.route id connID frame) taken s
  | store (s : State idOf) (o : RelayOp) (ans : RelayAns o) (store' : Model idOf) :
      Rest.Serves s.store o ans store' → Serves s (.store o) ans { s with store := store' }
  | once (s : State idOf) (c : ℕ) (conn : Conn) :
      s.conns.lookup c = some conn → conn.once = .ready →
      Serves s (.once c) true (s.setConn c { conn with once := .running })
  | onceMore (s : State idOf) (c : ℕ) (conn : Conn) :
      s.conns.lookup c = some conn → conn.once = .finished → Serves s (.once c) false s
  | shut (s : State idOf) (c : ℕ) : Serves s (.shut c) () s
  | finish (s : State idOf) (c : ℕ) (conn : Conn) :
      s.conns.lookup c = some conn →
      Serves s (.finish c) () (s.setConn c { conn with once := .finished })

abbrev WsM : Type → Type := Prog WsOp WsAns

/-- Makes a call. -/
def ws (o : WsOp) : WsM (WsAns o) := Prog.op o

/-- The connections that an operation delivers a frame to. -/
def deliveries (s : State idOf) : (o : WsOp) → WsAns o → List ℕ
  | .publish .., taken | .broadcast .., taken => taken
  | .route id connID _, taken =>
    if taken then (find s.hub id connID).toList.map Subscriber.send else []
  | _, _ => []

end Calls

/-- A relay with what its WebSocket connections need. -/
structure WsServer extends Rest.Server where
  sha256 : Bytes → ByteArr 32
  powBits : ℤ
  challengeTTL : ℤ
  relayID : Text

section Checks

def maxPoWNonceLen : ℕ := 32

def maxSignalPayload : ℕ := 65536

/-- The zero bits of a byte from the most significant end. -/
def leadingZeros8 (b : UInt8) : ℕ := if b = 0 then 8 else 7 - Nat.log2 b.toNat

/-- The zero bits from the most significant end. -/
def leadingZeroBits : Bytes → ℕ
  | [] => 0
  | b :: bs => if b = 0 then 8 + leadingZeroBits bs else leadingZeros8 b

variable (srv : WsServer)

/-- The digest of challenge, key and nonce starts with so many zero bits. -/
def WsServer.checkPoW (challenge : ByteArr 32) (pub : PubKey) (nonce : Bytes) : Bool :=
  srv.powBits ≤ 0 ∨
    (leadingZeroBits (srv.sha256 (challenge.val ++ pub.val ++ nonce)).val : ℤ) ≥ srv.powBits

/-- The nonce of an `auth`, which is read only when work is asked for. -/
def WsServer.powNonce (m : Auth) : Option Bytes :=
  if srv.powBits > 0 then
    (decode std true m.powNonce).filter fun nonce =>
      decide (nonce ≠ [] ∧ nonce.length ≤ maxPoWNonceLen)
  else some []

/-- The checks of an `auth` with a key and a signature, and the code and text of
the one that fails. -/
def WsServer.checkAuth (challenge : ByteArr 32) (chalAt : ℤ) (m : Auth) (pub : PubKey) (sig : Sig)
    (clock : ℤ) : Except (String × String) Unit :=
  if clock - chalAt > srv.challengeTTL then .error ("expired", "challenge expired")
  else
    match srv.powNonce m with
    | none => .error ("bad_pow", "bad pow nonce")
    | some nonce =>
      if ¬ srv.checkPoW challenge pub nonce then .error ("bad_pow", "pow below difficulty")
      else if ¬ srv.verify pub (authMessage challenge pub) sig then
        .error ("bad_signature", "signature check failed")
      else if ¬ srv.allowIdentity pub then .error ("not_allowed", "identity not allowed")
      else .ok ()

/-- A valid `auth` for a key: signed over the challenge, within its lifetime, with
the work that is asked for, and allowed. -/
structure WsServer.Accepts (challenge : ByteArr 32) (chalAt : ℤ) (m : Auth) (clock : ℤ)
    (pub : PubKey) : Prop where
  key : decodePubKey m.pubkey = some pub
  signed : ∃ sig, decodeSig m.sig = some sig ∧ srv.verify pub (authMessage challenge pub) sig = true
  inTime : clock ≤ chalAt + srv.challengeTTL
  worked : srv.powBits ≤ 0 ∨ ∃ nonce, decode std true m.powNonce = some nonce ∧
    (leadingZeroBits (srv.sha256 (challenge.val ++ pub.val ++ nonce)).val : ℤ) ≥ srv.powBits
  allowed : srv.allowIdentity pub = true

variable {srv}

theorem checkAuth_accepts {challenge : ByteArr 32} {chalAt : ℤ} {m : Auth} {pub : PubKey} {sig : Sig}
    {clock : ℤ} (hpub : decodePubKey m.pubkey = some pub) (hsig : decodeSig m.sig = some sig)
    (h : srv.checkAuth challenge chalAt m pub sig clock = .ok ()) :
    srv.Accepts challenge chalAt m clock pub := by
  rw [WsServer.checkAuth] at h
  split at h
  next => cases h
  next htime =>
    split at h
    next => cases h
    next nonce hnonce =>
      split at h
      next => cases h
      next hpow =>
        split at h
        next => cases h
        next hverify =>
          split at h
          next => cases h
          next hallowed =>
            refine ⟨hpub, ⟨sig, hsig, not_not.mp hverify⟩, ?_, ?_, not_not.mp hallowed⟩
            · omega
            · refine or_iff_not_imp_left.mpr fun hbits => ⟨nonce, ?_, ?_⟩
              · rw [WsServer.powNonce, if_pos (not_le.mp hbits)] at hnonce
                exact (Option.filter_eq_some_iff.mp hnonce).1
              · exact (of_decide_eq_true (not_not.mp hpow)).resolve_left hbits

end Checks

section Handlers

variable (srv : WsServer) (c : ℕ)

/-- The 16 random bytes of a connection's id, its challenge and the clock. -/
def handleWS : WsM Unit := do
  let _ : Text × ByteArr 32 × ℤ ← ws (.accept c)
  pure ()

def sendErr (code message : String) : WsM Unit := ws (.send c (.error code message))

/-- A valid `auth`: drops the old registration, then registers the connection and
tells the identity's other devices. -/
def register (conn : Conn) (pub : PubKey) : WsM Unit := do
  if conn.authed then ws (.unsubscribe conn.id conn.connID) else pure ()
  ws (.setPub c pub)
  ws (.setID c (srv.idOf pub))
  ws (.setAuthed c)
  let _ : Bool ← ws (.subscribe (srv.idOf pub) ⟨conn.connID, false, c⟩)
  ws (.send c .ok)
  let _ : List ℕ ← ws (.broadcast (srv.idOf pub) (.peerJoined conn.connID) conn.connID)
  pure ()

def handleAuth (conn : Conn) (m : Auth) : WsM Unit :=
  match decodePubKey m.pubkey with
  | none => sendErr c "bad_request" "bad pubkey"
  | some pub =>
    match decodeSig m.sig with
    | none => sendErr c "bad_request" "bad signature"
    | some sig => do
      let clock : ℤ ← ws .clock
      match srv.checkAuth conn.challenge conn.chalAt m pub sig clock with
      | .error (code, message) => sendErr c code message
      | .ok () => register srv c conn pub

/-- Tells the identity's other devices about a blob. -/
def publishBlob (conn : Conn) (event : BlobEvent) : WsM Unit := do
  let _ : List ℕ ← ws (.publish conn.id (.blob event) conn.connID)
  pure ()

/-- What a put answers when the store fails. -/
def putErr : Err → String × String
  | .quotaExceeded => ("quota_exceeded", "identity quota exceeded")
  | .storageFull => ("storage_full", "relay storage full")
  | .exists => ("bad_request", "blob id exists")
  | _ => ("internal", "store failed")

def handlePut (conn : Conn) (m : Put) : WsM Unit :=
  match decodeBlobID m.id with
  | none => sendErr c "bad_request" "bad blob id"
  | some id =>
    match decode std true m.payload with
    | none => sendErr c "bad_request" "bad payload"
    | some payload =>
      if payload = [] ∨ (payload.length : ℤ) > srv.maxBlobSize then
        sendErr c "too_large" "payload over max_blob_size"
      else
        match decodeSig m.sig with
        | none => sendErr c "bad_request" "bad signature"
        | some sig =>
          if ¬ srv.verify conn.pub (sigMessage id m.ttlSeconds payload) sig then
            sendErr c "bad_signature" "signature check failed"
          else do
            let now : Int64 ← ws .now
            let r := srv.putRecord ⟨conn.pub, id, m.ttlSeconds, sig, payload⟩ now
            let put : Except Err Unit ←
              ws (.store (.putWithin r srv.identityQuota srv.maxStorage))
            match put with
            | .error e => sendErr c (putErr e).1 (putErr e).2
            | .ok () => do
              ws (.send c (.putOK m.id r.expiresAt))
              publishBlob conn (.added m.id)

def handleGet (conn : Conn) (id : Text) : WsM Unit :=
  match decodeBlobID id with
  | none => sendErr c "bad_request" "bad blob id"
  | some bid => do
    let now : Int64 ← ws .now
    let got : Except Err Record ← ws (.store (.get conn.pub bid now))
    match got with
    | .error .expired => sendErr c "expired" "blob expired"
    | .error _ => sendErr c "not_found" "not found"
    | .ok r => ws (.send c (.blob id (b64 r.payload) r.expiresAt (b64 r.sig.val)))

def handleDel (conn : Conn) (id sig : Text) : WsM Unit :=
  match decodeBlobID id with
  | none => sendErr c "bad_request" "bad blob id"
  | some bid =>
    match decodeSig sig with
    | none => sendErr c "bad_request" "bad signature"
    | some sig =>
      if ¬ srv.verify conn.pub (delSigMessage bid) sig then
        sendErr c "bad_signature" "signature check failed"
      else do
        let deleted : Except Err Unit ← ws (.store (.delete conn.pub bid))
        match deleted with
        | .error _ => sendErr c "not_found" "not found"
        | .ok () => do
          ws (.send c .ok)
          publishBlob conn (.removed id)

def handleList (conn : Conn) : WsM Unit := do
  let now : Int64 ← ws .now
  let items : List ListMeta ← ws (.store (.list conn.pub now))
  ws (.send c (.blobs (items.map fun m => (b64 m.id.val, m.size, m.expiresAt))))

def handleSignal (conn : Conn) (toConn payload : Text) : WsM Unit :=
  match decode std true payload with
  | none => sendErr c "bad_request" "bad signal payload"
  | some bytes =>
    if bytes = [] ∨ bytes.length > maxSignalPayload then
      sendErr c "bad_request" "bad signal payload"
    else if toConn ≠ [] then do
      let routed : Bool ← ws (.route conn.id toConn (.signal conn.connID payload))
      if routed then pure () else sendErr c "not_found" "peer not found"
    else do
      let _ : List ℕ ← ws (.broadcast conn.id (.signal conn.connID payload) conn.connID)
      pure ()

/-- The messages of an authenticated connection. -/
def dispatch (conn : Conn) : Message → WsM Unit
  | .auth _ => pure ()
  | .put m => handlePut srv c conn m
  | .get id => handleGet c conn id
  | .del id sig => handleDel srv c conn id sig
  | .list => handleList c conn
  | .sub => do
    let _ : Bool ← ws (.setEvents conn.id conn.connID true)
    ws (.send c .ok)
  | .signal toConn payload => handleSignal c conn toConn payload

/-- What a reader does with a message, given the fields of its connection, which
only the reader writes. -/
def handleMessage (conn : Conn) : Message → WsM Unit
  | .auth m => handleAuth srv c conn m
  | m => if conn.authed then dispatch srv c conn m else sendErr c "unauthenticated" "auth required"

/-- Drops the connection from the hub and tells its identity's other devices; the
fields are read as they are at the time. -/
def unregister : WsM Unit := do
  let conn : Conn ← ws (.fields c)
  if conn.authed then do
    let conn : Conn ← ws (.fields c)
    ws (.unsubscribe conn.id conn.connID)
    let conn : Conn ← ws (.fields c)
    let _ : List ℕ ← ws (.broadcast conn.id (.peerLeft conn.connID) conn.connID)
    pure ()
  else pure ()

/-- The closing of a connection, by its reader, a slow send or the shutdown of the
server. -/
def close : WsM Unit := do
  let first : Bool ← ws (.once c)
  if first then do
    unregister c
    ws (.shut c)
    ws (.finish c)
  else pure ()

/-- What a reader says first. -/
def greet (minTTLSeconds maxTTLSeconds : Int64) (challengeTTLMS : ℤ) : WsM Unit := do
  ws (.greet c)
  let conn : Conn ← ws (.fields c)
  let now : Int64 ← ws .now
  ws (.send c (.hello 1 srv.relayID (b64 conn.challenge.val) srv.powBits srv.maxBlobSize
    minTTLSeconds maxTTLSeconds srv.identityQuota challengeTTLMS now))
  ws (.rest c)

/-- One round of a reader: it reads a message and works on it, or closes the
connection and returns. -/
def readNext : WsM Unit := do
  ws (.turn c)
  let incoming : Option Incoming ← ws (.read c)
  match incoming with
  | none => do
    close c
    ws (.leave c)
  | some incoming => do
    let allowed : Bool ← ws (.allow c)
    if ¬ allowed then sendErr c "rate_limited" "message rate exceeded"
    else
      match incoming with
      | .malformed err => sendErr c "bad_request" err
      | .message m => do
        let conn : Conn ← ws (.fields c)
        handleMessage srv c conn m
    ws (.rest c)

/-- The event of a blob that a REST request has stored or deleted. -/
def publishREST (id : IdentityID) (event : BlobEvent) : WsM Unit := do
  let _ : List ℕ ← ws (.publish id (.blob event) [])
  pure ()

end Handlers

end Tactile.Relay.Sessions

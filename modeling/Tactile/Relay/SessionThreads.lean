import Tactile.Relay.Sessions

/-!
What a thread of a connection has observed when it changes its connection, calls the
hub or uses the store, whatever it is answered.
-/

namespace Tactile.Relay.SessionThreads

open Tactile.Lib.Program Tactile.Lib.Threads Tactile.Lib.Base64
open Tactile.Relay.Blob Tactile.Relay.Signing Tactile.Relay.Rest Tactile.Relay.Hub
open Tactile.Relay.Sessions
open Tactile.Relay.ClientIP (Text)

/-- How far a reader is with a message: it has read the fields of its connection,
dropped the old registration, or set one field after another and registered. -/
inductive Stage
  | reading
  | dropped
  | keyed
  | named
  | admitted
  | registered
  deriving DecidableEq

/-- How far a closing is: begun, with the connection found authenticated or not, bound
to the identity whose registration it drops, and past that. -/
inductive Closing
  | begun
  | found
  | missed
  | bound (id : IdentityID)
  | dropped
  deriving DecidableEq

/-- A look of `unregister` at the fields. -/
def Closing.look (f : Conn) : Closing → Closing
  | .begun => if f.authed then .found else .missed
  | .found => .bound f.id
  | phase => phase

/-- A thread with the connection it works on, if any, whether it is the reader at
work, the message it has read, the clock, the fields as it has read them last, the key
it has set and how far it is. -/
structure Track where
  conn : Option ℕ
  turn : Bool
  frame : Option Incoming
  clock : Option ℤ
  fields : Option Conn
  key : Option PubKey
  stage : Stage
  closing : Option Closing

def Track.start (conn : Option ℕ) : Track := ⟨conn, false, none, none, none, none, .reading, none⟩

def observe (t : Track) : (o : WsOp) → WsAns o → Track
  | .greet _, _ | .turn _, _ => { t with turn := true }
  | .rest _, _ | .leave _, _ => { t with turn := false }
  | .read _, incoming => { t with frame := incoming }
  | .clock, clock => { t with clock := some clock }
  | .fields _, f => { t with fields := some f, closing := t.closing.map (Closing.look f) }
  | .setPub _ pub, _ => { t with key := some pub, stage := .keyed }
  | .setID .., _ => { t with stage := .named }
  | .setAuthed _, _ => { t with stage := .admitted }
  | .subscribe .., _ => { t with stage := .registered }
  | .unsubscribe .., _ =>
    if t.closing = none then { t with stage := .dropped } else { t with closing := some .dropped }
  | .once _, first => if first then { t with closing := some .begun } else t
  | _, _ => t

/-- The reader of a connection at work, with the fields as it has read them. -/
structure Working (t : Track) (c : ℕ) (f : Conn) : Prop where
  conn : t.conn = some c
  turn : t.turn = true
  live : t.closing = none
  fields : t.fields = some f

/-- The reader of an authenticated connection at work on a message. -/
structure Session (t : Track) (c : ℕ) (f : Conn) : Prop extends Working t c f where
  stage : t.stage = .reading
  authed : f.authed = true

/-- The reader has read a valid `auth` for the key. -/
structure Passed (srv : WsServer) (t : Track) (f : Conn) (pub : PubKey) : Prop where
  valid : ∃ m clock, t.frame = some (.message (.auth m)) ∧ t.clock = some clock ∧
    srv.Accepts f.challenge f.chalAt m clock pub

/-- The reader has set the key of a valid `auth`. -/
structure Keyed (srv : WsServer) (t : Track) (c : ℕ) (f : Conn) (pub : PubKey) : Prop
    extends Working t c f where
  passed : Passed srv t f pub
  key : t.key = some pub

/-- The connection was not registered, or its reader has dropped the registration. -/
def Cleared (t : Track) (f : Conn) : Prop :=
  t.stage = .dropped ∨ (t.stage = .reading ∧ f.authed = false)

/-- The key whose blobs an operation of the store is about. -/
def subject : RelayOp → Option PubKey
  | .putWithin r .. => some r.identity
  | .get pub .. | .getRange pub .. | .list pub _ | .delete pub _ => some pub
  | .publish .. => none

/-- What a thread has observed before each of its operations. -/
def Guard (srv : WsServer) (t : Track) : WsOp → Prop
  | .accept c | .read c | .shut c => t.conn = some c
  | .greet c | .turn c => t.conn = some c ∧ t.turn = false ∧ t.fields = none
  | .rest c | .leave c => t.conn = some c ∧ t.turn = true
  | .fields c => t.conn = some c ∧ (t.closing = none → t.turn = true ∧ t.stage = .reading)
  | .setPub c pub => ∃ f, Working t c f ∧ Passed srv t f pub ∧ Cleared t f
  | .setID c id => ∃ f pub, Keyed srv t c f pub ∧ t.stage = .keyed ∧ id = srv.idOf pub
  | .setAuthed c => ∃ f pub, Keyed srv t c f pub ∧ t.stage = .named
  | .subscribe id s => ∃ c f pub, Keyed srv t c f pub ∧ t.stage = .admitted ∧
      id = srv.idOf pub ∧ s = ⟨f.connID, false, c⟩
  | .setEvents id connID _ => ∃ c f, Session t c f ∧ id = f.id ∧ connID = f.connID
  | .unsubscribe id connID => ∃ c f, id = f.id ∧ connID = f.connID ∧ (Session t c f ∨
      (t.conn = some c ∧ t.fields = some f ∧ t.closing = some (.bound id)))
  | .publish id _ connID => (t.conn = none ∧ connID = []) ∨
      ∃ c f, Session t c f ∧ id = f.id ∧ connID = f.connID
  | .broadcast id _ connID => ∃ c f, connID = f.connID ∧ ((Session t c f ∧ id = f.id) ∨
      (∃ pub, Keyed srv t c f pub ∧ t.stage = .registered ∧ id = srv.idOf pub) ∨
      (t.conn = some c ∧ t.fields = some f ∧ t.closing = some .dropped ∧ id = f.id))
  | .route id _ _ => ∃ c f, Session t c f ∧ id = f.id
  | .store o => ∃ c f, Session t c f ∧ subject o = some f.pub
  | .once c => t.conn = some c ∧ t.closing = none
  | .finish c => t.conn = some c ∧ (t.closing = some .missed ∨ t.closing = some .dropped)
  | .allow _ | .send .. | .clock | .now => True

abbrev Guarded (srv : WsServer) {α : Type} (Q : α → Track → Prop) (p : WsM α) (t : Track) : Prop :=
  Holds (Observes observe) (Guard srv) Q p t

/-- A thread is still of its connection and still, or still not, the reader at work. -/
structure Keeps (t t' : Track) : Prop where
  conn : t'.conn = t.conn
  turn : t'.turn = t.turn

section Rules

variable {srv : WsServer} {α β : Type}

/-- A call that the guard admits. -/
theorem guarded_ws {o : WsOp} {next : WsAns o → WsM α} {Q : α → Track → Prop} {t : Track}
    (hguard : Guard srv t o) (hnext : ∀ ans, Guarded srv Q (next ans) (observe t o ans)) :
    Guarded srv Q (ws o >>= next) t :=
  ⟨hguard, fun ans _ ht => ht ▸ hnext ans⟩

theorem guarded_last {o : WsOp} {Q : WsAns o → Track → Prop} {t : Track} (hguard : Guard srv t o)
    (hQ : ∀ ans, Q ans (observe t o ans)) : Guarded srv Q (ws o) t :=
  ⟨hguard, fun ans _ ht => ht ▸ hQ ans⟩

theorem guarded_bind {p : WsM β} {f : β → WsM α} {Q' : β → Track → Prop}
    {Q : α → Track → Prop} {t : Track} (hp : Guarded srv Q' p t)
    (hf : ∀ a t', Q' a t' → Guarded srv Q (f a) t') : Guarded srv Q (p >>= f) t :=
  (holds_bind p f t).mpr (hp.imp hf)

theorem guarded_send (c : ℕ) (reply : Reply) (t : Track) :
    Guarded srv (fun _ => Keeps t) (ws (.send c reply)) t :=
  guarded_last trivial fun _ => ⟨rfl, rfl⟩

theorem guarded_sendErr (c : ℕ) (code message : String) (t : Track) :
    Guarded srv (fun _ => Keeps t) (sendErr c code message) t :=
  guarded_send c _ t

end Rules

section Handlers

variable {srv : WsServer} {c : ℕ} {f : Conn} {t : Track}

theorem Session.publishBlob_guarded (h : Session t c f) (event : BlobEvent) :
    Guarded srv (fun _ => Keeps t) (publishBlob f event) t :=
  guarded_ws (.inr ⟨c, f, h, rfl, rfl⟩) fun _ => ⟨rfl, rfl⟩

theorem Session.handlePut_guarded (h : Session t c f) (m : Put) :
    Guarded srv (fun _ => Keeps t) (handlePut srv c f m) t := by
  rw [handlePut]
  split
  next => exact guarded_sendErr ..
  next id _ =>
    split
    next => exact guarded_sendErr ..
    next payload _ =>
      split
      next => exact guarded_sendErr ..
      next =>
        split
        next => exact guarded_sendErr ..
        next sig _ =>
          split
          next => exact guarded_sendErr ..
          next =>
            refine guarded_ws (o := .now) trivial fun now => ?_
            refine guarded_ws ⟨c, f, h, rfl⟩ fun put => ?_
            cases put with
            | error e => exact guarded_sendErr ..
            | ok => exact guarded_ws (o := .send ..) trivial fun _ => h.publishBlob_guarded _

theorem Session.handleGet_guarded (h : Session t c f) (id : Text) :
    Guarded srv (fun _ => Keeps t) (handleGet c f id) t := by
  rw [handleGet]
  split
  next => exact guarded_sendErr ..
  next bid _ =>
    refine guarded_ws (o := .now) trivial fun now => ?_
    refine guarded_ws ⟨c, f, h, rfl⟩ fun got => ?_
    split
    next => exact guarded_sendErr ..
    next => exact guarded_sendErr ..
    next => exact guarded_send ..

theorem Session.handleDel_guarded (h : Session t c f) (id sig : Text) :
    Guarded srv (fun _ => Keeps t) (handleDel srv c f id sig) t := by
  rw [handleDel]
  split
  next => exact guarded_sendErr ..
  next bid _ =>
    split
    next => exact guarded_sendErr ..
    next =>
      split
      next => exact guarded_sendErr ..
      next =>
        refine guarded_ws ⟨c, f, h, rfl⟩ fun deleted => ?_
        cases deleted with
        | error e => exact guarded_sendErr ..
        | ok => exact guarded_ws (o := .send ..) trivial fun _ => h.publishBlob_guarded _

theorem Session.handleList_guarded (h : Session t c f) :
    Guarded srv (fun _ => Keeps t) (handleList c f) t := by
  refine guarded_ws (o := .now) trivial fun now => ?_
  exact guarded_ws ⟨c, f, h, rfl⟩ fun items => guarded_send ..

theorem Session.handleSignal_guarded (h : Session t c f) (toConn payload : Text) :
    Guarded srv (fun _ => Keeps t) (handleSignal c f toConn payload) t := by
  rw [handleSignal]
  split
  next => exact guarded_sendErr ..
  next bytes _ =>
    split
    next => exact guarded_sendErr ..
    next =>
      split
      next =>
        refine guarded_ws ⟨c, f, h, rfl⟩ fun routed => ?_
        cases routed with
        | true => exact ⟨rfl, rfl⟩
        | false => exact guarded_sendErr ..
      next => exact guarded_ws ⟨c, f, rfl, .inl ⟨h, rfl⟩⟩ fun _ => ⟨rfl, rfl⟩

theorem Session.dispatch_guarded (h : Session t c f) (m : Message) :
    Guarded srv (fun _ => Keeps t) (dispatch srv c f m) t := by
  cases m with
  | auth m => exact ⟨rfl, rfl⟩
  | put m => exact h.handlePut_guarded m
  | get id => exact h.handleGet_guarded id
  | del id sig => exact h.handleDel_guarded id sig
  | list => exact h.handleList_guarded
  | sub => exact guarded_ws ⟨c, f, h, rfl, rfl⟩ fun _ => guarded_send ..
  | signal toConn payload => exact h.handleSignal_guarded toConn payload

/-- A registration, once the old one has been dropped. -/
theorem register_guarded {pub : PubKey} (h : Working t c f) (hpassed : Passed srv t f pub)
    (hcleared : Cleared t f) : Guarded srv (fun _ => Keeps t) (do
      ws (.setPub c pub)
      ws (.setID c (srv.idOf pub))
      ws (.setAuthed c)
      let _ : Bool ← ws (.subscribe (srv.idOf pub) ⟨f.connID, false, c⟩)
      ws (.send c .ok)
      let _ : List ℕ ← ws (.broadcast (srv.idOf pub) (.peerJoined f.connID) f.connID)
      pure ()) t := by
  have hkeyed : ∀ stage, Keyed srv { t with key := some pub, stage := stage } c f pub :=
    fun _ => ⟨⟨h.conn, h.turn, h.live, h.fields⟩, ⟨hpassed.valid⟩, rfl⟩
  refine guarded_ws ⟨f, h, hpassed, hcleared⟩ fun _ => ?_
  refine guarded_ws ⟨f, pub, hkeyed .keyed, rfl, rfl⟩ fun _ => ?_
  refine guarded_ws ⟨f, pub, hkeyed .named, rfl⟩ fun _ => ?_
  refine guarded_ws ⟨c, f, pub, hkeyed .admitted, rfl, rfl, rfl⟩ fun _ => ?_
  refine guarded_ws (o := .send ..) trivial fun _ => ?_
  exact guarded_ws ⟨c, f, rfl, .inr (.inl ⟨pub, hkeyed .registered, rfl, rfl⟩)⟩
    fun _ => ⟨rfl, rfl⟩

theorem handleAuth_guarded {m : Auth} (h : Working t c f) (hstage : t.stage = .reading)
    (hframe : t.frame = some (.message (.auth m))) :
    Guarded srv (fun _ => Keeps t) (handleAuth srv c f m) t := by
  rw [handleAuth]
  split
  next => exact guarded_sendErr ..
  next pub hpub =>
    split
    next => exact guarded_sendErr ..
    next sig hsig =>
      refine guarded_ws (o := .clock) trivial fun clock => ?_
      refine Holds.imp (Q := fun _ => Keeps (observe t .clock clock)) ?_ fun _ _ hkeeps =>
        ⟨hkeeps.conn, hkeeps.turn⟩
      split
      next => exact guarded_sendErr ..
      next hcheck =>
        have hpassed : Passed srv (observe t .clock clock) f pub :=
          ⟨m, clock, hframe, rfl, checkAuth_accepts hpub hsig hcheck⟩
        have hworking : Working (observe t .clock clock) c f :=
          ⟨h.conn, h.turn, h.live, h.fields⟩
        rw [register]
        split
        next hauthed =>
          have hsession : Session (observe t .clock clock) c f := ⟨hworking, hstage, hauthed⟩
          refine guarded_ws ⟨c, f, rfl, rfl, .inl hsession⟩ fun _ => ?_
          have hobs : observe (observe t .clock clock) (.unsubscribe f.id f.connID) () =
              { observe t .clock clock with stage := .dropped } := if_pos h.live
          rw [hobs]
          have hworking' : Working { observe t .clock clock with stage := .dropped } c f :=
            ⟨h.conn, h.turn, h.live, h.fields⟩
          exact (register_guarded hworking' ⟨hpassed.valid⟩ (.inl rfl)).imp fun _ _ hkeeps =>
            ⟨hkeeps.conn, hkeeps.turn⟩
        next hauthed =>
          exact register_guarded hworking hpassed (.inr ⟨hstage, Bool.eq_false_of_not_eq_true hauthed⟩)

theorem handleMessage_guarded {m : Message} (h : Working t c f) (hstage : t.stage = .reading)
    (hframe : t.frame = some (.message m)) :
    Guarded srv (fun _ => Keeps t) (handleMessage srv c f m) t := by
  have hrest : Guarded srv (fun _ => Keeps t)
      (if f.authed then dispatch srv c f m else sendErr c "unauthenticated" "auth required") t := by
    split
    next hauthed => exact Session.dispatch_guarded ⟨h, hstage, hauthed⟩ m
    next => exact guarded_sendErr ..
  cases m with
  | auth m => exact handleAuth_guarded h hstage hframe
  | _ => exact hrest

theorem unregister_guarded (hconn : t.conn = some c) (hclosing : t.closing = some .begun) :
    Guarded srv (fun _ t' => Keeps t t' ∧ (t'.closing = some .missed ∨ t'.closing = some .dropped))
      (unregister c) t := by
  refine guarded_ws ⟨hconn, fun hnone => ?_⟩ fun f => ?_
  · rw [hclosing] at hnone
    cases hnone
  have hlook : (observe t (.fields c) f).closing = some (Closing.look f .begun) :=
    congrArg (Option.map (Closing.look f)) hclosing
  split
  next hauthed =>
    rw [Closing.look, if_pos hauthed] at hlook
    refine guarded_ws ⟨hconn, fun hnone => ?_⟩ fun f' => ?_
    · rw [hlook] at hnone
      cases hnone
    have hbound : (observe (observe t (.fields c) f) (.fields c) f').closing = some (.bound f'.id) :=
      congrArg (Option.map (Closing.look f')) hlook
    refine guarded_ws ⟨c, f', rfl, rfl, .inr ⟨hconn, rfl, hbound⟩⟩ fun _ => ?_
    have hobs : observe (observe (observe t (.fields c) f) (.fields c) f')
        (.unsubscribe f'.id f'.connID) () =
          { observe (observe t (.fields c) f) (.fields c) f' with closing := some .dropped } := by
      refine if_neg fun hnone => ?_
      rw [hbound] at hnone
      cases hnone
    rw [hobs]
    refine guarded_ws ⟨hconn, fun hnone => nomatch hnone⟩ fun f'' => ?_
    refine guarded_ws ⟨c, f'', rfl, .inr (.inr ⟨hconn, rfl, rfl, rfl⟩)⟩ fun _ => ?_
    exact ⟨⟨rfl, rfl⟩, .inr rfl⟩
  next hauthed =>
    rw [Closing.look, if_neg hauthed] at hlook
    exact ⟨⟨rfl, rfl⟩, .inl hlook⟩

theorem close_guarded (hconn : t.conn = some c) (hclosing : t.closing = none) :
    Guarded srv (fun _ => Keeps t) (close c) t := by
  refine guarded_ws ⟨hconn, hclosing⟩ fun first => ?_
  split
  next hfirst =>
    have hobs : observe t (.once c) first = { t with closing := some .begun } := if_pos hfirst
    rw [hobs]
    refine guarded_bind (unregister_guarded hconn rfl) fun _ t' ht' => ?_
    obtain ⟨hkeeps, hclosed⟩ := ht'
    refine guarded_ws (hkeeps.conn.trans hconn) fun _ => ?_
    refine guarded_last ⟨hkeeps.conn.trans hconn, hclosed⟩ fun _ => ?_
    exact ⟨hkeeps.conn, hkeeps.turn⟩
  next hfirst =>
    have hobs : observe t (.once c) first = t := if_neg hfirst
    rw [hobs]
    exact ⟨rfl, rfl⟩

end Handlers

/-- What runs on a relay: a new connection, the hello and the rounds of its reader,
its closing, and the event of a REST request. -/
inductive SessionCall
  | handleWS (c : ℕ)
  | greet (c : ℕ) (minTTLSeconds maxTTLSeconds : Int64) (challengeTTLMS : ℤ)
  | readNext (c : ℕ)
  | close (c : ℕ)
  | publishREST (id : IdentityID) (event : BlobEvent)

namespace SessionCall

def conn : SessionCall → Option ℕ
  | .handleWS c | .greet c .. | .readNext c | .close c => some c
  | .publishREST .. => none

def program (srv : WsServer) : SessionCall → WsM Unit
  | .handleWS c => Sessions.handleWS c
  | .greet c minTTLSeconds maxTTLSeconds challengeTTLMS =>
    Sessions.greet srv c minTTLSeconds maxTTLSeconds challengeTTLMS
  | .readNext c => Sessions.readNext srv c
  | .close c => Sessions.close c
  | .publishREST id event => Sessions.publishREST id event

end SessionCall

section Programs

variable {srv : WsServer}

theorem handleWS_guarded (c : ℕ) : Guarded srv (fun _ _ => True) (handleWS c) (.start (some c)) :=
  guarded_ws (o := .accept c) rfl fun _ => trivial

theorem greet_guarded (c : ℕ) (minTTLSeconds maxTTLSeconds : Int64) (challengeTTLMS : ℤ) :
    Guarded srv (fun _ _ => True) (greet srv c minTTLSeconds maxTTLSeconds challengeTTLMS)
      (.start (some c)) := by
  refine guarded_ws (o := .greet c) ⟨rfl, rfl, rfl⟩ fun _ => ?_
  refine guarded_ws (o := .fields c) ⟨rfl, fun _ => ⟨rfl, rfl⟩⟩ fun f => ?_
  refine guarded_ws (o := .now) trivial fun now => ?_
  refine guarded_ws (o := .send ..) trivial fun _ => ?_
  exact guarded_last (o := .rest c) ⟨rfl, rfl⟩ fun _ => trivial

theorem readNext_guarded (c : ℕ) :
    Guarded srv (fun _ _ => True) (readNext srv c) (.start (some c)) := by
  refine guarded_ws (o := .turn c) ⟨rfl, rfl, rfl⟩ fun _ => ?_
  refine guarded_ws (o := .read c) rfl fun incoming => ?_
  cases incoming with
  | none =>
      refine guarded_bind (close_guarded rfl rfl) fun _ t' hkeeps => ?_
      exact guarded_last (o := .leave c) ⟨hkeeps.conn, hkeeps.turn⟩ fun _ => trivial
  | some incoming =>
      refine guarded_ws (o := .allow c) trivial fun allowed => ?_
      have hrest : ∀ t : Track, t.conn = some c → t.turn = true →
          Guarded srv (fun _ _ => True) (ws (.rest c)) t :=
        fun t hconn hturn => guarded_last (o := .rest c) ⟨hconn, hturn⟩ fun _ => trivial
      split
      next =>
        refine guarded_bind (guarded_sendErr ..) fun _ t' hkeeps => ?_
        exact hrest t' hkeeps.conn hkeeps.turn
      next =>
        cases incoming with
        | malformed err =>
            refine guarded_bind (guarded_sendErr ..) fun _ t' hkeeps => ?_
            exact hrest t' hkeeps.conn hkeeps.turn
        | message m =>
            refine guarded_ws (o := .fields c) ⟨rfl, fun _ => ⟨rfl, rfl⟩⟩ fun f => ?_
            refine guarded_bind (handleMessage_guarded ⟨rfl, rfl, rfl, rfl⟩ rfl rfl)
              fun _ t' hkeeps => ?_
            exact hrest t' hkeeps.conn hkeeps.turn

/-- Everything that runs keeps to the guard. -/
theorem program_guarded (srv : WsServer) (call : SessionCall) :
    Guarded srv (fun _ _ => True) (call.program srv) (.start call.conn) := by
  cases call with
  | handleWS c => exact handleWS_guarded c
  | greet c minTTL maxTTL challengeTTLMS => exact greet_guarded c minTTL maxTTL challengeTTLMS
  | readNext c => exact readNext_guarded c
  | close c => exact (close_guarded rfl rfl).imp fun _ _ _ => trivial
  | publishREST id event =>
      exact guarded_ws (o := .publish id (.blob event) []) (.inl ⟨rfl, rfl⟩) fun _ => trivial

end Programs

end Tactile.Relay.SessionThreads

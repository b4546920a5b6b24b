import Tactile.Relay.SessionThreads

/-!
Connections that run on a relay in any order: what the hub's registrations and the
reader at work have to do with the fields of a connection.
-/

namespace Tactile.Relay.Registrations

open Tactile.Lib.Program Tactile.Lib.FiniteMap Tactile.Lib.NestedMap Tactile.Lib.Threads
open Tactile.Lib.ByteString
open Tactile.Relay.Blob Tactile.Relay.Oracle Tactile.Relay.Hub Tactile.Relay.Sessions
open Tactile.Relay.SessionThreads
open Tactile.Relay.ClientIP (Text)

section Effects

variable {idOf : PubKey → IdentityID} {s s' : State idOf} {o : WsOp} {ans : WsAns o}

theorem lookup_setConn (s : State idOf) (c c' : ℕ) (conn : Conn) :
    (s.setConn c conn).conns.lookup c' = if c' = c then some conn else s.conns.lookup c' :=
  lookup_insert_eq ..

/-- What an operation makes of a connection. -/
structure Follows (o : WsOp) (c : ℕ) (conn conn' : Conn) : Prop where
  connID : conn'.connID = conn.connID
  challenge : conn'.challenge = conn.challenge
  chalAt : conn'.chalAt = conn.chalAt
  pub : conn'.pub = conn.pub ∨ o = .setPub c conn'.pub
  id : conn'.id = conn.id ∨ o = .setID c conn'.id
  authed : conn'.authed = conn.authed ∨ (o = .setAuthed c ∧ conn'.authed = true)
  reader : conn'.reader = conn.reader ∨ o = .rest c ∨ o = .leave c ∨
    (conn.reader ≠ .busy ∧ conn'.reader = .busy ∧ (o = .greet c ∨ o = .turn c))
  once : conn'.once = conn.once ∨ (o = .once c ∧ conn'.once = .running) ∨
    (o = .finish c ∧ conn'.once = .finished)

theorem Follows.same (o : WsOp) (c : ℕ) (conn : Conn) : Follows o c conn conn where
  connID := rfl
  challenge := rfl
  chalAt := rfl
  pub := .inl rfl
  id := .inl rfl
  authed := .inl rfl
  reader := .inl rfl
  once := .inl rfl

/-- A connection stays, with what an operation makes of it. -/
theorem served_follows (hserves : Serves s o ans s') {c : ℕ} {conn : Conn}
    (hconn : s.conns.lookup c = some conn) :
    ∃ conn', s'.conns.lookup c = some conn' ∧ Follows o c conn conn' := by
  have hset : ∀ c' conn₀ conn₁, s.conns.lookup c' = some conn₀ →
      (c' = c → conn₀ = conn → Follows o c conn conn₁) →
        ∃ conn', (s.setConn c' conn₁).conns.lookup c = some conn' ∧ Follows o c conn conn' := by
    intro c' conn₀ conn₁ hc' hfollows
    rw [lookup_setConn]
    split
    next heq =>
      subst heq
      exact ⟨conn₁, rfl, hfollows rfl (Option.some.inj (hc'.symm.trans hconn))⟩
    next => exact ⟨conn, hconn, .same o c conn⟩
  cases hserves with
  | accept _ c' connID challenge chalAt hfree =>
      refine ⟨conn, ?_, .same _ c conn⟩
      rw [lookup_setConn, if_neg]
      · exact hconn
      · rintro rfl
        rw [hfree] at hconn
        cases hconn
  | greet _ c' conn₀ hc' hfresh =>
      refine hset c' conn₀ _ hc' ?_
      rintro rfl rfl
      refine { Follows.same _ c' conn₀ with reader := .inr (.inr (.inr ⟨?_, rfl, .inl rfl⟩)) }
      rw [hfresh]
      decide
  | turn _ c' conn₀ hc' hidle =>
      refine hset c' conn₀ _ hc' ?_
      rintro rfl rfl
      refine { Follows.same _ c' conn₀ with reader := .inr (.inr (.inr ⟨?_, rfl, .inr rfl⟩)) }
      rw [hidle]
      decide
  | rest _ c' conn₀ hc' =>
      refine hset c' conn₀ _ hc' ?_
      rintro rfl rfl
      exact { Follows.same _ c' conn₀ with reader := .inr (.inl rfl) }
  | leave _ c' conn₀ hc' =>
      refine hset c' conn₀ _ hc' ?_
      rintro rfl rfl
      exact { Follows.same _ c' conn₀ with reader := .inr (.inr (.inl rfl)) }
  | setPub _ c' conn₀ pub hc' =>
      refine hset c' conn₀ _ hc' ?_
      rintro rfl rfl
      exact { Follows.same _ c' conn₀ with pub := .inr rfl }
  | setID _ c' conn₀ id hc' =>
      refine hset c' conn₀ _ hc' ?_
      rintro rfl rfl
      exact { Follows.same _ c' conn₀ with id := .inr rfl }
  | setAuthed _ c' conn₀ hc' =>
      refine hset c' conn₀ _ hc' ?_
      rintro rfl rfl
      exact { Follows.same _ c' conn₀ with authed := .inr ⟨rfl, rfl⟩ }
  | once _ c' conn₀ hc' _ =>
      refine hset c' conn₀ _ hc' ?_
      rintro rfl rfl
      exact { Follows.same _ c' conn₀ with once := .inr (.inl ⟨rfl, rfl⟩) }
  | finish _ c' conn₀ hc' =>
      refine hset c' conn₀ _ hc' ?_
      rintro rfl rfl
      exact { Follows.same _ c' conn₀ with once := .inr (.inr ⟨rfl, rfl⟩) }
  | _ => exact ⟨conn, hconn, .same _ c conn⟩

/-- A connection comes from one that was there, or it is new. -/
theorem served_new (hserves : Serves s o ans s') {c : ℕ} {conn' : Conn}
    (hconn : s'.conns.lookup c = some conn') :
    (∃ conn, s.conns.lookup c = some conn ∧ Follows o c conn conn') ∨
      (s.conns.lookup c = none ∧ ∃ connID challenge chalAt,
        (⟨o, ans⟩ : Call WsOp WsAns) = ⟨.accept c, (connID, challenge, chalAt)⟩ ∧
          conn' = .new connID challenge chalAt) := by
  cases hold : s.conns.lookup c with
  | some conn =>
      obtain ⟨conn₁, hconn₁, hfollows⟩ := served_follows hserves hold
      cases hconn.symm.trans hconn₁
      exact .inl ⟨conn, rfl, hfollows⟩
  | none =>
      have hset : ∀ c' conn₀ conn₁, s.conns.lookup c' = some conn₀ →
          (s.setConn c' conn₁).conns.lookup c ≠ some conn' := by
        intro c' conn₀ conn₁ hc' hsome
        rw [lookup_setConn] at hsome
        split at hsome
        next heq =>
          subst heq
          rw [hold] at hc'
          cases hc'
        next =>
          rw [hold] at hsome
          cases hsome
      cases hserves with
      | accept _ c' connID challenge chalAt _ =>
          rw [lookup_setConn] at hconn
          split at hconn
          next heq =>
            cases heq
            cases hconn
            exact .inr ⟨rfl, connID, challenge, chalAt, rfl, rfl⟩
          next =>
            rw [hold] at hconn
            cases hconn
      | greet _ c' conn₀ hc' _ => exact absurd hconn (hset c' conn₀ _ hc')
      | turn _ c' conn₀ hc' _ => exact absurd hconn (hset c' conn₀ _ hc')
      | rest _ c' conn₀ hc' => exact absurd hconn (hset c' conn₀ _ hc')
      | leave _ c' conn₀ hc' => exact absurd hconn (hset c' conn₀ _ hc')
      | setPub _ c' conn₀ _ hc' => exact absurd hconn (hset c' conn₀ _ hc')
      | setID _ c' conn₀ _ hc' => exact absurd hconn (hset c' conn₀ _ hc')
      | setAuthed _ c' conn₀ hc' => exact absurd hconn (hset c' conn₀ _ hc')
      | once _ c' conn₀ hc' _ => exact absurd hconn (hset c' conn₀ _ hc')
      | finish _ c' conn₀ hc' => exact absurd hconn (hset c' conn₀ _ hc')
      | _ =>
          rw [hold] at hconn
          cases hconn

/-- A registration comes from one that was there and is not dropped, or it is new. -/
theorem served_registered (hserves : Serves s o ans s') {id : IdentityID} {connID : Text}
    {sub : Subscriber} (hsub : find s'.hub id connID = some sub) :
    (∃ sub₀, find s.hub id connID = some sub₀ ∧ sub.connID = sub₀.connID ∧ sub.send = sub₀.send ∧
      o ≠ .unsubscribe id connID) ∨ (o = .subscribe id sub ∧ connID = sub.connID) := by
  cases hserves with
  | subscribe _ id' sub' =>
      rw [Subs.find_subscribe] at hsub
      split at hsub
      next h =>
        obtain ⟨_, rfl, rfl⟩ := h
        cases hsub
        exact .inr ⟨rfl, rfl⟩
      next => exact .inl ⟨sub, hsub, rfl, rfl, (fun h => by cases h)⟩
  | setEvents _ id' connID' on =>
      obtain ⟨sub₀, hsub₀, hconnID, hsend⟩ := Subs.find_setEvents hsub
      exact .inl ⟨sub₀, hsub₀, hconnID, hsend, (fun h => by cases h)⟩
  | unsubscribe _ id' connID' =>
      rw [Subs.find_unsubscribe] at hsub
      split at hsub
      next => cases hsub
      next hne =>
        refine .inl ⟨sub, hsub, rfl, rfl, fun heq => hne ?_⟩
        cases heq
        exact ⟨rfl, rfl⟩
  | _ => exact .inl ⟨sub, hsub, rfl, rfl, (fun h => by cases h)⟩

end Effects

abbrev SessionPool (srv : WsServer) : Type := Pool WsOp WsAns Unit Track (State srv.idOf)

abbrev SessionEvent : Type := Event WsOp WsAns Track

/-- The threads that may start, at any time. -/
def StartSession (srv : WsServer) (_ : State srv.idOf) (t : Track) (p : WsM Unit) : Prop :=
  ∃ call : SessionCall, t = .start call.conn ∧ p = call.program srv

/-- One step of a relay with any number of connections. -/
abbrev SessionStep (srv : WsServer) : SessionPool srv → SessionEvent → SessionPool srv → Prop :=
  Step Serves observe (StartSession srv)

theorem startSession_guarded {srv : WsServer} (s : State srv.idOf) (t : Track) (p : WsM Unit)
    (h : StartSession srv s t p) : Guarded srv (fun _ _ => True) p t := by
  obtain ⟨call, rfl, rfl⟩ := h
  exact program_guarded srv call

/-- The hub has no registration that sends to the connection. -/
def Absent (hub : Subs) (c : ℕ) : Prop :=
  ∀ id connID sub, find hub id connID = some sub → sub.send ≠ c

/-- A registration is of an authenticated connection, under its id and the identity
that it is bound to. -/
def Faithful {idOf : PubKey → IdentityID} (s : State idOf) : Prop :=
  ∀ id connID sub, find s.hub id connID = some sub → ∃ conn, s.conns.lookup sub.send = some conn ∧
    conn.connID = connID ∧ sub.connID = connID ∧ conn.authed = true ∧ conn.id = id

/-- What a reader at work knows of its connection. -/
def Knows (srv : WsServer) (hub : Subs) (c : ℕ) (conn f : Conn) (key : Option PubKey) :
    Stage → Prop
  | .reading => conn.pub = f.pub ∧ conn.id = f.id ∧ conn.authed = f.authed
  | .dropped => Absent hub c
  | .keyed => Absent hub c ∧ key = some conn.pub
  | .named => Absent hub c ∧ key = some conn.pub ∧ conn.id = srv.idOf conn.pub
  | .admitted => Absent hub c ∧ key = some conn.pub ∧ conn.id = srv.idOf conn.pub ∧
      conn.authed = true
  | .registered => True

/-- A thread has read the fields of its connection, whose reader is busy when the
thread is the reader at work. -/
structure Follower (srv : WsServer) (s : State srv.idOf) (t : Track) : Prop where
  seen : ∀ c f, t.conn = some c → t.fields = some f → ∃ conn, s.conns.lookup c = some conn ∧
    conn.connID = f.connID
  busy : ∀ c, t.conn = some c → t.turn = true → ∃ conn, s.conns.lookup c = some conn ∧
    conn.reader = .busy
  knows : ∀ c f conn, Working t c f → s.conns.lookup c = some conn →
    Knows srv s.hub c conn f t.key t.stage

/-- A relay whose registrations are those of its connections. -/
structure Registered (srv : WsServer) (x : SessionPool srv) : Prop where
  faithful : Faithful x.shared
  threads : ∀ n th, x.threads.lookup n = some th → Follower srv x.shared th.track
  alone : ∀ n n' th th' c, x.threads.lookup n = some th → x.threads.lookup n' = some th' →
    th.track.conn = some c → th'.track.conn = some c → th.track.turn = true →
    th'.track.turn = true → n = n'

section Threads

variable {srv : WsServer} {s s' : State srv.idOf} {t : Track} {o : WsOp} {ans : WsAns o}

theorem observe_conn (t : Track) (o : WsOp) (ans : WsAns o) : (observe t o ans).conn = t.conn := by
  cases o with
  | unsubscribe =>
      rw [observe]
      split
      next => rfl
      next => rfl
  | once =>
      rw [observe]
      split
      next => rfl
      next => rfl
  | _ => rfl

/-- The connection whose identity an operation sets or registers. -/
def writes : WsOp → Option ℕ
  | .setPub c _ | .setID c _ | .setAuthed c => some c
  | .subscribe _ sub => some sub.send
  | _ => none

/-- Only the reader at work of a connection writes to it. -/
theorem working_of_writes {c : ℕ} (hguard : Guard srv t o) (hwrites : writes o = some c) :
    ∃ f, Working t c f := by
  cases o with
  | setPub =>
      cases hwrites
      obtain ⟨f, hworking, _⟩ := hguard
      exact ⟨f, hworking⟩
  | setID =>
      cases hwrites
      obtain ⟨f, pub, hkeyed, _⟩ := hguard
      exact ⟨f, hkeyed.toWorking⟩
  | setAuthed =>
      cases hwrites
      obtain ⟨f, pub, hkeyed, _⟩ := hguard
      exact ⟨f, hkeyed.toWorking⟩
  | subscribe =>
      cases hwrites
      obtain ⟨c', f, pub, hkeyed, _, _, rfl⟩ := hguard
      exact ⟨f, hkeyed.toWorking⟩
  | _ => cases hwrites

theorem Absent.served {c : ℕ} (h : Absent s.hub c) (hserves : Serves s o ans s')
    (hnew : ∀ id sub, o = .subscribe id sub → sub.send ≠ c) : Absent s'.hub c := by
  intro id connID sub hsub hsend
  rcases served_registered hserves hsub with ⟨sub₀, hsub₀, _, hsame, _⟩ | ⟨ho, _⟩
  · exact h id connID sub₀ hsub₀ (hsame.symm.trans hsend)
  · exact hnew id sub ho hsend

/-- What a reader knows of its connection stays while nothing writes to it. -/
theorem Knows.kept {c : ℕ} {conn conn' f : Conn} {key : Option PubKey} {stage : Stage}
    (h : Knows srv s.hub c conn f key stage) (hserves : Serves s o ans s')
    (hfollows : Follows o c conn conn') (hwrites : writes o ≠ some c) :
    Knows srv s'.hub c conn' f key stage := by
  have hpub : conn'.pub = conn.pub := hfollows.pub.resolve_right fun ho => hwrites (ho ▸ rfl)
  have hid : conn'.id = conn.id := hfollows.id.resolve_right fun ho => hwrites (ho ▸ rfl)
  have hauthed : conn'.authed = conn.authed :=
    hfollows.authed.resolve_right fun ho => hwrites (ho.1 ▸ rfl)
  have habsent : Absent s.hub c → Absent s'.hub c := fun habsent =>
    habsent.served hserves fun id sub ho hsend => hwrites (ho ▸ congrArg some hsend)
  cases stage with
  | reading => exact ⟨hpub.trans h.1, hid.trans h.2.1, hauthed.trans h.2.2⟩
  | dropped => exact habsent h
  | keyed => exact ⟨habsent h.1, hpub ▸ h.2⟩
  | named =>
      refine ⟨habsent h.1, hpub ▸ h.2.1, ?_⟩
      rw [hid, hpub]
      exact h.2.2
  | admitted =>
      refine ⟨habsent h.1, hpub ▸ h.2.1, ?_, hauthed.trans h.2.2.2⟩
      rw [hid, hpub]
      exact h.2.2.1
  | registered => exact trivial

/-- A thread after the operation of another thread, which is not the reader at work
of its connection when it is itself. -/
theorem Follower.other {t' : Track} (h : Follower srv s t') (hguard : Guard srv t o)
    (hserves : Serves s o ans s')
    (halone : ∀ c, t'.conn = some c → t'.turn = true → t.conn = some c → t.turn = false) :
    Follower srv s' t' := by
  refine ⟨fun c f hconn hfields => ?_, fun c hconn hturn => ?_, fun c f conn' hworking hconn' => ?_⟩
  · obtain ⟨conn, hlookup, hsame⟩ := h.seen c f hconn hfields
    obtain ⟨conn', hlookup', hfollows⟩ := served_follows hserves hlookup
    exact ⟨conn', hlookup', hfollows.connID.trans hsame⟩
  · obtain ⟨conn, hlookup, hbusy⟩ := h.busy c hconn hturn
    obtain ⟨conn', hlookup', hfollows⟩ := served_follows hserves hlookup
    refine ⟨conn', hlookup', ?_⟩
    have hends : t.conn = some c ∧ t.turn = true → False := by
      rintro ⟨hc, ht⟩
      rw [halone c hconn hturn hc] at ht
      cases ht
    rcases hfollows.reader with hsame | rfl | rfl | ⟨hfree, _⟩
    · exact hsame.trans hbusy
    · exact (hends hguard).elim
    · exact (hends hguard).elim
    · exact absurd hbusy hfree
  · obtain ⟨conn, hlookup, _⟩ := h.busy c hworking.conn hworking.turn
    obtain ⟨conn₁, hlookup', hfollows⟩ := served_follows hserves hlookup
    cases hconn'.symm.trans hlookup'
    refine (h.knows c f conn hworking hlookup).kept hserves hfollows fun hwrites => ?_
    obtain ⟨f', hw⟩ := working_of_writes hguard hwrites
    have hfalse := halone c hworking.conn hworking.turn hw.conn
    rw [hw.turn] at hfalse
    cases hfalse

theorem observe_fields {f : Conn} (hfields : (observe t o ans).fields = some f) :
    t.fields = some f ∨ ∃ c, (⟨o, ans⟩ : Call WsOp WsAns) = ⟨.fields c, f⟩ := by
  cases o with
  | fields c =>
      cases hfields
      exact .inr ⟨c, rfl⟩
  | unsubscribe =>
      rw [observe] at hfields
      split at hfields
      next => exact .inl hfields
      next => exact .inl hfields
  | once =>
      rw [observe] at hfields
      split at hfields
      next => exact .inl hfields
      next => exact .inl hfields
  | _ => exact .inl hfields

theorem observe_turn (hturn : (observe t o ans).turn = true) :
    (t.turn = true ∧ ∀ c, o ≠ .rest c ∧ o ≠ .leave c) ∨ ∃ c, o = .greet c ∨ o = .turn c := by
  cases o with
  | greet c => exact .inr ⟨c, .inl rfl⟩
  | turn c => exact .inr ⟨c, .inr rfl⟩
  | rest | leave => cases hturn
  | unsubscribe =>
      rw [observe] at hturn
      split at hturn
      next => exact .inl ⟨hturn, fun c => ⟨(fun h => nomatch h), (fun h => nomatch h)⟩⟩
      next => exact .inl ⟨hturn, fun c => ⟨(fun h => nomatch h), (fun h => nomatch h)⟩⟩
  | once =>
      rw [observe] at hturn
      split at hturn
      next => exact .inl ⟨hturn, fun c => ⟨(fun h => nomatch h), (fun h => nomatch h)⟩⟩
      next => exact .inl ⟨hturn, fun c => ⟨(fun h => nomatch h), (fun h => nomatch h)⟩⟩
  | _ => exact .inl ⟨hturn, fun c => ⟨(fun h => nomatch h), (fun h => nomatch h)⟩⟩

/-- A reader that begins its turn finds the reader's state free and makes it busy. -/
theorem served_turn {c : ℕ} (hserves : Serves s o ans s') (ho : o = .greet c ∨ o = .turn c) :
    (∃ conn, s.conns.lookup c = some conn ∧ conn.reader ≠ .busy) ∧
      ∃ conn', s'.conns.lookup c = some conn' ∧ conn'.reader = .busy := by
  rcases ho with rfl | rfl
  · cases hserves with
    | greet _ _ conn hconn hfresh =>
        refine ⟨⟨conn, hconn, fun hbusy => ?_⟩, _, AList.lookup_insert _, rfl⟩
        rw [hfresh] at hbusy
        cases hbusy
  · cases hserves with
    | turn _ _ conn hconn hidle =>
        refine ⟨⟨conn, hconn, fun hbusy => ?_⟩, _, AList.lookup_insert _, rfl⟩
        rw [hidle] at hbusy
        cases hbusy

theorem Faithful.absent (h : Faithful s) {c : ℕ} {conn : Conn} (hconn : s.conns.lookup c = some conn)
    (hauthed : conn.authed = false) : Absent s.hub c := by
  rintro id connID sub hsub rfl
  obtain ⟨conn', hconn', _, _, hauthed', _⟩ := h id connID sub hsub
  cases hconn.symm.trans hconn'
  rw [hauthed] at hauthed'
  cases hauthed'

/-- The registrations of a connection go when the one under its identity goes. -/
theorem Faithful.absent_unsubscribe (h : Faithful s) {c : ℕ} {conn : Conn}
    (hconn : s.conns.lookup c = some conn) {ans : Unit}
    (hserves : Serves s (.unsubscribe conn.id conn.connID) ans s') : Absent s'.hub c := by
  rintro id connID sub hsub hsend
  rcases served_registered hserves hsub with ⟨sub₀, hsub₀, _, hsame, hne⟩ | ⟨ho, _⟩
  · obtain ⟨conn', hconn', rfl, _, _, rfl⟩ := h id connID sub₀ hsub₀
    rw [← hsame, hsend, hconn] at hconn'
    cases hconn'
    exact hne rfl
  · cases ho

theorem Follower.knows_self (h : Follower srv s t) (hfaithful : Faithful s) (hguard : Guard srv t o)
    (hserves : Serves s o ans s') {c : ℕ} {f conn' : Conn} (hworking : Working (observe t o ans) c f)
    (hconn' : s'.conns.lookup c = some conn') :
    Knows srv s'.hub c conn' f (observe t o ans).key (observe t o ans).stage := by
  have hkept : Working t c f → writes o ≠ some c → Knows srv s'.hub c conn' f t.key t.stage := by
    intro hw hwrites
    obtain ⟨conn, hconn, _⟩ := h.busy c hw.conn hw.turn
    obtain ⟨conn₁, hconn₁, hfollows⟩ := served_follows hserves hconn
    cases hconn'.symm.trans hconn₁
    exact (h.knows c f conn hw hconn).kept hserves hfollows hwrites
  cases o with
  | greet c' =>
      have hfields := hworking.fields
      rw [show (observe t (.greet c') ans).fields = none from hguard.2.2] at hfields
      cases hfields
  | turn c' =>
      have hfields := hworking.fields
      rw [show (observe t (.turn c') ans).fields = none from hguard.2.2] at hfields
      cases hfields
  | rest c' => cases hworking.turn
  | leave c' => cases hworking.turn
  | fields c' =>
      have hlive : t.closing = none := Option.map_eq_none_iff.mp hworking.live
      have hstage : (observe t (.fields c') ans).stage = .reading := (hguard.2 hlive).2
      cases Option.some.inj (hguard.1.symm.trans hworking.conn)
      cases hserves with
      | fields _ _ _ hconn =>
          cases hconn.symm.trans hconn'
          cases hworking.fields
          rw [hstage]
          exact ⟨rfl, rfl, rfl⟩
  | setPub c' pub =>
      obtain ⟨f', hw, _, hcleared⟩ := hguard
      cases Option.some.inj (hw.conn.symm.trans hworking.conn)
      cases Option.some.inj (hw.fields.symm.trans hworking.fields)
      cases hserves with
      | setPub _ _ conn _ hconn =>
          rw [lookup_setConn, if_pos rfl] at hconn'
          cases hconn'
          have hknows := h.knows c f conn hw hconn
          rcases hcleared with hstage | ⟨hstage, hauthed⟩
          · rw [hstage] at hknows
            exact ⟨hknows, rfl⟩
          · rw [hstage] at hknows
            exact ⟨hfaithful.absent hconn (hknows.2.2.trans hauthed), rfl⟩
  | setID c' id =>
      obtain ⟨f', pub, hkeyed, hstage, rfl⟩ := hguard
      have hw := hkeyed.toWorking
      cases Option.some.inj (hw.conn.symm.trans hworking.conn)
      cases Option.some.inj (hw.fields.symm.trans hworking.fields)
      cases hserves with
      | setID _ _ conn _ hconn =>
          rw [lookup_setConn, if_pos rfl] at hconn'
          cases hconn'
          have hknows := h.knows c f conn hw hconn
          rw [hstage] at hknows
          refine ⟨hknows.1, hknows.2, ?_⟩
          exact congrArg srv.idOf (Option.some.inj (hkeyed.key.symm.trans hknows.2))
  | setAuthed c' =>
      obtain ⟨f', pub, hkeyed, hstage⟩ := hguard
      have hw := hkeyed.toWorking
      cases Option.some.inj (hw.conn.symm.trans hworking.conn)
      cases Option.some.inj (hw.fields.symm.trans hworking.fields)
      cases hserves with
      | setAuthed _ _ conn hconn =>
          rw [lookup_setConn, if_pos rfl] at hconn'
          cases hconn'
          have hknows := h.knows c f conn hw hconn
          rw [hstage] at hknows
          exact ⟨hknows.1, hknows.2.1, hknows.2.2, rfl⟩
  | subscribe => exact trivial
  | unsubscribe id connID =>
      rcases Decidable.em (t.closing = none) with hlive | hclosing
      · have hobs : observe t (.unsubscribe id connID) ans = { t with stage := .dropped } :=
          if_pos hlive
        rw [hobs] at hworking ⊢
        obtain ⟨c', f', rfl, rfl, hsession | ⟨_, _, hbound⟩⟩ := hguard
        · cases Option.some.inj (hsession.conn.symm.trans hworking.conn)
          obtain ⟨conn, hconn, hconnID⟩ := h.seen c f' hsession.conn hsession.fields
          have hknows := h.knows c f' conn hsession.toWorking hconn
          rw [hsession.stage] at hknows
          rw [← hknows.2.1, ← hconnID] at hserves
          exact hfaithful.absent_unsubscribe hconn hserves
        · rw [hlive] at hbound
          cases hbound
      · have hobs : observe t (.unsubscribe id connID) ans = { t with closing := some .dropped } :=
          if_neg hclosing
        rw [hobs] at hworking
        cases hworking.live
  | once c' =>
      rw [observe] at hworking ⊢
      split at hworking
      next => cases hworking.live
      next hfirst =>
        rw [if_neg hfirst]
        exact hkept hworking fun hw => nomatch hw
  | _ =>
      exact hkept ⟨hworking.conn, hworking.turn, hworking.live, hworking.fields⟩ fun hw => nomatch hw

/-- A thread after its own operation. -/
theorem Follower.self (h : Follower srv s t) (hfaithful : Faithful s) (hguard : Guard srv t o)
    (hserves : Serves s o ans s') : Follower srv s' (observe t o ans) := by
  refine ⟨fun c f hconn hfields => ?_, fun c hconn hturn => ?_,
    fun c f conn' hworking hconn' => h.knows_self hfaithful hguard hserves hworking hconn'⟩
  · rw [observe_conn] at hconn
    rcases observe_fields hfields with hold | ⟨c', hcall⟩
    · obtain ⟨conn, hlookup, hsame⟩ := h.seen c f hconn hold
      obtain ⟨conn', hlookup', hfollows⟩ := served_follows hserves hlookup
      exact ⟨conn', hlookup', hfollows.connID.trans hsame⟩
    · cases hcall
      cases Option.some.inj (hguard.1.symm.trans hconn)
      cases hserves with
      | fields _ _ _ hlookup => exact ⟨f, hlookup, rfl⟩
  · rw [observe_conn] at hconn
    rcases observe_turn hturn with ⟨hold, hends⟩ | ⟨c', ho⟩
    · obtain ⟨conn, hlookup, hbusy⟩ := h.busy c hconn hold
      obtain ⟨conn', hlookup', hfollows⟩ := served_follows hserves hlookup
      refine ⟨conn', hlookup', ?_⟩
      rcases hfollows.reader with hsame | ho | ho | ⟨hfree, _⟩
      · exact hsame.trans hbusy
      · exact absurd ho (hends c).1
      · exact absurd ho (hends c).2
      · exact absurd hbusy hfree
    · have hsame : t.conn = some c' := by
        rcases ho with rfl | rfl
        · exact hguard.1
        · exact hguard.1
      cases Option.some.inj (hsame.symm.trans hconn)
      exact (served_turn hserves ho).2

/-- The registrations after an operation. -/
theorem Faithful.served (h : Faithful s) (hfollower : Follower srv s t) (hguard : Guard srv t o)
    (hserves : Serves s o ans s') : Faithful s' := by
  intro id connID sub hsub
  rcases served_registered hserves hsub with ⟨sub₀, hsub₀, hsubID, hsend, _⟩ | ⟨rfl, rfl⟩
  · obtain ⟨conn, hconn, hconnID, hkey, hauthed, hid⟩ := h id connID sub₀ hsub₀
    obtain ⟨conn', hconn', hfollows⟩ := served_follows hserves hconn
    refine ⟨conn', hsend ▸ hconn', hfollows.connID.trans hconnID, hsubID.trans hkey, ?_, ?_⟩
    · rcases hfollows.authed with hsame | ⟨_, hset⟩
      · exact hsame.trans hauthed
      · exact hset
    · rcases hfollows.id with hsame | ho
      · exact hsame.trans hid
      · subst ho
        obtain ⟨f, pub, hkeyed, hstage, _⟩ := hguard
        have hknows := hfollower.knows _ f conn hkeyed.toWorking hconn
        rw [hstage] at hknows
        exact absurd rfl (hknows.1 id connID sub₀ hsub₀)
  · obtain ⟨c, f, pub, hkeyed, hstage, rfl, rfl⟩ := hguard
    obtain ⟨conn, hconn, hconnID⟩ := hfollower.seen c f hkeyed.conn hkeyed.fields
    have hknows := hfollower.knows c f conn hkeyed.toWorking hconn
    rw [hstage] at hknows
    obtain ⟨_, hkey, hid, hauthed⟩ := hknows
    have hpub : pub = conn.pub := Option.some.inj (hkeyed.key.symm.trans hkey)
    refine ⟨conn, ?_, hconnID, rfl, hauthed, hpub ▸ hid⟩
    cases hserves
    exact hconn

end Threads

section Steps

variable {srv : WsServer} {x : SessionPool srv} {n : ℕ} {t : Track} {o : WsOp}
variable {next : WsAns o → WsM Unit} {ans : WsAns o} {s' : State srv.idOf}

theorem Registered.start (h : Registered srv x) {p : WsM Unit}
    (hstart : StartSession srv x.shared t p) :
    Registered srv { x with threads := x.threads.insert n ⟨p, t⟩ } := by
  obtain ⟨call, rfl, _⟩ := hstart
  refine ⟨h.faithful, fun n' th hth => ?_, fun n₁ n₂ th₁ th₂ c h₁ h₂ hc₁ hc₂ ht₁ ht₂ => ?_⟩
  · rw [lookup_insert_eq] at hth
    split at hth
    next =>
      cases hth
      exact ⟨(fun _ _ _ hf => nomatch hf), (fun _ _ ht => nomatch ht), fun _ _ _ hw => nomatch hw.turn⟩
    next => exact h.threads n' th hth
  · rw [lookup_insert_eq] at h₁ h₂
    split at h₁
    next =>
      cases h₁
      cases ht₁
    next =>
      split at h₂
      next =>
        cases h₂
        cases ht₂
      next => exact h.alone n₁ n₂ th₁ th₂ c h₁ h₂ hc₁ hc₂ ht₁ ht₂

/-- A reader begins its turn when no other one has it. -/
theorem Registered.turn (h : Registered srv x) (hthread : x.threads.lookup n = some ⟨.call o next, t⟩)
    (hguard : Guard srv t o) (hserves : Serves x.shared o ans s') {n' c : ℕ}
    {th : Thread WsOp WsAns Unit Track} (hth : x.threads.lookup n' = some th)
    (hc : t.conn = some c) (hc' : th.track.conn = some c)
    (hturn : (observe t o ans).turn = true) (hturn' : th.track.turn = true) : n = n' := by
  rcases observe_turn hturn with ⟨hold, _⟩ | ⟨c', ho⟩
  · exact h.alone n n' _ th c hthread hth hc hc' hold hturn'
  · have hsame : t.conn = some c' := by
      rcases ho with rfl | rfl
      · exact hguard.1
      · exact hguard.1
    cases Option.some.inj (hsame.symm.trans hc)
    obtain ⟨⟨conn, hconn, hfree⟩, _⟩ := served_turn hserves ho
    obtain ⟨conn', hconn', hbusy⟩ := (h.threads n' th hth).busy c hc' hturn'
    cases hconn.symm.trans hconn'
    exact absurd hbusy hfree

theorem Registered.op (h : Registered srv x) (hthread : x.threads.lookup n = some ⟨.call o next, t⟩)
    (hguard : Guard srv t o) (hserves : Serves x.shared o ans s') :
    Registered srv
      { shared := s', threads := x.threads.insert n ⟨next ans, observe t o ans⟩ } := by
  have hfollower := h.threads n _ hthread
  refine ⟨h.faithful.served hfollower hguard hserves, fun n' th hth => ?_,
    fun n₁ n₂ th₁ th₂ c h₁ h₂ hc₁ hc₂ ht₁ ht₂ => ?_⟩
  · rw [lookup_insert_eq] at hth
    split at hth
    next =>
      cases hth
      exact hfollower.self h.faithful hguard hserves
    next hne =>
      refine (h.threads n' th hth).other hguard hserves fun c hc' ht' hc => ?_
      refine Bool.eq_false_of_not_eq_true fun ht => hne ?_
      exact h.alone n' n th _ c hth hthread hc' hc ht' ht
  · rw [lookup_insert_eq] at h₁ h₂
    split at h₁
    next heq₁ =>
      split at h₂
      next heq₂ => exact heq₁.trans heq₂.symm
      next =>
        cases h₁
        rw [observe_conn] at hc₁
        exact heq₁.trans (h.turn hthread hguard hserves h₂ hc₁ hc₂ ht₁ ht₂)
    next =>
      split at h₂
      next heq₂ =>
        cases h₂
        rw [observe_conn] at hc₂
        exact ((heq₂.trans (h.turn hthread hguard hserves h₁ hc₂ hc₁ ht₂ ht₁)).symm)
      next => exact h.alone n₁ n₂ th₁ th₂ c h₁ h₂ hc₁ hc₂ ht₁ ht₂

theorem registered_start (store : Model srv.idOf) :
    Registered srv (⟨.start store, ∅⟩ : SessionPool srv) where
  faithful := fun _ _ _ hsub => by
    rw [State.start, find_empty] at hsub
    cases hsub
  threads := fun _ _ hth => by simp at hth
  alone := fun _ _ _ _ _ hth => by simp at hth

end Steps

end Tactile.Relay.Registrations

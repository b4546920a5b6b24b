import Tactile.Relay.Registrations
import Tactile.Relay.Replay

/-!
Ghost subscribers: when the hub keeps no registration of a connection that has been
closed and whose reader has returned.
-/

namespace Tactile.Relay.Ghosts

open Tactile.Lib.Program Tactile.Lib.FiniteMap Tactile.Lib.NestedMap Tactile.Lib.Threads
open Tactile.Lib.Transition Tactile.Lib.ByteString
open Tactile.Relay.Blob Tactile.Relay.Oracle Tactile.Relay.Rest Tactile.Relay.Hub
open Tactile.Relay.Sessions Tactile.Relay.SessionThreads Tactile.Relay.Registrations
open Tactile.Relay.ClientIP (Text)
open Tactile.Relay.Replay (openServer zeroSig decodePubKey_b64 decodeSig_b64)

/-- The hub holds a subscriber with a connection's id under the connection's current
identity only, and none once the connection is closed and its reader has returned. -/
structure NoGhosts {idOf : PubKey → IdentityID} (s : State idOf) : Prop where
  current : ∀ c conn id sub, s.conns.lookup c = some conn → find s.hub id conn.connID = some sub →
    id = conn.id ∧ conn.authed = true ∧ sub.send = c
  gone : ∀ c conn, s.conns.lookup c = some conn → conn.once = .finished →
    conn.reader = .returned → ∀ id, find s.hub id conn.connID = none

/-- The random id of a new connection is not that of another one. -/
def FreshID {srv : WsServer} (x : SessionPool srv) : SessionEvent → Prop
  | .op _ (.accept _) (connID, _, _) =>
    ∀ c conn, x.shared.conns.lookup c = some conn → conn.connID ≠ connID
  | _ => True

/-- A closing that has nothing left to drop. -/
def Past (t : Track) : Prop := t.closing = some .missed ∨ t.closing = some .dropped

/-- A connection registers under an identity before its closing is past dropping the
registration or bound to another identity. -/
def Timely {srv : WsServer} (x : SessionPool srv) : SessionEvent → Prop
  | .op _ (.subscribe id sub) _ => ∀ n th, x.threads.lookup n = some th →
    th.track.conn = some sub.send →
      ¬ Past th.track ∧ ∀ id', th.track.closing = some (.bound id') → id' = id
  | _ => True

/-- The closings leave no registration that they would have to drop. -/
structure Closings {srv : WsServer} (x : SessionPool srv) : Prop where
  past : ∀ n th c, x.threads.lookup n = some th → th.track.conn = some c → Past th.track →
    Absent x.shared.hub c
  bound : ∀ n th c id, x.threads.lookup n = some th → th.track.conn = some c →
    th.track.closing = some (.bound id) → ∀ id' connID sub,
      find x.shared.hub id' connID = some sub → sub.send = c → id' = id
  finished : ∀ c conn, x.shared.conns.lookup c = some conn → conn.once = .finished →
    ∃ n th, x.threads.lookup n = some th ∧ th.track.conn = some c ∧ Past th.track

/-- The connections have different ids. -/
def Distinct {idOf : PubKey → IdentityID} (s : State idOf) : Prop :=
  ∀ c c' conn conn', s.conns.lookup c = some conn → s.conns.lookup c' = some conn' →
    conn.connID = conn'.connID → c = c'

section Steps

variable {srv : WsServer} {x : SessionPool srv} {n : ℕ} {t : Track} {o : WsOp}
variable {next : WsAns o → WsM Unit} {ans : WsAns o} {s' : State srv.idOf}

/-- How far a closing is after an operation. -/
theorem observe_closing {phase : Closing} (h : (observe t o ans).closing = some phase) :
    (t.closing = some phase ∧ ∀ c, o ≠ .fields c) ∨
      (∃ c f phase₀, (⟨o, ans⟩ : Call WsOp WsAns) = ⟨.fields c, f⟩ ∧ t.closing = some phase₀ ∧
        phase = phase₀.look f) ∨
      (∃ c, o = .once c ∧ phase = .begun) ∨
      ∃ id connID, o = .unsubscribe id connID ∧ t.closing ≠ none ∧ phase = .dropped := by
  cases o with
  | fields c =>
      obtain ⟨phase₀, hphase₀, rfl⟩ := Option.map_eq_some_iff.mp h
      exact .inr (.inl ⟨c, ans, phase₀, rfl, hphase₀, rfl⟩)
  | unsubscribe id connID =>
      rw [observe] at h
      split at h
      next => exact .inl ⟨h, fun _ ho => by cases ho⟩
      next hclosing =>
        cases h
        exact .inr (.inr (.inr ⟨id, connID, rfl, hclosing, rfl⟩))
  | once c =>
      rw [observe] at h
      split at h
      next =>
        cases h
        exact .inr (.inr (.inl ⟨c, rfl, rfl⟩))
      next => exact .inl ⟨h, fun _ ho => by cases ho⟩
  | _ => exact .inl ⟨h, fun _ ho => by cases ho⟩

theorem Past.observe (h : Past t) (hguard : Guard srv t o) : Past (observe t o ans) := by
  cases o with
  | fields c =>
      have hlook : ∀ phase, t.closing = some phase →
          (SessionThreads.observe t (.fields c) ans).closing = some (phase.look ans) :=
        fun phase hphase => congrArg (Option.map (Closing.look ans)) hphase
      exact h.imp (hlook .missed) (hlook .dropped)
  | unsubscribe id connID =>
      rw [SessionThreads.observe]
      split
      next hlive =>
        rw [Past, hlive] at h
        rcases h with hm | hd
        · cases hm
        · cases hd
      next => exact .inr rfl
  | once c =>
      rw [Past, hguard.2] at h
      rcases h with hm | hd
      · cases hm
      · cases hd
  | _ => exact h

/-- A thread whose closing is past stays so, and its connection stays unregistered. -/
theorem Closings.past_op (h : Closings x) (hreg : Registered srv x)
    (hthread : x.threads.lookup n = some ⟨.call o next, t⟩) (hguard : Guard srv t o)
    (hserves : Serves x.shared o ans s') (htimely : Timely x (.op n o ans)) {c : ℕ}
    (hconn : t.conn = some c) (hpast : Past (observe t o ans)) : Absent s'.hub c := by
  have hold : Past t → Absent s'.hub c := fun hp =>
    (h.past n _ c hthread hconn hp).served hserves fun id sub ho hsend => by
      subst ho
      exact (htimely n _ hthread (hsend ▸ hconn)).1 hp
  obtain ⟨phase, hphase, hclosing⟩ :
      ∃ phase, (phase = .missed ∨ phase = .dropped) ∧ (observe t o ans).closing = some phase := by
    rcases hpast with hm | hd
    · exact ⟨_, .inl rfl, hm⟩
    · exact ⟨_, .inr rfl, hd⟩
  rcases observe_closing hclosing with ⟨hsame, _⟩ | ⟨c', f, phase₀, hcall, hphase₀, hlook⟩ |
    ⟨c', _, hbegun⟩ | ⟨id, connID, rfl, hlive, _⟩
  · refine hold (hphase.imp ?_ ?_)
    · rintro rfl
      exact hsame
    · rintro rfl
      exact hsame
  · cases hcall
    cases Option.some.inj (hguard.1.symm.trans hconn)
    cases phase₀ with
    | begun =>
        rw [Closing.look] at hlook
        split at hlook
        next =>
          subst hlook
          rcases hphase with hm | hd
          · cases hm
          · cases hd
        next hauthed =>
          cases hserves with
          | fields _ _ _ hlookup =>
              exact hreg.faithful.absent hlookup (Bool.eq_false_of_not_eq_true hauthed)
    | missed => exact hold (.inl hphase₀)
    | dropped => exact hold (.inr hphase₀)
    | found | bound =>
        subst hlook
        rcases hphase with hm | hd
        · cases hm
        · cases hd
  · subst hbegun
    rcases hphase with hm | hd
    · cases hm
    · cases hd
  · obtain ⟨c', f, rfl, rfl, hsession | ⟨hconn', hfields, hbound⟩⟩ := hguard
    · exact absurd hsession.live hlive
    · cases Option.some.inj (hconn'.symm.trans hconn)
      obtain ⟨conn, hlookup, hconnID⟩ := (hreg.threads n _ hthread).seen c f hconn hfields
      rintro id connID sub hsub rfl
      rcases served_registered hserves hsub with ⟨sub₀, hsub₀, _, hsend, hne⟩ | ⟨ho, _⟩
      · obtain ⟨conn', hlookup', rfl, _⟩ := hreg.faithful id connID sub₀ hsub₀
        rw [← hsend, hlookup] at hlookup'
        cases hlookup'
        have hid : id = f.id := h.bound n _ _ _ hthread hconn hbound id _ sub₀ hsub₀ hsend.symm
        exact hne (by rw [hid, hconnID])
      · cases ho

/-- A closing that is bound to an identity, when its connection is registered under
no other one. -/
theorem Closings.bound_op (h : Closings x) (hreg : Registered srv x)
    (hthread : x.threads.lookup n = some ⟨.call o next, t⟩) (hguard : Guard srv t o)
    (hserves : Serves x.shared o ans s') (htimely : Timely x (.op n o ans)) {c : ℕ}
    (hconn : t.conn = some c) {id id' : IdentityID} {connID : Text} {sub : Subscriber}
    (hbound : (observe t o ans).closing = some (.bound id))
    (hsub : find s'.hub id' connID = some sub) (hsend : sub.send = c) : id' = id := by
  have hold : t.closing = some (.bound id) → id' = id := by
    intro hb
    rcases served_registered hserves hsub with ⟨sub₀, hsub₀, _, hsame, _⟩ | ⟨rfl, _⟩
    · exact h.bound n _ c id hthread hconn hb id' connID sub₀ hsub₀ (hsame.symm.trans hsend)
    · exact ((htimely n _ hthread (hsend ▸ hconn)).2 id hb).symm
  rcases observe_closing hbound with ⟨hsame, _⟩ | ⟨c', f, phase₀, hcall, hphase₀, hlook⟩ |
    ⟨_, _, hbegun⟩ | ⟨_, _, _, _, hdropped⟩
  · exact hold hsame
  · cases hcall
    cases Option.some.inj (hguard.1.symm.trans hconn)
    cases phase₀ with
    | begun =>
        rw [Closing.look] at hlook
        split at hlook
        next => cases hlook
        next => cases hlook
    | found =>
        cases hlook
        cases hserves with
        | fields _ _ _ hlookup =>
            obtain ⟨conn, hconn', _, _, _, rfl⟩ := hreg.faithful id' connID sub hsub
            rw [hsend, hlookup] at hconn'
            cases hconn'
            rfl
    | bound id₀ =>
        cases hlook
        exact hold hphase₀
    | missed | dropped => cases hlook
  · cases hbegun
  · cases hdropped

theorem Closings.op (h : Closings x) (hreg : Registered srv x)
    (hthread : x.threads.lookup n = some ⟨.call o next, t⟩) (hguard : Guard srv t o)
    (hserves : Serves x.shared o ans s') (htimely : Timely x (.op n o ans)) :
    Closings ({ shared := s', threads := x.threads.insert n ⟨next ans, observe t o ans⟩ } :
      SessionPool srv) := by
  refine ⟨fun n' th c hth hconn hpast => ?_,
    fun n' th c id hth hconn hbound id' connID sub hsub hsend => ?_,
    fun c conn' hconn' hfinished => ?_⟩
  · rw [lookup_insert_eq] at hth
    split at hth
    next =>
      cases hth
      rw [observe_conn] at hconn
      exact h.past_op hreg hthread hguard hserves htimely hconn hpast
    next =>
      refine (h.past n' th c hth hconn hpast).served hserves fun id sub ho hsend => ?_
      subst ho
      exact (htimely n' th hth (hsend ▸ hconn)).1 hpast
  · rw [lookup_insert_eq] at hth
    split at hth
    next =>
      cases hth
      rw [observe_conn] at hconn
      exact h.bound_op hreg hthread hguard hserves htimely hconn hbound hsub hsend
    next =>
      rcases served_registered hserves hsub with ⟨sub₀, hsub₀, _, hsame, _⟩ | ⟨rfl, _⟩
      · exact h.bound n' th c id hth hconn hbound id' connID sub₀ hsub₀ (hsame.symm.trans hsend)
      · exact ((htimely n' th hth (hsend ▸ hconn)).2 id hbound).symm
  · have hself : t.conn = some c → Past t → ∃ n' th,
        (x.threads.insert n ⟨next ans, observe t o ans⟩).lookup n' = some th ∧
          th.track.conn = some c ∧ Past th.track := fun hc hp =>
      ⟨n, _, AList.lookup_insert _, (observe_conn t o ans).trans hc, hp.observe hguard⟩
    rcases served_new hserves hconn' with ⟨conn, hconn, hfollows⟩ | ⟨_, _, _, _, _, rfl⟩
    · rcases hfollows.once with hsame | ⟨_, hrunning⟩ | ⟨rfl, _⟩
      · obtain ⟨n', th, hth, hc, hp⟩ := h.finished c conn hconn (hsame.symm.trans hfinished)
        rcases Decidable.em (n' = n) with rfl | hne
        · cases hthread.symm.trans hth
          exact hself hc hp
        · exact ⟨n', th, (lookup_insert_eq ..).trans (if_neg hne |>.trans hth), hc, hp⟩
      · rw [hrunning] at hfinished
        cases hfinished
      · exact hself hguard.1 hguard.2
    · cases hfinished

theorem Closings.start (h : Closings x) {p : WsM Unit} (hfree : x.threads.lookup n = none)
    (hstart : StartSession srv x.shared t p) :
    Closings ({ x with threads := x.threads.insert n ⟨p, t⟩ } : SessionPool srv) := by
  obtain ⟨call, rfl, _⟩ := hstart
  refine ⟨fun n' th c hth hconn hpast => ?_, fun n' th c id hth hconn hbound => ?_,
    fun c conn hconn hfinished => ?_⟩
  · rw [lookup_insert_eq] at hth
    split at hth
    next =>
      cases hth
      exact (hpast.elim (fun hm => nomatch hm) fun hd => nomatch hd : False).elim
    next => exact h.past n' th c hth hconn hpast
  · rw [lookup_insert_eq] at hth
    split at hth
    next =>
      cases hth
      cases hbound
    next => exact h.bound n' th c id hth hconn hbound
  · obtain ⟨n', th, hth, hc, hp⟩ := h.finished c conn hconn hfinished
    refine ⟨n', th, ?_, hc, hp⟩
    rw [lookup_insert_eq, if_neg]
    · exact hth
    · rintro rfl
      rw [hfree] at hth
      cases hth

theorem Distinct.served (h : Distinct x.shared) (hserves : Serves x.shared o ans s')
    (hfresh : FreshID x (.op n o ans)) : Distinct s' := by
  intro c c' conn conn' hconn hconn' hsame
  rcases served_new hserves hconn with ⟨conn₀, hconn₀, hfollows⟩ | ⟨hnone, _, _, _, hcall, rfl⟩
  · rcases served_new hserves hconn' with ⟨conn₁, hconn₁, hfollows'⟩ | ⟨_, _, _, _, hcall, rfl⟩
    · refine h c c' conn₀ conn₁ hconn₀ hconn₁ ?_
      rw [← hfollows.connID, ← hfollows'.connID]
      exact hsame
    · cases hcall
      exact absurd (hfollows.connID.symm.trans hsame) (hfresh c conn₀ hconn₀)
  · rcases served_new hserves hconn' with ⟨conn₁, hconn₁, hfollows'⟩ | ⟨_, _, _, _, hcall', _⟩
    · cases hcall
      exact absurd (hfollows'.connID.symm.trans hsame.symm) (hfresh c' conn₁ hconn₁)
    · cases hcall
      cases hcall'
      rfl

end Steps

section Runs

variable {srv : WsServer}

/-- What holds in every state of a run. -/
structure Consistent (x : SessionPool srv) : Prop where
  registered : Registered srv x
  closings : Closings x
  distinct : Distinct x.shared

theorem Consistent.noGhosts {x : SessionPool srv} (h : Consistent x) : NoGhosts x.shared where
  current := fun c conn id sub hconn hsub => by
    obtain ⟨conn', hconn', hconnID, _, hauthed, rfl⟩ := h.registered.faithful id _ sub hsub
    have hsame := h.distinct sub.send c conn' conn hconn' hconn hconnID
    rw [hsame, hconn] at hconn'
    cases hconn'
    exact ⟨rfl, hauthed, hsame⟩
  gone := fun c conn hconn hfinished _ id => by
    refine Option.eq_none_iff_forall_ne_some.mpr fun sub hsub => ?_
    obtain ⟨n, th, hth, hc, hpast⟩ := h.closings.finished c conn hconn hfinished
    obtain ⟨conn', hconn', hconnID, _⟩ := h.registered.faithful id _ sub hsub
    exact h.closings.past n th c hth hc hpast id _ sub hsub
      (h.distinct sub.send c conn' conn hconn' hconn hconnID)

/-- In every run in which connections register before their closing is past that, the
hub keeps no ghost. -/
theorem no_ghosts (srv : WsServer) (store : Model srv.idOf) (x : SessionPool srv)
    (es : List SessionEvent)
    (hrun : Runs (fun x e y => SessionStep srv x e y ∧ FreshID x e ∧ Timely x e)
      ⟨.start store, ∅⟩ es x) : NoGhosts x.shared := by
  have hinit : Consistent (⟨.start store, ∅⟩ : SessionPool srv) := by
    refine ⟨registered_start store, ⟨?_, ?_, ?_⟩, ?_⟩
    · intro _ _ _ hth
      simp at hth
    · intro _ _ _ _ hth
      simp at hth
    · intro _ _ hconn
      simp [State.start] at hconn
    · intro _ _ _ _ hconn
      simp [State.start] at hconn
  have hstart : ∀ (x : SessionPool srv) n t p, Consistent x → x.threads.lookup n = none →
      StartSession srv x.shared t p → (FreshID x (.start n t) ∧ Timely x (.start n t)) →
      Consistent { x with threads := x.threads.insert n ⟨p, t⟩ } :=
    fun x n t p hx hfree hp _ =>
      ⟨hx.registered.start hp, hx.closings.start hfree hp, hx.distinct⟩
  have hop : ∀ (x : SessionPool srv) n t o (next : WsAns o → WsM Unit) ans s', Consistent x →
      x.threads.lookup n = some ⟨.call o next, t⟩ → Guard srv t o → Serves x.shared o ans s' →
      (FreshID x (.op n o ans) ∧ Timely x (.op n o ans)) →
      Consistent { shared := s', threads := x.threads.insert n ⟨next ans, observe t o ans⟩ } :=
    fun x n t o next ans s' hx hthread hguard hserves hC =>
      ⟨hx.registered.op hthread hguard hserves,
        hx.closings.op hx.registered hthread hguard hserves hC.2, hx.distinct.served hserves hC.1⟩
  exact (invariant startSession_guarded hstart hop hrun (guarantees_empty _) hinit).2.noGhosts

end Runs

section Example

/-- An open relay that asks for no work. -/
def chatServer : WsServer :=
  { openServer with
    sha256 := fun _ => ⟨List.replicate 32 0, length_zeros32⟩
    powBits := 0
    challengeTTL := 60
    relayID := [] }

/-- An `auth` of the all-zero key. -/
def zeroAuth : Auth := ⟨b64 zeroKey.val, b64 zeroSig.val, []⟩

def zeroChallenge : ByteArr 32 := ⟨List.replicate 32 0, length_zeros32⟩

theorem handleAuth_zeroAuth (c : ℕ) (conn : Conn) :
    handleAuth chatServer c conn zeroAuth = (do
      let clock : ℤ ← ws .clock
      if clock - conn.chalAt > 60 then sendErr c "expired" "challenge expired"
      else register chatServer c conn zeroKey) := by
  have hpub : decodePubKey zeroAuth.pubkey = some zeroKey := decodePubKey_b64 zeroKey
  have hsig : decodeSig zeroAuth.sig = some zeroSig := decodeSig_b64 zeroSig
  rw [handleAuth, hpub, hsig]
  refine congrArg (Prog.call WsOp.clock) (funext fun clock => ?_)
  have hcheck : chatServer.checkAuth conn.challenge conn.chalAt zeroAuth zeroKey zeroSig clock =
      if clock - conn.chalAt > 60 then .error ("expired", "challenge expired") else .ok () := rfl
  dsimp only [Prog.bind]
  rw [hcheck]
  rcases Decidable.em (clock - conn.chalAt > 60) with hlate | htime
  · rw [if_pos hlate, if_pos hlate]
  · rw [if_neg htime, if_neg htime]

/-- A new connection of the example. -/
def chatConn : Conn := .new ['a'] zeroChallenge 0

abbrev chatCall (n : ℕ) (call : SessionCall) : SessionEvent := .start n (.start call.conn)

/-- The fields of the connection of the example after its registration. -/
def chatMember : Conn :=
  { chatConn with pub := zeroKey, id := chatServer.idOf zeroKey, authed := true, reader := .busy }

/-- A connection is made, says hello, and reads and checks an `auth`. -/
def authEvents : List SessionEvent :=
  [chatCall 0 (.handleWS 0), .op 0 (.accept 0) (['a'], zeroChallenge, 0),
    chatCall 1 (.greet 0 3600 3600 60), .op 1 (.greet 0) (),
    .op 1 (.fields 0) { chatConn with reader := .busy }, .op 1 .now (0 : Int64),
    .op 1 (.send 0 (.hello 1 [] (b64 zeroChallenge.val) 0 64 3600 3600 1024 60 0)) (),
    .op 1 (.rest 0) (),
    chatCall 2 (.readNext 0), .op 2 (.turn 0) (),
    .op 2 (.read 0) (some (.message (.auth zeroAuth))), .op 2 (.allow 0) true,
    .op 2 (.fields 0) { chatConn with reader := .busy }, .op 2 .clock (0 : ℤ)]

/-- What is left of the round that has checked the `auth`. -/
def registering : WsM Unit := do
  register chatServer 0 { chatConn with reader := .busy } zeroKey
  ws (.rest 0)

def chatTrack : Track where
  conn := some 0
  turn := true
  frame := some (.message (.auth zeroAuth))
  clock := some 0
  fields := some { chatConn with reader := .busy }
  key := none
  stage := .reading
  closing := none

/-- The relay once the `auth` has been checked. -/
def checkedPool : SessionPool chatServer where
  shared := State.setConn (.start Model.empty) 0 { chatConn with reader := .busy }
  threads := (((∅ : Dict ℕ _).insert 0 ⟨pure (), .start (some 0)⟩).insert 1
    ⟨pure (), { Track.start (some 0) with fields := some { chatConn with reader := .busy } }⟩).insert 2
    ⟨registering, chatTrack⟩

theorem authEvents_run : Runs (fun x e y => SessionStep chatServer x e y ∧ FreshID x e ∧ Timely x e)
    ⟨.start Model.empty, ∅⟩ authEvents checkedPool := by
  have hauth : ∀ (conn : Conn) (t : Track),
      (some ⟨handleMessage chatServer 0 conn (.auth zeroAuth) >>= fun _ => ws (.rest 0), t⟩ :
        Option (Thread WsOp WsAns Unit Track)) =
      some ⟨(ws .clock >>= fun clock : ℤ =>
        if clock - conn.chalAt > 60 then sendErr 0 "expired" "challenge expired"
        else register chatServer 0 conn zeroKey) >>= fun _ => ws (.rest 0), t⟩ := fun conn t =>
    congrArg (fun p : WsM Unit =>
      some (Thread.mk (p >>= fun _ => ws (.rest 0)) t : Thread WsOp WsAns Unit Track))
      (handleAuth_zeroAuth 0 conn)
  have hfresh : ∀ c conn, (∅ : Dict ℕ Conn).lookup c = some conn → conn.connID ≠ ['a'] := by
    intro c conn hconn
    simp at hconn
  exact .cons ⟨.start rfl ⟨_, rfl, rfl⟩, trivial, trivial⟩ <|
    .cons ⟨.op rfl (.accept _ _ _ _ _ rfl), hfresh, trivial⟩ <|
    .cons ⟨.start rfl ⟨_, rfl, rfl⟩, trivial, trivial⟩ <|
    .cons ⟨.op rfl (.greet _ _ _ rfl rfl), trivial, trivial⟩ <|
    .cons ⟨.op rfl (.fields _ _ _ rfl), trivial, trivial⟩ <|
    .cons ⟨.op rfl (.now _ _), trivial, trivial⟩ <|
    .cons ⟨.op rfl (.send _ _ _), trivial, trivial⟩ <|
    .cons ⟨.op rfl (.rest _ _ _ rfl), trivial, trivial⟩ <|
    .cons ⟨.start rfl ⟨_, rfl, rfl⟩, trivial, trivial⟩ <|
    .cons ⟨.op rfl (.turn _ _ _ rfl rfl), trivial, trivial⟩ <|
    .cons ⟨.op rfl (.read _ _ _), trivial, trivial⟩ <|
    .cons ⟨.op rfl (.allow _ _ _), trivial, trivial⟩ <|
    .cons ⟨.op rfl (.fields _ _ _ rfl), trivial, trivial⟩ <|
    .cons ⟨.op (hauth _ _) (.clock _ _), trivial, trivial⟩ <| .nil _

/-- The connection registers. -/
def registerEvents : List SessionEvent :=
  [.op 2 (.setPub 0 zeroKey) (), .op 2 (.setID 0 (chatServer.idOf zeroKey)) (),
    .op 2 (.setAuthed 0) (), .op 2 (.subscribe (chatServer.idOf zeroKey) ⟨['a'], false, 0⟩) true,
    .op 2 (.send 0 .ok) (),
    .op 2 (.broadcast (chatServer.idOf zeroKey) (.peerJoined ['a']) ['a']) [], .op 2 (.rest 0) ()]

/-- None of the threads of a pool has begun a closing. -/
def Live (threads : Dict ℕ (Thread WsOp WsAns Unit Track)) : Prop :=
  ∀ n th, threads.lookup n = some th → th.track.closing = none

theorem Live.insert {threads : Dict ℕ (Thread WsOp WsAns Unit Track)} (h : Live threads) (n : ℕ)
    {th : Thread WsOp WsAns Unit Track} (hth : th.track.closing = none) :
    Live (threads.insert n th) := by
  intro n' th' hth'
  rw [lookup_insert_eq] at hth'
  split at hth'
  next =>
    cases hth'
    exact hth
  next => exact h n' th' hth'

theorem Live.timely {x : SessionPool chatServer} (h : Live x.threads) (e : SessionEvent) :
    Timely x e := by
  cases e with
  | start => exact trivial
  | op n o ans =>
      cases o with
      | subscribe id sub =>
          intro n' th hth _
          rw [Past, h n' th hth]
          exact ⟨(fun hp => hp.elim (fun hm => nomatch hm) fun hd => nomatch hd), fun _ hb => nomatch hb⟩
      | _ => exact trivial

theorem no_ghosts_session : ∃ (es : List SessionEvent) (x : SessionPool chatServer) (conn : Conn),
    Runs (fun x e y => SessionStep chatServer x e y ∧ FreshID x e ∧ Timely x e)
      ⟨.start Model.empty, ∅⟩ es x ∧ x.shared.conns.lookup 0 = some conn ∧ conn.authed = true ∧
      conn.once = .finished ∧ conn.reader = .returned ∧ NoGhosts x.shared := by
  have hlive : Live checkedPool.threads := by
    refine Live.insert (Live.insert (Live.insert ?_ 0 rfl) 1 rfl) 2 rfl
    intro n th hth
    simp at hth
  have hrun : ∃ x, Runs (fun x e y => SessionStep chatServer x e y ∧ FreshID x e ∧ Timely x e)
      checkedPool
      (registerEvents ++
        [chatCall 4 (.readNext 0), .op 4 (.turn 0) (), .op 4 (.read 0) none, .op 4 (.once 0) true,
        .op 4 (.fields 0) { chatMember with once := .running },
        .op 4 (.fields 0) { chatMember with once := .running },
        .op 4 (.unsubscribe chatMember.id ['a']) (),
        .op 4 (.fields 0) { chatMember with once := .running },
        .op 4 (.broadcast chatMember.id (.peerLeft ['a']) ['a']) [], .op 4 (.shut 0) (),
        .op 4 (.finish 0) (), .op 4 (.leave 0) ()]) x ∧
      x.shared.conns.lookup 0 =
        some { chatMember with once := .finished, reader := .returned } :=
    ⟨_, .cons ⟨.op rfl (.setPub _ _ _ _ rfl), trivial, trivial⟩ <|
      .cons ⟨.op rfl (.setID _ _ _ _ rfl), trivial, trivial⟩ <|
      .cons ⟨.op rfl (.setAuthed _ _ _ rfl), trivial, trivial⟩ <|
      .cons ⟨.op rfl (.subscribe _ _ _), trivial,
        Live.timely (((hlive.insert 2 rfl).insert 2 rfl).insert 2 rfl) _⟩ <|
      .cons ⟨.op rfl (.send _ _ _), trivial, trivial⟩ <|
      .cons ⟨.op rfl (.broadcast _ _ _ _ _ (List.nil_sublist _)), trivial, trivial⟩ <|
      .cons ⟨.op rfl (.rest _ _ _ rfl), trivial, trivial⟩ <|
      .cons ⟨.start rfl ⟨_, rfl, rfl⟩, trivial, trivial⟩ <|
      .cons ⟨.op rfl (.turn _ _ _ rfl rfl), trivial, trivial⟩ <|
      .cons ⟨.op rfl (.read _ _ _), trivial, trivial⟩ <|
      .cons ⟨.op rfl (.once _ _ _ rfl rfl), trivial, trivial⟩ <|
      .cons ⟨.op rfl (.fields _ _ _ rfl), trivial, trivial⟩ <|
      .cons ⟨.op rfl (.fields _ _ _ rfl), trivial, trivial⟩ <|
      .cons ⟨.op rfl (.unsubscribe _ _ _), trivial, trivial⟩ <|
      .cons ⟨.op rfl (.fields _ _ _ rfl), trivial, trivial⟩ <|
      .cons ⟨.op rfl (.broadcast _ _ _ _ _ (List.nil_sublist _)), trivial, trivial⟩ <|
      .cons ⟨.op rfl (.shut _ _), trivial, trivial⟩ <|
      .cons ⟨.op rfl (.finish _ _ _ rfl), trivial, trivial⟩ <|
      .cons ⟨.op rfl (.leave _ _ _ rfl), trivial, trivial⟩ <| .nil _, rfl⟩
  obtain ⟨x, hrun, hconn⟩ := hrun
  have hall := authEvents_run.append hrun
  exact ⟨_, x, _, hall, hconn, rfl, rfl, rfl, no_ghosts chatServer Model.empty x _ hall⟩

/-- A slow consumer's closing goes first, and the connection's reader, which has
checked an `auth`, registers it afterwards. The reader's own closing does nothing, and
the registration stays. -/
theorem ghost_subscriber : ∃ (es : List SessionEvent) (x : SessionPool chatServer),
    Runs (fun x e y => SessionStep chatServer x e y ∧ FreshID x e) ⟨.start Model.empty, ∅⟩ es x ∧
      ¬ NoGhosts x.shared := by
  have hrun : ∃ x, Runs (fun x e y => SessionStep chatServer x e y ∧ FreshID x e) checkedPool
      ([chatCall 3 (.close 0), .op 3 (.once 0) true,
        .op 3 (.fields 0) { chatConn with reader := .busy, once := .running }, .op 3 (.shut 0) (),
        .op 3 (.finish 0) ()] ++ registerEvents ++
        [chatCall 4 (.readNext 0), .op 4 (.turn 0) (), .op 4 (.read 0) none, .op 4 (.once 0) false,
        .op 4 (.leave 0) ()]) x ∧
      x.shared.conns.lookup 0 =
        some { chatMember with once := .finished, reader := .returned } ∧
      find x.shared.hub chatMember.id ['a'] = some ⟨['a'], false, 0⟩ :=
    ⟨_, .cons ⟨.start rfl ⟨_, rfl, rfl⟩, trivial⟩ <| .cons ⟨.op rfl (.once _ _ _ rfl rfl), trivial⟩ <|
      .cons ⟨.op rfl (.fields _ _ _ rfl), trivial⟩ <| .cons ⟨.op rfl (.shut _ _), trivial⟩ <|
      .cons ⟨.op rfl (.finish _ _ _ rfl), trivial⟩ <|
      .cons ⟨.op rfl (.setPub _ _ _ _ rfl), trivial⟩ <|
      .cons ⟨.op rfl (.setID _ _ _ _ rfl), trivial⟩ <|
      .cons ⟨.op rfl (.setAuthed _ _ _ rfl), trivial⟩ <|
      .cons ⟨.op rfl (.subscribe _ _ _), trivial⟩ <|
      .cons ⟨.op rfl (.send _ _ _), trivial⟩ <|
      .cons ⟨.op rfl (.broadcast _ _ _ _ _ (List.nil_sublist _)), trivial⟩ <|
      .cons ⟨.op rfl (.rest _ _ _ rfl), trivial⟩ <| .cons ⟨.start rfl ⟨_, rfl, rfl⟩, trivial⟩ <|
      .cons ⟨.op rfl (.turn _ _ _ rfl rfl), trivial⟩ <| .cons ⟨.op rfl (.read _ _ _), trivial⟩ <|
      .cons ⟨.op rfl (.onceMore _ _ _ rfl rfl), trivial⟩ <|
      .cons ⟨.op rfl (.leave _ _ _ rfl), trivial⟩ <| .nil _, rfl, rfl⟩
  obtain ⟨x, hrun, hconn, hsub⟩ := hrun
  refine ⟨_, x, (authEvents_run.mono fun _ _ _ h => ⟨h.1, h.2.1⟩).append hrun, fun h => ?_⟩
  have hnone := h.gone 0 _ hconn rfl rfl chatMember.id
  cases hsub.symm.trans hnone

end Example

end Tactile.Relay.Ghosts

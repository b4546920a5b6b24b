import Tactile.Relay.Ghosts

/-!
WebSocket sessions are confined to their identities: what a connection does and what
it is delivered concerns identities for which it has presented a valid signature.
-/

namespace Tactile.Relay.Confinement

open Tactile.Lib.Program Tactile.Lib.FiniteMap Tactile.Lib.NestedMap Tactile.Lib.Threads
open Tactile.Lib.Transition
open Tactile.Relay.Blob Tactile.Relay.Oracle Tactile.Relay.Rest Tactile.Relay.Hub
open Tactile.Relay.Sessions Tactile.Relay.SessionThreads Tactile.Relay.Registrations
open Tactile.Relay.Ghosts
open Tactile.Relay.ClientIP (Text)

section Definitions

variable (srv : WsServer)

/-- The connection has been made with the id, challenge and time of these fields. -/
def Made (es : List SessionEvent) (c : ℕ) (f : Conn) : Prop :=
  ∃ n, .op n (.accept c) (f.connID, f.challenge, f.chalAt) ∈ es

/-- The connection has presented a valid `auth` for the key over its own challenge. -/
def Presented (es : List SessionEvent) (c : ℕ) (pub : PubKey) : Prop :=
  ∃ (n : ℕ) (f : Conn) (m : Auth) (clock : ℤ), Made es c f ∧
    .op n (.read c) (some (.message (.auth m))) ∈ es ∧ .op n .clock clock ∈ es ∧
    srv.Accepts f.challenge f.chalAt m clock pub

/-- The identity that an operation of the hub is about. -/
def addressee : WsOp → Option IdentityID
  | .subscribe id _ | .setEvents id .. | .unsubscribe id _ | .publish id .. | .broadcast id .. |
    .route id .. => some id
  | _ => none

/-- The connection id that a publish or a broadcast leaves out. -/
def excluded : WsOp → Option Text
  | .publish _ _ connID | .broadcast _ _ connID => some connID
  | _ => none

/-- A connection registered under an identity, which it has presented. -/
structure Member (es : List SessionEvent) (s : State srv.idOf) (c : ℕ) (conn : Conn)
    (id : IdentityID) : Prop where
  held : s.conns.lookup c = some conn
  registered : ∃ sub, find s.hub id conn.connID = some sub ∧ sub.send = c
  authed : conn.authed = true
  bound : conn.id = id
  presented : ∃ pub, Presented srv es c pub ∧ id = srv.idOf pub

/-- An operation of a connection's thread, after the events so far: what it does with
the store and the hub concerns keys that its connection has presented, and what it
delivers goes to connections registered under the identity, other than the one that it
leaves out and, when it leaves one out, other than its own. -/
structure Confined (es : List SessionEvent) (s : State srv.idOf) (t : Track) (o : WsOp)
    (ans : WsAns o) : Prop where
  stored : ∀ ro, o = .store ro → ∃ c pub, t.conn = some c ∧ subject ro = some pub ∧
    Presented srv es c pub
  sent : ∀ c id, t.conn = some c → addressee o = some id →
    ∃ pub, Presented srv es c pub ∧ id = srv.idOf pub
  delivered : ∀ c ∈ deliveries s o ans, ∃ id conn, addressee o = some id ∧
    Member srv es s c conn id ∧ excluded o ≠ some conn.connID
  excludes : ∀ c connID, t.conn = some c → excluded o = some connID → c ∉ deliveries s o ans

/-- The fields of a connection with a key and an identity that it has presented. -/
structure Vouched (es : List SessionEvent) (c : ℕ) (f : Conn) : Prop where
  pub : Presented srv es c f.pub
  id : ∃ pub, Presented srv es c pub ∧ f.id = srv.idOf pub

/-- A closing that has found its connection authenticated. -/
def Found (phase : Closing) : Prop := phase ≠ .begun ∧ phase ≠ .missed

/-- What a thread has observed has happened in the run. -/
structure Recalls (es : List SessionEvent) (s : State srv.idOf) (n : ℕ) (t : Track) : Prop where
  frame : ∀ c incoming, t.conn = some c → t.frame = some incoming →
    .op n (.read c) (some incoming) ∈ es
  clock : ∀ clock, t.clock = some clock → .op n .clock clock ∈ es
  fields : ∀ c f, t.conn = some c → t.fields = some f →
    Made es c f ∧ (f.authed = true → Vouched srv es c f)
  found : ∀ c phase, t.conn = some c → t.closing = some phase → Found phase →
    ∃ conn f, s.conns.lookup c = some conn ∧ conn.authed = true ∧ t.fields = some f ∧
      f.authed = true

/-- A run so far: its connections and its threads. -/
structure History (es : List SessionEvent) (x : SessionPool srv) : Prop where
  made : ∀ c conn, x.shared.conns.lookup c = some conn → Made es c conn
  vouched : ∀ c conn, x.shared.conns.lookup c = some conn → conn.authed = true →
    Vouched srv es c conn
  threads : ∀ n th, x.threads.lookup n = some th → Recalls srv es x.shared n th.track

end Definitions

section Growth

variable {srv : WsServer} {es : List SessionEvent} {c : ℕ} {f : Conn} {pub : PubKey}

theorem Made.append (h : Made es c f) (e : SessionEvent) : Made (es ++ [e]) c f := by
  obtain ⟨n, hn⟩ := h
  exact ⟨n, List.mem_append_left _ hn⟩

theorem Presented.append (h : Presented srv es c pub) (e : SessionEvent) :
    Presented srv (es ++ [e]) c pub := by
  obtain ⟨n, f, m, clock, hmade, hread, hclock, haccepts⟩ := h
  exact ⟨n, f, m, clock, hmade.append e, List.mem_append_left _ hread,
    List.mem_append_left _ hclock, haccepts⟩

theorem Vouched.append (h : Vouched srv es c f) (e : SessionEvent) :
    Vouched srv (es ++ [e]) c f := by
  obtain ⟨hpub, pub, hpresented, hid⟩ := h
  exact ⟨hpub.append e, pub, hpresented.append e, hid⟩

/-- A reader whose `auth` has passed has presented the key. -/
theorem Recalls.presented {s : State srv.idOf} {n : ℕ} {t : Track} (h : Recalls srv es s n t)
    (hworking : Working t c f) (hpassed : Passed srv t f pub) : Presented srv es c pub := by
  obtain ⟨m, clock, hframe, hclock, haccepts⟩ := hpassed.valid
  exact ⟨n, f, m, clock, (h.fields c f hworking.conn hworking.fields).1,
    h.frame c _ hworking.conn hframe, h.clock clock hclock, haccepts⟩

theorem Recalls.vouched {s : State srv.idOf} {n : ℕ} {t : Track} (h : Recalls srv es s n t)
    (hsession : Session t c f) : Vouched srv es c f :=
  (h.fields c f hsession.conn hsession.fields).2 hsession.authed

end Growth

section Steps

variable {srv : WsServer} {es : List SessionEvent} {x : SessionPool srv} {n : ℕ} {t : Track}
variable {o : WsOp} {next : WsAns o → WsM Unit} {ans : WsAns o} {s' : State srv.idOf}

theorem observe_frame {incoming : Incoming} (h : (observe t o ans).frame = some incoming) :
    t.frame = some incoming ∨
      ∃ c, (⟨o, ans⟩ : Call WsOp WsAns) = ⟨.read c, some incoming⟩ := by
  cases o with
  | read c =>
      have hans : ans = some incoming := h
      exact .inr ⟨c, hans ▸ rfl⟩
  | unsubscribe | once =>
      rw [observe] at h
      split at h
      next => exact .inl h
      next => exact .inl h
  | _ => exact .inl h

theorem observe_clock {clock : ℤ} (h : (observe t o ans).clock = some clock) :
    t.clock = some clock ∨ (⟨o, ans⟩ : Call WsOp WsAns) = ⟨.clock, clock⟩ := by
  cases o with
  | clock =>
      have hans : ans = clock := Option.some.inj h
      exact .inr (hans ▸ rfl)
  | unsubscribe | once =>
      rw [observe] at h
      split at h
      next => exact .inl h
      next => exact .inl h
  | _ => exact .inl h

theorem observe_fields_eq (ho : ∀ c, o ≠ .fields c) : (observe t o ans).fields = t.fields := by
  cases o with
  | fields c => exact absurd rfl (ho c)
  | unsubscribe | once =>
      rw [observe]
      split
      next => rfl
      next => rfl
  | _ => rfl

/-- The fields of a connection after an operation of a thread. -/
theorem History.vouched_op (h : History srv es x) (hreg : Registered srv x)
    (hthread : x.threads.lookup n = some ⟨.call o next, t⟩) (hguard : Guard srv t o) {c : ℕ}
    {conn conn' : Conn} (hconn : x.shared.conns.lookup c = some conn)
    (hfollows : Follows o c conn conn') (hauthed : conn'.authed = true) :
    Vouched srv es c conn' := by
  have hrecalls := h.threads n _ hthread
  rcases hfollows.authed with hsame | ⟨rfl, _⟩
  · obtain ⟨hpub, hid⟩ := h.vouched c conn hconn (hsame.symm.trans hauthed)
    refine ⟨?_, ?_⟩
    · rcases hfollows.pub with hpub' | ho
      · exact hpub' ▸ hpub
      · rw [ho] at hguard
        obtain ⟨f, hworking, hpassed, _⟩ := hguard
        exact hrecalls.presented hworking hpassed
    · rcases hfollows.id with hid' | ho
      · exact hid' ▸ hid
      · rw [ho] at hguard
        obtain ⟨f, pub, hkeyed, _, hidOf⟩ := hguard
        exact ⟨pub, hrecalls.presented hkeyed.toWorking hkeyed.passed, hidOf⟩
  · obtain ⟨f, pub, hkeyed, hstage⟩ := hguard
    have hknows := (hreg.threads n _ hthread).knows c f conn hkeyed.toWorking hconn
    rw [hstage] at hknows
    obtain ⟨_, hkey, hid⟩ := hknows
    have hpub : pub = conn.pub := Option.some.inj (hkeyed.key.symm.trans hkey)
    have hpresented := hrecalls.presented hkeyed.toWorking hkeyed.passed
    refine ⟨?_, pub, hpresented, ?_⟩
    · rw [hfollows.pub.resolve_right (fun ho => nomatch ho), ← hpub]
      exact hpresented
    · rw [hfollows.id.resolve_right (fun ho => nomatch ho), hpub]
      exact hid

/-- What another thread has observed, after an operation. -/
theorem Recalls.other {n' : ℕ} {t' : Track} (h : Recalls srv es x.shared n' t')
    (hserves : Serves x.shared o ans s') (e : SessionEvent) : Recalls srv (es ++ [e]) s' n' t' where
  frame := fun c incoming hconn hframe => List.mem_append_left _ (h.frame c incoming hconn hframe)
  clock := fun clock hclock => List.mem_append_left _ (h.clock clock hclock)
  fields := fun c f hconn hfields => by
    obtain ⟨hmade, hvouched⟩ := h.fields c f hconn hfields
    exact ⟨hmade.append e, fun hauthed => (hvouched hauthed).append e⟩
  found := fun c phase hconn hclosing hfound => by
    obtain ⟨conn, f, hlookup, hauthed, hfields, hf⟩ := h.found c phase hconn hclosing hfound
    obtain ⟨conn', hlookup', hfollows⟩ := served_follows hserves hlookup
    refine ⟨conn', f, hlookup', ?_, hfields, hf⟩
    rcases hfollows.authed with hsame | ⟨_, hset⟩
    · exact hsame.trans hauthed
    · exact hset

/-- What a thread has observed, after its own operation. -/
theorem History.recalls_self (h : History srv es x)
    (hthread : x.threads.lookup n = some ⟨.call o next, t⟩) (hguard : Guard srv t o)
    (hserves : Serves x.shared o ans s') :
    Recalls srv (es ++ [.op n o ans]) s' n (observe t o ans) := by
  have hrecalls := h.threads n _ hthread
  have hkept : Recalls srv (es ++ [.op n o ans]) s' n t := hrecalls.other hserves _
  have hnew : (.op n o ans : SessionEvent) ∈ es ++ [.op n o ans] :=
    List.mem_append_right _ List.mem_cons_self
  -- the fields that the thread has just read
  have hread : ∀ c f, t.conn = some c → (⟨o, ans⟩ : Call WsOp WsAns) = ⟨.fields c, f⟩ →
      x.shared.conns.lookup c = some f ∧ s' = x.shared := by
    intro c f hconn hcall
    cases hcall
    cases hserves with
    | fields _ _ _ hlookup => exact ⟨hlookup, rfl⟩
  have hown : ∀ c c' f, t.conn = some c → (⟨o, ans⟩ : Call WsOp WsAns) = ⟨.fields c', f⟩ → c' = c := by
    intro c c' f hconn hcall
    cases hcall
    exact Option.some.inj (hguard.1.symm.trans hconn)
  refine ⟨fun c incoming hconn hframe => ?_, fun clock hclock => ?_, fun c f hconn hfields => ?_,
    fun c phase hconn hclosing hfound => ?_⟩
  · rw [observe_conn] at hconn
    rcases observe_frame hframe with hold | ⟨c', hcall⟩
    · exact hkept.frame c incoming hconn hold
    · cases hcall
      cases Option.some.inj ((show t.conn = some c' from hguard).symm.trans hconn)
      exact hnew
  · rcases observe_clock hclock with hold | hcall
    · exact hkept.clock clock hold
    · cases hcall
      exact hnew
  · rw [observe_conn] at hconn
    rcases observe_fields hfields with hold | ⟨c', hcall⟩
    · exact hkept.fields c f hconn hold
    · cases hown c c' f hconn hcall
      obtain ⟨hlookup, _⟩ := hread c f hconn hcall
      exact ⟨(h.made c f hlookup).append _, fun hauthed => (h.vouched c f hlookup hauthed).append _⟩
  · rw [observe_conn] at hconn
    rcases observe_closing hclosing with ⟨hsame, ho⟩ | ⟨c', f, phase₀, hcall, hphase₀, hlook⟩ |
      ⟨_, _, hbegun⟩ | ⟨id, connID, rfl, hlive, _⟩
    · rw [observe_fields_eq ho]
      exact hkept.found c phase hconn hsame hfound
    · cases hown c c' f hconn hcall
      obtain ⟨hlookup, hsame⟩ := hread c f hconn hcall
      have hauthed : f.authed = true := by
        have hold : Found phase₀ → f.authed = true := by
          intro hfound₀
          obtain ⟨conn, _, hconn', hauthed, _⟩ := hrecalls.found c phase₀ hconn hphase₀ hfound₀
          cases hlookup.symm.trans hconn'
          exact hauthed
        cases phase₀ with
        | begun =>
            rw [Closing.look] at hlook
            split at hlook
            next hauthed => exact hauthed
            next => exact absurd hlook hfound.2
        | missed => exact absurd hlook hfound.2
        | found | bound | dropped => exact hold ⟨(fun h => by cases h), fun h => by cases h⟩
      cases hcall
      exact ⟨f, f, hsame ▸ hlookup, hauthed, rfl, hauthed⟩
    · exact absurd hbegun hfound.1
    · rw [observe_fields_eq (o := .unsubscribe id connID) fun _ ho => by cases ho]
      obtain ⟨c', f, _, _, hsession | ⟨_, _, hbound⟩⟩ := hguard
      · exact absurd hsession.live hlive
      · exact hkept.found c _ hconn hbound ⟨(fun h => by cases h), fun h => by cases h⟩

theorem History.op (h : History srv es x) (hreg : Registered srv x)
    (hthread : x.threads.lookup n = some ⟨.call o next, t⟩) (hguard : Guard srv t o)
    (hserves : Serves x.shared o ans s') :
    History srv (es ++ [.op n o ans])
      { shared := s', threads := x.threads.insert n ⟨next ans, observe t o ans⟩ } := by
  refine ⟨fun c conn' hconn' => ?_, fun c conn' hconn' hauthed => ?_, fun n' th hth => ?_⟩
  · rcases served_new hserves hconn' with ⟨conn, hconn, hfollows⟩ | ⟨_, _, _, _, hcall, rfl⟩
    · rw [Made, hfollows.connID, hfollows.challenge, hfollows.chalAt]
      exact (h.made c conn hconn).append _
    · cases hcall
      exact ⟨n, List.mem_append_right _ List.mem_cons_self⟩
  · rcases served_new hserves hconn' with ⟨conn, hconn, hfollows⟩ | ⟨_, _, _, _, _, rfl⟩
    · exact (h.vouched_op hreg hthread hguard hconn hfollows hauthed).append _
    · cases hauthed
  · rw [lookup_insert_eq] at hth
    split at hth
    next heq =>
      subst heq
      cases hth
      exact h.recalls_self hthread hguard hserves
    next => exact (h.threads n' th hth).other hserves _

theorem History.start (h : History srv es x) {p : WsM Unit} (hstart : StartSession srv x.shared t p) :
    History srv (es ++ [.start n t]) { x with threads := x.threads.insert n ⟨p, t⟩ } := by
  obtain ⟨call, rfl, _⟩ := hstart
  refine ⟨fun c conn hconn => (h.made c conn hconn).append _,
    fun c conn hconn hauthed => (h.vouched c conn hconn hauthed).append _, fun n' th hth => ?_⟩
  rw [lookup_insert_eq] at hth
  split at hth
  next =>
    cases hth
    exact ⟨(fun _ _ _ hf => nomatch hf), (fun _ hc => nomatch hc), (fun _ _ _ hf => nomatch hf),
      fun _ _ _ hc => nomatch hc⟩
  next =>
    obtain ⟨hframe, hclock, hfields, hfound⟩ := h.threads n' th hth
    exact ⟨fun c i hc hf => List.mem_append_left _ (hframe c i hc hf),
      fun clock hc => List.mem_append_left _ (hclock clock hc),
      fun c f hc hf => ⟨(hfields c f hc hf).1.append _, fun ha => ((hfields c f hc hf).2 ha).append _⟩,
      hfound⟩

end Steps

section Confinement

variable {srv : WsServer} {es : List SessionEvent} {x : SessionPool srv} {n : ℕ} {t : Track}
variable {o : WsOp} {next : WsAns o → WsM Unit} {ans : WsAns o} {s' : State srv.idOf}

/-- What is delivered goes through a registration under the addressee. -/
theorem served_delivers (hserves : Serves x.shared o ans s') {c : ℕ}
    (hc : c ∈ deliveries x.shared o ans) : ∃ id connID sub, addressee o = some id ∧
      find x.shared.hub id connID = some sub ∧ sub.send = c ∧ excluded o ≠ some connID := by
  have hreceived : ∀ {id connID}, c ∈ (x.shared.hub.receivers id connID).map Subscriber.send →
      ∃ connID' sub, find x.shared.hub id connID' = some sub ∧ sub.send = c ∧ connID' ≠ connID := by
    intro id connID hmem
    obtain ⟨sub, hsub, hsend⟩ := List.mem_map.mp hmem
    obtain ⟨connID', hne, hfind⟩ := Subs.mem_receivers.mp hsub
    exact ⟨connID', sub, hfind, hsend, hne⟩
  cases hserves with
  | publish _ id frame connID taken htaken =>
      have hmem := List.map_subset Subscriber.send (Subs.eventReceivers_subset connID)
        (htaken.subset hc)
      obtain ⟨connID', sub, hfind, hsend, hne⟩ := hreceived hmem
      exact ⟨id, connID', sub, rfl, hfind, hsend, fun h => hne (Option.some.inj h).symm⟩
  | broadcast _ id frame connID taken htaken =>
      obtain ⟨connID', sub, hfind, hsend, hne⟩ := hreceived (htaken.subset hc)
      exact ⟨id, connID', sub, rfl, hfind, hsend, fun h => hne (Option.some.inj h).symm⟩
  | route _ id connID frame taken _ =>
      rw [deliveries] at hc
      split at hc
      next =>
        obtain ⟨sub, hsub, hsend⟩ := List.mem_map.mp hc
        exact ⟨id, connID, sub, rfl, Option.mem_toList.mp hsub, hsend, fun h => by cases h⟩
      next => cases hc
  | _ => cases hc

/-- What a connection's thread does with the hub concerns a key that the connection has
presented. -/
theorem Recalls.sent (h : Recalls srv es x.shared n t) (hguard : Guard srv t o) {c : ℕ}
    {id : IdentityID} (hconn : t.conn = some c) (hid : addressee o = some id) :
    ∃ pub, Presented srv es c pub ∧ id = srv.idOf pub := by
  have hsession : ∀ {c' f}, Session t c' f → ∃ pub, Presented srv es c pub ∧ f.id = srv.idOf pub := by
    intro c' f hs
    cases Option.some.inj (hs.conn.symm.trans hconn)
    exact (h.vouched hs).id
  have hkeyed : ∀ {c' f pub}, Keyed srv t c' f pub → Presented srv es c pub := by
    intro c' f pub hk
    cases Option.some.inj (hk.conn.symm.trans hconn)
    exact h.presented hk.toWorking hk.passed
  have hclosing : ∀ {f phase}, t.fields = some f → t.closing = some phase → Found phase →
      ∃ pub, Presented srv es c pub ∧ f.id = srv.idOf pub := by
    intro f phase hfields hphase hfound
    obtain ⟨_, f', _, _, hfields', hauthed⟩ := h.found c phase hconn hphase hfound
    cases hfields.symm.trans hfields'
    exact ((h.fields c f hconn hfields).2 hauthed).id
  cases o with
  | subscribe id' sub =>
      cases hid
      obtain ⟨c', f, pub, hk, _, hidOf, _⟩ := hguard
      exact ⟨pub, hkeyed hk, hidOf⟩
  | setEvents id' connID on =>
      cases hid
      obtain ⟨c', f, hs, rfl, _⟩ := hguard
      exact hsession hs
  | unsubscribe id' connID =>
      cases hid
      obtain ⟨c', f, rfl, _, hs | ⟨_, hfields, hbound⟩⟩ := hguard
      · exact hsession hs
      · exact hclosing hfields hbound ⟨(fun h => nomatch h), fun h => nomatch h⟩
  | publish id' frame connID =>
      cases hid
      rcases hguard with ⟨hnone, _⟩ | ⟨c', f, hs, rfl, _⟩
      · rw [hconn] at hnone
        cases hnone
      · exact hsession hs
  | broadcast id' frame connID =>
      cases hid
      obtain ⟨c', f, _, ⟨hs, rfl⟩ | ⟨pub, hk, _, hidOf⟩ | ⟨_, hfields, hdropped, rfl⟩⟩ := hguard
      · exact hsession hs
      · exact ⟨pub, hkeyed hk, hidOf⟩
      · exact hclosing hfields hdropped ⟨(fun h => nomatch h), fun h => nomatch h⟩
  | route id' connID frame =>
      cases hid
      obtain ⟨c', f, hs, rfl⟩ := hguard
      exact hsession hs
  | _ => cases hid

/-- A connection that leaves out a connection id leaves out its own. -/
theorem excluded_own (hguard : Guard srv t o) {c : ℕ} {connID : Text} (hconn : t.conn = some c)
    (hexcluded : excluded o = some connID) :
    ∃ f, t.fields = some f ∧ connID = f.connID := by
  cases o with
  | publish id frame connID' =>
      cases hexcluded
      rcases hguard with ⟨hnone, _⟩ | ⟨c', f, hs, _, hown⟩
      · rw [hconn] at hnone
        cases hnone
      · exact ⟨f, hs.fields, hown⟩
  | broadcast id frame connID' =>
      cases hexcluded
      obtain ⟨c', f, hown, ⟨hs, _⟩ | ⟨pub, hk, _⟩ | ⟨_, hfields, _⟩⟩ := hguard
      · exact ⟨f, hs.fields, hown⟩
      · exact ⟨f, hk.fields, hown⟩
      · exact ⟨f, hfields, hown⟩
  | _ => cases hexcluded

theorem History.confined (h : History srv es x) (hreg : Registered srv x)
    (hthread : x.threads.lookup n = some ⟨.call o next, t⟩) (hguard : Guard srv t o)
    (hserves : Serves x.shared o ans s') : Confined srv es x.shared t o ans := by
  have hrecalls := h.threads n _ hthread
  refine ⟨fun ro ho => ?_, fun c id hconn hid => hrecalls.sent hguard hconn hid, fun c hc => ?_,
    fun c connID hconn hexcluded hc => ?_⟩
  · subst ho
    obtain ⟨c, f, hsession, hsubject⟩ := hguard
    exact ⟨c, f.pub, hsession.conn, hsubject, (hrecalls.vouched hsession).pub⟩
  · obtain ⟨id, connID, sub, hid, hfind, rfl, hexcluded⟩ := served_delivers hserves hc
    obtain ⟨conn, hlookup, rfl, _, hauthed, rfl⟩ := hreg.faithful id connID sub hfind
    exact ⟨conn.id, conn, hid, ⟨hlookup, ⟨sub, hfind, rfl⟩, hauthed, rfl,
      (h.vouched _ conn hlookup hauthed).id⟩, hexcluded⟩
  · obtain ⟨id, connID', sub, _, hfind, rfl, hne⟩ := served_delivers hserves hc
    obtain ⟨conn, hlookup, rfl, _⟩ := hreg.faithful id connID' sub hfind
    obtain ⟨f, hfields, rfl⟩ := excluded_own hguard hconn hexcluded
    obtain ⟨conn', hlookup', hconnID⟩ := (hreg.threads n _ hthread).seen _ f hconn hfields
    cases hlookup.symm.trans hlookup'
    exact hne (by rw [hexcluded, hconnID])

/-- What holds after the events so far of a run. -/
structure Orderly (es : List SessionEvent) (x : SessionPool srv) : Prop where
  guarantees : Guarantees observe (Guard srv) (fun _ _ => True) x
  registered : Registered srv x
  history : History srv es x

theorem Orderly.step (pre : List SessionEvent) (x : SessionPool srv) (e : SessionEvent)
    (y : SessionPool srv) (h : Orderly pre x) (hstep : SessionStep srv x e y) :
    Orderly (pre ++ [e]) y := by
  refine ⟨h.guarantees.step startSession_guarded hstep, ?_, ?_⟩
  · cases hstep with
    | start _ hstart => exact h.registered.start hstart
    | op hthread hserves =>
        exact h.registered.op hthread (h.guarantees _ _ hthread).1 hserves
  · cases hstep with
    | start _ hstart => exact h.history.start hstart
    | op hthread hserves =>
        exact h.history.op h.registered hthread (h.guarantees _ _ hthread).1 hserves

theorem Orderly.runs {store : Model srv.idOf} (hrun : Runs (SessionStep srv) ⟨.start store, ∅⟩ es x) :
    Orderly es x := by
  refine hrun.history Orderly.step ⟨guarantees_empty _, registered_start store, ?_⟩
  refine ⟨fun _ _ hconn => ?_, fun _ _ hconn => ?_, fun _ _ hth => ?_⟩
  · simp [State.start] at hconn
  · simp [State.start] at hconn
  · simp at hth

/-- Every operation of every run is confined to identities that its connection has
presented before. -/
theorem sessions_confined (srv : WsServer) (store : Model srv.idOf) (x y : SessionPool srv)
    (es : List SessionEvent) (n : ℕ) (o : WsOp) (ans : WsAns o)
    (th : Thread WsOp WsAns Unit Track)
    (hrun : Runs (SessionStep srv) ⟨.start store, ∅⟩ es x)
    (hthread : x.threads.lookup n = some th) (hstep : SessionStep srv x (.op n o ans) y) :
    Confined srv es x.shared th.track o ans := by
  obtain ⟨hguarantees, hregistered, hhistory⟩ := Orderly.runs hrun
  cases hstep with
  | op hcalling hserves =>
      cases hthread.symm.trans hcalling
      exact hhistory.confined hregistered hcalling (hguarantees _ _ hcalling).1 hserves

end Confinement

/-- The publish of a REST request on the identity of the example. -/
def chatPublish : WsOp := .publish chatMember.id (.blob (.added [])) []

theorem sessions_confined_publish : ∃ (es : List SessionEvent) (x y : SessionPool chatServer)
    (th : Thread WsOp WsAns Unit Track),
    Runs (SessionStep chatServer) ⟨.start Model.empty, ∅⟩ es x ∧ x.threads.lookup 5 = some th ∧
      SessionStep chatServer x (.op 5 chatPublish [0]) y ∧
      deliveries x.shared chatPublish [0] = [0] ∧
      Confined chatServer es x.shared th.track chatPublish [0] := by
  have hrun : ∃ x y th, Runs (SessionStep chatServer) checkedPool
      (registerEvents ++
        [chatCall 4 (.readNext 0), .op 4 (.turn 0) (), .op 4 (.read 0) (some (.message .sub)),
        .op 4 (.allow 0) true, .op 4 (.fields 0) chatMember,
        .op 4 (.setEvents chatMember.id ['a'] true) true, .op 4 (.send 0 .ok) (),
        .op 4 (.rest 0) (), chatCall 5 (.publishREST chatMember.id (.added []))]) x ∧
      x.threads.lookup 5 = some th ∧ SessionStep chatServer x (.op 5 chatPublish [0]) y :=
    ⟨_, _, _, .cons (.op rfl (.setPub _ _ _ _ rfl)) <| .cons (.op rfl (.setID _ _ _ _ rfl)) <|
      .cons (.op rfl (.setAuthed _ _ _ rfl)) <| .cons (.op rfl (.subscribe _ _ _)) <|
      .cons (.op rfl (.send _ _ _)) <|
      .cons (.op rfl (.broadcast _ _ _ _ _ (List.nil_sublist _))) <|
      .cons (.op rfl (.rest _ _ _ rfl)) <| .cons (.start rfl ⟨_, rfl, rfl⟩) <|
      .cons (.op rfl (.turn _ _ _ rfl rfl)) <| .cons (.op rfl (.read _ _ _)) <|
      .cons (.op rfl (.allow _ _ _)) <| .cons (.op rfl (.fields _ _ _ rfl)) <|
      .cons (.op rfl (.setEvents _ _ _ _)) <| .cons (.op rfl (.send _ _ _)) <|
      .cons (.op rfl (.rest _ _ _ rfl)) <| .cons (.start rfl ⟨_, rfl, rfl⟩) <| .nil _,
      rfl, .op rfl (.publish _ _ _ _ _ (List.Sublist.refl _))⟩
  obtain ⟨x, y, th, hrun, hthread, hstep⟩ := hrun
  have hall := (authEvents_run.mono fun _ _ _ h => h.1).append hrun
  exact ⟨_, x, y, th, hall, hthread, hstep, rfl,
    sessions_confined chatServer Model.empty x y _ 5 chatPublish [0] th hall hthread hstep⟩

end Tactile.Relay.Confinement

import Tactile.Publish.ConnSlots

/-!
The WebSocket connections that a relay counts for each address, from their admission to
the end of their readers, in every interleaving. The relay's counters are those of
the publish node.
-/

namespace Tactile.Relay.Connections

open Tactile.Lib.Program Tactile.Lib.Threads Tactile.Lib.Transition Tactile.Lib.FiniteMap
open Tactile.Publish.ConnSlots (Conns slots allSlots releaseConn slots_insert allSlots_insert
  slots_releaseConn allSlots_releaseConn)

section Server

structure Config where
  maxConnsPerIP : ℤ
  maxConns : ℤ
  uaPrefixes : List (List Char)

/-- What `handleWS` reads of a request; `clientIP` is computed from its address and
headers, which stay as they are. -/
structure Request where
  userAgent : List Char
  clientIP : String

/-- Whether the caps leave room for one more connection. -/
def hasRoom (cfg : Config) (conns : Conns) (ip : String) : Bool :=
  if cfg.maxConnsPerIP ≤ slots conns ip then false
  else if 0 < cfg.maxConns ∧ cfg.maxConns ≤ allSlots conns then false
  else true

/-- What the goroutines of a relay do: the rate limiter's verdict, the locked parts of
`admitConn` and `releaseConn`, an answer to the client, the upgrade, the read of
a message, and any other work, of which only the result matters here. -/
inductive Op
  | allow (ip : String)
  | enter (ip : String)
  | release (ip : String)
  | writeErr (status : ℕ) (code message : String)
  | upgrade
  | read
  | work (what : ℕ)

abbrev Ans : Op → Type
  | .allow _ | .enter _ | .upgrade | .read => Bool
  | .release _ | .writeErr .. => Unit
  | .work _ => ℕ

abbrev WsM : Type → Type := Prog Op Ans

def ws (o : Op) : WsM (Ans o) := Prog.op o

/-- How a relay answers them. An upgrade or a read may fail at any time, a read for one
because the connection was closed elsewhere. -/
inductive Serves (cfg : Config) : Answers Op Ans Conns
  | allow {conns : Conns} {ip : String} {ok : Bool} : Serves cfg conns (.allow ip) ok conns
  | enter {conns : Conns} {ip : String} (h : hasRoom cfg conns ip = true) :
      Serves cfg conns (.enter ip) true (conns.insert ip (slots conns ip + 1))
  | full {conns : Conns} {ip : String} (h : hasRoom cfg conns ip = false) :
      Serves cfg conns (.enter ip) false conns
  | release {conns : Conns} {ip : String} :
      Serves cfg conns (.release ip) () (releaseConn conns ip)
  | writeErr {conns : Conns} {status : ℕ} {code message : String} :
      Serves cfg conns (.writeErr status code message) () conns
  | upgrade {conns : Conns} {ok : Bool} : Serves cfg conns .upgrade ok conns
  | read {conns : Conns} {ok : Bool} : Serves cfg conns .read ok conns
  | work {conns : Conns} {what : ℕ} {result : ℕ} : Serves cfg conns (.work what) result conns

end Server

section Goroutines

def admitConn (ip : String) : WsM Bool := do
  let allowed : Bool ← ws (.allow ip)
  if allowed then ws (.enter ip) else return false

def checkUA (cfg : Config) (r : Request) : WsM Bool := do
  if cfg.uaPrefixes = [] ∨ cfg.uaPrefixes.any fun p => p.isPrefixOf r.userAgent then return true
  else
    ws (.writeErr 403 "forbidden" "user-agent not allowed")
    return false

/-- What a connection does besides: it is registered, says hello, handles a message, and
is closed. -/
structure Session where
  register : WsM Unit
  hello : WsM Unit
  handle : WsM Unit
  close : WsM Unit

/-- The loop of the reader in its first rounds; after these it is still reading. When a read
fails the slot is given back and the connection closed. -/
def readLoop (s : Session) (ip : String) : ℕ → WsM Unit
  | 0 => return ()
  | rounds + 1 => do
    let ok : Bool ← ws .read
    if ok then
      s.handle
      readLoop s ip rounds
    else
      ws (.release ip)
      s.close

def readPump (s : Session) (ip : String) (rounds : ℕ) : WsM Unit := do
  s.hello
  readLoop s ip rounds

/-- The handler of a WebSocket request, and the reader that it starts as its last act. -/
def handleWS (cfg : Config) (r : Request) (s : Session) (rounds : ℕ) : WsM Unit := do
  let known ← checkUA cfg r
  if known then
    let admitted ← admitConn r.clientIP
    if admitted then
      let ok : Bool ← ws .upgrade
      if ok then
        s.register
        readPump s r.clientIP rounds
      else ws (.release r.clientIP)
    else ws (.writeErr 429 "rate_limited" "connection limit")
  else return ()

/-- How far a connection has come: admitted and to be upgraded, read from, leaving once the
upgrade or a read has failed, and ended. -/
inductive Phase
  | waiting
  | admitted
  | reading
  | leaving
  | ended
  deriving DecidableEq

structure Track where
  ip : String
  phase : Phase
  deriving DecidableEq

def observe (t : Track) : (o : Op) → Ans o → Track
  | .enter _, (ok : Bool) => if ok then { t with phase := .admitted } else t
  | .upgrade, (ok : Bool) => { t with phase := if ok then .reading else .leaving }
  | .read, (ok : Bool) => if ok then t else { t with phase := .leaving }
  | .release _, _ => { t with phase := .ended }
  | .allow _, _ | .writeErr .., _ | .work _, _ => t

/-- Operations that leave the counters alone. -/
def Op.quiet : Op → Prop
  | .writeErr .. | .work _ => True
  | _ => False

structure Session.Quiet (s : Session) : Prop where
  register : s.register.Only Op.quiet
  hello : s.hello.Only Op.quiet
  handle : s.handle.Only Op.quiet
  close : s.close.Only Op.quiet

/-- A request for a connection, or any other goroutine: a writer, a closing from elsewhere,
another handler. -/
inductive Start (cfg : Config) : Conns → Track → WsM Unit → Prop
  | handleWS (conns : Conns) (r : Request) (s : Session) (rounds : ℕ) (hs : s.Quiet) :
      Start cfg conns ⟨r.clientIP, .waiting⟩ (handleWS cfg r s rounds)
  | other (conns : Conns) (ip : String) (work : WsM Unit) (hwork : work.Only Op.quiet) :
      Start cfg conns ⟨ip, .waiting⟩ work

abbrev Server : Type := Pool Op Ans Unit Track Conns

abbrev WsEvent : Type := Event Op Ans Track

def WsStep (cfg : Config) : Server → WsEvent → Server → Prop :=
  Step (Serves cfg) observe (Start cfg)

def idle : Server := ⟨∅, ∅⟩

/-- Whether a connection is admitted and its reader has not ended. -/
def Phase.live (p : Phase) : Bool := p = .admitted ∨ p = .reading ∨ p = .leaving

/-- The admitted connections of an address whose readers have not ended. -/
def liveConns (x : Server) (ip : String) : ℤ :=
  total x.threads fun _ th => if th.track.ip = ip ∧ th.track.phase.live = true then 1 else 0

/-- The counters are exact and within the caps, where a cap of 0 on all connections is none. -/
structure Exact (cfg : Config) (x : Server) : Prop where
  counts : ∀ ip, slots x.shared ip = liveConns x ip
  positive : All (fun _ n => 0 < n) x.shared
  perIP : All (fun _ n => n ≤ cfg.maxConnsPerIP) x.shared
  all : 0 < cfg.maxConns → allSlots x.shared ≤ cfg.maxConns

end Goroutines

section Guarantee

/-- The operations of a connection, by its phase. -/
def Allows (t : Track) : Op → Prop
  | .allow _ => t.phase = .waiting
  | .enter ip => ip = t.ip ∧ t.phase = .waiting
  | .upgrade => t.phase = .admitted
  | .read => t.phase = .reading
  | .release ip => ip = t.ip ∧ t.phase = .leaving
  | .writeErr .. | .work _ => t.phase ≠ .admitted ∧ t.phase ≠ .leaving

/-- A connection that has returned has no slot left, or is still reading. -/
def Ends (_ : Unit) (t : Track) : Prop := t.phase ≠ .admitted ∧ t.phase ≠ .leaving

abbrev Keeps (p : WsM Unit) (t : Track) : Prop := Holds (Observes observe) Allows Ends p t

/-- Other work leaves the phase alone. -/
theorem work_holds {work : WsM Unit} (h : work.Only Op.quiet) {t : Track} (ht : Ends () t) :
    Holds (Observes observe) Allows (fun _ t' => t' = t) work t := by
  induction work with
  | ret _ => rfl
  | call o next ih =>
      obtain ⟨hquiet, hnext⟩ := h
      cases o with
      | writeErr status code message =>
          refine ⟨ht, ?_⟩
          rintro ans t' rfl
          exact ih ans (hnext ans)
      | work what =>
          refine ⟨ht, ?_⟩
          rintro ans t' rfl
          exact ih ans (hnext ans)
      | _ => cases hquiet

theorem work_keeps {work : WsM Unit} (h : work.Only Op.quiet) {t : Track} (ht : Ends () t) :
    Keeps work t := by
  refine (work_holds h ht).imp ?_
  rintro _ t' rfl
  exact ht

theorem ends_reading (ip : String) : Ends () ⟨ip, .reading⟩ := ⟨nofun, nofun⟩

theorem readLoop_keeps {s : Session} (hs : s.Quiet) (ip : String) (rounds : ℕ) :
    Keeps (readLoop s ip rounds) ⟨ip, .reading⟩ := by
  induction rounds with
  | zero => exact ⟨nofun, nofun⟩
  | succ rounds ih =>
      refine ⟨rfl, ?_⟩
      rintro ok t rfl
      cases ok with
      | true =>
          change Holds _ _ _ (s.handle >>= _) _
          rw [holds_bind]
          refine (work_holds hs.handle (ends_reading ip)).imp ?_
          rintro _ t rfl
          exact ih
      | false =>
          refine ⟨⟨rfl, rfl⟩, ?_⟩
          rintro _ t rfl
          exact work_keeps hs.close ⟨nofun, nofun⟩

theorem readPump_keeps {s : Session} (hs : s.Quiet) (ip : String) (rounds : ℕ) :
    Keeps (readPump s ip rounds) ⟨ip, .reading⟩ := by
  rw [readPump, Keeps, holds_bind]
  refine (work_holds hs.hello (ends_reading ip)).imp ?_
  rintro _ t rfl
  exact readLoop_keeps hs ip rounds

/-- A connection that is admitted goes on to be upgraded; one that is not is still waiting. -/
theorem admitConn_holds (ip : String) :
    Holds (Observes observe) Allows
      (fun admitted t => t = ⟨ip, if admitted then .admitted else .waiting⟩)
      (admitConn ip) ⟨ip, .waiting⟩ := by
  refine ⟨rfl, ?_⟩
  rintro allowed t rfl
  cases allowed with
  | false => rfl
  | true =>
      refine ⟨⟨rfl, rfl⟩, ?_⟩
      rintro ok t rfl
      cases ok with
      | false => rfl
      | true => rfl

theorem checkUA_holds (cfg : Config) (r : Request) :
    Holds (Observes observe) Allows (fun _ t => t = ⟨r.clientIP, .waiting⟩) (checkUA cfg r)
      ⟨r.clientIP, .waiting⟩ := by
  rw [checkUA]
  split
  · rfl
  · refine ⟨⟨nofun, nofun⟩, ?_⟩
    rintro _ t rfl
    rfl

theorem handleWS_keeps (cfg : Config) (r : Request) {s : Session} (hs : s.Quiet) (rounds : ℕ) :
    Keeps (handleWS cfg r s rounds) ⟨r.clientIP, .waiting⟩ := by
  rw [handleWS, Keeps, holds_bind]
  refine (checkUA_holds cfg r).imp ?_
  rintro known t rfl
  cases known with
  | false => exact ⟨nofun, nofun⟩
  | true =>
      change Holds _ _ _ (admitConn r.clientIP >>= _) _
      rw [holds_bind]
      refine (admitConn_holds r.clientIP).imp ?_
      rintro admitted t rfl
      cases admitted with
      | false =>
          refine ⟨⟨nofun, nofun⟩, ?_⟩
          rintro _ t rfl
          exact ⟨nofun, nofun⟩
      | true =>
          refine ⟨rfl, ?_⟩
          rintro ok t rfl
          cases ok with
          | false =>
              refine ⟨⟨rfl, rfl⟩, ?_⟩
              rintro _ t rfl
              exact ⟨nofun, nofun⟩
          | true =>
              change Holds _ _ _ (s.register >>= _) _
              rw [holds_bind]
              refine (work_holds hs.register (ends_reading r.clientIP)).imp ?_
              rintro _ t rfl
              exact readPump_keeps hs r.clientIP rounds

/-- Every goroutine keeps to the phases. -/
theorem start_keeps (cfg : Config) (conns : Conns) (t : Track) (p : WsM Unit)
    (h : Start cfg conns t p) : Keeps p t := by
  cases h with
  | handleWS r s rounds hs => exact handleWS_keeps cfg r hs rounds
  | other ip work hwork => exact work_keeps hwork ⟨nofun, nofun⟩

end Guarantee

section Counters

abbrev ConnThread : Type := Thread Op Ans Unit Track

theorem liveConns_insert (x : Server) (n : ℕ) (th : ConnThread) (conns : Conns) (ip : String) :
    liveConns { shared := conns, threads := x.threads.insert n th } ip =
      liveConns x ip - (x.threads.lookup n).elim 0 (fun th => if th.track.ip = ip ∧
        th.track.phase.live = true then 1 else 0) +
          if th.track.ip = ip ∧ th.track.phase.live = true then 1 else 0 :=
  total_insert _ x.threads n th

/-- A live connection is counted. -/
theorem one_le_liveConns {x : Server} {n : ℕ} {th : ConnThread}
    (h : x.threads.lookup n = some th) (hlive : th.track.phase.live = true) :
    1 ≤ liveConns x th.track.ip := by
  have hle := le_total (d := x.threads) (fun _ th' => if th'.track.ip = th.track.ip ∧
    th'.track.phase.live = true then (1 : ℤ) else 0) (fun _ _ => by split <;> decide) h
  rwa [if_pos ⟨rfl, hlive⟩] at hle

theorem slots_nonneg {conns : Conns} (h : All (fun _ n => 0 < n) conns) (ip : String) :
    0 ≤ slots conns ip := by
  rw [slots]
  cases hip : conns.lookup ip with
  | none => exact Int.le_refl 0
  | some n => exact (h ip n hip).le

/-- What all counters meet, they meet after a release, if one less meets it too. -/
theorem all_releaseConn {P : String → ℤ → Prop} {conns : Conns} {ip : String} (h : All P conns)
    (hless : ∀ n, conns.lookup ip = some n → 1 < n → P ip (n - 1)) : All P (releaseConn conns ip) := by
  rw [releaseConn]
  split
  next => exact h.erase ip
  next hmore =>
    apply h.insert
    rw [slots] at hmore ⊢
    cases hip : conns.lookup ip with
    | none =>
        rw [hip] at hmore
        exact absurd (by decide) hmore
    | some n =>
        rw [hip] at hmore
        exact hless n hip (by simpa using hmore)

/-- Only admissions and releases change the counters, and with them what is live. -/
theorem exact_op {cfg : Config} {x : Server} {n : ℕ} {t : Track} {o : Op} {next : Ans o → WsM Unit}
    {ans : Ans o} {conns : Conns} (hx : Exact cfg x)
    (hthread : x.threads.lookup n = some ⟨.call o next, t⟩) (hallows : Allows t o)
    (hserves : Serves cfg x.shared o ans conns) :
    Exact cfg { shared := conns, threads := x.threads.insert n ⟨next ans, observe t o ans⟩ } := by
  have hsame : ∀ t' : Track, t'.ip = t.ip → t'.phase.live = t.phase.live →
      Exact cfg { shared := x.shared, threads := x.threads.insert n ⟨next ans, t'⟩ } := by
    intro t' hip hlive
    refine ⟨fun ip => ?_, hx.positive, hx.perIP, hx.all⟩
    rw [liveConns_insert, hthread, Option.elim_some, hip, hlive, Int.sub_add_cancel]
    exact hx.counts ip
  cases hserves with
  | allow => exact hsame t rfl rfl
  | full => exact hsame t rfl rfl
  | writeErr => exact hsame t rfl rfl
  | work => exact hsame t rfl rfl
  | @upgrade _ ok =>
      have hadmitted : t.phase = .admitted := hallows
      refine hsame _ rfl ?_
      rw [hadmitted]
      cases ok with
      | true => rfl
      | false => rfl
  | @read _ ok =>
      have hreading : t.phase = .reading := hallows
      cases ok with
      | true => exact hsame t rfl rfl
      | false =>
          refine hsame _ rfl ?_
          rw [hreading]
          rfl
  | @enter _ ip hroom =>
      obtain ⟨rfl, hwaiting⟩ := hallows
      rw [hasRoom] at hroom
      split at hroom
      next => cases hroom
      next hperIP =>
        split at hroom
        next => cases hroom
        next hall =>
          have hnonneg := slots_nonneg hx.positive t.ip
          refine ⟨fun ip => ?_, hx.positive.insert ?_, hx.perIP.insert ?_, fun hcap => ?_⟩
          · change slots (x.shared.insert t.ip _) ip = _
            rw [slots_insert, liveConns_insert, hthread, Option.elim_some, hwaiting]
            have hcounts := hx.counts ip
            split
            next heq =>
              subst heq
              simp [observe, Phase.live, hcounts]
            next hne => simp [observe, Phase.live, hcounts, Ne.symm hne]
          · omega
          · omega
          · change allSlots (x.shared.insert t.ip _) ≤ _
            rw [allSlots_insert]
            omega
  | @release _ ip =>
      obtain ⟨rfl, hleaving⟩ := hallows
      have hlive : t.phase.live = true := by
        rw [hleaving]
        rfl
      have hone : 1 ≤ slots x.shared t.ip := by
        rw [hx.counts]
        exact one_le_liveConns hthread hlive
      refine ⟨fun ip => ?_, all_releaseConn hx.positive ?_, all_releaseConn hx.perIP ?_,
        fun hcap => ?_⟩
      · change slots (releaseConn x.shared t.ip) ip = _
        rw [slots_releaseConn hone, liveConns_insert, hthread, Option.elim_some, hleaving, hx.counts]
        simp [observe, Phase.live, eq_comm]
      · intro m _ hm
        omega
      · intro m hlookup _
        have hcap : m ≤ cfg.maxConnsPerIP := hx.perIP t.ip m hlookup
        change m - 1 ≤ cfg.maxConnsPerIP
        omega
      · change allSlots (releaseConn x.shared t.ip) ≤ _
        rw [allSlots_releaseConn hone]
        have hall := hx.all hcap
        omega

/-- In every interleaving the counters are those of the admitted connections whose readers have
not ended, and within the caps; a connection that has returned is not one of them,
unless it is still reading. -/
theorem conns_exact {cfg : Config} {es : List WsEvent} {y : Server}
    (hrun : Runs (WsStep cfg) idle es y) :
    Exact cfg y ∧ ∀ n t, y.threads.lookup n = some ⟨.ret (), t⟩ →
      t.phase.live = true → t.phase = .reading := by
  have hidle : Exact cfg idle := ⟨fun _ => rfl, all_empty, all_empty, fun hcap => hcap.le⟩
  obtain ⟨hkeeps, hexact⟩ : Guarantees observe Allows Ends y ∧ Exact cfg y := by
    refine invariant (C := fun _ _ => True) (start_keeps cfg) ?_ ?_
      (hrun.mono fun _ _ _ h => ⟨h, trivial⟩) (guarantees_empty _) hidle
    · intro x n t p hx hfree hstart _
      have hwaiting : t.phase = .waiting := by
        cases hstart with
        | handleWS => rfl
        | other => rfl
      refine ⟨fun ip => ?_, hx.positive, hx.perIP, hx.all⟩
      rw [liveConns_insert, hfree, Option.elim_none, hwaiting]
      change slots x.shared ip = liveConns x ip - 0 + if _ ∧ false = true then 1 else 0
      rw [hx.counts]
      simp
    · intro x n t o next ans conns hx hthread hallows hserves _
      exact exact_op hx hthread hallows hserves
  refine ⟨hexact, fun n t hth hlive => ?_⟩
  obtain ⟨hadmitted, hleaving⟩ : t.phase ≠ .admitted ∧ t.phase ≠ .leaving := hkeeps n _ hth
  simpa [Phase.live, hadmitted, hleaving] using hlive

end Counters

section Sample

def quietSession : Session := ⟨.ret (), .ret (), .ret (), .ret ()⟩

def sampleCfg : Config := ⟨16, 0, []⟩

def sampleEvents : List WsEvent :=
  [.start 0 ⟨"192.0.2.7", .waiting⟩, .op 0 (.allow "192.0.2.7") true,
    .op 0 (.enter "192.0.2.7") true, .op 0 .upgrade true, .start 1 ⟨"192.0.2.7", .waiting⟩,
    .op 1 (.allow "192.0.2.7") true, .op 1 (.enter "192.0.2.7") true, .op 1 .upgrade true,
    .op 0 .read false, .op 0 (.release "192.0.2.7") (), .op 1 .read true]

/-- Of two connections of an address, one whose read has failed and one that is read from. -/
theorem one_live : ∃ y, Runs (WsStep sampleCfg) idle sampleEvents y ∧
    slots y.shared "192.0.2.7" = 1 ∧ Exact sampleCfg y := by
  have hstart : ∀ conns, Start sampleCfg conns ⟨"192.0.2.7", .waiting⟩
      (handleWS sampleCfg ⟨[], "192.0.2.7"⟩ quietSession 2) := fun conns =>
    .handleWS conns ⟨[], "192.0.2.7"⟩ quietSession 2 ⟨trivial, trivial, trivial, trivial⟩
  have hrun : Runs (WsStep sampleCfg) idle sampleEvents _ :=
    .cons (.start rfl (hstart _)) (.cons (.op rfl .allow) (.cons (.op rfl (.enter rfl))
      (.cons (.op rfl .upgrade) (.cons (.start rfl (hstart _)) (.cons (.op rfl .allow)
        (.cons (.op rfl (.enter rfl)) (.cons (.op rfl .upgrade) (.cons (.op rfl .read)
          (.cons (.op rfl .release) (.cons (.op rfl .read) (.nil _)))))))))))
  exact ⟨_, hrun, rfl, (conns_exact hrun).1⟩

end Sample

end Tactile.Relay.Connections

import Tactile.Lib.Threads

/-!
The connection slots of the publish API: which requests take one, which give it
back, and how many are held in every interleaving of requests.
-/

namespace Tactile.Publish.ConnSlots

open Tactile.Lib.Program Tactile.Lib.Threads Tactile.Lib.Transition Tactile.Lib.FiniteMap

section Server

/-- The part of the configuration that the gate of the API reads. -/
structure Config where
  readOnly : Bool
  maxConnsPerIP : ℤ
  maxConns : ℤ
  uaPrefixes : List (List Char)

/-- What the gate reads of a request; `clientIP` is computed from its address and
headers, which stay as they are. -/
structure Request where
  userAgent : List Char
  clientIP : String

/-- The slots held for each address. -/
abbrev Conns : Type := Dict String ℤ

def slots (conns : Conns) (ip : String) : ℤ := (conns.lookup ip).getD 0

def allSlots (conns : Conns) : ℤ := total conns fun _ n => n

/-- Whether the caps leave room for one more slot. -/
def hasRoom (cfg : Config) (conns : Conns) (ip : String) : Bool :=
  if cfg.maxConnsPerIP ≤ slots conns ip then false
  else if 0 < cfg.maxConns ∧ cfg.maxConns ≤ allSlots conns then false
  else true

/-- `releaseConn`, under the lock of the map. -/
def releaseConn (conns : Conns) (ip : String) : Conns :=
  if slots conns ip ≤ 1 then conns.erase ip else conns.insert ip (slots conns ip - 1)

/-- What handlers do: the rate limiter's verdict, the locked parts of `admitConn` and
`releaseConn`, `requireWritable` with its answer to the client, the answers of the
gate, and any other work, of which only the result matters here. -/
inductive Op
  | allow (ip : String)
  | enter (ip : String)
  | release (ip : String)
  | requireWritable
  | writeErr (status : ℕ) (code message : String)
  | work (what : ℕ)

abbrev Ans : Op → Type
  | .allow _ | .enter _ | .requireWritable => Bool
  | .release _ | .writeErr .. => Unit
  | .work _ => ℕ

abbrev ConnM : Type → Type := Prog Op Ans

def conn (o : Op) : ConnM (Ans o) := Prog.op o

/-- How a node answers them; what the limiter says and what other work results in is
left open. -/
inductive Serves (cfg : Config) : Answers Op Ans Conns
  | allow {conns : Conns} {ip : String} {ok : Bool} : Serves cfg conns (.allow ip) ok conns
  | enter {conns : Conns} {ip : String} (h : hasRoom cfg conns ip = true) :
      Serves cfg conns (.enter ip) true (conns.insert ip (slots conns ip + 1))
  | full {conns : Conns} {ip : String} (h : hasRoom cfg conns ip = false) :
      Serves cfg conns (.enter ip) false conns
  | release {conns : Conns} {ip : String} :
      Serves cfg conns (.release ip) () (releaseConn conns ip)
  | requireWritable {conns : Conns} : Serves cfg conns .requireWritable (!cfg.readOnly) conns
  | writeErr {conns : Conns} {status : ℕ} {code message : String} :
      Serves cfg conns (.writeErr status code message) () conns
  | work {conns : Conns} {what : ℕ} {result : ℕ} : Serves cfg conns (.work what) result conns

end Server

section Handlers

variable (cfg : Config) (r : Request)

def admitConn (ip : String) : ConnM Bool := do
  let allowed : Bool ← conn (.allow ip)
  if allowed then conn (.enter ip) else return false

def checkUA : ConnM Bool := do
  if cfg.uaPrefixes = [] ∨ cfg.uaPrefixes.any fun p => p.isPrefixOf r.userAgent then return true
  else
    conn (.writeErr 403 "forbidden" "user-agent not allowed")
    return false

def badAPI : ConnM Bool := do
  let known ← checkUA cfg r
  if known then
    let admitted ← admitConn r.clientIP
    if admitted then return false
    else
      conn (.writeErr 429 "rate_limited" "rate limited")
      return true
  else return true

/-- A handler that reads: the gate, the slot's release deferred, and its work. -/
def readHandler (work : ConnM Unit) : ConnM Unit := do
  let bad ← badAPI cfg r
  if bad then return ()
  else
    work
    conn (.release r.clientIP)

/-- A handler that writes: it also asks whether the node is writable, before the
release is deferred. -/
def writeHandler (work : ConnM Unit) : ConnM Unit := do
  let bad ← badAPI cfg r
  if bad then return ()
  else
    let writable : Bool ← conn .requireWritable
    if writable then
      work
      conn (.release r.clientIP)
    else return ()

variable (work : ConnM Unit)

def handleInfo : ConnM Unit := work

def handleHealth : ConnM Unit := work

def handleChallenge : ConnM Unit := work

def handleUsage : ConnM Unit := readHandler cfg r work

def handleListSites : ConnM Unit := readHandler cfg r work

def handlePutSite : ConnM Unit := writeHandler cfg r work

def handleGetSite : ConnM Unit := readHandler cfg r work

def handleDeleteSite : ConnM Unit := writeHandler cfg r work

def handleDeploy : ConnM Unit := writeHandler cfg r work

def handleListDeploys : ConnM Unit := readHandler cfg r work

def handleRollback : ConnM Unit := writeHandler cfg r work

def handleAddDomain : ConnM Unit := writeHandler cfg r work

def handleVerifyDomain : ConnM Unit := writeHandler cfg r work

def handleDeleteDomain : ConnM Unit := writeHandler cfg r work

/-- The endpoints of `mountAPI`. -/
inductive Endpoint
  | info
  | health
  | challenge
  | usage
  | listSites
  | putSite
  | getSite
  | deleteSite
  | deploy
  | listDeploys
  | rollback
  | addDomain
  | verifyDomain
  | deleteDomain
  deriving DecidableEq

def Endpoint.handler : Endpoint → ConnM Unit
  | .info => handleInfo work
  | .health => handleHealth work
  | .challenge => handleChallenge work
  | .usage => handleUsage cfg r work
  | .listSites => handleListSites cfg r work
  | .putSite => handlePutSite cfg r work
  | .getSite => handleGetSite cfg r work
  | .deleteSite => handleDeleteSite cfg r work
  | .deploy => handleDeploy cfg r work
  | .listDeploys => handleListDeploys cfg r work
  | .rollback => handleRollback cfg r work
  | .addDomain => handleAddDomain cfg r work
  | .verifyDomain => handleVerifyDomain cfg r work
  | .deleteDomain => handleDeleteDomain cfg r work

end Handlers

section Threads

/-- How far a request has come: it has a slot once it is admitted, until it gives the
slot back; or it is turned away as a write. -/
inductive Phase
  | waiting
  | admitted
  | released
  | turnedAway
  deriving DecidableEq

structure Track where
  ip : String
  phase : Phase
  deriving DecidableEq

def observe (t : Track) : (o : Op) → Ans o → Track
  | .enter _, (ok : Bool) => if ok then { t with phase := .admitted } else t
  | .release _, _ => { t with phase := .released }
  | .requireWritable, (ok : Bool) => if ok then t else { t with phase := .turnedAway }
  | .allow _, _ | .writeErr .., _ | .work _, _ => t

/-- Operations that leave the slots alone: all that a handler does behind its gate. -/
def Op.quiet : Op → Prop
  | .writeErr .. | .work _ => True
  | .allow _ | .enter _ | .release _ | .requireWritable => False

/-- A request to any endpoint, with any work behind the gate. -/
def Start (cfg : Config) (_ : Conns) (t : Track) (p : ConnM Unit) : Prop :=
  ∃ (e : Endpoint) (r : Request) (work : ConnM Unit), work.Only Op.quiet ∧
    t = ⟨r.clientIP, .waiting⟩ ∧ p = e.handler cfg r work

abbrev Requests : Type := Pool Op Ans Unit Track Conns

abbrev ReqEvent : Type := Event Op Ans Track

/-- A step of a node that serves any number of requests. -/
def ReqStep (cfg : Config) : Requests → ReqEvent → Requests → Prop :=
  Step (Serves cfg) observe (Start cfg)

/-- No request and no slot. -/
def idle : Requests := ⟨∅, ∅⟩

def returned : ConnM Unit → Bool
  | .ret _ => true
  | .call .. => false

/-- The requests of an address that have been admitted and have not returned. -/
def inProgress (x : Requests) (ip : String) : ℤ :=
  total x.threads fun _ th =>
    if th.track.ip = ip ∧ th.track.phase ≠ .waiting ∧ returned th.left = false then 1 else 0

/-- The slots held are those of the requests in progress, and within the caps; a cap
of 0 on all of them is none. -/
structure Balanced (cfg : Config) (x : Requests) : Prop where
  held : ∀ ip, slots x.shared ip = inProgress x ip
  perIP : ∀ ip, slots x.shared ip ≤ max 0 cfg.maxConnsPerIP
  all : 0 < cfg.maxConns → allSlots x.shared ≤ cfg.maxConns

end Threads

section Guarantee

/-- The operations of a request, by its phase. -/
def Allows (t : Track) : Op → Prop
  | .enter ip => ip = t.ip ∧ t.phase = .waiting
  | .release ip => ip = t.ip ∧ t.phase = .admitted
  | .requireWritable => t.phase = .admitted
  | .allow _ | .writeErr .. | .work _ => t.phase = .waiting ∨ t.phase = .admitted

/-- When a request returns it holds no slot, unless it has been turned away. -/
def Ends (_ : Unit) (t : Track) : Prop := t.phase ≠ .admitted

abbrev Keeps (p : ConnM Unit) (t : Track) : Prop := Holds (Observes observe) Allows Ends p t

theorem Allows.phase {t : Track} {o : Op} (h : Allows t o) :
    t.phase = .waiting ∨ t.phase = .admitted := by
  cases o with
  | enter ip => exact .inl h.2
  | release ip => exact .inr h.2
  | requireWritable => exact .inr h
  | _ => exact h

/-- The work of a handler leaves its phase alone. -/
theorem work_holds {work : ConnM Unit} (h : work.Only Op.quiet) {t : Track}
    (ht : t.phase = .waiting ∨ t.phase = .admitted) :
    Holds (Observes observe) Allows (fun _ t' => t' = t) work t := by
  induction work with
  | ret _ => rfl
  | call o next ih =>
      obtain ⟨hquiet, hnext⟩ := h
      cases o with
      | writeErr status code message =>
          refine ⟨ht, ?_⟩
          rintro ans t' rfl
          exact ih ans (hnext ans)
      | work what =>
          refine ⟨ht, ?_⟩
          rintro ans t' rfl
          exact ih ans (hnext ans)
      | _ => cases hquiet

/-- A request that passes the gate is admitted; one that does not is still waiting. -/
theorem badAPI_holds (cfg : Config) (r : Request) :
    Holds (Observes observe) Allows
      (fun bad t => t = ⟨r.clientIP, if bad then .waiting else .admitted⟩)
      (badAPI cfg r) ⟨r.clientIP, .waiting⟩ := by
  rw [badAPI, holds_bind, checkUA]
  split
  · rw [holds_pure, if_pos rfl, holds_bind, admitConn, holds_bind]
    refine ⟨.inl rfl, ?_⟩
    rintro allowed t rfl
    cases allowed with
    | false =>
        refine ⟨.inl rfl, ?_⟩
        rintro ans t rfl
        rfl
    | true =>
        refine ⟨⟨rfl, rfl⟩, ?_⟩
        rintro ok t rfl
        cases ok with
        | false =>
            refine ⟨.inl rfl, ?_⟩
            rintro ans t rfl
            rfl
        | true => rfl
  · refine ⟨.inl rfl, ?_⟩
    rintro ans t rfl
    rfl

theorem release_holds (ip : String) : Keeps (conn (.release ip)) ⟨ip, .admitted⟩ := by
  refine ⟨⟨rfl, rfl⟩, ?_⟩
  rintro ans t rfl
  exact Phase.noConfusion

theorem readHandler_keeps (cfg : Config) (r : Request) {work : ConnM Unit}
    (h : work.Only Op.quiet) : Keeps (readHandler cfg r work) ⟨r.clientIP, .waiting⟩ := by
  rw [readHandler, Keeps, holds_bind]
  refine (badAPI_holds cfg r).imp ?_
  rintro bad t rfl
  cases bad with
  | true => exact Phase.noConfusion
  | false =>
      change Holds _ _ _ (work >>= _) _
      rw [holds_bind]
      refine (work_holds h (.inr rfl)).imp ?_
      rintro _ t rfl
      exact release_holds r.clientIP

theorem writeHandler_keeps (cfg : Config) (r : Request) {work : ConnM Unit}
    (h : work.Only Op.quiet) : Keeps (writeHandler cfg r work) ⟨r.clientIP, .waiting⟩ := by
  rw [writeHandler, Keeps, holds_bind]
  refine (badAPI_holds cfg r).imp ?_
  rintro bad t rfl
  cases bad with
  | true => exact Phase.noConfusion
  | false =>
      refine ⟨rfl, ?_⟩
      rintro writable t rfl
      cases writable with
      | false => exact Phase.noConfusion
      | true =>
          change Holds _ _ _ (work >>= _) _
          rw [holds_bind]
          refine (work_holds h (.inr rfl)).imp ?_
          rintro _ t rfl
          exact release_holds r.clientIP

theorem openHandler_keeps {work : ConnM Unit} (h : work.Only Op.quiet) (ip : String) :
    Keeps work ⟨ip, .waiting⟩ := by
  refine (work_holds h (.inl rfl)).imp ?_
  rintro _ t rfl
  exact Phase.noConfusion

/-- Every endpoint keeps to the phases. -/
theorem start_keeps (cfg : Config) (conns : Conns) (t : Track) (p : ConnM Unit)
    (h : Start cfg conns t p) : Keeps p t := by
  obtain ⟨e, r, work, hwork, rfl, rfl⟩ := h
  cases e with
  | info | health | challenge => exact openHandler_keeps hwork r.clientIP
  | usage | listSites | getSite | listDeploys => exact readHandler_keeps cfg r hwork
  | _ => exact writeHandler_keeps cfg r hwork

end Guarantee

section Slots

theorem slots_insert (conns : Conns) (ip : String) (n : ℤ) (ip' : String) :
    slots (conns.insert ip n) ip' = if ip' = ip then n else slots conns ip' := by
  rw [slots, lookup_insert_eq, slots]
  split <;> rfl

theorem allSlots_insert (conns : Conns) (ip : String) (n : ℤ) :
    allSlots (conns.insert ip n) = allSlots conns - slots conns ip + n := by
  rw [allSlots, total_insert, allSlots, slots]
  cases conns.lookup ip <;> rfl

/-- A slot that is held is given back. -/
theorem slots_releaseConn {conns : Conns} {ip : String} (h : 1 ≤ slots conns ip) (ip' : String) :
    slots (releaseConn conns ip) ip' = slots conns ip' - if ip' = ip then 1 else 0 := by
  rw [releaseConn]
  split
  next hlast =>
    rw [slots, lookup_erase_eq]
    split
    next heq =>
      subst heq
      change (0 : ℤ) = _
      omega
    next => exact (Int.sub_zero _).symm
  next =>
    rw [slots_insert]
    split
    next heq =>
      subst heq
      rfl
    next => exact (Int.sub_zero _).symm

theorem allSlots_releaseConn {conns : Conns} {ip : String} (h : 1 ≤ slots conns ip) :
    allSlots (releaseConn conns ip) = allSlots conns - 1 := by
  rw [releaseConn]
  split
  next hlast =>
    have herase : allSlots (conns.erase ip) = allSlots conns - slots conns ip := by
      rw [allSlots, total_erase, allSlots, slots]
      cases conns.lookup ip <;> rfl
    omega
  next =>
    rw [allSlots_insert]
    omega

/-- Whether a request has a slot. -/
def Phase.slotted (p : Phase) : Bool := p = .admitted ∨ p = .turnedAway

/-- The requests of an address that have a slot. -/
def slotted (x : Requests) (ip : String) : ℤ :=
  total x.threads fun _ th => if th.track.ip = ip ∧ th.track.phase.slotted = true then 1 else 0

theorem slotted_insert (x : Requests) (n : ℕ) (th : Thread Op Ans Unit Track) (s : Conns)
    (ip : String) :
    slotted { shared := s, threads := x.threads.insert n th } ip =
      slotted x ip - (x.threads.lookup n).elim 0 (fun th => if th.track.ip = ip ∧
        th.track.phase.slotted = true then 1 else 0) +
          if th.track.ip = ip ∧ th.track.phase.slotted = true then 1 else 0 :=
  total_insert _ x.threads n th

/-- A request that has a slot is counted. -/
theorem one_le_slotted {x : Requests} {n : ℕ} {th : Thread Op Ans Unit Track}
    (h : x.threads.lookup n = some th) (hslot : th.track.phase.slotted = true) :
    1 ≤ slotted x th.track.ip := by
  have hle := le_total (d := x.threads) (fun _ th' => if th'.track.ip = th.track.ip ∧
    th'.track.phase.slotted = true then (1 : ℤ) else 0) (fun _ _ => by split <;> decide) h
  rwa [if_pos ⟨rfl, hslot⟩] at hle

/-- Every slot is a request's, and the caps hold. -/
structure Counted (cfg : Config) (x : Requests) : Prop where
  held : ∀ ip, slots x.shared ip = slotted x ip
  perIP : ∀ ip, slots x.shared ip ≤ max 0 cfg.maxConnsPerIP
  all : 0 < cfg.maxConns → allSlots x.shared ≤ cfg.maxConns

/-- Only taking and giving back a slot changes the count; both do it on either side. -/
theorem counted_op {cfg : Config} {x : Requests} {n : ℕ} {t : Track} {o : Op}
    {next : Ans o → ConnM Unit} {ans : Ans o} {s' : Conns} (hx : Counted cfg x)
    (hthread : x.threads.lookup n = some ⟨.call o next, t⟩) (hallows : Allows t o)
    (hserves : Serves cfg x.shared o ans s') :
    Counted cfg { shared := s', threads := x.threads.insert n ⟨next ans, observe t o ans⟩ } := by
  have hsame : ∀ t' : Track, t'.ip = t.ip → t'.phase.slotted = t.phase.slotted →
      Counted cfg { shared := x.shared, threads := x.threads.insert n ⟨next ans, t'⟩ } := by
    intro t' hip hslot
    refine ⟨fun ip => ?_, hx.perIP, hx.all⟩
    rw [slotted_insert, hthread, Option.elim_some, hip, hslot, Int.sub_add_cancel]
    exact hx.held ip
  cases hserves with
  | allow => exact hsame t rfl rfl
  | full => exact hsame t rfl rfl
  | writeErr => exact hsame t rfl rfl
  | work => exact hsame t rfl rfl
  | requireWritable =>
      rw [observe]
      split
      · exact hsame t rfl rfl
      · refine hsame _ rfl ?_
        have hadmitted : t.phase = .admitted := hallows
        rw [hadmitted]
        rfl
  | @enter _ ip hroom =>
      obtain ⟨rfl, hwaiting⟩ := hallows
      rw [hasRoom] at hroom
      split at hroom
      next => cases hroom
      next hperIP =>
        split at hroom
        next => cases hroom
        next hall =>
          refine ⟨fun ip => ?_, fun ip => ?_, fun hcap => ?_⟩
          · change slots (x.shared.insert t.ip _) ip = _
            rw [slots_insert, slotted_insert, hthread, Option.elim_some, hwaiting]
            have hheld := hx.held ip
            split
            next heq =>
              subst heq
              simp [observe, Phase.slotted, hheld]
            next hne => simp [observe, Phase.slotted, hheld, Ne.symm hne]
          · change slots (x.shared.insert t.ip _) ip ≤ _
            rw [slots_insert]
            split
            · omega
            · exact hx.perIP ip
          · change allSlots (x.shared.insert t.ip _) ≤ _
            rw [allSlots_insert]
            omega
  | @release _ ip =>
      obtain ⟨rfl, hadmitted⟩ := hallows
      have hslot : t.phase.slotted = true := by
        rw [hadmitted]
        rfl
      have hone : 1 ≤ slots x.shared t.ip := by
        rw [hx.held]
        exact one_le_slotted hthread hslot
      refine ⟨fun ip => ?_, fun ip => ?_, fun hcap => ?_⟩
      · change slots (releaseConn x.shared t.ip) ip = _
        rw [slots_releaseConn hone, slotted_insert, hthread, Option.elim_some, hadmitted, hx.held]
        simp [observe, Phase.slotted, eq_comm]
      · change slots (releaseConn x.shared t.ip) ip ≤ _
        rw [slots_releaseConn hone]
        have hcap := hx.perIP ip
        split <;> omega
      · change allSlots (releaseConn x.shared t.ip) ≤ _
        rw [allSlots_releaseConn hone]
        have hall := hx.all hcap
        omega

/-- In every run each slot is a request's, and the caps hold. -/
theorem run_counted {cfg : Config} {es : List ReqEvent} {y : Requests}
    (hrun : Runs (ReqStep cfg) idle es y) :
    Guarantees observe Allows Ends y ∧ Counted cfg y := by
  have hidle : Counted cfg idle := by
    refine ⟨fun ip => ?_, fun ip => Int.le_max_left 0 _, fun hcap => Int.le_of_lt hcap⟩
    rfl
  refine invariant (C := fun _ _ => True) (start_keeps cfg) ?_ ?_
    (hrun.mono fun _ _ _ h => ⟨h, trivial⟩) (guarantees_empty _) hidle
  · rintro x n t p hx hfree ⟨e, r, work, -, rfl, rfl⟩ -
    refine ⟨fun ip => ?_, hx.perIP, hx.all⟩
    rw [slotted_insert, hfree, Option.elim_none]
    change slots x.shared ip = slotted x ip - 0 + if _ ∧ false = true then 1 else 0
    rw [hx.held]
    simp
  · rintro x n t o next ans s' hx hthread hallows hserves -
    exact counted_op hx hthread hallows hserves

end Slots

section TurnedAway

abbrev Honest (x : Requests) : Prop := Guarantees observe Allows Ends x

/-- The requests of an address that have been turned away as writes. -/
def turned (x : Requests) (ip : String) : ℤ :=
  total x.threads fun _ th =>
    if th.track.ip = ip ∧ th.track.phase = .turnedAway then 1 else 0

/-- A request in progress is waiting or admitted, and one that has returned is not
admitted. -/
theorem Honest.phase {x : Requests} (h : Honest x) {n : ℕ} {th : Thread Op Ans Unit Track}
    (hth : x.threads.lookup n = some th) :
    if returned th.left then th.track.phase ≠ .admitted
      else th.track.phase = .waiting ∨ th.track.phase = .admitted := by
  obtain ⟨left, track⟩ := th
  cases left with
  | ret _ => exact h n _ hth
  | call o next => exact (h n _ hth).1.phase

/-- A request that has a slot is in progress or has been turned away. -/
theorem slotted_eq {x : Requests} (h : Honest x) (ip : String) :
    slotted x ip = inProgress x ip + turned x ip := by
  rw [inProgress, turned, ← total_add]
  refine total_congr _ _ _ ?_
  rintro ⟨n, left, ip', phase⟩ he
  have hphase := h.phase (AList.mem_lookup_iff.mpr he)
  change (if ip' = ip ∧ phase.slotted = true then (1 : ℤ) else 0) =
    (if ip' = ip ∧ phase ≠ .waiting ∧ returned left = false then 1 else 0) +
      if ip' = ip ∧ phase = .turnedAway then 1 else 0
  change if returned left = true then phase ≠ .admitted else phase = .waiting ∨ phase = .admitted
    at hphase
  cases hleft : returned left with
  | true =>
      rw [hleft, if_pos rfl] at hphase
      cases phase with
      | admitted => exact absurd rfl hphase
      | _ => simp [Phase.slotted]
  | false =>
      rw [hleft, if_neg Bool.false_ne_true] at hphase
      rcases hphase with rfl | rfl <;> simp [Phase.slotted]

/-- Some request has been turned away. -/
def Turned (x : Requests) : Prop :=
  ∃ n th, x.threads.lookup n = some th ∧ th.track.phase = .turnedAway

theorem turned_eq_zero {x : Requests} : (∀ ip, turned x ip = 0) ↔ ¬Turned x := by
  have hnonneg : ∀ ip, ∀ (n : ℕ) (th : Thread Op Ans Unit Track), (0 : ℤ) ≤
      if th.track.ip = ip ∧ th.track.phase = .turnedAway then 1 else 0 := by
    intro ip n th
    split <;> decide
  constructor
  · rintro hzero ⟨n, th, hth, hphase⟩
    have hone := (total_eq_zero_iff _ (hnonneg th.track.ip)).mp (hzero th.track.ip) n th hth
    rw [if_pos ⟨rfl, hphase⟩] at hone
    cases hone
  · intro hnone ip
    refine (total_eq_zero_iff _ (hnonneg ip)).mpr fun n th hth => ?_
    rw [if_neg]
    rintro ⟨-, hphase⟩
    exact hnone ⟨n, th, hth, hphase⟩

theorem observe_turnedAway {t : Track} (n : ℕ) (o : Op) (ans : Ans o)
    (h : t.phase = .waiting ∨ t.phase = .admitted) :
    (observe t o ans).phase = .turnedAway ↔
      ∃ m, (.op n o ans : ReqEvent) = .op m .requireWritable false := by
  have hkept : t.phase ≠ .turnedAway := by
    rcases h with h | h <;> rw [h] <;> exact Phase.noConfusion
  constructor
  · intro hphase
    cases o with
    | requireWritable =>
        cases ans with
        | false => exact ⟨n, rfl⟩
        | true => exact absurd hphase hkept
    | enter ip =>
        cases ans with
        | false => exact absurd hphase hkept
        | true => cases hphase
    | release ip => cases hphase
    | _ => exact absurd hphase hkept
  · rintro ⟨m, heq⟩
    cases heq
    rfl

/-- Only `requireWritable` turns requests away, and for good. -/
theorem step_turned {cfg : Config} {x y : Requests} {e : ReqEvent} (hx : Honest x)
    (hstep : ReqStep cfg x e y) :
    Turned y ↔ Turned x ∨ ∃ n, e = .op n .requireWritable false := by
  cases hstep with
  | @start n t p hfree hstart =>
      obtain ⟨_, r, _, -, rfl, rfl⟩ := hstart
      constructor
      · rintro ⟨m, th, hth, hphase⟩
        rw [lookup_insert_eq] at hth
        split at hth
        next =>
          cases hth
          cases hphase
        next => exact .inl ⟨m, th, hth, hphase⟩
      · rintro (⟨m, th, hth, hphase⟩ | ⟨m, heq⟩)
        · refine ⟨m, th, ?_, hphase⟩
          rw [lookup_insert_eq, if_neg]
          · exact hth
          · rintro rfl
            rw [hfree] at hth
            cases hth
        · cases heq
  | @op n t o next ans s' hthread hserves =>
      have hphase : t.phase = .waiting ∨ t.phase = .admitted := (hx n _ hthread).1.phase
      have hmine := observe_turnedAway n o ans hphase
      constructor
      · rintro ⟨m, th, hth, hturned⟩
        rw [lookup_insert_eq] at hth
        split at hth
        next =>
          cases hth
          exact .inr (hmine.mp hturned)
        next => exact .inl ⟨m, th, hth, hturned⟩
      · rintro (⟨m, th, hth, hturned⟩ | hevent)
        · refine ⟨m, th, ?_, hturned⟩
          rw [lookup_insert_eq, if_neg]
          · exact hth
          · rintro rfl
            rw [hthread] at hth
            cases hth
            rcases hphase with hwaiting | hadmitted
            · cases hturned.symm.trans hwaiting
            · cases hturned.symm.trans hadmitted
        · exact ⟨n, _, AList.lookup_insert _, hmine.mpr hevent⟩

theorem run_turned {cfg : Config} {x y : Requests} {es : List ReqEvent} (hx : Honest x)
    (hrun : Runs (ReqStep cfg) x es y) :
    Turned y ↔ Turned x ∨ ∃ n, .op n .requireWritable false ∈ es := by
  induction hrun with
  | nil => simp
  | @cons s t u e es hstep _ ih =>
      rw [ih (hx.step (start_keeps cfg) hstep), step_turned hx hstep, or_assoc]
      simp only [List.mem_cons, exists_or, eq_comm]

end TurnedAway

/-- After a run the slots held are those of the requests in progress, within the caps,
if and only if the run has no request that the gate has admitted and a read-only node
then turns away. -/
theorem balanced_iff {cfg : Config} {es : List ReqEvent} {y : Requests}
    (hrun : Runs (ReqStep cfg) idle es y) :
    Balanced cfg y ↔ (cfg.readOnly = true → ∀ n ans, .op n .requireWritable ans ∉ es) := by
  obtain ⟨hhonest, hcounted⟩ := run_counted hrun
  have hturned : Turned y ↔ ∃ n, .op n .requireWritable false ∈ es := by
    rw [run_turned (guarantees_empty _) hrun]
    refine or_iff_right ?_
    rintro ⟨n, th, hth, -⟩
    cases hth
  have hanswer : ∀ n ans, (.op n .requireWritable ans : ReqEvent) ∈ es → ans = !cfg.readOnly := by
    intro n ans hmem
    obtain ⟨pre, post, rfl⟩ := List.append_of_mem hmem
    obtain ⟨t, t', -, hstep, -⟩ := hrun.split
    cases hstep with
    | op _ hserves =>
        cases hserves
        rfl
  have hheld : (∀ ip, slots y.shared ip = inProgress y ip) ↔ ¬Turned y := by
    rw [← turned_eq_zero]
    refine forall_congr' fun ip => ?_
    rw [hcounted.held, slotted_eq hhonest]
    omega
  constructor
  · intro h hreadOnly n ans hmem
    refine hheld.mp h.held (hturned.mpr ⟨n, ?_⟩)
    have hans := hanswer n ans hmem
    rw [hreadOnly] at hans
    rwa [← show ans = false from hans]
  · intro h
    refine ⟨hheld.mpr fun hy => ?_, hcounted.perIP, hcounted.all⟩
    obtain ⟨n, hmem⟩ := hturned.mp hy
    have hans := hanswer n false hmem
    have hreadOnly : cfg.readOnly = true := by
      cases hmode : cfg.readOnly with
      | true => rfl
      | false =>
          rw [hmode] at hans
          cases hans
    exact h hreadOnly n false hmem

/-- A `PUT` on a writable node, with its slot while it is at work. -/
theorem writable_balanced :
    ∃ y, Runs (ReqStep ⟨false, 64, 0, []⟩) idle
        [.start 0 ⟨"192.0.2.7", .waiting⟩, .op 0 (.allow "192.0.2.7") true,
          .op 0 (.enter "192.0.2.7") true, .op 0 .requireWritable true] y ∧
      slots y.shared "192.0.2.7" = 1 ∧ Balanced ⟨false, 64, 0, []⟩ y := by
  have hstart : Start ⟨false, 64, 0, []⟩ ∅ ⟨"192.0.2.7", .waiting⟩
      (handlePutSite ⟨false, 64, 0, []⟩ ⟨[], "192.0.2.7"⟩ (.ret ())) :=
    ⟨.putSite, ⟨[], "192.0.2.7"⟩, .ret (), trivial, rfl, rfl⟩
  have hrun : Runs (ReqStep ⟨false, 64, 0, []⟩) idle
      [.start 0 ⟨"192.0.2.7", .waiting⟩, .op 0 (.allow "192.0.2.7") true,
        .op 0 (.enter "192.0.2.7") true, .op 0 .requireWritable true] _ :=
    .cons (.start rfl hstart) (.cons (.op rfl .allow)
      (.cons (.op rfl (.enter rfl)) (.cons (.op rfl .requireWritable) (.nil _))))
  exact ⟨_, hrun, rfl, (balanced_iff hrun).mpr fun hreadOnly => nomatch hreadOnly⟩

/-- A read-only node with room for 64 connections, and a `PUT` of a site. -/
def readOnlyCfg : Config := ⟨true, 64, 0, []⟩

def putRequest : Request := ⟨[], "192.0.2.7"⟩

def putEvents : List ReqEvent :=
  [.start 0 ⟨"192.0.2.7", .waiting⟩, .op 0 (.allow "192.0.2.7") true,
    .op 0 (.enter "192.0.2.7") true, .op 0 .requireWritable false]

/-- The request has returned and its slot is still held. -/
theorem readOnly_leaks :
    ∃ y, Runs (ReqStep readOnlyCfg) idle putEvents y ∧ inProgress y "192.0.2.7" = 0 ∧
      slots y.shared "192.0.2.7" = 1 ∧ ¬Balanced readOnlyCfg y := by
  have hstart : Start readOnlyCfg ∅ ⟨"192.0.2.7", .waiting⟩
      (handlePutSite readOnlyCfg putRequest (.ret ())) :=
    ⟨.putSite, putRequest, .ret (), trivial, rfl, rfl⟩
  have hrun : Runs (ReqStep readOnlyCfg) idle putEvents _ :=
    .cons (.start rfl hstart) (.cons (.op rfl .allow)
      (.cons (.op rfl (.enter rfl)) (.cons (.op rfl .requireWritable) (.nil _))))
  refine ⟨_, hrun, rfl, rfl, fun hbalanced => ?_⟩
  have hheld := hbalanced.held "192.0.2.7"
  revert hheld
  decide

end Tactile.Publish.ConnSlots

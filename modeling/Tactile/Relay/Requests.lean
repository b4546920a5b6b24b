import Tactile.Lib.Threads
import Tactile.Relay.FsRefinement

/-!
Concurrent requests to a relay store, whichever its backend, and what it means
that a live blob stays: the statement, and the rule that proves it from what
each operation of a backend keeps.
-/

namespace Tactile.Relay.Requests

open Tactile.Lib.Program Tactile.Lib.FiniteMap Tactile.Lib.Transition Tactile.Lib.Threads
open Tactile.Relay.Blob Tactile.Relay.Oracle Tactile.Relay.FsRefinement

/-- A request to the store, with its time where it has one. -/
inductive Request
  | put (r : Record) (identityCap totalCap : ℤ)
  | get (pub : PubKey) (bid : BlobID) (now : Int64)
  | getRange (pub : PubKey) (bid : BlobID) (start stop : ℤ) (now : Int64)
  | delete (pub : PubKey) (bid : BlobID)
  | sweep (now : Int64)

/-- The request's time has reached an expiry. -/
def Request.pastExpiry (expiresAt : Int64) : Request → Bool
  | .get _ _ now => expiresAt ≤ now
  | .getRange _ _ _ _ now => expiresAt ≤ now
  | .sweep now => expiresAt ≤ now
  | _ => false

/-- The keys that a request removes from its start on. -/
def Request.removes (idOf : PubKey → IdentityID) : Request → List Key
  | .delete pub bid => [(idOf pub, bid)]
  | _ => []

variable {Op : Type} {Ans : Op → Type} {τ σ : Type}

/-- A thread of the pool runs the program of a request. -/
def Starts (program : Request → Prog Op Ans Result) (track : Request → τ) (_ : σ) (t : τ)
    (p : Prog Op Ans Result) : Prop :=
  ∃ q, t = track q ∧ p = program q

section Statement

variable (idOf : PubKey → IdentityID) (maxPayload : ℤ) (program : Request → Prog Op Ans Result)
variable (track : Request → τ) (observe : τ → (o : Op) → Ans o → τ) (R : Answers Op Ans σ)
variable (C : Pool Op Ans Result τ σ → Event Op Ans τ → Prop)

/-- Runs of requests whose steps meet the condition. -/
abbrev ReqRuns : Pool Op Ans Result τ σ → List (Event Op Ans τ) → Pool Op Ans Result τ σ → Prop :=
  Runs fun x e y => Step R observe (Starts program track) x e y ∧ C x e

/-- A request that starts before the expiry and removes nothing of the key. -/
def Spares (k : Key) (e : Event Op Ans τ) : Prop :=
  ∀ n q, e = .start n (track q) → k ∉ q.removes idOf

def Timely (expiresAt : Int64) (e : Event Op Ans τ) : Prop :=
  ∀ n q, e = .start n (track q) → q.pastExpiry expiresAt = false

/-- From the return of a put that stored a record, as long as no request has
reached its expiry and no delete of its key has started since the put did, every
get of the key returns the record. -/
def LiveBlobsStay (Consistent : σ → Prop) : Prop :=
  ∀ (w : σ) (z y : Pool Op Ans Result τ σ) (before during after : List (Event Op Ans τ)) (p g : ℕ)
    (r : Record) (identityCap totalCap : ℤ) (pub : PubKey) (now : Int64) (t t' : τ) (res : Result),
    Consistent w → (r.payload.length : ℤ) ≤ maxPayload → r.payload.length < 2 ^ 32 →
    idOf pub = idOf r.identity →
    ReqRuns program track observe R C ⟨w, ∅⟩
      (before ++ .start p (track (.put r identityCap totalCap)) :: during) z →
    z.threads.lookup p = some ⟨.ret (.done (.ok ())), t⟩ →
    ReqRuns program track observe R C z (.start g (track (.get pub r.id now)) :: after) y →
    y.threads.lookup g = some ⟨.ret res, t'⟩ →
    (∀ e ∈ before ++ .start p (track (.put r identityCap totalCap)) :: during,
      Timely track r.expiresAt e) →
    (∀ e ∈ .start g (track (.get pub r.id now)) :: after, Timely track r.expiresAt e) →
    (∀ e ∈ during ++ after, Spares idOf track (keyOf idOf r) e) →
    res = .record (.ok r)

end Statement

section Rule

variable {idOf : PubKey → IdentityID} {maxPayload : ℤ} {program : Request → Prog Op Ans Result}
variable {track : Request → τ} {observe : τ → (o : Op) → Ans o → τ} {R : Answers Op Ans σ}
variable {C : Pool Op Ans Result τ σ → Event Op Ans τ → Prop}

/-- The answers that are sound, whatever else they are. -/
def Soundly (Sound : (o : Op) → Ans o → Prop) : Answers Op Ans Unit := fun _ o ans _ => Sound o ans

/-- The pool with a thread for a request. -/
abbrev launch (program : Request → Prog Op Ans Result) (track : Request → τ)
    (x : Pool Op Ans Result τ σ) (n : ℕ) (q : Request) : Pool Op Ans Result τ σ :=
  { x with threads := x.threads.insert n ⟨program q, track q⟩ }

/-- What a backend keeps: `Base` in every state, `Follows` from the start of a
put on, and answers to a get that are sound once the put has returned. -/
structure Protects (idOf : PubKey → IdentityID) (program : Request → Prog Op Ans Result)
    (track : Request → τ) (observe : τ → (o : Op) → Ans o → τ) (R : Answers Op Ans σ)
    (C : Pool Op Ans Result τ σ → Event Op Ans τ → Prop) (G : τ → Op → Prop) (Q : Result → τ → Prop)
    (r : Record) (Base : Pool Op Ans Result τ σ → Prop)
    (Follows : ℕ → Pool Op Ans Result τ σ → Prop) (Sound : (o : Op) → Ans o → Prop) : Prop where
  guarantee : ∀ q, Holds (Observes observe) G Q (program q) (track q)
  startBase : ∀ x n q, Base x → x.threads.lookup n = none → q.pastExpiry r.expiresAt = false →
    Base (launch program track x n q)
  opBase : ∀ x n t o next ans s', Base x → x.threads.lookup n = some ⟨.call o next, t⟩ → G t o →
    R x.shared o ans s' → C x (.op n o ans) →
    Base { shared := s', threads := x.threads.insert n ⟨next ans, observe t o ans⟩ }
  startPut : ∀ x p identityCap totalCap, Base x → x.threads.lookup p = none →
    Follows p (launch program track x p (.put r identityCap totalCap))
  startFollows : ∀ x p n q, Follows p x → x.threads.lookup n = none →
    q.pastExpiry r.expiresAt = false → keyOf idOf r ∉ q.removes idOf →
    Follows p (launch program track x n q)
  opFollows : ∀ x p n t o next ans s', Follows p x →
    x.threads.lookup n = some ⟨.call o next, t⟩ → G t o → R x.shared o ans s' → C x (.op n o ans) →
    Follows p { shared := s', threads := x.threads.insert n ⟨next ans, observe t o ans⟩ }
  sound : ∀ x p t o ans s', Follows p x →
    x.threads.lookup p = some ⟨.ret (.done (.ok ())), t⟩ → Q (.done (.ok ())) t →
    R x.shared o ans s' → Sound o ans
  getFound : ∀ pub now, idOf pub = idOf r.identity → ¬ r.expiresAt ≤ now →
    Holds (Soundly Sound) (fun _ _ => True) (fun res _ => res = .record (.ok r))
      (program (.get pub r.id now)) ()

variable {G : τ → Op → Prop} {Q : Result → τ → Prop} {r : Record}
variable {Base : Pool Op Ans Result τ σ → Prop} {Follows : ℕ → Pool Op Ans Result τ σ → Prop}
variable {Sound : (o : Op) → Ans o → Prop}

theorem Protects.starts (h : Protects idOf program track observe R C G Q r Base Follows
    Sound) (s : σ) (t : τ) (p : Prog Op Ans Result) (hp : Starts program track s t p) :
    Holds (Observes observe) G Q p t := by
  obtain ⟨q, rfl, rfl⟩ := hp
  exact h.guarantee q

/-- The put has returned, and what the get has left to run ends with the record
as long as it gets sound answers. -/
def Gets (Sound : (o : Op) → Ans o → Prop) (r : Record) (p g : ℕ)
    (x : Pool Op Ans Result τ σ) : Prop :=
  (∃ t, x.threads.lookup p = some ⟨.ret (.done (.ok ())), t⟩) ∧
    ∃ th, x.threads.lookup g = some th ∧
      Holds (Soundly Sound) (fun _ _ => True) (fun res _ => res = .record (.ok r)) th.left ()

/-- What is kept from a state in which the base holds. -/
theorem Protects.base (h : Protects idOf program track observe R C G Q r Base Follows Sound)
    {x y : Pool Op Ans Result τ σ} {es : List (Event Op Ans τ)}
    (hrun : ReqRuns program track observe R C x es y)
    (htimely : ∀ e ∈ es, Timely track r.expiresAt e) (hguar : Guarantees observe G Q x)
    (hbase : Base x) : Guarantees observe G Q y ∧ Base y := by
  have hsteps : Runs (fun x e y => Step R observe (Starts program track) x e y ∧
      (C x e ∧ Timely track r.expiresAt e)) x es y :=
    (hrun.with_events htimely).mono fun _ _ _ hstep => ⟨hstep.1.1, hstep.1.2, hstep.2⟩
  refine invariant h.starts ?_ ?_ hsteps hguar hbase
  · rintro x n _ _ hx hfree ⟨q, rfl, rfl⟩ ⟨-, hq⟩
    exact h.startBase x n q hx hfree (hq n q rfl)
  · intro x n t o next ans s' hx hth hG hR hC
    exact h.opBase x n t o next ans s' hx hth hG hR hC.1

/-- What is kept from the start of a put on. -/
theorem Protects.follows (h : Protects idOf program track observe R C G Q r Base Follows Sound)
    {x y : Pool Op Ans Result τ σ} {es : List (Event Op Ans τ)} {p : ℕ}
    (hrun : ReqRuns program track observe R C x es y)
    (hevents : ∀ e ∈ es, Timely track r.expiresAt e ∧ Spares idOf track (keyOf idOf r) e)
    (hguar : Guarantees observe G Q x) (hx : Follows p x) :
    Guarantees observe G Q y ∧ Follows p y := by
  have hsteps : Runs (fun x e y => Step R observe (Starts program track) x e y ∧
      (C x e ∧ Timely track r.expiresAt e ∧ Spares idOf track (keyOf idOf r) e)) x es y :=
    (hrun.with_events hevents).mono fun _ _ _ hstep => ⟨hstep.1.1, hstep.1.2, hstep.2⟩
  refine invariant h.starts ?_ ?_ hsteps hguar hx
  · rintro x n _ _ hx hfree ⟨q, rfl, rfl⟩ ⟨-, hq, hk⟩
    exact h.startFollows x p n q hx hfree (hq n q rfl) (hk n q rfl)
  · intro x n t o next ans s' hx hth hG hR hC
    exact h.opFollows x p n t o next ans s' hx hth hG hR hC.1

/-- A step after the return of the put keeps what the get ends with. -/
theorem Protects.gets_step (h : Protects idOf program track observe R C G Q r Base Follows Sound)
    {x y : Pool Op Ans Result τ σ} {e : Event Op Ans τ} {p g : ℕ}
    (hstep : Step R observe (Starts program track) x e y) (hguar : Guarantees observe G Q x)
    (hx : Follows p x) (hgets : Gets Sound r p g x) : Gets Sound r p g y := by
  obtain ⟨⟨t, hput⟩, th, hget, hleft⟩ := hgets
  refine ⟨⟨t, hstep.returned hput⟩, ?_⟩
  cases hstep with
  | @start n t' q hfree _ =>
      refine ⟨th, ?_, hleft⟩
      rw [lookup_insert_eq, if_neg]
      · exact hget
      · rintro rfl
        rw [hfree] at hget
        cases hget
  | @op n t' o next ans s' hthread hR =>
      by_cases hn : g = n
      · subst hn
        rw [hthread] at hget
        cases hget
        have hsound := h.sound x p t o ans s' hx hput (hguar p _ hput) hR
        exact ⟨_, AList.lookup_insert _, hleft.2 ans () hsound⟩
      · exact ⟨th, by rw [lookup_insert_eq, if_neg hn, hget], hleft⟩

theorem Protects.gets (h : Protects idOf program track observe R C G Q r Base Follows Sound)
    {x y : Pool Op Ans Result τ σ} {es : List (Event Op Ans τ)} {p g : ℕ}
    (hrun : ReqRuns program track observe R C x es y)
    (hevents : ∀ e ∈ es, Timely track r.expiresAt e ∧ Spares idOf track (keyOf idOf r) e)
    (hguar : Guarantees observe G Q x) (hx : Follows p x) (hgets : Gets Sound r p g x) :
    Gets Sound r p g y := by
  induction hrun with
  | nil => exact hgets
  | cons hstep _ ih =>
      obtain ⟨hguar', hx'⟩ := h.follows (.single hstep)
        (fun e he => by
          rw [List.mem_singleton.mp he]
          exact hevents _ List.mem_cons_self) hguar hx
      exact ih (fun e he => hevents e (List.mem_cons_of_mem _ he)) hguar' hx'
        (h.gets_step hstep.1 hguar hx hgets)

/-- What the start of a request does, when its track names it. -/
theorem step_start (htrack : Function.Injective track) {x y : Pool Op Ans Result τ σ} {n : ℕ}
    {q : Request} (hstep : Step R observe (Starts program track) x (.start n (track q)) y) :
    x.threads.lookup n = none ∧ y = launch program track x n q := by
  cases hstep with
  | start hfree hp =>
      obtain ⟨q', hq, rfl⟩ := hp
      rw [htrack hq]
      exact ⟨hfree, rfl⟩

/-- A live blob stays where each operation of the backend protects it. -/
theorem liveBlobsStay_of_protects {Consistent : σ → Prop}
    {Base : Record → Pool Op Ans Result τ σ → Prop}
    {Follows : Record → ℕ → Pool Op Ans Result τ σ → Prop}
    {Sound : Record → (o : Op) → Ans o → Prop} (htrack : Function.Injective track)
    (hinit : ∀ r w, Consistent w → Base r ⟨w, ∅⟩)
    (h : ∀ r : Record, (r.payload.length : ℤ) ≤ maxPayload → r.payload.length < 2 ^ 32 →
      Protects idOf program track observe R C G Q r (Base r) (Follows r) (Sound r)) :
    LiveBlobsStay idOf maxPayload program track observe R C Consistent := by
  intro w z y before during after p g r identityCap totalCap pub now t t' res hw hlimit hlt hpub
    hput hdone hget hres htimely htimely' hspares
  have hr := h r hlimit hlt
  obtain ⟨x₁, x₂, hbefore, ⟨hstart, _⟩, hduring⟩ := hput.split
  obtain ⟨hguar₁, hbase⟩ := hr.base hbefore (fun e he => htimely e (List.mem_append_left _ he))
    (guarantees_empty w) (hinit r w hw)
  have hduring' : ∀ e ∈ during,
      Timely track r.expiresAt e ∧ Spares idOf track (keyOf idOf r) e := fun e he =>
    ⟨htimely e (List.mem_append_right _ (List.mem_cons_of_mem _ he)),
      hspares e (List.mem_append_left _ he)⟩
  have hafter : ∀ e ∈ after, Timely track r.expiresAt e ∧ Spares idOf track (keyOf idOf r) e :=
    fun e he => ⟨htimely' e (List.mem_cons_of_mem _ he), hspares e (List.mem_append_right _ he)⟩
  have hguar₂ := hguar₁.step hr.starts hstart
  obtain ⟨hfree, rfl⟩ := step_start htrack hstart
  obtain ⟨hguar, hfollows⟩ := hr.follows hduring hduring' hguar₂
    (hr.startPut x₁ p identityCap totalCap hbase hfree)
  cases hget with
  | @cons _ z' _ _ _ hstep hrest =>
      have hlive := htimely' _ List.mem_cons_self g _ rfl
      have hguar' := hguar.step hr.starts hstep.1
      obtain ⟨hfree', rfl⟩ := step_start htrack hstep.1
      have hfollows' := hr.startFollows z p g (.get pub r.id now) hfollows hfree' hlive List.not_mem_nil
      have hgets : Gets (Sound r) r p g (launch program track z g (.get pub r.id now)) :=
        ⟨⟨t, hstep.1.returned hdone⟩, _, AList.lookup_insert _,
          hr.getFound pub now hpub (of_decide_eq_false hlive)⟩
      obtain ⟨-, th, hth, hleft⟩ := hr.gets hrest hafter hguar' hfollows' hgets
      rw [hres] at hth
      cases hth
      exact hleft

end Rule

end Tactile.Relay.Requests

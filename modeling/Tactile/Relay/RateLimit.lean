import Mathlib.Algebra.Order.Ring.Rat
import Mathlib.Tactic.FieldSimp
import Mathlib.Tactic.Linarith
import Tactile.Lib.FiniteMap

/-!
The keyed token buckets with which both servers limit rates, in exact arithmetic: what
buckets hold, what a key is granted in a window of time, and that dropping buckets
changes no answer.
-/

namespace Tactile.Relay.RateLimit

open Tactile.Lib.FiniteMap

section Limiter

/-- The seconds between two sweeps, at least. -/
def sweepInterval : ℚ := 60

def bucketMaxIdle : ℚ := 600

/-- The tokens of a key, and when it was last used. -/
structure Bucket where
  tokens : ℚ
  last : ℚ
  deriving DecidableEq

/-- The buckets of a limiter, and when they were last swept, if they were. -/
structure Limiter where
  rate : ℚ
  burst : ℚ
  buckets : Dict String Bucket
  lastSweep : Option ℚ

def new (rate burst : ℚ) : Limiter := ⟨rate, burst, ∅, none⟩

/-- The readings of the clock in one call: for the sweep, for a new bucket, for the time
since the last use, and for the use itself. -/
structure Clock where
  swept : ℚ
  created : ℚ
  measured : ℚ
  used : ℚ
  swept_le : swept ≤ created
  created_le : created ≤ measured
  measured_le : measured ≤ used

/-- A call of `AllowN`. -/
structure Call where
  key : String
  amount : ℚ
  clock : Clock
  positive : 0 < amount

def Limiter.due (l : Limiter) (now : ℚ) : Bool :=
  match l.lastSweep with
  | none => true
  | some last => !decide (now - last < sweepInterval)

/-- What a sweep drops: full buckets, by the tokens stored in them, that are idle. -/
def Limiter.stale (l : Limiter) (now : ℚ) (b : Bucket) : Bool :=
  decide (l.burst ≤ b.tokens ∧ bucketMaxIdle < now - b.last)

def sweepLocked (now : ℚ) (l : Limiter) : Limiter :=
  if l.due now then
    { l with lastSweep := some now, buckets := select l.buckets fun _ b => !l.stale now b }
  else l

/-- The bucket of a call, full when the key has none. -/
def Limiter.bucketFor (l : Limiter) (c : Call) : Bucket :=
  (l.buckets.lookup c.key).getD ⟨l.burst, c.clock.created⟩

/-- The tokens of a bucket at a time. -/
def Limiter.refilled (l : Limiter) (b : Bucket) (now : ℚ) : ℚ :=
  let tokens := b.tokens + (now - b.last) * l.rate
  if l.burst < tokens then l.burst else tokens

def Limiter.keep (l : Limiter) (key : String) (b : Bucket) : Limiter :=
  { l with buckets := l.buckets.insert key b }

/-- `AllowN` behind its sweep. -/
def take (c : Call) (l : Limiter) : Bool × Limiter :=
  let tokens := l.refilled (l.bucketFor c) c.clock.measured
  if tokens < c.amount then (false, l.keep c.key ⟨tokens, c.clock.used⟩)
  else (true, l.keep c.key ⟨tokens - c.amount, c.clock.used⟩)

def allowN (c : Call) (l : Limiter) : Bool × Limiter := take c (sweepLocked c.clock.swept l)

/-- The answers to calls one after the other, and the limiter that they leave. -/
def serve (step : Call → Limiter → Bool × Limiter) : List Call → Limiter → List Bool × Limiter
  | [], l => ([], l)
  | c :: calls, l =>
    let out := step c l
    let rest := serve step calls out.2
    (out.1 :: rest.1, rest.2)

/-- The clock does not go back from call to call. -/
def Ordered (calls : List Call) : Prop :=
  calls.Pairwise fun c c' => c.clock.used ≤ c'.clock.swept

/-- What a call counts for a key in a window of time, by its use. -/
def counted (key : String) (start stop : ℚ) (c : Call) (ok : Bool) : ℚ :=
  if ok = true ∧ c.key = key ∧ start ≤ c.clock.used ∧ c.clock.used ≤ stop then c.amount else 0

/-- The amounts granted to a key in a window of time. -/
def granted (key : String) (start stop : ℚ) (calls : List Call) (answers : List Bool) : ℚ :=
  (List.zipWith (counted key start stop) calls answers).sum

/-- What is promised of a run of calls. -/
structure Bounded (rate burst : ℚ) (calls : List Call) : Prop where
  tokens : All (fun _ b => 0 ≤ b.tokens ∧ b.tokens ≤ burst)
    (serve allowN calls (new rate burst)).2.buckets
  window : ∀ key start length, 0 ≤ length →
    granted key start (start + length) calls (serve allowN calls (new rate burst)).1 ≤
      burst + rate * length
  unswept : (serve allowN calls (new rate burst)).1 = (serve take calls (new rate burst)).1

end Limiter

section Buckets

variable {rate burst : ℚ} {l : Limiter} {c : Call} {now : ℚ}

theorem refilled_eq (b : Bucket) : l.refilled b now = min (b.tokens + (now - b.last) * l.rate) l.burst := by
  rw [Limiter.refilled]
  split
  next h => exact (min_eq_right h.le).symm
  next h => exact (min_eq_left (not_lt.mp h)).symm

theorem refilled_le (b : Bucket) : l.refilled b now ≤ l.burst := by
  rw [refilled_eq]
  exact min_le_right _ _

/-- A limiter of these parameters, whose buckets are within bounds and were used up to some time. -/
structure Kept (rate burst time : ℚ) (l : Limiter) : Prop where
  sameRate : l.rate = rate
  sameBurst : l.burst = burst
  buckets : All (fun _ b => 0 ≤ b.tokens ∧ b.tokens ≤ burst ∧ b.last ≤ time) l.buckets

theorem Kept.later {time time' : ℚ} (h : Kept rate burst time l) (hle : time ≤ time') :
    Kept rate burst time' l where
  sameRate := h.sameRate
  sameBurst := h.sameBurst
  buckets := fun key b hb => ⟨(h.buckets key b hb).1, (h.buckets key b hb).2.1,
    (h.buckets key b hb).2.2.trans hle⟩

theorem Kept.sweep {time : ℚ} (h : Kept rate burst time l) (now : ℚ) :
    Kept rate burst time (sweepLocked now l) := by
  rw [sweepLocked]
  split
  · refine ⟨h.sameRate, h.sameBurst, fun key b hb => ?_⟩
    rw [lookup_select, Option.filter_eq_some_iff] at hb
    exact h.buckets key b hb.1
  · exact h

/-- The tokens that a key has at a time. -/
def Limiter.level (l : Limiter) (key : String) (time : ℚ) : ℚ :=
  ((l.buckets.lookup key).map fun b => l.refilled b time).getD l.burst

theorem level_le (key : String) (time : ℚ) : l.level key time ≤ l.burst := by
  rw [Limiter.level]
  cases l.buckets.lookup key with
  | none => exact le_refl _
  | some b => exact refilled_le b

theorem level_nonneg {time : ℚ} (h : Kept rate burst time l) (hrate : 0 ≤ rate) (hburst : 0 ≤ burst)
    (key : String) : 0 ≤ l.level key time := by
  rw [Limiter.level]
  cases hb : l.buckets.lookup key with
  | none => exact hburst.trans_eq h.sameBurst.symm
  | some b =>
      obtain ⟨hnonneg, -, hlast⟩ := h.buckets key b hb
      change 0 ≤ l.refilled b time
      rw [refilled_eq, h.sameRate, h.sameBurst]
      have hgain : 0 ≤ (time - b.last) * rate := mul_nonneg (sub_nonneg.mpr hlast) hrate
      exact le_min (by linarith) hburst

/-- In some time a key gains at most what is filled in. -/
theorem level_later {time time' : ℚ} (h : Kept rate burst time l) (hrate : 0 ≤ rate)
    (hle : time ≤ time') (key : String) :
    l.level key time' ≤ l.level key time + rate * (time' - time) := by
  have hgain : 0 ≤ rate * (time' - time) := mul_nonneg hrate (sub_nonneg.mpr hle)
  rw [Limiter.level, Limiter.level]
  cases l.buckets.lookup key with
  | none =>
      change l.burst ≤ l.burst + _
      linarith
  | some b =>
      change l.refilled b time' ≤ l.refilled b time + _
      rw [refilled_eq, refilled_eq, h.sameRate]
      by_cases hfull : b.tokens + (time - b.last) * rate ≤ l.burst
      · rw [min_eq_left hfull]
        refine (min_le_left _ _).trans ?_
        linarith
      · rw [min_eq_right (not_le.mp hfull).le]
        refine (min_le_right _ _).trans ?_
        linarith

/-- A sweep drops full buckets only. -/
theorem level_sweep {time : ℚ} (h : Kept rate burst time l) (hrate : 0 ≤ rate) (now : ℚ)
    (key : String) : (sweepLocked now l).level key time = l.level key time := by
  rw [sweepLocked]
  split
  · simp only [Limiter.level, lookup_select]
    cases hb : l.buckets.lookup key with
    | none => rfl
    | some b =>
        rw [Option.filter_some]
        split
        · rfl
        next hstale =>
          obtain ⟨-, -, hlast⟩ := h.buckets key b hb
          have hfull : l.burst ≤ b.tokens := by
            have htest : l.stale now b = true := by simpa using hstale
            exact (of_decide_eq_true htest).1
          have hgain : 0 ≤ (time - b.last) * rate := mul_nonneg (sub_nonneg.mpr hlast) hrate
          change l.burst = l.refilled b time
          rw [refilled_eq, h.sameRate, min_eq_right (by linarith)]
  · rfl

/-- A call finds what the key has at the time it measures. -/
theorem refilled_bucketFor {time : ℚ} (h : Kept rate burst time l) (hrate : 0 ≤ rate) (c : Call) :
    l.refilled (l.bucketFor c) c.clock.measured = l.level c.key c.clock.measured := by
  rw [Limiter.bucketFor, Limiter.level]
  cases l.buckets.lookup c.key with
  | none =>
      have hgain : 0 ≤ (c.clock.measured - c.clock.created) * rate :=
        mul_nonneg (sub_nonneg.mpr c.clock.created_le) hrate
      change l.refilled ⟨l.burst, c.clock.created⟩ _ = l.burst
      rw [refilled_eq, h.sameRate]
      exact min_eq_right (by linarith)
  | some b => rfl

/-- What the call leaves of the tokens, whether it takes its amount or not. -/
theorem take_cases (c : Call) (l : Limiter) :
    ∃ tokens, (take c l).2 = l.keep c.key ⟨tokens, c.clock.used⟩ ∧
      tokens ≤ l.refilled (l.bucketFor c) c.clock.measured ∧
      (0 ≤ l.refilled (l.bucketFor c) c.clock.measured → 0 ≤ tokens) ∧
      (if (take c l).1 = true then c.amount else 0) + tokens =
        l.refilled (l.bucketFor c) c.clock.measured := by
  rw [take]
  split
  next h => exact ⟨_, rfl, le_refl _, id, by simp⟩
  next h =>
    have hpos := c.positive
    refine ⟨_, rfl, by linarith, fun _ => by linarith [not_lt.mp h], by simp⟩

theorem Kept.take {time : ℚ} (h : Kept rate burst time l) (hrate : 0 ≤ rate) (hburst : 0 ≤ burst)
    {c : Call} (hc : time ≤ c.clock.swept) : Kept rate burst c.clock.used (take c l).2 := by
  have hused : time ≤ c.clock.used := by
    linarith [c.clock.swept_le, c.clock.created_le, c.clock.measured_le]
  have hnonneg : 0 ≤ l.refilled (l.bucketFor c) c.clock.measured := by
    rw [refilled_bucketFor h hrate]
    refine level_nonneg (h.later ?_) hrate hburst c.key
    linarith [c.clock.swept_le, c.clock.created_le]
  have hle : l.refilled (l.bucketFor c) c.clock.measured ≤ burst :=
    (refilled_le _).trans_eq h.sameBurst
  obtain ⟨tokens, htake, hless, hpos, -⟩ := take_cases c l
  rw [htake]
  refine ⟨h.sameRate, h.sameBurst, (h.later hused).buckets.insert ?_⟩
  exact ⟨hpos hnonneg, hless.trans hle, le_refl _⟩

/-- What is granted to the caller's key comes out of its tokens. -/
theorem take_level {time : ℚ} (h : Kept rate burst time l) (hrate : 0 ≤ rate) (c : Call) :
    (if (take c l).1 = true then c.amount else 0) + (take c l).2.level c.key c.clock.used =
      l.level c.key c.clock.measured := by
  obtain ⟨tokens, htake, hless, -, hsum⟩ := take_cases c l
  have hkept : (take c l).2.level c.key c.clock.used = tokens := by
    rw [htake, Limiter.level, Limiter.keep, AList.lookup_insert]
    change (l.keep c.key ⟨tokens, c.clock.used⟩).refilled ⟨tokens, c.clock.used⟩ c.clock.used = tokens
    rw [refilled_eq, sub_self, zero_mul, add_zero]
    exact min_eq_left (hless.trans (refilled_le _))
  rw [hkept, hsum, refilled_bucketFor h hrate]

theorem take_level_other (c : Call) (l : Limiter) {key : String} (hkey : key ≠ c.key) (time : ℚ) :
    (take c l).2.level key time = l.level key time := by
  obtain ⟨tokens, htake, -⟩ := take_cases c l
  rw [htake, Limiter.level, Limiter.level, Limiter.keep, lookup_insert_eq, if_neg hkey]
  rfl

end Buckets

section Windows

variable {rate burst : ℚ} {l : Limiter} {c : Call} {time : ℚ}

/-- What a call is granted and what it leaves were there, at its measure or its use. -/
theorem allowN_level (h : Kept rate burst time l) (hrate : 0 ≤ rate) (hc : time ≤ c.clock.swept)
    (key : String) (start stop : ℚ) : ∃ found, time ≤ found ∧ found ≤ c.clock.used ∧
      counted key start stop c (allowN c l).1 + (allowN c l).2.level key c.clock.used ≤
        (sweepLocked c.clock.swept l).level key found := by
  have hswept := h.sweep c.clock.swept
  have hmeasured : time ≤ c.clock.measured := by linarith [c.clock.swept_le, c.clock.created_le]
  rw [allowN]
  by_cases hkey : key = c.key
  · subst hkey
    refine ⟨c.clock.measured, hmeasured, c.clock.measured_le, ?_⟩
    have hcounted : counted c.key start stop c (take c (sweepLocked c.clock.swept l)).1 ≤
        if (take c (sweepLocked c.clock.swept l)).1 = true then c.amount else 0 := by
      have hpos := c.positive
      rw [counted]
      split
      next hall => rw [if_pos hall.1]
      next => split <;> linarith
    have htake := take_level hswept hrate c
    linarith
  · have hnone : counted key start stop c (take c (sweepLocked c.clock.swept l)).1 = 0 :=
      if_neg fun hall => hkey hall.2.1.symm
    refine ⟨c.clock.used, hmeasured.trans c.clock.measured_le, le_refl _, ?_⟩
    rw [hnone, zero_add, take_level_other c _ hkey]

/-- They are at most what was there before and what is filled in up to the use. -/
theorem allowN_later (h : Kept rate burst time l) (hrate : 0 ≤ rate) (hc : time ≤ c.clock.swept)
    (key : String) (start stop : ℚ) :
    counted key start stop c (allowN c l).1 + (allowN c l).2.level key c.clock.used ≤
      l.level key time + rate * (c.clock.used - time) := by
  obtain ⟨found, hfound, hused, hlevel⟩ := allowN_level h hrate hc key start stop
  have hlater := level_later (h.sweep c.clock.swept) hrate hfound key
  rw [level_sweep h hrate] at hlater
  have hgain : rate * (found - time) ≤ rate * (c.clock.used - time) :=
    mul_le_mul_of_nonneg_left (by linarith) hrate
  linarith

/-- They are at most a burst. -/
theorem allowN_le_burst (h : Kept rate burst time l) (hrate : 0 ≤ rate) (hc : time ≤ c.clock.swept)
    (key : String) (start stop : ℚ) :
    counted key start stop c (allowN c l).1 + (allowN c l).2.level key c.clock.used ≤ burst := by
  obtain ⟨found, -, -, hlevel⟩ := allowN_level h hrate hc key start stop
  have hle : _ ≤ (sweepLocked c.clock.swept l).burst := level_le key found
  rw [(h.sweep c.clock.swept).sameBurst] at hle
  exact hlevel.trans hle

theorem Kept.allowN (h : Kept rate burst time l) (hrate : 0 ≤ rate) (hburst : 0 ≤ burst)
    (hc : time ≤ c.clock.swept) : Kept rate burst c.clock.used (allowN c l).2 :=
  (h.sweep c.clock.swept).take hrate hburst hc

theorem granted_cons (key : String) (start stop : ℚ) (c : Call) (calls : List Call) (l : Limiter) :
    granted key start stop (c :: calls) (serve allowN (c :: calls) l).1 =
      counted key start stop c (allowN c l).1 +
        granted key start stop calls (serve allowN calls (allowN c l).2).1 := rfl

/-- Calls after the window count nothing. -/
theorem granted_late {key : String} {start stop : ℚ} {calls : List Call}
    (hlate : ∀ c ∈ calls, stop < c.clock.used) (l : Limiter) :
    granted key start stop calls (serve allowN calls l).1 = 0 := by
  induction calls generalizing l with
  | nil => rfl
  | cons c calls ih =>
      have hnone : counted key start stop c (allowN c l).1 = 0 :=
        if_neg fun hall => absurd hall.2.2.2 (not_le.mpr (hlate c List.mem_cons_self))
      rw [granted_cons, hnone, ih fun c' hc' => hlate c' (List.mem_cons_of_mem _ hc'), add_zero]

theorem Ordered.used_le {c : Call} {calls : List Call} (h : Ordered (c :: calls)) {c' : Call}
    (hc' : c' ∈ calls) : c.clock.used ≤ c'.clock.used := by
  have hswept := (List.pairwise_cons.mp h).1 c' hc'
  linarith [c'.clock.swept_le, c'.clock.created_le, c'.clock.measured_le]

/-- From some time on a key is granted at most what it has then and what is filled in. -/
theorem granted_from (hrate : 0 ≤ rate) (hburst : 0 ≤ burst) (key : String) (start stop : ℚ)
    {calls : List Call} (h : Kept rate burst time l) (hordered : Ordered calls)
    (hcalls : ∀ c ∈ calls, time ≤ c.clock.swept) (hstop : time ≤ stop) :
    granted key start stop calls (serve allowN calls l).1 ≤
      l.level key time + rate * (stop - time) := by
  induction calls generalizing l time with
  | nil =>
      have hgain : 0 ≤ rate * (stop - time) := mul_nonneg hrate (by linarith)
      have hnonneg := level_nonneg h hrate hburst key
      change (0 : ℚ) ≤ _
      linarith
  | cons c calls ih =>
      have hc := hcalls c List.mem_cons_self
      by_cases hused : c.clock.used ≤ stop
      · have hrest := ih (h.allowN hrate hburst hc) (List.pairwise_cons.mp hordered).2
          (List.pairwise_cons.mp hordered).1 hused
        have hstep := allowN_later h hrate hc key start stop
        rw [granted_cons]
        linarith
      · have hgain : 0 ≤ rate * (stop - time) := mul_nonneg hrate (by linarith)
        have hnonneg := level_nonneg h hrate hburst key
        rw [granted_late]
        · linarith
        · intro c' hc'
          rcases List.mem_cons.mp hc' with rfl | hc'
          · exact not_le.mp hused
          · exact (not_le.mp hused).trans_le (hordered.used_le hc')

/-- In a window of time a key is granted at most a burst and what is filled in. -/
theorem granted_window (hrate : 0 ≤ rate) (hburst : 0 ≤ burst) (key : String) {start stop : ℚ}
    (hwindow : start ≤ stop) {calls : List Call} (h : Kept rate burst time l)
    (hordered : Ordered calls) (hcalls : ∀ c ∈ calls, time ≤ c.clock.swept) :
    granted key start stop calls (serve allowN calls l).1 ≤ burst + rate * (stop - start) := by
  have hgain : 0 ≤ rate * (stop - start) := mul_nonneg hrate (by linarith)
  induction calls generalizing l time with
  | nil =>
      change (0 : ℚ) ≤ _
      linarith
  | cons c calls ih =>
      have hc := hcalls c List.mem_cons_self
      have hkept := h.allowN hrate hburst hc
      rw [granted_cons]
      by_cases hstart : start ≤ c.clock.used
      · by_cases hstop : c.clock.used ≤ stop
        · have hrest := granted_from hrate hburst key start stop hkept
            (List.pairwise_cons.mp hordered).2 (List.pairwise_cons.mp hordered).1 hstop
          have hfirst := allowN_le_burst h hrate hc key start stop
          have hless : rate * (stop - c.clock.used) ≤ rate * (stop - start) :=
            mul_le_mul_of_nonneg_left (by linarith) hrate
          linarith
        · have hnone : counted key start stop c (allowN c l).1 = 0 :=
            if_neg fun hall => hstop hall.2.2.2
          rw [hnone, granted_late fun c' hc' => (not_le.mp hstop).trans_le (hordered.used_le hc')]
          linarith
      · have hnone : counted key start stop c (allowN c l).1 = 0 :=
          if_neg fun hall => hstart hall.2.2.1
        rw [hnone, zero_add]
        exact ih hkept (List.pairwise_cons.mp hordered).2 (List.pairwise_cons.mp hordered).1

end Windows

section Sweeping

variable {rate burst time : ℚ} {l l' : Limiter}

/-- Two limiters that differ in full buckets only, which the second has and the first not. -/
structure Alike (time : ℚ) (l l' : Limiter) : Prop where
  rate : l.rate = l'.rate
  burst : l.burst = l'.burst
  buckets : ∀ key, l.buckets.lookup key = l'.buckets.lookup key ∨
    l.buckets.lookup key = none ∧
      ∃ b, l'.buckets.lookup key = some b ∧ l'.burst ≤ b.tokens ∧ b.last ≤ time

theorem Alike.sweep (h : Alike time l l') (hkept : Kept rate burst time l') (now : ℚ) :
    Alike time (sweepLocked now l) l' := by
  rw [sweepLocked]
  split
  · refine ⟨h.rate, h.burst, fun key => ?_⟩
    rw [lookup_select]
    rcases h.buckets key with hsame | ⟨hnone, hfull⟩
    · cases hb : l.buckets.lookup key with
      | none => exact .inl (hb.symm.trans hsame)
      | some b =>
          rw [Option.filter_some]
          split
          · exact .inl (hb.symm.trans hsame)
          next hstale =>
            have htest : l.stale now b = true := by simpa using hstale
            refine .inr ⟨rfl, b, hsame.symm.trans hb, ?_, ?_⟩
            · exact h.burst ▸ (of_decide_eq_true htest).1
            · exact (hkept.buckets key b (hsame.symm.trans hb)).2.2
    · rw [hnone]
      exact .inr ⟨rfl, hfull⟩
  · exact h

/-- A bucket that was dropped is as full as it would be. -/
theorem Alike.refilled (h : Alike time l l') (hrate : 0 ≤ l'.rate) {c : Call}
    (hc : time ≤ c.clock.swept) :
    l.refilled (l.bucketFor c) c.clock.measured = l'.refilled (l'.bucketFor c) c.clock.measured := by
  rw [Limiter.bucketFor, Limiter.bucketFor]
  rcases h.buckets c.key with hsame | ⟨hnone, b, hb, hfull, hlast⟩
  · rw [hsame, refilled_eq, refilled_eq, h.rate, h.burst]
  · have hcreated : 0 ≤ (c.clock.measured - c.clock.created) * l'.rate :=
      mul_nonneg (sub_nonneg.mpr c.clock.created_le) hrate
    have hgain : 0 ≤ (c.clock.measured - b.last) * l'.rate :=
      mul_nonneg (by linarith [c.clock.swept_le, c.clock.created_le]) hrate
    rw [hnone, hb, Option.getD_none, Option.getD_some, refilled_eq, refilled_eq, h.rate, h.burst,
      min_eq_right (by dsimp only; linarith), min_eq_right (by linarith)]

theorem Alike.take (h : Alike time l l') (hrate : 0 ≤ l'.rate) {c : Call}
    (hc : time ≤ c.clock.swept) :
    (take c l).1 = (take c l').1 ∧ Alike c.clock.used (take c l).2 (take c l').2 := by
  have hused : time ≤ c.clock.used := by
    linarith [c.clock.swept_le, c.clock.created_le, c.clock.measured_le]
  have hkeep : ∀ b, Alike c.clock.used (l.keep c.key b) (l'.keep c.key b) := by
    intro b
    refine ⟨h.rate, h.burst, fun key => ?_⟩
    simp only [Limiter.keep, lookup_insert_eq]
    by_cases hkey : key = c.key
    · exact .inl (by simp [hkey])
    · simp only [if_neg hkey]
      refine (h.buckets key).imp id ?_
      rintro ⟨hnone, b, hb, hfull, hlast⟩
      exact ⟨hnone, b, hb, hfull, hlast.trans hused⟩
  rw [RateLimit.take, RateLimit.take, h.refilled hrate hc]
  split
  · exact ⟨rfl, hkeep _⟩
  · exact ⟨rfl, hkeep _⟩

/-- Sweeping changes no answer. -/
theorem answers_unswept (hrate : 0 ≤ rate) (hburst : 0 ≤ burst) {calls : List Call}
    (h : Alike time l l') (hkept : Kept rate burst time l') (hordered : Ordered calls)
    (hcalls : ∀ c ∈ calls, time ≤ c.clock.swept) :
    (serve allowN calls l).1 = (serve RateLimit.take calls l').1 := by
  induction calls generalizing l l' time with
  | nil => rfl
  | cons c calls ih =>
      have hc := hcalls c List.mem_cons_self
      obtain ⟨hanswer, hrest⟩ := (h.sweep hkept c.clock.swept).take
        (hrate.trans_eq hkept.sameRate.symm) hc
      change (allowN c l).1 :: _ = (RateLimit.take c l').1 :: _
      rw [allowN, hanswer]
      exact congrArg _ (ih hrest (hkept.take hrate hburst hc) (List.pairwise_cons.mp hordered).2
        (List.pairwise_cons.mp hordered).1)

end Sweeping

section Runs

variable {rate burst : ℚ}

theorem kept_new (rate burst time : ℚ) : Kept rate burst time (new rate burst) := ⟨rfl, rfl, all_empty⟩

theorem Ordered.swept_le {c : Call} {calls : List Call} (h : Ordered (c :: calls)) {c' : Call}
    (hc' : c' ∈ c :: calls) : c.clock.swept ≤ c'.clock.swept := by
  rcases List.mem_cons.mp hc' with rfl | hc'
  · exact le_refl _
  · have hused := (List.pairwise_cons.mp h).1 c' hc'
    linarith [c.clock.swept_le, c.clock.created_le, c.clock.measured_le]

/-- Some time is before all calls. -/
theorem Ordered.exists_before {calls : List Call} (h : Ordered calls) :
    ∃ time, ∀ c ∈ calls, time ≤ c.clock.swept := by
  cases calls with
  | nil => exact ⟨0, nofun⟩
  | cons c calls => exact ⟨c.clock.swept, fun _ hc' => h.swept_le hc'⟩

theorem Kept.serve (hrate : 0 ≤ rate) (hburst : 0 ≤ burst) {time : ℚ} {l : Limiter}
    {calls : List Call} (h : Kept rate burst time l) (hordered : Ordered calls)
    (hcalls : ∀ c ∈ calls, time ≤ c.clock.swept) :
    ∃ time', Kept rate burst time' (RateLimit.serve RateLimit.allowN calls l).2 := by
  induction calls generalizing l time with
  | nil => exact ⟨time, h⟩
  | cons c calls ih =>
      exact ih (h.allowN hrate hburst (hcalls c List.mem_cons_self))
        (List.pairwise_cons.mp hordered).2 (List.pairwise_cons.mp hordered).1

theorem bounded_of_nonneg (hrate : 0 ≤ rate) (hburst : 0 ≤ burst) {calls : List Call}
    (hordered : Ordered calls) : Bounded rate burst calls := by
  obtain ⟨time, hcalls⟩ := hordered.exists_before
  have hnew := kept_new rate burst time
  refine ⟨fun key b hb => ?_, fun key start length hlength => ?_, ?_⟩
  · obtain ⟨time', hkept⟩ := hnew.serve hrate hburst hordered hcalls
    exact ⟨(hkept.buckets key b hb).1, (hkept.buckets key b hb).2.1⟩
  · have hstop : start ≤ start + length := by linarith
    have hwindow := granted_window hrate hburst key hstop hnew hordered hcalls
    rwa [add_sub_cancel_left] at hwindow
  · exact answers_unswept hrate hburst ⟨rfl, rfl, fun _ => .inl rfl⟩ hnew hordered hcalls

/-- For a rate and a burst the bounds hold of every run, and sweeping changes no answer in
any, exactly when neither of them is negative. -/
theorem bounded_iff (rate burst : ℚ) :
    (∀ calls, Ordered calls → Bounded rate burst calls) ↔ 0 ≤ rate ∧ 0 ≤ burst := by
  constructor
  · intro h
    have hidle : ∀ length, 0 ≤ length → 0 ≤ burst + rate * length :=
      fun length hlength => (h [] .nil).window "" 0 length hlength
    have hburst : 0 ≤ burst := by simpa using hidle 0 (le_refl 0)
    refine ⟨?_, hburst⟩
    by_contra hrate
    have hneg : 0 < -rate := by linarith
    have hrefill : rate * ((burst + 1) / -rate) = -(burst + 1) := by
      have hne : rate ≠ 0 := by linarith
      field_simp
    have hlong := hidle ((burst + 1) / -rate) (div_nonneg (by linarith) hneg.le)
    linarith
  · rintro ⟨hrate, hburst⟩ calls hordered
    exact bounded_of_nonneg hrate hburst hordered

/-- A call whose readings of the clock are all the same. -/
def callAt (key : String) (amount now : ℚ) (h : 0 < amount) : Call :=
  ⟨key, amount, ⟨now, now, now, now, le_refl _, le_refl _, le_refl _⟩, h⟩

/-- With a burst below zero the first call leaves its key fewer tokens than none. -/
theorem negative_burst : ∃ b, ((serve allowN [callAt "192.0.2.7" 1 0 (by decide)]
    (new 1 (-1))).2.buckets.lookup "192.0.2.7") = some b ∧ b.tokens < 0 ∧
      ¬Bounded 1 (-1) [callAt "192.0.2.7" 1 0 (by decide)] := by
  obtain ⟨tokens, htake, hless, -⟩ := take_cases (callAt "192.0.2.7" 1 0 (by decide))
    (sweepLocked 0 (new 1 (-1)))
  have hburst : (sweepLocked 0 (new 1 (-1))).burst = -1 := rfl
  have hneg : tokens < 0 := by
    refine (hless.trans (refilled_le _)).trans_lt ?_
    rw [hburst]
    decide
  have hbucket : (serve allowN [callAt "192.0.2.7" 1 0 (by decide)]
      (new 1 (-1))).2.buckets.lookup "192.0.2.7" = some ⟨tokens, 0⟩ := by
    change (take _ (sweepLocked 0 (new 1 (-1)))).2.buckets.lookup _ = _
    rw [htake]
    exact AList.lookup_insert _
  refine ⟨_, hbucket, hneg, fun h => ?_⟩
  exact absurd (h.tokens _ _ hbucket).1 (not_le.mpr hneg)

end Runs

end Tactile.Relay.RateLimit

import Tactile.Relay.RateLimit

/-!
Which buckets a sweep of a limiter leaves, against those that are idle and would be full.
-/

namespace Tactile.Relay.RateSweep

open Tactile.Lib.FiniteMap Tactile.Relay.RateLimit

section Sweep

variable {l : Limiter} {c : Call} {now : ℚ}

/-- A bucket that has been unused for long, and is full with what is filled in since. -/
structure Lingers (l : Limiter) (now : ℚ) (b : Bucket) : Prop where
  idle : bucketMaxIdle < now - b.last
  full : l.burst ≤ b.tokens + (now - b.last) * l.rate

theorem lookup_allowN (c : Call) (l : Limiter) {key : String} (hkey : key ≠ c.key) :
    (allowN c l).2.buckets.lookup key = (sweepLocked c.clock.swept l).buckets.lookup key := by
  obtain ⟨tokens, htake, -⟩ := take_cases c (sweepLocked c.clock.swept l)
  rw [allowN, htake, Limiter.keep, lookup_insert_eq, if_neg hkey]

theorem sweepLocked_params (now : ℚ) (l : Limiter) :
    (sweepLocked now l).rate = l.rate ∧ (sweepLocked now l).burst = l.burst := by
  rw [sweepLocked]
  split
  · exact ⟨rfl, rfl⟩
  · exact ⟨rfl, rfl⟩

theorem allowN_params (c : Call) (l : Limiter) :
    (allowN c l).2.rate = l.rate ∧ (allowN c l).2.burst = l.burst := by
  obtain ⟨tokens, htake, -⟩ := take_cases c (sweepLocked c.clock.swept l)
  rw [allowN, htake]
  exact sweepLocked_params c.clock.swept l

theorem lingers_allowN (c : Call) (l : Limiter) (b : Bucket) :
    Lingers (allowN c l).2 now b ↔ Lingers l now b := by
  obtain ⟨hrate, hburst⟩ := allowN_params c l
  constructor
  · rintro ⟨hidle, hfull⟩
    rw [hrate, hburst] at hfull
    exact ⟨hidle, hfull⟩
  · rintro ⟨hidle, hfull⟩
    refine ⟨hidle, ?_⟩
    rwa [hrate, hburst]

/-- A sweep keeps what its test does not find full. -/
theorem lookup_swept (hdue : l.due now = true) (key : String) :
    (sweepLocked now l).buckets.lookup key =
      (l.buckets.lookup key).filter fun b => !l.stale now b := by
  rw [sweepLocked, if_pos hdue]
  exact lookup_select _ _ _

/-- After a call that sweeps no bucket lingers exactly when all that lingered, the caller's
apart, were stored full. -/
theorem none_lingers_iff (hdue : l.due c.clock.swept = true) :
    (∀ key b, (allowN c l).2.buckets.lookup key = some b →
      ¬Lingers (allowN c l).2 c.clock.swept b) ↔
    ∀ key b, key ≠ c.key → l.buckets.lookup key = some b → Lingers l c.clock.swept b →
      l.burst ≤ b.tokens := by
  constructor
  · intro h key b hkey hb hlingers
    by_contra hless
    have hstale : l.stale c.clock.swept b = false := decide_eq_false fun htest => hless htest.1
    refine h key b ?_ ((lingers_allowN c l b).mpr hlingers)
    rw [lookup_allowN c l hkey, lookup_swept hdue, hb, Option.filter_some, hstale]
    rfl
  · intro h key b hb hlingers
    rw [lingers_allowN] at hlingers
    by_cases hkey : key = c.key
    · obtain ⟨tokens, htake, -⟩ := take_cases c (sweepLocked c.clock.swept l)
      rw [allowN, htake, Limiter.keep, hkey, AList.lookup_insert] at hb
      cases hb
      have hidle : bucketMaxIdle < c.clock.swept - c.clock.used := hlingers.idle
      have hmax : (0 : ℚ) < bucketMaxIdle := by decide
      linarith [c.clock.swept_le, c.clock.created_le, c.clock.measured_le]
    · rw [lookup_allowN c l hkey, lookup_swept hdue, Option.filter_eq_some_iff] at hb
      have hstored := h key b hkey hb.1 hlingers
      have hstale : l.stale c.clock.swept b = true := decide_eq_true ⟨hstored, hlingers.idle⟩
      rw [hstale] at hb
      cases hb.2

end Sweep

section Runs

variable {rate burst : ℚ} {l : Limiter} {c : Call}

/-- No bucket is stored full. -/
def Used (l : Limiter) : Prop := All (fun _ b => b.tokens < l.burst) l.buckets

theorem sweepLocked_used (h : Used l) (now : ℚ) (key : String) :
    (sweepLocked now l).buckets.lookup key = l.buckets.lookup key := by
  rw [sweepLocked]
  split
  · rw [lookup_select]
    cases hb : l.buckets.lookup key with
    | none => rfl
    | some b =>
        have hstale : l.stale now b = false :=
          decide_eq_false fun htest => absurd (h key b hb) (not_lt.mpr htest.1)
        rw [Option.filter_some, hstale]
        rfl
  · rfl

/-- A call for no more than a burst stores no full bucket. -/
theorem Used.allowN (h : Used l) (hc : c.amount ≤ l.burst) : Used (allowN c l).2 := by
  have hburst := (sweepLocked_params c.clock.swept l).2
  intro key b hb
  rw [(allowN_params c l).2]
  by_cases hkey : key = c.key
  · subst hkey
    have hle : (sweepLocked c.clock.swept l).refilled ((sweepLocked c.clock.swept l).bucketFor c)
        c.clock.measured ≤ (sweepLocked c.clock.swept l).burst := refilled_le _
    have hpos := c.positive
    rw [RateLimit.allowN, take] at hb
    split at hb
    next hdenied =>
      rw [Limiter.keep, AList.lookup_insert] at hb
      cases hb
      exact hdenied.trans_le hc
    next hgranted =>
      rw [Limiter.keep, AList.lookup_insert] at hb
      cases hb
      change _ - c.amount < l.burst
      linarith
  · rw [lookup_allowN c l hkey, sweepLocked_used h] at hb
    exact h key b hb

theorem isSome_allowN (h : Used l) (key : String) :
    ((allowN c l).2.buckets.lookup key).isSome = true ↔
      key = c.key ∨ (l.buckets.lookup key).isSome = true := by
  by_cases hkey : key = c.key
  · obtain ⟨tokens, htake, -⟩ := take_cases c (sweepLocked c.clock.swept l)
    rw [RateLimit.allowN, htake, Limiter.keep, hkey, AList.lookup_insert]
    simp
  · rw [lookup_allowN c l hkey, sweepLocked_used h]
    simp [hkey]

/-- While no call asks for more than a burst every key that ever called has its bucket. -/
theorem never_dropped (calls : List Call) (h : Used l)
    (hcalls : ∀ c ∈ calls, c.amount ≤ l.burst) (key : String) :
    ((serve allowN calls l).2.buckets.lookup key).isSome = true ↔
      (∃ c ∈ calls, c.key = key) ∨ (l.buckets.lookup key).isSome = true := by
  induction calls generalizing l with
  | nil => simp [serve]
  | cons c calls ih =>
      have hc := hcalls c List.mem_cons_self
      change ((serve allowN calls (allowN c l).2).2.buckets.lookup key).isSome = true ↔ _
      rw [ih (h.allowN hc), isSome_allowN h]
      · rw [List.exists_mem_cons_iff]
        constructor
        · rintro (hlater | rfl | hbefore)
          · exact .inl (.inr hlater)
          · exact .inl (.inl rfl)
          · exact .inr hbefore
        · rintro ((rfl | hlater) | hbefore)
          · exact .inr (.inl rfl)
          · exact .inl hlater
          · exact .inr (.inr hbefore)
      · intro c' hc'
        rw [(allowN_params c l).2]
        exact hcalls c' (List.mem_cons_of_mem _ hc')

theorem serve_params (calls : List Call) (l : Limiter) :
    (serve allowN calls l).2.burst = l.burst := by
  induction calls generalizing l with
  | nil => rfl
  | cons c calls ih => exact (ih _).trans (allowN_params c l).2

end Runs

/-- After any calls, one that sweeps leaves no bucket that has been unused for long and would be
full exactly when all such buckets of other keys were stored full. No bucket is while
each call asks for at most a burst, and then every key that ever called has its bucket. -/
theorem sweep_drops_iff (rate burst : ℚ) (calls : List Call) (c : Call)
    (hdue : (serve allowN calls (new rate burst)).2.due c.clock.swept = true) :
    ((∀ key b, (allowN c (serve allowN calls (new rate burst)).2).2.buckets.lookup key = some b →
        ¬Lingers (allowN c (serve allowN calls (new rate burst)).2).2 c.clock.swept b) ↔
      ∀ key b, key ≠ c.key → (serve allowN calls (new rate burst)).2.buckets.lookup key = some b →
        Lingers (serve allowN calls (new rate burst)).2 c.clock.swept b → burst ≤ b.tokens) ∧
    ((∀ c' ∈ calls, c'.amount ≤ burst) → ∀ key,
      ((serve allowN calls (new rate burst)).2.buckets.lookup key).isSome = true ↔
        ∃ c' ∈ calls, c'.key = key) := by
  have hburst : (serve allowN calls (new rate burst)).2.burst = burst := serve_params calls _
  constructor
  · rw [none_lingers_iff hdue, hburst]
  · intro hcalls key
    have hempty : Used (new rate burst) := all_empty
    rw [never_dropped calls hempty hcalls]
    simp [new]

section Sample

/-- A key that asks for more than a burst is dropped once it is idle. -/
theorem overdrawn_dropped :
    All (fun _ b => ¬Lingers (allowN (callAt "192.0.2.8" 1 660 (by decide)) (serve allowN
        [callAt "192.0.2.7" 9 0 (by decide)] (new 4 8)).2).2 660 b)
      (allowN (callAt "192.0.2.8" 1 660 (by decide)) (serve allowN
        [callAt "192.0.2.7" 9 0 (by decide)] (new 4 8)).2).2.buckets := by
  refine (sweep_drops_iff 4 8 [callAt "192.0.2.7" 9 0 (by decide)]
    (callAt "192.0.2.8" 1 660 (by decide)) (by decide +kernel)).1.mpr ?_
  intro key b _ hb _
  by_cases hkey : key = "192.0.2.7"
  · have hstored : (serve allowN [callAt "192.0.2.7" 9 0 (by decide)] (new 4 8)).2.buckets.lookup
        "192.0.2.7" = some ⟨8, 0⟩ := by decide +kernel
    rw [hkey, hstored] at hb
    cases hb
    exact le_refl _
  · change (allowN (callAt "192.0.2.7" 9 0 (by decide)) (new 4 8)).2.buckets.lookup key = some b at hb
    rw [lookup_allowN _ _ hkey, lookup_swept rfl] at hb
    cases hb

/-- A key that has called once still has its bucket after eleven minutes. -/
theorem idle_bucket_stays : ∃ b,
    (allowN (callAt "192.0.2.8" 1 660 (by decide)) (serve allowN
      [callAt "192.0.2.7" 1 0 (by decide)] (new 4 8)).2).2.buckets.lookup "192.0.2.7" = some b ∧
    (serve allowN [callAt "192.0.2.7" 1 0 (by decide)] (new 4 8)).2.due 660 = true ∧
    Lingers (allowN (callAt "192.0.2.8" 1 660 (by decide)) (serve allowN
      [callAt "192.0.2.7" 1 0 (by decide)] (new 4 8)).2).2 660 b := by
  refine ⟨⟨7, 0⟩, by decide +kernel, by decide +kernel, ?_, ?_⟩
  · decide +kernel
  · decide +kernel

end Sample

end Tactile.Relay.RateSweep

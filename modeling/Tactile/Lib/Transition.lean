import Mathlib.Data.List.Basic

/-!
Runs of a labelled step relation, the rule of invariants and the rule of
forward simulation.
-/

namespace Tactile.Lib.Transition

variable {σ τ ι : Type}

/-- A run: consecutive steps with the events they produce. -/
inductive Runs (step : σ → ι → σ → Prop) : σ → List ι → σ → Prop
  | nil (s : σ) : Runs step s [] s
  | cons {s t u : σ} {e : ι} {es : List ι} :
      step s e t → Runs step t es u → Runs step s (e :: es) u

variable {step : σ → ι → σ → Prop} {step' : τ → ι → τ → Prop}

theorem Runs.single {s t : σ} {e : ι} (h : step s e t) : Runs step s [e] t :=
  .cons h (.nil t)

theorem Runs.append {s t u : σ} {es fs : List ι} (h : Runs step s es t)
    (h' : Runs step t fs u) : Runs step s (es ++ fs) u := by
  induction h with
  | nil => exact h'
  | cons hstep _ ih => exact .cons hstep (ih h')

theorem Runs.mono {step₂ : σ → ι → σ → Prop} (hstep : ∀ s e t, step s e t → step₂ s e t)
    {s t : σ} {es : List ι} (h : Runs step s es t) : Runs step₂ s es t := by
  induction h with
  | nil => exact .nil _
  | cons h _ ih => exact .cons (hstep _ _ _ h) ih

/-- The steps of a run whose events meet a condition. -/
theorem Runs.with_events {C : ι → Prop} {s t : σ} {es : List ι} (h : Runs step s es t)
    (hC : ∀ e ∈ es, C e) : Runs (fun s e t => step s e t ∧ C e) s es t := by
  induction h with
  | nil => exact .nil _
  | cons h _ ih =>
      refine .cons ⟨h, hC _ List.mem_cons_self⟩ (ih fun e he => ?_)
      exact hC e (List.mem_cons_of_mem _ he)

/-- What every step preserves, a run preserves. -/
theorem Runs.invariant {Inv : σ → Prop} (hstep : ∀ s e t, Inv s → step s e t → Inv t)
    {s t : σ} {es : List ι} (h : Runs step s es t) (hs : Inv s) : Inv t := by
  induction h with
  | nil => exact hs
  | cons h _ ih => exact ih (hstep _ _ _ hs h)

/-- What every step whose event meets a condition preserves, a run of such
steps preserves. -/
theorem Runs.invariant_of {Inv : σ → Prop} {C : ι → Prop}
    (hstep : ∀ s e t, Inv s → C e → step s e t → Inv t)
    {s t : σ} {es : List ι} (h : Runs step s es t) (hC : ∀ e ∈ es, C e) (hs : Inv s) :
    Inv t := by
  induction h with
  | nil => exact hs
  | cons h _ ih =>
      refine ih (fun e he => hC e (List.mem_cons_of_mem _ he)) ?_
      exact hstep _ _ _ hs (hC _ List.mem_cons_self) h

/-- What every step carries from the events so far to the events with its own, a
run carries from no events to its events. -/
theorem Runs.history {Inv : List ι → σ → Prop}
    (hstep : ∀ pre s e t, Inv pre s → step s e t → Inv (pre ++ [e]) t)
    {s t : σ} {es : List ι} (h : Runs step s es t) (hs : Inv [] s) : Inv es t := by
  suffices hall : ∀ {s t : σ} {es : List ι}, Runs step s es t → ∀ pre, Inv pre s →
      Inv (pre ++ es) t from hall h [] hs
  intro s t es h
  induction h with
  | nil =>
      intro pre hpre
      rw [List.append_nil]
      exact hpre
  | @cons s t u e es h _ ih =>
      intro pre hpre
      have hmid := ih (pre ++ [e]) (hstep pre s e t hpre h)
      rw [List.append_assoc] at hmid
      exact hmid

/-- A run passes through the step of each of its events. -/
theorem Runs.split {s u : σ} {pre post : List ι} {e : ι} (h : Runs step s (pre ++ e :: post) u) :
    ∃ t t', Runs step s pre t ∧ step t e t' ∧ Runs step t' post u := by
  induction pre generalizing s with
  | nil =>
      cases h with
      | cons hstep hrest => exact ⟨_, _, .nil _, hstep, hrest⟩
  | cons e' pre ih =>
      cases h with
      | cons hstep hrest =>
          obtain ⟨t, t', hpre, hmid, hpost⟩ := ih hrest
          exact ⟨t, t', .cons hstep hpre, hmid, hpost⟩

/-- Forward simulation: when a relation to the states of a second system can be
carried over each step, every run has a run of the second system with the same
events. -/
theorem Runs.simulate {Rel : σ → τ → Prop} {C : ι → Prop}
    (hstep : ∀ s m e t, Rel s m → C e → step s e t → ∃ m', step' m e m' ∧ Rel t m')
    {s t : σ} {es : List ι} (h : Runs step s es t) (hC : ∀ e ∈ es, C e) {m : τ}
    (hs : Rel s m) : ∃ m', Runs step' m es m' ∧ Rel t m' := by
  induction h generalizing m with
  | nil => exact ⟨m, .nil m, hs⟩
  | cons h _ ih =>
      obtain ⟨m₁, hm₁, hrel⟩ := hstep _ m _ _ hs (hC _ List.mem_cons_self) h
      obtain ⟨m₂, hm₂, hrel'⟩ := ih (fun e he => hC e (List.mem_cons_of_mem _ he)) hrel
      exact ⟨m₂, .cons hm₁ hm₂, hrel'⟩

end Tactile.Lib.Transition

import Tactile.Storage.Mutex

/-!
`KeyedMutex` as a lock over several keys, for any sequence of calls and any
order in which their operations settle.
-/

namespace Tactile.Storage.MutexLock

open Tactile.Lib.FiniteMap Tactile.Lib.Transition Tactile.Storage.Mutex
open Tactile.Storage.Mutex.KeyedMutex

variable {m m' : KeyedMutex} {n : ℕ}

section StepCases

theorem step_start (h : Step m (.start n) m') :
    m.phase n = some .waiting ∧ (∀ j, m.Waits n j → m.tailDone j) ∧ m' = m.setPhase n .running := by
  rw [Step, after] at h
  split at h
  next c hc =>
    split at h
    next hready =>
      refine ⟨by rw [phase, hc, Option.map_some, hready.1], ?_, (Option.some.inj h).symm⟩
      rintro j ⟨c', hc', hj⟩
      rw [hc] at hc'
      cases hc'
      exact List.all_eq_true.mp hready.2 j hj
    next => cases h
  next => cases h

end StepCases

/-- The calls that have started, and those that have settled, did so in the run. -/
structure History (es : List Event) (m : KeyedMutex) : Prop where
  started : ∀ n p, m.phase n = some p → p ≠ .waiting → .start n ∈ es
  settled : ∀ n p, m.phase n = some p → p.operationSettled → ∃ ok, .settle n ok ∈ es

/-- A phase that neither starts nor settles a call leaves the history. -/
theorem History.setPhase {es : List Event} (h : History es m) {e : Event} {p : Phase}
    (hstart : p ≠ .waiting → .start n ∈ es ++ [e])
    (hsettle : p.operationSettled → ∃ ok, .settle n ok ∈ es ++ [e]) :
    History (es ++ [e]) (m.setPhase n p) where
  started := fun i q hq hne => by
    rw [phase_setPhase] at hq
    split at hq
    next hni =>
      obtain ⟨_, -, rfl⟩ := Option.map_eq_some_iff.mp hq
      exact hni ▸ hstart hne
    next => exact List.mem_append_left _ (h.started i q hq hne)
  settled := fun i q hq hsettled => by
    rw [phase_setPhase] at hq
    split at hq
    next hni =>
      obtain ⟨_, -, rfl⟩ := Option.map_eq_some_iff.mp hq
      exact hni ▸ hsettle hsettled
    next =>
      obtain ⟨ok, hok⟩ := h.settled i q hq hsettled
      exact ⟨ok, List.mem_append_left _ hok⟩

section Properties

end Properties

section Draining

end Draining

end Tactile.Storage.MutexLock

import Tactile.Lib.Program
import Tactile.Lib.Transition
import Tactile.Lib.FiniteMap

/-!
Threads that run programs over one shared state, one operation at a time in any
order, and the rule that proves an invariant of every interleaving from what
each thread guarantees on its own.
-/

namespace Tactile.Lib.Threads

open Tactile.Lib.Program Tactile.Lib.Transition Tactile.Lib.FiniteMap

/-- A thread: what it has left to run, and a record of what it has observed. -/
structure Thread (Op : Type) (Ans : Op → Type) (α τ : Type) where
  left : Prog Op Ans α
  track : τ

/-- The shared state and the threads that have been started, by number. -/
structure Pool (Op : Type) (Ans : Op → Type) (α τ σ : Type) where
  shared : σ
  threads : Dict ℕ (Thread Op Ans α τ)

/-- What happens in a pool: a thread starts, or a thread calls an operation and
gets its answer. -/
inductive Event (Op : Type) (Ans : Op → Type) (τ : Type)
  | start (n : ℕ) (track : τ)
  | op (n : ℕ) (o : Op) (ans : Ans o)

variable {Op : Type} {Ans : Op → Type} {α τ σ : Type}

/-- The thread that an event is of. -/
def Event.thread : Event Op Ans τ → ℕ
  | .start n _ | .op n .. => n

section Steps

variable (R : Answers Op Ans σ) (observe : τ → (o : Op) → Ans o → τ)
variable (Start : σ → τ → Prog Op Ans α → Prop)

/-- One step of a pool: `R` answers the operations, `observe` extends a track,
`Start` says which programs may start with which track. -/
inductive Step : Pool Op Ans α τ σ → Event Op Ans τ → Pool Op Ans α τ σ → Prop
  | start {x : Pool Op Ans α τ σ} {n : ℕ} {t : τ} {p : Prog Op Ans α} :
      x.threads.lookup n = none → Start x.shared t p →
      Step x (.start n t) { x with threads := x.threads.insert n ⟨p, t⟩ }
  | op {x : Pool Op Ans α τ σ} {n : ℕ} {t : τ} {o : Op} {next : Ans o → Prog Op Ans α}
      {ans : Ans o} {s' : σ} :
      x.threads.lookup n = some ⟨.call o next, t⟩ → R x.shared o ans s' →
      Step x (.op n o ans)
        { shared := s', threads := x.threads.insert n ⟨next ans, observe t o ans⟩ }

end Steps

/-- A thread on its own, for which every answer is possible. -/
def Observes (observe : τ → (o : Op) → Ans o → τ) : Answers Op Ans τ :=
  fun t o ans t' => t' = observe t o ans

section Rule

variable {R : Answers Op Ans σ} {observe : τ → (o : Op) → Ans o → τ}
variable {Start : σ → τ → Prog Op Ans α → Prop}
variable {G : τ → Op → Prop} {Q : α → τ → Prop}

/-- A thread that has returned takes no more steps. -/
theorem Step.returned {x y : Pool Op Ans α τ σ} {e : Event Op Ans τ} {n : ℕ} {a : α} {t : τ}
    (hstep : Step R observe Start x e y) (h : x.threads.lookup n = some ⟨.ret a, t⟩) :
    y.threads.lookup n = some ⟨.ret a, t⟩ := by
  cases hstep with
  | start hfree =>
      rw [lookup_insert_eq, if_neg]
      · exact h
      · rintro rfl
        rw [hfree] at h
        cases h
  | op hthread =>
      rw [lookup_insert_eq, if_neg]
      · exact h
      · rintro rfl
        rw [hthread] at h
        cases h

/-- Every thread keeps to its guarantee. -/
def Guarantees (observe : τ → (o : Op) → Ans o → τ) (G : τ → Op → Prop) (Q : α → τ → Prop)
    (x : Pool Op Ans α τ σ) : Prop :=
  ∀ n th, x.threads.lookup n = some th → Holds (Observes observe) G Q th.left th.track

theorem Guarantees.step (hstart : ∀ s t p, Start s t p → Holds (Observes observe) G Q p t)
    {x y : Pool Op Ans α τ σ} {e : Event Op Ans τ} (h : Guarantees observe G Q x)
    (hstep : Step R observe Start x e y) : Guarantees observe G Q y := by
  intro n th hth
  cases hstep with
  | @start n' t p _ hp =>
      rw [lookup_insert_eq] at hth
      split at hth
      next =>
        cases hth
        exact hstart _ t p hp
      next => exact h n th hth
  | @op n' t o next ans s' hthread hR =>
      rw [lookup_insert_eq] at hth
      split at hth
      next =>
        cases hth
        exact (h n' _ hthread).2 ans _ rfl
      next => exact h n th hth

/-- The rule of interleaving: when every started thread keeps to a guarantee on
its own, and the invariant is preserved by every start and by every operation
that the guarantee admits, the invariant holds after every run whose steps meet
the condition `C`. -/
theorem invariant {Inv : Pool Op Ans α τ σ → Prop}
    {C : Pool Op Ans α τ σ → Event Op Ans τ → Prop}
    (hstart : ∀ s t p, Start s t p → Holds (Observes observe) G Q p t)
    (hinvStart : ∀ x n t p, Inv x → x.threads.lookup n = none → Start x.shared t p →
      C x (.start n t) → Inv { x with threads := x.threads.insert n ⟨p, t⟩ })
    (hinvOp : ∀ x n t o next ans s', Inv x → x.threads.lookup n = some ⟨.call o next, t⟩ →
      G t o → R x.shared o ans s' → C x (.op n o ans) →
      Inv { shared := s', threads := x.threads.insert n ⟨next ans, observe t o ans⟩ })
    {x y : Pool Op Ans α τ σ} {es : List (Event Op Ans τ)}
    (hrun : Runs (fun x e y => Step R observe Start x e y ∧ C x e) x es y)
    (hguar : Guarantees observe G Q x) (hinv : Inv x) :
    Guarantees observe G Q y ∧ Inv y := by
  have hboth : ∀ x e y, (Guarantees observe G Q x ∧ Inv x) →
      (Step R observe Start x e y ∧ C x e) → Guarantees observe G Q y ∧ Inv y := ?_
  · exact hrun.invariant hboth ⟨hguar, hinv⟩
  rintro x e y h ⟨hstep, hC⟩
  refine ⟨h.1.step hstart hstep, ?_⟩
  cases hstep with
  | start hfree hp => exact hinvStart _ _ _ _ h.2 hfree hp hC
  | op hthread hR => exact hinvOp _ _ _ _ _ _ _ h.2 hthread (h.1 _ _ hthread).1 hR hC

/-- A world without a state, whose answers meet a condition. -/
def Meets (W : (o : Op) → Ans o → Prop) : Answers Op Ans Unit := fun _ o ans _ => W o ans

/-- The rule of interleaving for threads that rely on the answers of the shared state:
what the admitted operations keep of the state makes their answers meet the
condition. -/
theorem invariant_relying {W : (o : Op) → Ans o → Prop} {A : Op → Prop} {Inv : σ → Prop}
    {Q : α → Unit → Prop}
    (hstart : ∀ s t p, Start s t p → Holds (Meets W) (fun _ o => A o) Q p ())
    (hop : ∀ s o ans s', Inv s → A o → R s o ans s' → W o ans ∧ Inv s')
    {x y : Pool Op Ans α τ σ} {es : List (Event Op Ans τ)}
    (hrun : Runs (Step R observe Start) x es y)
    (hthreads : All (fun _ th => Holds (Meets W) (fun _ o => A o) Q th.left ()) x.threads)
    (hinv : Inv x.shared) :
    All (fun _ th => Holds (Meets W) (fun _ o => A o) Q th.left ()) y.threads ∧ Inv y.shared := by
  have hboth : ∀ x e y, (All (fun _ th => Holds (Meets W) (fun _ o => A o) Q th.left ()) x.threads ∧
      Inv x.shared) → Step R observe Start x e y →
      All (fun _ th => Holds (Meets W) (fun _ o => A o) Q th.left ()) y.threads ∧ Inv y.shared := ?_
  · exact hrun.invariant hboth ⟨hthreads, hinv⟩
  rintro x e y ⟨hthreads, hinv⟩ hstep
  cases hstep with
  | start _ hp => exact ⟨hthreads.insert (hstart _ _ _ hp), hinv⟩
  | op hthread hR =>
      have hleft := hthreads _ _ hthread
      obtain ⟨hans, hinv'⟩ := hop _ _ _ _ hinv hleft.1 hR
      exact ⟨hthreads.insert (hleft.2 _ () hans), hinv'⟩

/-- A step relation beside a record that each event extends. -/
def Recorded {η ι : Type} (step : σ → ι → σ → Prop) (record : σ → ι → η → η) :
    σ × η → ι → σ × η → Prop :=
  fun x e y => step x.1 e y.1 ∧ y.2 = record x.1 e x.2

/-- The rule of interleaving for an invariant that speaks of a record of the run. -/
theorem invariant_recorded {η : Type} {Inv : Pool Op Ans α τ σ → η → Prop}
    {C : Pool Op Ans α τ σ × η → Event Op Ans τ → Prop}
    {record : Pool Op Ans α τ σ → Event Op Ans τ → η → η}
    (hstart : ∀ s t p, Start s t p → Holds (Observes observe) G Q p t)
    (hinvStart : ∀ x r n t p, Inv x r → x.threads.lookup n = none → Start x.shared t p →
      C (x, r) (.start n t) →
      Inv { x with threads := x.threads.insert n ⟨p, t⟩ } (record x (.start n t) r))
    (hinvOp : ∀ x r n t o next ans s', Inv x r → x.threads.lookup n = some ⟨.call o next, t⟩ →
      G t o → R x.shared o ans s' → C (x, r) (.op n o ans) →
      Inv { shared := s', threads := x.threads.insert n ⟨next ans, observe t o ans⟩ }
        (record x (.op n o ans) r))
    {x y : Pool Op Ans α τ σ × η} {es : List (Event Op Ans τ)}
    (hrun : Runs (fun x e y => Recorded (Step R observe Start) record x e y ∧ C x e) x es y)
    (hguar : Guarantees observe G Q x.1) (hinv : Inv x.1 x.2) :
    Guarantees observe G Q y.1 ∧ Inv y.1 y.2 := by
  have hboth : ∀ x e y, (Guarantees observe G Q x.1 ∧ Inv x.1 x.2) →
      (Recorded (Step R observe Start) record x e y ∧ C x e) →
        Guarantees observe G Q y.1 ∧ Inv y.1 y.2 := ?_
  · exact hrun.invariant hboth ⟨hguar, hinv⟩
  rintro ⟨x, r⟩ e ⟨y, r'⟩ h ⟨⟨hstep, hrecord⟩, hC⟩
  refine ⟨h.1.step hstart hstep, ?_⟩
  change r' = record x e r at hrecord
  subst hrecord
  cases hstep with
  | start hfree hp => exact hinvStart _ _ _ _ _ h.2 hfree hp hC
  | op hthread hR => exact hinvOp _ _ _ _ _ _ _ _ h.2 hthread (h.1 _ _ hthread).1 hR hC

/-- A pool in which nothing has started guarantees everything. -/
theorem guarantees_empty (s : σ) :
    Guarantees observe G Q (⟨s, ∅⟩ : Pool Op Ans α τ σ) :=
  fun _ _ h => by simp at h

end Rule

/-- The answers that meet a condition. -/
def Where (R : Answers Op Ans σ) (C : σ → (o : Op) → Ans o → Prop) : Answers Op Ans σ :=
  fun s o ans s' => R s o ans s' ∧ C s o ans

/-- A step with a given answer that meets the condition. -/
theorem Steps.met {R : Answers Op Ans σ} {C : σ → (o : Op) → Ans o → Prop} {s s' t : σ} {o : Op}
    {next : Ans o → Prog Op Ans α} {q : Prog Op Ans α} (ans : Ans o) (hR : R s o ans s')
    (hC : C s o ans) (h : Steps (Where R C) s' (next ans) t q) :
    Steps (Where R C) s (.call o next) t q :=
  .step ⟨hR, hC⟩ h

/-- A thread may run on its own while the others rest. -/
theorem runs_of_steps {R : Answers Op Ans σ} {observe : τ → (o : Op) → Ans o → τ}
    {Start : σ → τ → Prog Op Ans α → Prop} {C : Pool Op Ans α τ σ → Event Op Ans τ → Prop}
    {C' : σ → (o : Op) → Ans o → Prop}
    (hC : ∀ x n o ans, C' x.shared o ans → C x (.op n o ans)) {n : ℕ} {p q : Prog Op Ans α}
    {s s' : σ} (h : Steps (Where R C') s p s' q) {x : Pool Op Ans α τ σ} (hshared : x.shared = s)
    {t : τ} (hthread : x.threads.lookup n = some ⟨p, t⟩) :
    ∃ es y, Runs (fun x e y => Step R observe Start x e y ∧ C x e) x es y ∧ y.shared = s' ∧
      (∃ t', y.threads.lookup n = some ⟨q, t'⟩) ∧
      ∀ n', n' ≠ n → y.threads.lookup n' = x.threads.lookup n' := by
  induction h generalizing x t with
  | refl s p => exact ⟨[], x, .nil x, hshared, ⟨t, hthread⟩, fun _ _ => rfl⟩
  | @step s s₁ s' o ans next q hR _ ih =>
      obtain ⟨hR, hans⟩ := hR
      subst hshared
      obtain ⟨es, y, hrun, hy, hleft, hothers⟩ := ih
        (x := { shared := s₁, threads := x.threads.insert n ⟨next ans, observe t o ans⟩ })
        rfl (AList.lookup_insert _)
      refine ⟨.op n o ans :: es, y, .cons ⟨.op hthread hR, hC x n o ans hans⟩ hrun, hy, hleft, ?_⟩
      intro n' hne
      rw [hothers n' hne, lookup_insert_eq, if_neg hne]

/-- A thread may start and run on its own. -/
theorem runs_alone {R : Answers Op Ans σ} (observe : τ → (o : Op) → Ans o → τ)
    (Start : σ → τ → Prog Op Ans α → Prop) (C : Pool Op Ans α τ σ → Event Op Ans τ → Prop)
    {C' : σ → (o : Op) → Ans o → Prop}
    (hC : ∀ x n o ans, C' x.shared o ans → C x (.op n o ans)) (n : ℕ) {p q : Prog Op Ans α}
    {s s' : σ} (h : Steps (Where R C') s p s' q) {t : τ} (hstart : Start s t p)
    (hCstart : C ⟨s, ∅⟩ (.start n t)) :
    ∃ es y, Runs (fun x e y => Step R observe Start x e y ∧ C x e) ⟨s, ∅⟩ es y ∧ y.shared = s' ∧
      ∃ t', y.threads.lookup n = some ⟨q, t'⟩ := by
  let x : Pool Op Ans α τ σ := { shared := s, threads := (∅ : Dict ℕ _).insert n ⟨p, t⟩ }
  obtain ⟨es, y, hrun, hy, hleft, _⟩ := runs_of_steps hC h (x := x) rfl (AList.lookup_insert _)
  exact ⟨.start n t :: es, y, .cons ⟨.start (AList.lookup_empty n) hstart, hCstart⟩ hrun, hy, hleft⟩

end Tactile.Lib.Threads

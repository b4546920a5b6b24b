import Mathlib.Logic.Basic
import Mathlib.Data.List.Basic

/-!
Programs over an interface of operations, the runs they have in a world that
answers the operations, and the rules that prove a property of every run.
-/

namespace Tactile.Lib.Program

/-- A program that calls operations and continues with their answers. -/
inductive Prog (Op : Type) (Ans : Op → Type) (α : Type) : Type
  | ret (a : α) : Prog Op Ans α
  | call (op : Op) (next : Ans op → Prog Op Ans α) : Prog Op Ans α

variable {Op : Type} {Ans : Op → Type} {α β γ σ : Type}

namespace Prog

/-- Sequencing: the second program starts where the first one returns. -/
def bind : Prog Op Ans α → (α → Prog Op Ans β) → Prog Op Ans β
  | .ret a, f => f a
  | .call op next, f => .call op fun ans => (next ans).bind f

instance : Monad (Prog Op Ans) where
  pure := .ret
  bind := bind

/-- The program that calls one operation and returns its answer. -/
def op (o : Op) : Prog Op Ans (Ans o) := .call o .ret

@[simp] theorem pure_eq (a : α) : (pure a : Prog Op Ans α) = .ret a := rfl

@[simp] theorem ret_bind (a : α) (f : α → Prog Op Ans β) : (Prog.ret a >>= f) = f a := rfl

@[simp] theorem call_bind (o : Op) (next : Ans o → Prog Op Ans α) (f : α → Prog Op Ans β) :
    (Prog.call o next >>= f) = .call o fun ans => next ans >>= f := rfl

theorem id_map (p : Prog Op Ans α) : id <$> p = p := by
  induction p with
  | ret a => rfl
  | call o next ih =>
      apply congrArg (Prog.call o)
      funext ans
      exact ih ans

theorem bind_assoc (p : Prog Op Ans α) (f : α → Prog Op Ans β) (g : β → Prog Op Ans γ) :
    p >>= f >>= g = p >>= fun a => f a >>= g := by
  induction p with
  | ret a => rfl
  | call o next ih =>
      apply congrArg (Prog.call o)
      funext ans
      exact ih ans

instance : LawfulMonad (Prog Op Ans) :=
  LawfulMonad.mk' _ id_map (fun _ _ => rfl) bind_assoc

end Prog

/-- How a world may answer: from a state, an operation gets an answer and
leaves a state. -/
abbrev Answers (Op : Type) (Ans : Op → Type) (σ : Type) : Type :=
  σ → (o : Op) → Ans o → σ → Prop

/-- The program `p` started in `s` can reach the state `t` with `q` left to
run. -/
inductive Steps (R : Answers Op Ans σ) : σ → Prog Op Ans α → σ → Prog Op Ans α → Prop
  | refl (s : σ) (p : Prog Op Ans α) : Steps R s p s p
  | step {s s' t : σ} {o : Op} {ans : Ans o} {next : Ans o → Prog Op Ans α}
      {q : Prog Op Ans α} :
      R s o ans s' → Steps R s' (next ans) t q → Steps R s (.call o next) t q

/-- The program `p` started in `s` can finish with the result `a` in `t`. -/
def Exec (R : Answers Op Ans σ) (s : σ) (p : Prog Op Ans α) (a : α) (t : σ) : Prop :=
  Steps R s p t (.ret a)

/-- Every run of the program calls only operations that `G` admits in the
state of the call, and `Q` holds of every result it returns. -/
def Holds (R : Answers Op Ans σ) (G : σ → Op → Prop) (Q : α → σ → Prop) :
    Prog Op Ans α → σ → Prop
  | .ret a, s => Q a s
  | .call o next, s => G s o ∧ ∀ ans s', R s o ans s' → Holds R G Q (next ans) s'

section Rules

variable {R R' : Answers Op Ans σ} {G G' : σ → Op → Prop}
variable {Q : α → σ → Prop} {Q' : β → σ → Prop}

@[simp] theorem holds_ret (a : α) (s : σ) :
    Holds R G Q (.ret a) s ↔ Q a s := Iff.rfl

@[simp] theorem holds_pure (a : α) (s : σ) :
    Holds R G Q (pure a) s ↔ Q a s := Iff.rfl

theorem holds_call (o : Op) (next : Ans o → Prog Op Ans α) (s : σ) :
    Holds R G Q (.call o next) s ↔
      G s o ∧ ∀ ans s', R s o ans s' → Holds R G Q (next ans) s' := Iff.rfl

@[simp] theorem holds_op (o : Op) (Q : Ans o → σ → Prop) (s : σ) :
    Holds R G Q (Prog.op o) s ↔ G s o ∧ ∀ ans s', R s o ans s' → Q ans s' := Iff.rfl

/-- Rule of consequence, for the operations called and for the result. -/
theorem Holds.mono {p : Prog Op Ans α} {s : σ} {Q' : α → σ → Prop}
    (h : Holds R G Q p s) (hG : ∀ s o, G s o → G' s o)
    (hQ : ∀ a s, Q a s → Q' a s) : Holds R G' Q' p s := by
  induction p generalizing s with
  | ret a => exact hQ a s h
  | call o next ih => exact ⟨hG s o h.1, fun ans s' hR => ih ans (h.2 ans s' hR)⟩

theorem Holds.imp {p : Prog Op Ans α} {s : σ} {Q' : α → σ → Prop}
    (h : Holds R G Q p s) (hQ : ∀ a s, Q a s → Q' a s) : Holds R G Q' p s :=
  h.mono (fun _ _ hg => hg) hQ

theorem holds_true (p : Prog Op Ans α) (s : σ) :
    Holds R (fun _ _ => True) (fun _ _ => True) p s := by
  induction p generalizing s with
  | ret a => trivial
  | call o next ih => exact ⟨trivial, fun ans s' _ => ih ans s'⟩

/-- Rule of sequencing. -/
theorem holds_bind (p : Prog Op Ans α) (f : α → Prog Op Ans β) (s : σ) :
    Holds R G Q' (p >>= f) s ↔
      Holds R G (fun a s' => Holds R G Q' (f a) s') p s := by
  induction p generalizing s with
  | ret a => exact Iff.rfl
  | call o next ih =>
      constructor
      · rintro ⟨hg, hnext⟩
        exact ⟨hg, fun ans s' hR => (ih ans s').mp (hnext ans s' hR)⟩
      · rintro ⟨hg, hnext⟩
        exact ⟨hg, fun ans s' hR => (ih ans s').mpr (hnext ans s' hR)⟩

theorem holds_map (f : α → β) (p : Prog Op Ans α) (s : σ) :
    Holds R G Q' (f <$> p) s ↔ Holds R G (fun a s' => Q' (f a) s') p s :=
  holds_bind p (fun a => .ret (f a)) s

/-- Rule of iteration: a property of the processed part of the list, the
accumulator and the state that each round extends by its element. -/
theorem holds_foldlM {ι : Type} (f : β → ι → Prog Op Ans β)
    (I : List ι → β → σ → Prop) (xs : List ι) (b : β) (s : σ)
    (hinit : I [] b s)
    (hround : ∀ pre x post, xs = pre ++ x :: post → ∀ b s, I pre b s →
      Holds R G (fun b' s' => I (pre ++ [x]) b' s') (f b x) s) :
    Holds R G (fun b' s' => I xs b' s') (xs.foldlM f b) s := by
  suffices h : ∀ rest pre b s, xs = pre ++ rest → I pre b s →
      Holds R G (fun b' s' => I xs b' s') (rest.foldlM f b) s from h xs [] b s rfl hinit
  intro rest
  induction rest with
  | nil =>
      intro pre b s hxs hI
      rw [List.append_nil] at hxs
      subst hxs
      simpa using hI
  | cons x rest ih =>
      intro pre b s hxs hI
      rw [List.foldlM_cons, holds_bind]
      refine (hround pre x rest hxs b s hI).imp fun b' s' hI' => ?_
      exact ih (pre ++ [x]) b' s' (by simp [hxs]) hI'

/-- Two proofs about the same program hold of the same runs. -/
theorem Holds.and {p : Prog Op Ans α} {s : σ} {Q' : α → σ → Prop}
    (h : Holds R G Q p s) (h' : Holds R G' Q' p s) :
    Holds R (fun s o => G s o ∧ G' s o) (fun a s => Q a s ∧ Q' a s) p s := by
  induction p generalizing s with
  | ret a => exact ⟨h, h'⟩
  | call o next ih =>
      exact ⟨⟨h.1, h'.1⟩, fun ans s' hR => ih ans (h.2 ans s' hR) (h'.2 ans s' hR)⟩

/-- A world that answers in fewer ways keeps what holds of every run. -/
theorem Holds.of_le {p : Prog Op Ans α} {s : σ} (h : Holds R' G Q p s)
    (hR : ∀ s o ans s', R s o ans s' → R' s o ans s') : Holds R G Q p s := by
  induction p generalizing s with
  | ret a => exact h
  | call o next ih => exact ⟨h.1, fun ans s' hs => ih ans (h.2 ans s' (hR s o ans s' hs))⟩

/-- A world that answers in fewer ways where an operation is admitted keeps what
holds of every run. -/
theorem Holds.of_admitted {p : Prog Op Ans α} {s : σ} (h : Holds R' G Q p s)
    (hR : ∀ s o ans s', G s o → R s o ans s' → R' s o ans s') : Holds R G Q p s := by
  induction p generalizing s with
  | ret a => exact h
  | call o next ih => exact ⟨h.1, fun ans s' hs => ih ans (h.2 ans s' (hR s o ans s' h.1 hs))⟩

theorem Holds.steps {p q : Prog Op Ans α} {s t : σ} (h : Holds R G Q p s)
    (hs : Steps R s p t q) : Holds R G Q q t := by
  induction hs with
  | refl => exact h
  | step hR _ ih => exact ih (h.2 _ _ hR)

/-- What holds of every run holds of a finished one. -/
theorem Holds.exec {p : Prog Op Ans α} {s t : σ} {a : α} (h : Holds R G Q p s)
    (hs : Exec R s p a t) : Q a t :=
  h.steps hs

/-- Where a run is cut, the property holds of the operation it is about to call
or of the result it has returned. -/
theorem Holds.cut {p q : Prog Op Ans α} {s t : σ} (h : Holds R G Q p s)
    (hs : Steps R s p t q) :
    (∃ o next, q = .call o next ∧ G t o) ∨ ∃ a, q = .ret a ∧ Q a t := by
  have hq := h.steps hs
  cases q with
  | ret a => exact .inr ⟨a, rfl, hq⟩
  | call o next => exact .inl ⟨o, next, rfl, hq.1⟩

/-- The operation a run is about to call is one the property admits there. -/
theorem Holds.admits {p : Prog Op Ans α} {s t : σ} {o : Op}
    {next : Ans o → Prog Op Ans α} (h : Holds R G Q p s)
    (hs : Steps R s p t (.call o next)) : G t o :=
  (h.steps hs).1

end Rules

/-- Whatever the answers, the program calls only operations of this kind. -/
def Prog.Only (P : Op → Prop) : Prog Op Ans α → Prop
  | .ret _ => True
  | .call o next => P o ∧ ∀ ans, (next ans).Only P

section Only

variable {P : Op → Prop}

theorem Prog.Only.bind {p : Prog Op Ans α} {f : α → Prog Op Ans β} (hp : p.Only P)
    (hf : ∀ a, (f a).Only P) : (p >>= f).Only P := by
  induction p with
  | ret a => exact hf a
  | call o next ih => exact ⟨hp.1, fun ans => ih ans (hp.2 ans)⟩

theorem Prog.Only.foldlM {ι : Type} {f : β → ι → Prog Op Ans β} (hf : ∀ b x, (f b x).Only P)
    (xs : List ι) (b : β) : (xs.foldlM f b).Only P := by
  induction xs generalizing b with
  | nil => exact trivial
  | cons x xs ih => exact (hf b x).bind ih

theorem Prog.Only.mono {P' : Op → Prop} {p : Prog Op Ans α} (hp : p.Only P) (h : ∀ o, P o → P' o) :
    p.Only P' := by
  induction p with
  | ret a => trivial
  | call o next ih => exact ⟨h o hp.1, fun ans => ih ans (hp.2 ans)⟩

theorem Prog.only_op {o : Op} (ho : P o) : (Prog.op o : Prog Op Ans (Ans o)).Only P :=
  ⟨ho, fun _ => trivial⟩

/-- What every operation of the kind keeps, such a program keeps, and it calls what is
admitted there. -/
theorem Prog.Only.admits {R : Answers Op Ans σ} {I : σ → Prop} {G : σ → Op → Prop}
    (hstep : ∀ s o ans s', P o → R s o ans s' → I s → I s') (hG : ∀ s o, I s → P o → G s o)
    {p : Prog Op Ans α} (hp : p.Only P) {s : σ} (hs : I s) : Holds R G (fun _ s' => I s') p s := by
  induction p generalizing s with
  | ret a => exact hs
  | call o next ih =>
      exact ⟨hG s o hs hp.1, fun ans s' hR => ih ans (hp.2 ans) (hstep s o ans s' hp.1 hR hs)⟩

theorem Prog.Only.holds {R : Answers Op Ans σ} {I : σ → Prop}
    (hstep : ∀ s o ans s', P o → R s o ans s' → I s → I s') {p : Prog Op Ans α} (hp : p.Only P)
    {s : σ} (hs : I s) : Holds R (fun _ o => P o) (fun _ s' => I s') p s :=
  hp.admits hstep (fun _ _ _ ho => ho) hs

/-- Related worlds in which the operations of the kind get the same answers run such
a program the same way. -/
theorem Prog.Only.simulate {R : Answers Op Ans σ} {Rel : σ → σ → Prop}
    (hstep : ∀ s t o ans s', P o → Rel s t → R s o ans s' → ∃ t', R t o ans t' ∧ Rel s' t')
    {p : Prog Op Ans α} (hp : p.Only P) {s s' t : σ} {a : α} (hrel : Rel s t) (h : Exec R s p a s') :
    ∃ t', Exec R t p a t' ∧ Rel s' t' := by
  induction p generalizing s t with
  | ret b =>
      cases h
      exact ⟨t, .refl _ _, hrel⟩
  | call o next ih =>
      cases h with
      | step hans hrest =>
          obtain ⟨t₁, hans', hrel'⟩ := hstep _ _ _ _ _ hp.1 hrel hans
          obtain ⟨t', hexec, hrel''⟩ := ih _ (hp.2 _) hrel' hrest
          exact ⟨t', .step hans' hexec, hrel''⟩

end Only

/-- In a world that answers every operation the program may call, what holds of
every run holds of some run. -/
theorem Holds.exists_exec {R : Answers Op Ans σ} {G : σ → Op → Prop} {Q : α → σ → Prop}
    {p : Prog Op Ans α} {s : σ} (h : Holds R G Q p s)
    (htotal : ∀ s o, G s o → ∃ ans s', R s o ans s') : ∃ a t, Exec R s p a t ∧ Q a t := by
  induction p generalizing s with
  | ret a => exact ⟨a, s, .refl _ _, h⟩
  | call o next ih =>
      obtain ⟨ans, s', hR⟩ := htotal s o h.1
      obtain ⟨a, t, hexec, hQ⟩ := ih ans (h.2 ans s' hR)
      exact ⟨a, t, .step hR hexec, hQ⟩

/-- A step with a given answer. -/
theorem Steps.answer {R : Answers Op Ans σ} {s t : σ} {o : Op}
    {next : Ans o → Prog Op Ans α} {q : Prog Op Ans α} (ans : Ans o) (s' : σ) (hR : R s o ans s')
    (h : Steps R s' (next ans) t q) : Steps R s (.call o next) t q :=
  .step hR h

theorem Steps.trans {R : Answers Op Ans σ} {s t u : σ} {p q r : Prog Op Ans α}
    (h : Steps R s p t q) (h' : Steps R t q u r) : Steps R s p u r := by
  induction h with
  | refl => exact h'
  | step hR _ ih => exact .step hR (ih h')

/-- A run of a sequence is in its first part, or it has finished that part. -/
theorem Steps.of_bind {R : Answers Op Ans σ} {p : Prog Op Ans α} {f : α → Prog Op Ans β} {s t : σ}
    {q : Prog Op Ans β} (h : Steps R s (p >>= f) t q) :
    (∃ p', q = p' >>= f ∧ Steps R s p t p') ∨ ∃ a u, Exec R s p a u ∧ Steps R u (f a) t q := by
  induction p generalizing s with
  | ret a => exact .inr ⟨a, s, .refl _ _, h⟩
  | call o next ih =>
      cases h with
      | refl => exact .inl ⟨.call o next, rfl, .refl _ _⟩
      | step hR h =>
          rcases ih _ h with ⟨p', rfl, hsteps⟩ | ⟨a, u, hexec, hsteps⟩
          · exact .inl ⟨p', rfl, .step hR hsteps⟩
          · exact .inr ⟨a, u, .step hR hexec, hsteps⟩

/-- A finished run of a sequence has finished its first part. -/
theorem Exec.of_bind {R : Answers Op Ans σ} {p : Prog Op Ans α} {f : α → Prog Op Ans β} {s t : σ}
    {b : β} (h : Exec R s (p >>= f) b t) : ∃ a u, Exec R s p a u ∧ Exec R u (f a) b t := by
  rcases Steps.of_bind h with ⟨p', hret, hsteps⟩ | h
  · cases p' with
    | ret a =>
        rw [Prog.ret_bind] at hret
        refine ⟨a, t, hsteps, ?_⟩
        rw [← hret]
        exact .refl _ _
    | call o next => cases hret
  · exact h

/-- What a run returns is what it can finish with. -/
theorem holds_exec {R : Answers Op Ans σ} (p : Prog Op Ans α) (s : σ) :
    Holds R (fun _ _ => True) (fun a t => Exec R s p a t) p s := by
  induction p generalizing s with
  | ret a => exact .refl _ _
  | call o next ih =>
      exact ⟨trivial, fun ans s' hR => (ih ans s').imp fun a t h => .step hR h⟩

/-- What each admitted call keeps, a run keeps. -/
theorem Holds.invariant {R : Answers Op Ans σ} {G : σ → Op → Prop} {Q : α → σ → Prop}
    {I : σ → Prop} (hstep : ∀ s o ans s', I s → G s o → R s o ans s' → I s')
    {p q : Prog Op Ans α} {s t : σ} (h : Holds R G Q p s) (hs : Steps R s p t q) (hI : I s) :
    I t := by
  induction hs with
  | refl => exact hI
  | step hR _ ih => exact ih (h.2 _ _ hR) (hstep _ _ _ _ hI h.1 hR)

/-- A world with more ways to answer has the runs of one with fewer. -/
theorem Steps.mono {R R' : Answers Op Ans σ} (hR : ∀ s o ans s', R s o ans s' → R' s o ans s')
    {s t : σ} {p q : Prog Op Ans α} (h : Steps R s p t q) : Steps R' s p t q := by
  induction h with
  | refl => exact .refl _ _
  | step h _ ih => exact .step (hR _ _ _ _ h) ih

/-- A run whose calls are admitted is one of a world that answers these calls so. -/
theorem Steps.admitted {R R' : Answers Op Ans σ} {G : σ → Op → Prop} {Q : α → σ → Prop}
    {p q : Prog Op Ans α} {s t : σ} (hR : ∀ s o ans s', G s o → R s o ans s' → R' s o ans s')
    (h : Holds R G Q p s) (hs : Steps R s p t q) : Steps R' s p t q := by
  induction hs with
  | refl => exact .refl _ _
  | step hans _ ih => exact .step (hR _ _ _ _ h.1 hans) (ih (h.2 _ _ hans))

/-- A run, seen in a world that answers as its own does. -/
theorem Steps.project {τ : Type} {R : Answers Op Ans σ} {R' : Answers Op Ans τ} (f : σ → τ)
    (hR : ∀ s o ans s', R s o ans s' → R' (f s) o ans (f s')) {s t : σ} {p q : Prog Op Ans α}
    (h : Steps R s p t q) : Steps R' (f s) p (f t) q := by
  induction h with
  | refl => exact .refl _ _
  | step hans _ ih => exact .step (hR _ _ _ _ hans) ih

theorem Steps.bind {R : Answers Op Ans σ} {p q : Prog Op Ans α} {s t : σ} (h : Steps R s p t q)
    (f : α → Prog Op Ans β) : Steps R s (p >>= f) t (q >>= f) := by
  induction h with
  | refl => exact .refl _ _
  | step hR _ ih => exact .step hR ih

theorem Exec.map {R : Answers Op Ans σ} (f : α → β) {p : Prog Op Ans α} {s t : σ} {a : α}
    (h : Exec R s p a t) : Exec R s (f <$> p) (f a) t := Steps.bind h fun a => .ret (f a)

/-- Some run of the program is about to call an operation that meets a condition. -/
def Reaches (R : Answers Op Ans σ) (P : σ → Op → Prop) (p : Prog Op Ans α) (s : σ) : Prop :=
  ∃ t o next, Steps R s p t (.call o next) ∧ P t o

section Reaches

variable {R : Answers Op Ans σ} {P : σ → Op → Prop} {s t : σ}

theorem reaches_here {o : Op} {next : Ans o → Prog Op Ans α} (h : P s o) :
    Reaches R P (.call o next) s := ⟨s, o, next, .refl _ _, h⟩

theorem Reaches.after {p q : Prog Op Ans α} (hsteps : Steps R s p t q) (h : Reaches R P q t) :
    Reaches R P p s := by
  obtain ⟨u, o, next, hq, hP⟩ := h
  exact ⟨u, o, next, hsteps.trans hq, hP⟩

/-- A step with a given answer. -/
theorem Reaches.answer {o : Op} {next : Ans o → Prog Op Ans α} (ans : Ans o) (hR : R s o ans t)
    (h : Reaches R P (next ans) t) : Reaches R P (.call o next) s :=
  h.after (.step hR (.refl _ _))

theorem Reaches.bind {p : Prog Op Ans α} (h : Reaches R P p s) (f : α → Prog Op Ans β) :
    Reaches R P (p >>= f) s := by
  obtain ⟨t, o, next, hp, hP⟩ := h
  exact ⟨t, o, fun ans => next ans >>= f, hp.bind f, hP⟩

theorem Reaches.of_exec {p : Prog Op Ans α} {f : α → Prog Op Ans β} {a : α} (hp : Exec R s p a t)
    (h : Reaches R P (f a) t) : Reaches R P (p >>= f) s := h.after (Steps.bind hp f)

end Reaches

/-- A call of an operation with its answer. -/
abbrev Call (Op : Type) (Ans : Op → Type) : Type := (o : Op) × Ans o

/-- A world that keeps a log of the calls beside its state. -/
def Logged (R : Answers Op Ans σ) : Answers Op Ans (σ × List (Call Op Ans)) :=
  fun s o ans s' => R s.1 o ans s'.1 ∧ s'.2 = s.2 ++ [⟨o, ans⟩]

/-- Every run has a log. -/
theorem Steps.log {R : Answers Op Ans σ} {s t : σ} {p q : Prog Op Ans α} (h : Steps R s p t q)
    (calls : List (Call Op Ans)) : ∃ calls', Steps (Logged R) (s, calls) p (t, calls') q := by
  induction h generalizing calls with
  | refl => exact ⟨calls, .refl _ _⟩
  | step hR _ ih =>
      obtain ⟨calls', hsteps⟩ := ih (calls ++ [⟨_, _⟩])
      exact ⟨calls', .step ⟨hR, rfl⟩ hsteps⟩

/-- A logged step with a given answer. -/
theorem Steps.logged {R : Answers Op Ans σ} {s s' : σ} {calls : List (Call Op Ans)} {o : Op}
    {next : Ans o → Prog Op Ans α} {t : σ × List (Call Op Ans)} {q : Prog Op Ans α} (ans : Ans o)
    (hR : R s o ans s') (h : Steps (Logged R) (s', calls ++ [⟨o, ans⟩]) (next ans) t q) :
    Steps (Logged R) (s, calls) (.call o next) t q :=
  .step ⟨hR, rfl⟩ h

section Deterministic

variable (respond : (o : Op) → σ → Ans o × σ)

/-- The answers of a world that answers each operation in one way. -/
def Responds : Answers Op Ans σ := fun s o ans s' => respond o s = (ans, s')

/-- The result and the final state of a program in such a world. -/
def eval : Prog Op Ans α → σ → α × σ
  | .ret a, s => (a, s)
  | .call o next, s => eval (next (respond o s).1) (respond o s).2

/-- What is left to run, and the state, after at most `n` operations. -/
def runFor : Nat → Prog Op Ans α → σ → Prog Op Ans α × σ
  | 0, p, s => (p, s)
  | _ + 1, .ret a, s => (.ret a, s)
  | n + 1, .call o next, s => runFor n (next (respond o s).1) (respond o s).2

theorem exec_eval (p : Prog Op Ans α) (s : σ) :
    Exec (Responds respond) s p (eval respond p s).1 (eval respond p s).2 := by
  induction p generalizing s with
  | ret a => exact .refl _ _
  | call o next ih => exact .step rfl (ih _ _)

theorem exec_responds_iff (p : Prog Op Ans α) (s t : σ) (a : α) :
    Exec (Responds respond) s p a t ↔ eval respond p s = (a, t) := by
  constructor
  · intro h
    have hall : Holds (Responds respond) (fun _ _ => True)
        (fun a' t' => eval respond p s = (a', t')) p s := by
      suffices hgen : ∀ (q : Prog Op Ans α) (u : σ),
          Holds (Responds respond) (fun _ _ => True)
            (fun a' t' => eval respond q u = (a', t')) q u from hgen p s
      intro q
      induction q with
      | ret a => intro u; exact rfl
      | call o next ih =>
          intro u
          refine ⟨trivial, fun ans u' hR => ?_⟩
          have hans : respond o u = (ans, u') := hR
          refine (ih ans u').imp fun a' t' hev => ?_
          rw [eval, hans]
          exact hev
    exact hall.exec h
  · intro h
    have := exec_eval respond p s
    rw [h] at this
    exact this

theorem steps_runFor (n : Nat) (p : Prog Op Ans α) (s : σ) :
    Steps (Responds respond) s p (runFor respond n p s).2 (runFor respond n p s).1 := by
  induction n generalizing p s with
  | zero => exact .refl _ _
  | succ n ih =>
      cases p with
      | ret a => exact .refl _ _
      | call o next => exact .step rfl (ih _ _)

/-- A partial run of a deterministic world is continued by its whole run. -/
theorem eval_of_steps {p q : Prog Op Ans α} {s t : σ}
    (h : Steps (Responds respond) s p t q) : eval respond q t = eval respond p s := by
  induction h with
  | refl => rfl
  | step hR _ ih =>
      rw [ih, eval, hR]

end Deterministic

end Tactile.Lib.Program

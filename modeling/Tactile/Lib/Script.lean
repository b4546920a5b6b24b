import Tactile.Lib.Program

/-!
Programs with a memory of their own and with failures, as the methods of an
object are: what a method has written to the memory stays when it fails.
-/

namespace Tactile.Lib.Script

open Tactile.Lib.Program

/-- A method over operations `Op`: it reads and writes a memory `μ` and
returns a result or fails with an `ε`. -/
abbrev Method (Op : Type) (Ans : Op → Type) (ε μ α : Type) : Type :=
  ExceptT ε (StateT μ (Prog Op Ans)) α

variable {Op : Type} {Ans : Op → Type} {ε μ α β σ : Type}

namespace Method

/-- The program of a method call in a memory. -/
def call (m : Method Op Ans ε μ α) (mem : μ) : Prog Op Ans (Except ε α × μ) :=
  (m.run).run mem

/-- Calls one operation and returns its answer. -/
def perform (o : Op) : Method Op Ans ε μ (Ans o) :=
  ExceptT.mk (StateT.mk fun mem => Prog.call o fun ans => .ret (.ok ans, mem))

/-- Returns an outcome or fails with it. -/
def ofExcept {φ : Type} (wrap : φ → ε) : Except φ α → Method Op Ans ε μ α
  | .ok a => pure a
  | .error e => throw (wrap e)

/-- Reads the memory. -/
def read : Method Op Ans ε μ μ := ExceptT.mk (StateT.mk fun mem => .ret (.ok mem, mem))

/-- Changes the memory. -/
def update (f : μ → μ) : Method Op Ans ε μ Unit :=
  ExceptT.mk (StateT.mk fun mem => .ret (.ok (), f mem))

/-- Runs a handler when the method fails. -/
def orElse (m : Method Op Ans ε μ α) (handler : ε → Method Op Ans ε μ α) :
    Method Op Ans ε μ α := tryCatch m handler

/-- Runs a method and returns its outcome, failed or not. -/
def outcome (m : Method Op Ans ε μ α) : Method Op Ans ε μ (Except ε α) :=
  ExceptT.mk (StateT.mk fun mem => do
    let out ← m.call mem
    .ret (.ok out.1, out.2))

end Method

/-- What a property asks of the end of a method call. -/
def Outcome (Q : α → μ → σ → Prop) (E : ε → μ → σ → Prop) :
    Except ε α × μ → σ → Prop
  | (.ok a, mem), s => Q a mem s
  | (.error e, mem), s => E e mem s

@[simp] theorem outcome_ok (Q : α → μ → σ → Prop) (E : ε → μ → σ → Prop) (a : α) (mem : μ)
    (s : σ) : Outcome Q E (.ok a, mem) s ↔ Q a mem s := Iff.rfl

@[simp] theorem outcome_error (Q : α → μ → σ → Prop) (E : ε → μ → σ → Prop) (e : ε) (mem : μ)
    (s : σ) : Outcome Q E (.error e, mem) s ↔ E e mem s := Iff.rfl

/-- Every run of the method calls only operations that `G` admits, a run that
returns ends in `Q` and a run that fails ends in `E`. -/
def Meets (R : Answers Op Ans σ) (G : σ → Op → Prop) (Q : α → μ → σ → Prop)
    (E : ε → μ → σ → Prop) (m : Method Op Ans ε μ α) (mem : μ) (s : σ) : Prop :=
  Holds R G (Outcome Q E) (m.call mem) s

section Rules

variable {R : Answers Op Ans σ} {G G' : σ → Op → Prop}
variable {Q Q' : α → μ → σ → Prop} {E E' : ε → μ → σ → Prop} {P : β → μ → σ → Prop}

@[simp] theorem meets_pure (a : α) (mem : μ) (s : σ) :
    Meets R G Q E (pure a) mem s ↔ Q a mem s := Iff.rfl

@[simp] theorem meets_throw (e : ε) (mem : μ) (s : σ) :
    Meets R G Q E (throw e) mem s ↔ E e mem s := Iff.rfl

@[simp] theorem meets_perform (o : Op) (Q : Ans o → μ → σ → Prop) (mem : μ) (s : σ) :
    Meets R G Q E (Method.perform o) mem s ↔
      G s o ∧ ∀ ans s', R s o ans s' → Q ans mem s' := Iff.rfl

@[simp] theorem meets_read (Q : μ → μ → σ → Prop) (mem : μ) (s : σ) :
    Meets R G Q E Method.read mem s ↔ Q mem mem s := Iff.rfl

@[simp] theorem meets_update (f : μ → μ) (Q : Unit → μ → σ → Prop) (mem : μ) (s : σ) :
    Meets R G Q E (Method.update f) mem s ↔ Q () (f mem) s := Iff.rfl

@[simp] theorem meets_ofExcept {φ : Type} (wrap : φ → ε) (x : Except φ α) (mem : μ) (s : σ) :
    Meets R G Q E (Method.ofExcept wrap x) mem s ↔
      (∀ a, x = .ok a → Q a mem s) ∧ (∀ e, x = .error e → E (wrap e) mem s) := by
  cases x with
  | ok a => simp [Method.ofExcept]
  | error e => simp [Method.ofExcept]

theorem Method.call_bind (m : Method Op Ans ε μ β) (f : β → Method Op Ans ε μ α) (mem : μ) :
    (m >>= f).call mem = m.call mem >>= fun out =>
      match out with
      | (.ok b, mem') => (f b).call mem'
      | (.error e, mem') => .ret (.error e, mem') := by
  change (m.call mem >>= fun out => _) = _
  refine bind_congr fun out => ?_
  rcases out with ⟨_ | _, _⟩ <;> rfl

/-- A run of a first method that returns goes on with the second one. -/
theorem exec_bind {R : Answers Op Ans σ} {m : Method Op Ans ε μ β} {f : β → Method Op Ans ε μ α}
    {b : β} {mem mem' : μ} {s t u : σ} {out : Except ε α × μ}
    (hm : Exec R s (m.call mem) (.ok b, mem') t) (hf : Exec R t ((f b).call mem') out u) :
    Exec R s ((m >>= f).call mem) out u := by
  rw [Method.call_bind]
  exact (Steps.bind hm _).trans hf

theorem exec_outcome {R : Answers Op Ans σ} {m : Method Op Ans ε μ α} {mem : μ} {s t : σ}
    {out : Except ε α × μ} (h : Exec R s (m.call mem) out t) :
    Exec R s (m.outcome.call mem) (.ok out.1, out.2) t := by
  rw [Method.outcome]
  apply Steps.bind h

theorem exec_perform {R : Answers Op Ans σ} {o : Op} {ans : Ans o} {s t : σ} (h : R s o ans t)
    (mem : μ) : Exec R s ((Method.perform o : Method Op Ans ε μ (Ans o)).call mem) (.ok ans, mem) t :=
  .step h (.refl _ _)

/-- Rule of sequencing: the second method starts in what the first returns. -/
@[simp] theorem meets_bind (m : Method Op Ans ε μ β) (f : β → Method Op Ans ε μ α) (mem : μ)
    (s : σ) :
    Meets R G Q E (m >>= f) mem s ↔
      Meets R G (fun b mem' s' => Meets R G Q E (f b) mem' s') E m mem s := by
  rw [Meets, Method.call_bind, holds_bind]
  constructor
  · intro h
    refine Holds.imp h fun out s' hout => ?_
    rcases out with ⟨_ | _, _⟩ <;> exact hout
  · intro h
    refine Holds.imp h fun out s' hout => ?_
    rcases out with ⟨_ | _, _⟩ <;> exact hout

theorem Method.call_orElse (m : Method Op Ans ε μ α) (handler : ε → Method Op Ans ε μ α)
    (mem : μ) :
    (m.orElse handler).call mem = m.call mem >>= fun out =>
      match out with
      | (.ok a, mem') => .ret (.ok a, mem')
      | (.error e, mem') => (handler e).call mem' := by
  change (m.call mem >>= fun out => _) = _
  refine bind_congr fun out => ?_
  rcases out with ⟨_ | _, _⟩ <;> rfl

/-- Rule of handlers: the handler starts in the memory the failure left. -/
@[simp] theorem meets_orElse (m : Method Op Ans ε μ α) (handler : ε → Method Op Ans ε μ α)
    (mem : μ) (s : σ) :
    Meets R G Q E (m.orElse handler) mem s ↔
      Meets R G Q (fun e mem' s' => Meets R G Q E (handler e) mem' s') m mem s := by
  rw [Meets, Method.call_orElse, holds_bind]
  constructor
  · intro h
    refine Holds.imp h fun out s' hout => ?_
    rcases out with ⟨_ | _, _⟩ <;> exact hout
  · intro h
    refine Holds.imp h fun out s' hout => ?_
    rcases out with ⟨_ | _, _⟩ <;> exact hout

@[simp] theorem meets_outcome (m : Method Op Ans ε μ α) (Q : Except ε α → μ → σ → Prop) (mem : μ)
    (s : σ) :
    Meets R G Q E m.outcome mem s ↔
      Meets R G (fun a mem' s' => Q (.ok a) mem' s') (fun e mem' s' => Q (.error e) mem' s')
        m mem s := by
  change Holds R G _ (m.call mem >>= fun out => Prog.ret (Except.ok out.1, out.2)) s ↔ _
  rw [holds_bind]
  constructor
  · intro h
    refine Holds.imp h fun out s' hout => ?_
    rcases out with ⟨_ | _, _⟩ <;> exact hout
  · intro h
    refine Holds.imp h fun out s' hout => ?_
    rcases out with ⟨_ | _, _⟩ <;> exact hout

/-- Rule of consequence. -/
theorem Meets.mono {m : Method Op Ans ε μ α} {mem : μ} {s : σ} (h : Meets R G Q E m mem s)
    (hG : ∀ s o, G s o → G' s o) (hQ : ∀ a mem s, Q a mem s → Q' a mem s)
    (hE : ∀ e mem s, E e mem s → E' e mem s) : Meets R G' Q' E' m mem s := by
  refine Holds.mono h hG fun out s' hout => ?_
  rcases out with ⟨e | a, mem'⟩
  · exact hE e mem' s' hout
  · exact hQ a mem' s' hout

theorem Meets.imp {m : Method Op Ans ε μ α} {mem : μ} {s : σ} (h : Meets R G Q E m mem s)
    (hQ : ∀ a mem s, Q a mem s → Q' a mem s) (hE : ∀ e mem s, E e mem s → E' e mem s) :
    Meets R G Q' E' m mem s :=
  h.mono (fun _ _ hg => hg) hQ hE

/-- Two proofs about the same method hold of the same runs. -/
theorem Meets.both {m : Method Op Ans ε μ α} {mem : μ} {s : σ} {Q' : α → μ → σ → Prop}
    {E' : ε → μ → σ → Prop} (h : Meets R G Q E m mem s) (h' : Meets R G' Q' E' m mem s) :
    Meets R (fun s o => G s o ∧ G' s o) (fun a mem s => Q a mem s ∧ Q' a mem s)
      (fun e mem s => E e mem s ∧ E' e mem s) m mem s := by
  refine (Holds.and h h').imp fun out s' hout => ?_
  rcases out with ⟨e | a, mem'⟩
  · exact hout
  · exact hout

/-- What holds after whatever a method does. -/
theorem Meets.any {m : Method Op Ans ε μ α} {mem : μ} {s : σ} (hQ : ∀ a mem s, Q a mem s)
    (hE : ∀ e mem s, E e mem s) : Meets R (fun _ _ => True) Q E m mem s := by
  refine Holds.mono (holds_true _ s) (fun _ _ hg => hg) fun out s' _ => ?_
  rcases out with ⟨e | a, mem'⟩
  · exact hE e mem' s'
  · exact hQ a mem' s'

/-- Rule of iteration over a list, for a method that hands a value on. -/
theorem meets_foldlM {ι : Type} (f : β → ι → Method Op Ans ε μ β)
    (I : List ι → β → μ → σ → Prop) (xs : List ι) (b : β) (mem : μ) (s : σ)
    (hinit : I [] b mem s)
    (hround : ∀ pre x post, xs = pre ++ x :: post → ∀ b mem s, I pre b mem s →
      Meets R G (I (pre ++ [x])) E (f b x) mem s) :
    Meets R G (I xs) E (xs.foldlM f b) mem s := by
  suffices h : ∀ rest pre b mem s, xs = pre ++ rest → I pre b mem s →
      Meets R G (I xs) E (rest.foldlM f b) mem s from h xs [] b mem s rfl hinit
  intro rest
  induction rest with
  | nil =>
      intro pre b mem s hxs hI
      rw [List.append_nil] at hxs
      subst hxs
      simpa using hI
  | cons x rest ih =>
      intro pre b mem s hxs hI
      rw [List.foldlM_cons, meets_bind]
      refine (hround pre x rest hxs b mem s hI).imp (fun b' mem' s' hI' => ?_) fun _ _ _ he => he
      exact ih (pre ++ [x]) b' mem' s' (by simp [hxs]) hI'

/-- Rule of iteration over a list, for a method that only changes its memory. -/
theorem meets_forM {ι : Type} (f : ι → Method Op Ans ε μ PUnit)
    (I : List ι → μ → σ → Prop) (xs : List ι) (mem : μ) (s : σ)
    (hinit : I [] mem s)
    (hround : ∀ pre x post, xs = pre ++ x :: post → ∀ mem s, I pre mem s →
      Meets R G (fun _ => I (pre ++ [x])) E (f x) mem s) :
    Meets R G (fun _ => I xs) E (forM xs f) mem s := by
  suffices h : ∀ rest pre mem s, xs = pre ++ rest → I pre mem s →
      Meets R G (fun _ => I xs) E (forM rest f) mem s from h xs [] mem s rfl hinit
  intro rest
  induction rest with
  | nil =>
      intro pre mem s hxs hI
      rw [List.append_nil] at hxs
      subst hxs
      exact hI
  | cons x rest ih =>
      intro pre mem s hxs hI
      rw [List.forM_cons, meets_bind]
      refine (hround pre x rest hxs mem s hI).imp (fun _ mem' s' hI' => ?_) fun _ _ _ he => he
      exact ih (pre ++ [x]) mem' s' (by simp [hxs]) hI'

/-- A method that can only end in one way ends so where the answers are determined. -/
theorem eval_of_meets {respond : (o : Op) → σ → Ans o × σ} {m : Method Op Ans ε μ α} {mem mem' : μ}
    {s t : σ} {a : α} (h : Meets (Responds respond) G (fun b mem₁ t₁ => b = a ∧ mem₁ = mem' ∧ t₁ = t)
      (fun _ _ _ => False) m mem s) : eval respond (m.call mem) s = ((.ok a, mem'), t) := by
  have houtcome := h.exec (exec_eval respond (m.call mem) s)
  generalize eval respond (m.call mem) s = out at houtcome ⊢
  obtain ⟨⟨result, mem₁⟩, t₁⟩ := out
  cases result with
  | error e => exact houtcome.elim
  | ok b =>
      obtain ⟨rfl, rfl, rfl⟩ := houtcome
      rfl

end Rules

/-- Whatever the answers and the memory, the method calls only operations of this kind. -/
def Method.Only (P : Op → Prop) (m : Method Op Ans ε μ α) : Prop := ∀ mem, (m.call mem).Only P

section Only

variable {P : Op → Prop} {m : Method Op Ans ε μ α}

theorem Method.only_pure (a : α) : Method.Only P (pure a : Method Op Ans ε μ α) := fun _ => trivial

theorem Method.only_throw (e : ε) : Method.Only P (throw e : Method Op Ans ε μ α) := fun _ => trivial

theorem Method.only_perform {o : Op} (ho : P o) :
    Method.Only P (Method.perform o : Method Op Ans ε μ (Ans o)) :=
  fun _ => ⟨ho, fun _ => trivial⟩

theorem Method.only_read : Method.Only P (Method.read : Method Op Ans ε μ μ) := fun _ => trivial

theorem Method.only_update (f : μ → μ) : Method.Only P (Method.update f : Method Op Ans ε μ Unit) :=
  fun _ => trivial

theorem Method.only_ofExcept {φ : Type} (wrap : φ → ε) (x : Except φ α) :
    Method.Only P (Method.ofExcept wrap x : Method Op Ans ε μ α) := by
  cases x with
  | ok a => exact Method.only_pure a
  | error e => exact Method.only_throw (wrap e)

theorem Method.Only.bind {m : Method Op Ans ε μ β} {f : β → Method Op Ans ε μ α}
    (hm : Method.Only P m) (hf : ∀ b, Method.Only P (f b)) : Method.Only P (m >>= f) := by
  intro mem
  rw [Method.call_bind]
  apply (hm mem).bind
  rintro ⟨e | b, mem'⟩
  · trivial
  · exact hf b mem'

theorem Method.Only.orElse {handler : ε → Method Op Ans ε μ α} (hm : Method.Only P m)
    (hhandler : ∀ e, Method.Only P (handler e)) : Method.Only P (m.orElse handler) := by
  intro mem
  rw [Method.call_orElse]
  apply (hm mem).bind
  rintro ⟨e | a, mem'⟩
  · exact hhandler e mem'
  · trivial

theorem Method.Only.forM {ι : Type} {f : ι → Method Op Ans ε μ PUnit} {xs : List ι}
    (hf : ∀ x ∈ xs, Method.Only P (f x)) : Method.Only P (xs.forM f) := by
  induction xs with
  | nil => exact Method.only_pure _
  | cons x xs ih =>
      apply (hf x List.mem_cons_self).bind
      exact fun _ => ih fun y hy => hf y (List.mem_cons_of_mem x hy)

theorem Method.Only.foldlM {ι : Type} {f : β → ι → Method Op Ans ε μ β}
    (hf : ∀ b x, Method.Only P (f b x)) (xs : List ι) (b : β) : Method.Only P (xs.foldlM f b) := by
  induction xs generalizing b with
  | nil => exact Method.only_pure b
  | cons x xs ih => exact (hf b x).bind ih

/-- What every operation of the kind keeps, such a method keeps, failing or not, and it
calls what is admitted there. -/
theorem Method.Only.admits {R : Answers Op Ans σ} {I : σ → Prop} {G : σ → Op → Prop}
    (hstep : ∀ s o ans s', P o → R s o ans s' → I s → I s') (hG : ∀ s o, I s → P o → G s o)
    (hm : Method.Only P m) {mem : μ} {s : σ} (hs : I s) :
    Meets R G (fun _ _ s' => I s') (fun _ _ s' => I s') m mem s := by
  refine Holds.imp ((hm mem).admits hstep hG hs) fun out s' hout => ?_
  rcases out with ⟨e | a, mem'⟩
  · exact hout
  · exact hout

theorem Method.Only.meets {R : Answers Op Ans σ} {I : σ → Prop}
    (hstep : ∀ s o ans s', P o → R s o ans s' → I s → I s') (hm : Method.Only P m) {mem : μ} {s : σ}
    (hs : I s) : Meets R (fun _ _ => True) (fun _ _ s' => I s') (fun _ _ s' => I s') m mem s :=
  hm.admits hstep (fun _ _ _ _ => trivial) hs

end Only

end Tactile.Lib.Script

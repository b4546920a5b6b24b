import Tactile.Lib.Script

/-!
Programs whose operations are carried out by programs over a lower interface, and the rule that
takes what holds of every run from the upper interface to the lower one.
-/

namespace Tactile.Lib.Layers

open Tactile.Lib.Program Tactile.Lib.Script

variable {Op Op' : Type} {Ans : Op → Type} {Ans' : Op' → Type} {ε μ α β σ τ : Type}

/-- What each operation of the upper interface is carried out by. -/
abbrev Handler (Op : Type) (Ans : Op → Type) (Op' : Type) (Ans' : Op' → Type) : Type :=
  (o : Op) → Prog Op' Ans' (Ans o)

/-- The program with each of its operations carried out by the handler. -/
def interp (h : Handler Op Ans Op' Ans') : Prog Op Ans α → Prog Op' Ans' α
  | .ret a => .ret a
  | .call o next => h o >>= fun ans => interp h (next ans)

variable {h : Handler Op Ans Op' Ans'}

theorem interp_ret (a : α) : interp h (.ret a : Prog Op Ans α) = .ret a := rfl

theorem interp_call (o : Op) (next : Ans o → Prog Op Ans α) :
    interp h (.call o next) = h o >>= fun ans => interp h (next ans) := rfl

theorem interp_bind (p : Prog Op Ans α) (f : α → Prog Op Ans β) :
    interp h (p >>= f) = interp h p >>= fun a => interp h (f a) := by
  induction p with
  | ret a => rfl
  | call o next ih =>
      rw [Prog.call_bind, interp_call, interp_call, Prog.bind_assoc]
      exact bind_congr ih

/-- The method with each of its operations carried out by the handler. -/
def Method.interp (h : Handler Op Ans Op' Ans') (m : Method Op Ans ε μ α) : Method Op' Ans' ε μ α :=
  ExceptT.mk (StateT.mk fun mem => Layers.interp h (m.call mem))

theorem Method.call_interp (m : Method Op Ans ε μ α) (mem : μ) :
    (Method.interp h m).call mem = Layers.interp h (m.call mem) := rfl

/-- Each operation that is admitted is carried out as the upper world may answer it: the states of
the two worlds stay related. -/
def Carries (h : Handler Op Ans Op' Ans') (R : Answers Op Ans σ) (R' : Answers Op' Ans' τ)
    (G : σ → Op → Prop) (G' : τ → Op' → Prop) (Rel : τ → σ → Prop) : Prop :=
  ∀ t s o, Rel t s → G s o →
    Holds R' G' (fun ans t' => ∃ s', R s o ans s' ∧ Rel t' s') (h o) t

section Rules

variable {R : Answers Op Ans σ} {R' : Answers Op' Ans' τ} {G : σ → Op → Prop} {G' : τ → Op' → Prop}
variable {Rel : τ → σ → Prop}

/-- Rule of refinement: what holds of every run of a program holds, of a related state, of every run of
what carries it out. -/
theorem Carries.holds (hh : Carries h R R' G G' Rel) {Q : α → σ → Prop} {p : Prog Op Ans α} {s : σ}
    {t : τ} (hp : Holds R G Q p s) (hrel : Rel t s) :
    Holds R' G' (fun a t' => ∃ s', Q a s' ∧ Rel t' s') (interp h p) t := by
  induction p generalizing s t with
  | ret a => exact ⟨s, hp, hrel⟩
  | call o next ih =>
      rw [interp_call, holds_bind]
      refine (hh t s o hrel hp.1).imp fun ans t' hout => ?_
      obtain ⟨s', hans, hrel'⟩ := hout
      exact ih ans (hp.2 ans s' hans) hrel'

/-- A run of what carries out a program is a run of the program. -/
theorem Carries.exec (hh : Carries h R R' G G' Rel) {Q : α → σ → Prop} {p : Prog Op Ans α} {s : σ}
    {t t' : τ} {a : α} (hp : Holds R G Q p s) (hrel : Rel t s) (hexec : Exec R' t (interp h p) a t') :
    ∃ s', Exec R s p a s' ∧ Q a s' ∧ Rel t' s' := by
  obtain ⟨s', ⟨hrun, hQ⟩, hrel'⟩ := (hh.holds ((holds_exec p s).and hp |>.mono
    (fun _ _ hg => hg.2) fun _ _ hq => hq) hrel).exec hexec
  exact ⟨s', hrun, hQ, hrel'⟩

/-- The rule of refinement for methods. -/
theorem Carries.meets (hh : Carries h R R' G G' Rel) {Q : α → μ → σ → Prop} {E : ε → μ → σ → Prop}
    {m : Method Op Ans ε μ α} {mem : μ} {s : σ} {t : τ} (hm : Meets R G Q E m mem s) (hrel : Rel t s) :
    Meets R' G' (fun a mem' t' => ∃ s', Q a mem' s' ∧ Rel t' s')
      (fun e mem' t' => ∃ s', E e mem' s' ∧ Rel t' s') (Method.interp h m) mem t := by
  refine (hh.holds hm hrel).imp fun out t' hout => ?_
  obtain ⟨s', hend, hrel'⟩ := hout
  rcases out with ⟨e | a, mem'⟩
  · exact ⟨s', hend, hrel'⟩
  · exact ⟨s', hend, hrel'⟩

end Rules

end Tactile.Lib.Layers

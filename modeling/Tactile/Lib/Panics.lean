import Mathlib.Logic.Basic
import Mathlib.Tactic.Common

/-!
Computations that panic at an index or a slice out of bounds, and the rules that say
exactly when they return.
-/

namespace Tactile.Lib.Panics

/-- An index or a slice out of bounds, with the length of what it is of. -/
inductive Panic
  | index (i len : ℕ)
  | slice (start stop len : ℕ)
deriving DecidableEq

abbrev Checked : Type → Type := Except Panic

variable {α β : Type}

def index (l : List α) (i : ℕ) : Checked α :=
  match l[i]? with
  | some a => .ok a
  | none => .error (.index i l.length)

def slice (l : List α) (start stop : ℕ) : Checked (List α) :=
  if start ≤ stop ∧ stop ≤ l.length then .ok ((l.drop start).take (stop - start))
  else .error (.slice start stop l.length)

/-- The computation returns the value when `safe` holds, and panics otherwise. -/
def Returns (x : Checked α) (safe : Prop) (a : α) : Prop :=
  (safe → x = .ok a) ∧ (¬ safe → ∃ e, x = .error e)

theorem Returns.isOk {x : Checked α} {safe : Prop} {a : α} (h : Returns x safe a) :
    (∃ b, x = .ok b) ↔ safe := by
  constructor
  · rintro ⟨b, hb⟩
    by_contra hunsafe
    obtain ⟨e, he⟩ := h.2 hunsafe
    rw [hb] at he
    cases he
  · exact fun hsafe => ⟨a, h.1 hsafe⟩

theorem Returns.iff {x : Checked α} {safe safe' : Prop} {a : α} (h : Returns x safe a)
    (hiff : safe ↔ safe') : Returns x safe' a :=
  ⟨fun hsafe => h.1 (hiff.mpr hsafe), fun hunsafe => h.2 fun hsafe => hunsafe (hiff.mp hsafe)⟩

theorem returns_pure (a : α) : Returns (pure a) True a :=
  ⟨fun _ => rfl, fun h => absurd trivial h⟩

/-- A sequence returns when its first part does and then its second. -/
theorem Returns.bind {x : Checked α} {f : α → Checked β} {safe safe' : Prop} {a : α} {b : β}
    (h : Returns x safe a) (hf : safe → Returns (f a) safe' b) :
    Returns (x >>= f) (safe ∧ safe') b := by
  constructor
  · rintro ⟨hsafe, hsafe'⟩
    rw [h.1 hsafe]
    exact (hf hsafe).1 hsafe'
  · intro hunsafe
    rcases Classical.em safe with hsafe | hpanics
    · rw [h.1 hsafe]
      exact (hf hsafe).2 fun hsafe' => hunsafe ⟨hsafe, hsafe'⟩
    · obtain ⟨e, he⟩ := h.2 hpanics
      rw [he]
      exact ⟨e, rfl⟩

theorem Returns.bind_of {x : Checked α} {f : α → Checked β} {safe safe' both : Prop} {a : α}
    {b : β} (h : Returns x safe a) (hf : Returns (f a) safe' b) (hiff : safe ∧ safe' ↔ both) :
    Returns (x >>= f) both b :=
  (h.bind fun _ => hf).iff hiff

/-- A first part that always returns. -/
theorem Returns.bind_safe {x : Checked α} {f : α → Checked β} {safe safe' : Prop} {a : α} {b : β}
    (h : Returns x safe a) (hsafe : safe) (hf : Returns (f a) safe' b) :
    Returns (x >>= f) safe' b :=
  (h.bind fun _ => hf).iff (and_iff_right hsafe)

/-- A second part that returns whatever comes. -/
theorem Returns.bind_ok {x : Checked α} {f : α → Checked β} {safe : Prop} {a : α} {b : β}
    (h : Returns x safe a) (hf : f a = .ok b) : Returns (x >>= f) safe b := by
  refine (h.bind fun _ => ?_).iff (iff_of_eq (and_true safe))
  rw [hf]
  exact returns_pure b

theorem Returns.map {x : Checked α} {safe : Prop} {a : α} (h : Returns x safe a) (f : α → β) :
    Returns (x >>= fun a => pure (f a)) safe (f a) :=
  h.bind_ok rfl

theorem returns_index {l : List α} {i : ℕ} {a : α} (h : i < l.length → l[i]? = some a) :
    Returns (index l i) (i < l.length) a := by
  constructor
  · intro hi
    rw [index, h hi]
  · intro hi
    rw [index, List.getElem?_eq_none (Nat.le_of_not_lt hi)]
    exact ⟨_, rfl⟩

theorem returns_slice (l : List α) (start stop : ℕ) :
    Returns (slice l start stop) (start ≤ stop ∧ stop ≤ l.length)
      ((l.drop start).take (stop - start)) := by
  constructor
  · intro h
    rw [slice, if_pos h]
  · intro h
    rw [slice, if_neg h]
    exact ⟨_, rfl⟩

end Tactile.Lib.Panics

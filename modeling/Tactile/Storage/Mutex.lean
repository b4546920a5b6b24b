import Mathlib.Data.List.Sort
import Mathlib.Logic.Relation
import Tactile.Lib.FiniteMap
import Tactile.Lib.Transition

/-!
The lock of the storage backends: each call chains on the tails registered for
its keys, and registers its own tail for them before anything else runs.
-/

namespace Tactile.Storage.Mutex

open Tactile.Lib.FiniteMap Tactile.Lib.Transition

/-- Where a call is. Its operation has settled from `settled` on, its tail from
`tailSettled` on; it is `released` once its tail's callback has run. -/
inductive Phase
  | waiting
  | running
  | settled (ok : Bool)
  | tailSettled
  | released
  deriving DecidableEq

def Phase.operationSettled : Phase → Bool
  | .settled _ | .tailSettled | .released => true
  | _ => false

def Phase.tailDone : Phase → Bool
  | .tailSettled | .released => true
  | _ => false

/-- A call of `runExclusive`: its sorted keys and the tails it waits for. -/
structure Call where
  keys : List String
  prior : List ℕ
  phase : Phase
  deriving DecidableEq

/-- The calls made so far, and for each key the call whose tail is registered. -/
structure KeyedMutex where
  chains : Dict String ℕ
  calls : List Call

namespace KeyedMutex

def empty : KeyedMutex := ⟨∅, []⟩

/-- The part of `runExclusive` that runs before it returns. -/
def runExclusive (m : KeyedMutex) (keys : List String) : KeyedMutex :=
  let sorted := keys.insertionSort (· ≤ ·)
  let prior := sorted.filterMap m.chains.lookup
  let tail := m.calls.length
  { chains := sorted.foldl (fun chains key => chains.insert key tail) m.chains
    calls := m.calls ++ [{ keys := sorted, prior := prior, phase := .waiting }] }

def phase (m : KeyedMutex) (n : ℕ) : Option Phase := m.calls[n]?.map Call.phase

def tailDone (m : KeyedMutex) (n : ℕ) : Bool := (m.phase n).any Phase.tailDone

def setPhase (m : KeyedMutex) (n : ℕ) (p : Phase) : KeyedMutex :=
  { m with calls := m.calls.modify n fun c => { c with phase := p } }

/-- The callback of a tail: it takes out the keys that nobody queued for. -/
def release (m : KeyedMutex) (n : ℕ) (keys : List String) : KeyedMutex :=
  { m with
    chains := keys.foldl
      (fun chains key => if chains.lookup key = some n then chains.erase key else chains)
      m.chains }

end KeyedMutex

/-- A call is made, its operation starts, its operation settles, its tail
settles, and its tail's callback runs. -/
inductive Event
  | call (keys : List String)
  | start (n : ℕ)
  | settle (n : ℕ) (ok : Bool)
  | tail (n : ℕ)
  | release (n : ℕ)
  deriving DecidableEq

/-- The events that the promises bring about without any operation settling. -/
def Event.microtask : Event → Bool
  | .start _ | .tail _ | .release _ => true
  | _ => false

/-- The mutex after an event, where the event is possible. -/
def KeyedMutex.after (m : KeyedMutex) : Event → Option KeyedMutex
  | .call keys => some (m.runExclusive keys)
  | .start n =>
    match m.calls[n]? with
    | some c =>
      if c.phase = .waiting ∧ c.prior.all m.tailDone then some (m.setPhase n .running) else none
    | none => none
  | .settle n ok =>
    match m.calls[n]? with
    | some c => if c.phase = .running then some (m.setPhase n (.settled ok)) else none
    | none => none
  | .tail n =>
    match m.calls[n]? with
    | some c =>
      if c.phase.operationSettled ∧ ¬ c.phase.tailDone then some (m.setPhase n .tailSettled)
      else none
    | none => none
  | .release n =>
    match m.calls[n]? with
    | some c =>
      if c.phase = .tailSettled then some ((m.release n c.keys).setPhase n .released) else none
    | none => none

def Step (m : KeyedMutex) (e : Event) (m' : KeyedMutex) : Prop := m.after e = some m'

namespace KeyedMutex

/-- The call has the key. -/
def Uses (m : KeyedMutex) (n : ℕ) (key : String) : Prop := ∃ c, m.calls[n]? = some c ∧ key ∈ c.keys

def Shares (m : KeyedMutex) (i j : ℕ) : Prop := ∃ key, m.Uses i key ∧ m.Uses j key

/-- The call chains on the tail of another one. -/
def Waits (m : KeyedMutex) (i j : ℕ) : Prop := ∃ c, m.calls[i]? = some c ∧ j ∈ c.prior

def Settled (m : KeyedMutex) (n : ℕ) : Prop := (m.phase n).any Phase.operationSettled

/-- No microtask is left to run. -/
def Quiet (m : KeyedMutex) : Prop := ∀ e : Event, e.microtask → m.after e = none

section Lookups

theorem lookup_register (keys : List String) (n : ℕ) (chains : Dict String ℕ) (key : String) :
    (keys.foldl (fun chains key => chains.insert key n) chains).lookup key =
      if key ∈ keys then some n else chains.lookup key := by
  induction keys generalizing chains with
  | nil => simp
  | cons k keys ih =>
      rw [List.foldl_cons, ih, lookup_insert_eq]
      grind

theorem lookup_release (m : KeyedMutex) (n : ℕ) (keys : List String) (key : String) :
    (m.release n keys).chains.lookup key =
      if key ∈ keys ∧ m.chains.lookup key = some n then none else m.chains.lookup key := by
  rw [release]
  dsimp only
  generalize m.chains = chains
  induction keys generalizing chains with
  | nil => simp
  | cons k keys ih =>
      rw [List.foldl_cons, ih]
      split
      next hk =>
        rw [lookup_erase_eq]
        grind
      next => grind

variable (m : KeyedMutex)

theorem calls_setPhase (n i : ℕ) (p : Phase) :
    (m.setPhase n p).calls[i]? =
      m.calls[i]?.map fun c => if n = i then { c with phase := p } else c := by
  rw [setPhase, List.getElem?_modify]
  rfl

@[simp] theorem phase_setPhase (n i : ℕ) (p : Phase) :
    (m.setPhase n p).phase i = if n = i then (m.phase i).map fun _ => p else m.phase i := by
  rw [phase, phase, calls_setPhase, Option.map_map]
  split
  next => rw [Option.map_map]; rfl
  next => rfl

@[simp] theorem uses_setPhase (n i : ℕ) (p : Phase) (key : String) :
    (m.setPhase n p).Uses i key ↔ m.Uses i key := by
  simp only [Uses, calls_setPhase, Option.map_eq_some_iff]
  constructor
  · rintro ⟨_, ⟨c, hc, rfl⟩, hkey⟩
    refine ⟨c, hc, ?_⟩
    split at hkey <;> exact hkey
  · rintro ⟨c, hc, hkey⟩
    refine ⟨_, ⟨c, hc, rfl⟩, ?_⟩
    split <;> exact hkey

@[simp] theorem waits_setPhase (n i j : ℕ) (p : Phase) :
    (m.setPhase n p).Waits i j ↔ m.Waits i j := by
  simp only [Waits, calls_setPhase, Option.map_eq_some_iff]
  constructor
  · rintro ⟨_, ⟨c, hc, rfl⟩, hj⟩
    refine ⟨c, hc, ?_⟩
    split at hj <;> exact hj
  · rintro ⟨c, hc, hj⟩
    refine ⟨_, ⟨c, hc, rfl⟩, ?_⟩
    split <;> exact hj

@[simp] theorem phase_release (n i : ℕ) (keys : List String) :
    (m.release n keys).phase i = m.phase i := rfl

@[simp] theorem uses_release (n i : ℕ) (keys : List String) (key : String) :
    (m.release n keys).Uses i key ↔ m.Uses i key := Iff.rfl

@[simp] theorem waits_release (n i j : ℕ) (keys : List String) :
    (m.release n keys).Waits i j ↔ m.Waits i j := Iff.rfl

theorem calls_runExclusive (keys : List String) (i : ℕ) :
    (m.runExclusive keys).calls[i]? =
      if i = m.calls.length then
        some { keys := keys.insertionSort (· ≤ ·)
               prior := (keys.insertionSort (· ≤ ·)).filterMap m.chains.lookup
               phase := .waiting }
      else m.calls[i]? := by
  rw [runExclusive]
  dsimp only
  rcases Nat.lt_trichotomy i m.calls.length with hi | rfl | hi
  · rw [List.getElem?_append_left hi, if_neg hi.ne]
  · simp
  · rw [if_neg hi.ne', List.getElem?_eq_none (by simp; omega), List.getElem?_eq_none hi.le]

@[simp] theorem phase_runExclusive (keys : List String) (i : ℕ) :
    (m.runExclusive keys).phase i =
      if i = m.calls.length then some .waiting else m.phase i := by
  rw [phase, calls_runExclusive]
  split <;> rfl

theorem lt_of_uses {m : KeyedMutex} {i : ℕ} {key : String} (h : m.Uses i key) :
    i < m.calls.length := by
  obtain ⟨c, hc, -⟩ := h
  exact (List.getElem?_eq_some_iff.mp hc).1

theorem uses_runExclusive (keys : List String) (i : ℕ) (key : String) :
    (m.runExclusive keys).Uses i key ↔
      m.Uses i key ∨ i = m.calls.length ∧ key ∈ keys := by
  rw [Uses, calls_runExclusive]
  split
  next hi =>
    constructor
    · rintro ⟨c, hc, hkey⟩
      cases hc
      exact .inr ⟨hi, (List.mem_insertionSort _).mp hkey⟩
    · rintro (h | ⟨-, hkey⟩)
      · exact absurd hi (lt_of_uses h).ne
      · exact ⟨_, rfl, (List.mem_insertionSort _).mpr hkey⟩
  next hi =>
    constructor
    · exact fun h => .inl h
    · rintro (h | ⟨h, -⟩)
      · exact h
      · exact absurd h hi

theorem waits_runExclusive (keys : List String) (i j : ℕ) :
    (m.runExclusive keys).Waits i j ↔
      if i = m.calls.length then ∃ key ∈ keys, m.chains.lookup key = some j else m.Waits i j := by
  rw [Waits, calls_runExclusive]
  split
  next hi =>
    simp only [Option.some.injEq, exists_eq_left', List.mem_filterMap, List.mem_insertionSort]
  next hi => exact Iff.rfl

theorem lookup_runExclusive (keys : List String) (key : String) :
    (m.runExclusive keys).chains.lookup key =
      if key ∈ keys then some m.calls.length else m.chains.lookup key := by
  rw [runExclusive]
  dsimp only
  rw [lookup_register]
  simp only [List.mem_insertionSort]

end Lookups

/-- An earlier call on a key is done or waited for, at least through a later
one, and a call starts when the tails it waits for are done. -/
structure Ordered (m : KeyedMutex) : Prop where
  waited : ∀ key i j, m.Uses i key → m.Uses j key → j < i →
    m.tailDone j ∨ ∃ j', m.Waits i j' ∧ j ≤ j' ∧ m.Uses j' key
  earlier : ∀ i j, m.Waits i j → j < i ∧ m.Shares i j
  started : ∀ i j, m.phase i ≠ some .waiting → m.Waits i j → m.tailDone j

/-- The tail registered for a key is the latest one, and is there as long as a
call on the key is not done. -/
structure Chained (m : KeyedMutex) : Prop extends Ordered m where
  registered : ∀ key t, m.chains.lookup key = some t →
    m.Uses t key ∧ m.phase t ≠ some .released ∧ ∀ j, m.Uses j key → j ≤ t
  held : ∀ key t, m.Uses t key → ¬ m.tailDone t → ∃ t', m.chains.lookup key = some t' ∧ t ≤ t'

theorem not_uses_empty {n : ℕ} {key : String} : ¬ KeyedMutex.empty.Uses n key := by
  rintro ⟨c, hc, -⟩
  simp [KeyedMutex.empty] at hc

theorem not_waits_empty {i j : ℕ} : ¬ KeyedMutex.empty.Waits i j := by
  rintro ⟨c, hc, -⟩
  simp [KeyedMutex.empty] at hc

theorem Chained.empty : Chained KeyedMutex.empty where
  waited := fun _ _ _ hi => absurd hi not_uses_empty
  earlier := fun _ _ hwaits => absurd hwaits not_waits_empty
  started := fun _ _ _ hwaits => absurd hwaits not_waits_empty
  registered := fun _ _ h => by simp [KeyedMutex.empty] at h
  held := fun _ _ ht => absurd ht not_uses_empty

variable {m : KeyedMutex}

theorem phase_length : m.phase m.calls.length = none := by
  rw [phase, List.getElem?_eq_none (le_refl _)]
  rfl

theorem tailDone_runExclusive (keys : List String) {n : ℕ} (h : m.tailDone n) :
    (m.runExclusive keys).tailDone n := by
  have hne : n ≠ m.calls.length := by
    rintro rfl
    simp [tailDone, phase_length] at h
  rw [tailDone, phase_runExclusive, if_neg hne]
  exact h

/-- A call finds for each of its keys the latest tail that is not done. -/
theorem Chained.runExclusive (h : Chained m) (keys : List String) :
    Chained (m.runExclusive keys) where
  registered := fun key t ht => by
    rw [lookup_runExclusive] at ht
    split at ht
    next hkey =>
      cases ht
      refine ⟨(uses_runExclusive ..).mpr (.inr ⟨rfl, hkey⟩), by simp, fun j hj => ?_⟩
      rcases (uses_runExclusive ..).mp hj with hj | ⟨hj, -⟩
      · exact (lt_of_uses hj).le
      · exact hj.le
    next hkey =>
      obtain ⟨huses, hphase, hlast⟩ := h.registered key t ht
      refine ⟨(uses_runExclusive ..).mpr (.inl huses), ?_, fun j hj => ?_⟩
      · rw [phase_runExclusive, if_neg (lt_of_uses huses).ne]
        exact hphase
      · rcases (uses_runExclusive ..).mp hj with hj | ⟨-, hj⟩
        · exact hlast j hj
        · exact absurd hj hkey
  held := fun key t ht hdone => by
    rw [lookup_runExclusive]
    have hle : t ≤ m.calls.length := by
      rcases (uses_runExclusive ..).mp ht with ht | ⟨ht, -⟩
      · exact (lt_of_uses ht).le
      · exact ht.le
    split
    next => exact ⟨_, rfl, hle⟩
    next hkey =>
      rcases (uses_runExclusive ..).mp ht with ht | ⟨-, ht⟩
      · exact h.held key t ht fun hold => hdone (tailDone_runExclusive keys hold)
      · exact absurd ht hkey
  waited := fun key i j hi hj hlt => by
    have hj' : m.Uses j key := by
      rcases (uses_runExclusive ..).mp hj with hj | ⟨rfl, -⟩
      · exact hj
      · rcases (uses_runExclusive ..).mp hi with hi | ⟨rfl, -⟩
        · exact absurd (lt_of_uses hi) hlt.asymm
        · exact absurd hlt (lt_irrefl _)
    rcases (uses_runExclusive ..).mp hi with hi | ⟨rfl, hkey⟩
    · rcases h.waited key i j hi hj' hlt with hdone | ⟨j', hwaits, hle, huses⟩
      · exact .inl (tailDone_runExclusive keys hdone)
      · refine .inr ⟨j', ?_, hle, (uses_runExclusive ..).mpr (.inl huses)⟩
        rw [waits_runExclusive, if_neg (lt_of_uses hi).ne]
        exact hwaits
    · by_cases hdone : m.tailDone j
      · exact .inl (tailDone_runExclusive keys hdone)
      · obtain ⟨t, ht, hle⟩ := h.held key j hj' hdone
        refine .inr ⟨t, ?_, hle, (uses_runExclusive ..).mpr (.inl (h.registered key t ht).1)⟩
        rw [waits_runExclusive, if_pos rfl]
        exact ⟨key, hkey, ht⟩
  earlier := fun i j hwaits => by
    rw [waits_runExclusive] at hwaits
    split at hwaits
    next hi =>
      obtain ⟨key, hkey, ht⟩ := hwaits
      have huses := (h.registered key j ht).1
      refine ⟨hi ▸ lt_of_uses huses, key, ?_, ?_⟩
      · exact (uses_runExclusive ..).mpr (.inr ⟨hi, hkey⟩)
      · exact (uses_runExclusive ..).mpr (.inl huses)
    next =>
      obtain ⟨hlt, key, hi, hj⟩ := h.earlier i j hwaits
      refine ⟨hlt, key, ?_, ?_⟩
      · exact (uses_runExclusive ..).mpr (.inl hi)
      · exact (uses_runExclusive ..).mpr (.inl hj)
  started := fun i j hphase hwaits => by
    rw [phase_runExclusive] at hphase
    rw [waits_runExclusive] at hwaits
    split at hwaits
    next hi =>
      rw [if_pos hi] at hphase
      exact absurd rfl hphase
    next hi =>
      rw [if_neg hi] at hphase
      exact tailDone_runExclusive keys (h.started i j hphase hwaits)

/-- A call's phase goes on: it does not undo its tail, it leaves the waiting
phase only when the tails it waits for are done. -/
structure Advances (m : KeyedMutex) (n : ℕ) (p : Phase) : Prop where
  kept : m.tailDone n → p.tailDone
  ready : m.phase n = some .waiting → ∀ j, m.Waits n j → m.tailDone j

theorem Advances.tailDone {n : ℕ} {p : Phase} (hp : Advances m n p) {j : ℕ} (h : m.tailDone j) :
    (m.setPhase n p).tailDone j := by
  rw [KeyedMutex.tailDone, phase_setPhase]
  split
  next hnj =>
    subst hnj
    have hdone := hp.kept h
    rw [KeyedMutex.tailDone] at h
    cases hn : m.phase n with
    | none =>
        rw [hn] at h
        cases h
    | some q => exact hdone
  next => exact h

theorem phase_setPhase_ne {n i : ℕ} {p q : Phase} (h : m.phase i ≠ some q) (hp : p ≠ q) :
    (m.setPhase n p).phase i ≠ some q := by
  rw [phase_setPhase]
  split
  next =>
    intro heq
    obtain ⟨_, -, hpq⟩ := Option.map_eq_some_iff.mp heq
    exact hp hpq
  next => exact h

theorem Ordered.setPhase (h : Ordered m) {n : ℕ} {p : Phase} (hp : Advances m n p) :
    Ordered (m.setPhase n p) where
  waited := fun key i j hi hj hlt => by
    rw [uses_setPhase] at hi hj
    rcases h.waited key i j hi hj hlt with hdone | ⟨j', hwaits, hle, huses⟩
    · exact .inl (hp.tailDone hdone)
    · exact .inr ⟨j', (waits_setPhase ..).mpr hwaits, hle, (uses_setPhase ..).mpr huses⟩
  earlier := fun i j hwaits => by
    obtain ⟨hlt, key, hi, hj⟩ := h.earlier i j ((waits_setPhase ..).mp hwaits)
    exact ⟨hlt, key, (uses_setPhase ..).mpr hi, (uses_setPhase ..).mpr hj⟩
  started := fun i j hphase hwaits => by
    rw [waits_setPhase] at hwaits
    by_cases hwaiting : m.phase i = some .waiting
    · by_cases hn : n = i
      · subst hn
        exact hp.tailDone (hp.ready hwaiting j hwaits)
      · rw [phase_setPhase, if_neg hn] at hphase
        exact absurd hwaiting hphase
    · exact hp.tailDone (h.started i j hwaiting hwaits)

/-- A change of phase short of the release keeps the tails. -/
theorem Chained.setPhase (h : Chained m) {n : ℕ} {p : Phase} (hp : Advances m n p)
    (hne : p ≠ .released) : Chained (m.setPhase n p) where
  toOrdered := h.toOrdered.setPhase hp
  registered := fun key t ht => by
    obtain ⟨huses, hphase, hlast⟩ := h.registered key t ht
    refine ⟨(uses_setPhase ..).mpr huses, phase_setPhase_ne hphase hne, fun j hj => ?_⟩
    exact hlast j ((uses_setPhase ..).mp hj)
  held := fun key t ht hdone =>
    h.held key t ((uses_setPhase ..).mp ht) fun hold => hdone (hp.tailDone hold)

/-- When a call has started, the earlier calls on its keys are done. -/
theorem Ordered.done (h : Ordered m) {i : ℕ} (hstarted : m.phase i ≠ some .waiting) :
    ∀ {j : ℕ} {key : String}, m.Uses i key → m.Uses j key → j < i → m.tailDone j := by
  induction i using Nat.strong_induction_on with
  | _ i ih =>
      intro j key hi hj hlt
      rcases h.waited key i j hi hj hlt with hdone | ⟨j', hwaits, hle, huses⟩
      · exact hdone
      have hdone' : m.tailDone j' := h.started i j' hstarted hwaits
      rcases hle.eq_or_lt with rfl | hlt'
      · exact hdone'
      · refine ih j' (h.earlier i j' hwaits).1 (fun hwaiting => ?_) huses hj hlt'
        rw [tailDone, hwaiting] at hdone'
        cases hdone'

/-- The callback of a tail takes out no tail that is still to come. -/
theorem Chained.release (h : Chained m) {n : ℕ} {c : Call} (hc : m.calls[n]? = some c)
    (hphase : c.phase = .tailSettled) :
    Chained ((m.release n c.keys).setPhase n .released) := by
  have hn : m.phase n = some .tailSettled := by
    rw [phase, hc, Option.map_some, hphase]
  have hadvances : Advances (m.release n c.keys) n .released :=
    ⟨fun _ => rfl, fun hwaiting => by
      rw [phase_release, hn] at hwaiting
      cases hwaiting⟩
  have hordered : Ordered (m.release n c.keys) := ⟨h.waited, h.earlier, h.started⟩
  refine ⟨hordered.setPhase hadvances, fun key t ht => ?_, fun key t ht hdone => ?_⟩
  · change (m.release n c.keys).chains.lookup key = some t at ht
    rw [lookup_release] at ht
    split at ht
    next => cases ht
    next hkept =>
      obtain ⟨huses, hreleased, hlast⟩ := h.registered key t ht
      have hne : n ≠ t := by
        rintro rfl
        obtain ⟨c', hc', hkey⟩ := huses
        rw [hc] at hc'
        cases hc'
        exact hkept ⟨hkey, ht⟩
      refine ⟨(uses_setPhase ..).mpr huses, ?_, fun j hj => hlast j ((uses_setPhase ..).mp hj)⟩
      rw [phase_setPhase, if_neg hne]
      exact hreleased
  · rw [uses_setPhase] at ht
    have hold : ¬ m.tailDone t := fun hold => hdone (hadvances.tailDone hold)
    obtain ⟨t', ht', hle⟩ := h.held key t ht hold
    refine ⟨t', ?_, hle⟩
    change (m.release n c.keys).chains.lookup key = some t'
    rw [lookup_release, if_neg]
    · exact ht'
    rintro ⟨-, heq⟩
    -- the call `t` on the key of a started call `n` would be done
    rw [ht'] at heq
    cases heq
    rcases hle.eq_or_lt with rfl | hlt
    · exact hold (by rw [tailDone, hn]; rfl)
    · refine hold (h.done ?_ (h.registered key _ ht').1 ht hlt)
      rw [hn]
      nofun

end KeyedMutex

end Tactile.Storage.Mutex

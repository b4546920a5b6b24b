import Tactile.Relay.FsMethods
import Tactile.Sync.SyncNow

/-!
The relay as the devices of an identity see it: which blobs it holds and until when, and what
requests and time change of them.
-/

namespace Tactile.Sync.RelayView

open Tactile.Lib.Program Tactile.Lib.FiniteMap
open Tactile.Storage.Paths Tactile.Storage.Backend
open Tactile.Sync.Records Tactile.Sync.SyncNow

/-- A blob that was stored and not removed: the relay holds it, or has dropped it when it had
expired. -/
inductive Blob (P : Type)
  | held (payload : P) (expiresAt : ℤ)
  | lapsed (expiresAt : ℤ)

structure RelayState (D P : Type) where
  time : ℤ
  blobs : D → Option (Blob P)

variable {D P : Type}

def RelayState.empty (D P : Type) : RelayState D P := ⟨0, fun _ => none⟩

def RelayState.set [DecidableEq D] (c : RelayState D P) (id : D) (b : Option (Blob P)) : RelayState D P :=
  { c with blobs := Function.update c.blobs id b }

section Answers

variable [DecidableEq D] (size : Option ℤ) (clamp : ℤ → ℤ)

/-- What a request does. A blob that is held, expired or not, is not stored again; `clamp` is the
retention that is granted. -/
def respond : (o : RelayOp D P) → RelayState D P → RelayAns D P o × RelayState D P
  | .info, c => (.ok size, c)
  | .get id, c =>
    match c.blobs id with
    | some (.held payload expiresAt) =>
      if expiresAt ≤ c.time then (.ok none, c.set id (some (.lapsed expiresAt)))
      else (.ok (some payload), c)
    | _ => (.ok none, c)
  | .put id payload ttl, c =>
    match c.blobs id with
    | some (.held ..) => (.ok false, c)
    | _ => (.ok true, c.set id (some (.held payload (c.time + clamp ttl))))
  | .remove id, c => (.ok (), c.set id none)

/-- Time passes, and the relay drops what has expired. -/
structure Idle (c c' : RelayState D P) : Prop where
  later : c.time ≤ c'.time
  blobs : ∀ id, c'.blobs id = c.blobs id ∨ ∃ payload expiresAt,
    c.blobs id = some (.held payload expiresAt) ∧ expiresAt ≤ c'.time ∧
      c'.blobs id = some (.lapsed expiresAt)

/-- Requests may fail, before the relay has acted or after it; the storage of the device
answers anything. -/
inductive World : Answers (SyncOp D P) (SyncAns D P) (RelayState D P)
  | served {c c₁ : RelayState D P} (size : Option ℤ) (o : RelayOp D P) : Idle c c₁ →
      World c (.relay o) (respond size clamp o c₁).1 (respond size clamp o c₁).2
  | lost {c c₁ : RelayState D P} (o : RelayOp D P) (e : String) : Idle c c₁ →
      World c (.relay o) (.error e) (respond none clamp o c₁).2
  | rejected {c c₁ : RelayState D P} (o : RelayOp D P) (e : String) : Idle c c₁ →
      World c (.relay o) (.error e) c₁
  | local {c c₁ : RelayState D P} (o : StorageOp) (ans : StorageAns o) : Idle c c₁ →
      World c (.storage o) ans c₁

end Answers

section Blobs

variable {c c' c'' : RelayState D P} {id : D}

/-- A blob was stored to be held until a time, and is held unless that time has passed. -/
def Due (c : RelayState D P) (id : D) (expiresAt : ℤ) : Prop :=
  (∃ payload, c.blobs id = some (.held payload expiresAt)) ∨
    c.blobs id = some (.lapsed expiresAt) ∧ expiresAt ≤ c.time

def Live (c : RelayState D P) (id : D) : Prop :=
  ∃ payload expiresAt, c.blobs id = some (.held payload expiresAt) ∧ c.time < expiresAt

theorem Due.live {x : ℤ} (h : Due c id x) (hx : c.time < x) : Live c id := by
  rcases h with ⟨payload, hheld⟩ | ⟨-, hpast⟩
  · exact ⟨payload, x, hheld, hx⟩
  · omega

theorem Idle.refl (c : RelayState D P) : Idle c c := ⟨le_refl _, fun _ => .inl rfl⟩

theorem Idle.due {x : ℤ} (h : Idle c c') (hdue : Due c id x) : Due c' id x := by
  rcases h.blobs id with hsame | ⟨payload, y, hheld, hpast, hlapsed⟩
  · rw [Due, hsame]
    exact hdue.imp_right fun hold => ⟨hold.1, hold.2.trans h.later⟩
  · rcases hdue with ⟨payload', hheld'⟩ | ⟨hold, -⟩
    · rw [hheld] at hheld'
      cases hheld'
      exact .inr ⟨hlapsed, hpast⟩
    · rw [hheld] at hold
      cases hold

theorem Idle.held {payload : P} {x : ℤ} (h : Idle c c')
    (hheld : c'.blobs id = some (.held payload x)) : c.blobs id = some (.held payload x) := by
  rcases h.blobs id with hsame | ⟨payload', y, -, -, hlapsed⟩
  · rw [← hsame, hheld]
  · rw [hlapsed] at hheld
    cases hheld

end Blobs

section Changes

variable [DecidableEq D] {size : Option ℤ} {clamp : ℤ → ℤ} {c c' c'' : RelayState D P} {id : D}

theorem blobs_set (c : RelayState D P) (id id' : D) (b : Option (Blob P)) :
    (c.set id b).blobs id' = if id' = id then b else c.blobs id' := Function.update_apply ..

/-- The id that a request puts or removes. -/
def Writes : SyncOp D P → D → Prop
  | .relay (.put id ..), id' => id' = id
  | .relay (.remove id), id' => id' = id
  | _, _ => False

/-- All blobs but some are as they were, or have expired. -/
structure Spares (lost : D → Prop) (c c' : RelayState D P) : Prop where
  later : c.time ≤ c'.time
  due : ∀ id x, ¬ lost id → Due c id x → Due c' id x
  held : ∀ id payload x, ¬ lost id → c'.blobs id = some (.held payload x) →
    c.blobs id = some (.held payload x)

omit [DecidableEq D] in
theorem Spares.trans {lost : D → Prop} (h : Spares lost c c') (h' : Spares lost c' c'') :
    Spares lost c c'' where
  later := h.later.trans h'.later
  due id x hid hdue := h'.due id x hid (h.due id x hid hdue)
  held id payload x hid hheld := h.held id payload x hid (h'.held id payload x hid hheld)

omit [DecidableEq D] in
theorem Idle.spares (h : Idle c c') (lost : D → Prop) : Spares lost c c' :=
  ⟨h.later, fun _ _ _ => h.due, fun _ _ _ _ => h.held⟩

theorem spares_set {lost : D → Prop} (hid : lost id) (b : Option (Blob P)) :
    Spares lost c (c.set id b) := by
  have hsame : ∀ id', ¬ lost id' → (c.set id b).blobs id' = c.blobs id' := by
    intro id' hid'
    rw [blobs_set, if_neg]
    rintro rfl
    exact hid' hid
  refine ⟨le_refl _, fun id' x hid' hdue => ?_, fun id' payload x hid' hheld => ?_⟩
  · rw [Due, hsame id' hid']
    exact hdue
  · rw [← hsame id' hid', hheld]

/-- What is expired when it is asked for is dropped. -/
theorem idle_lapse {payload : P} {x : ℤ} (hheld : c.blobs id = some (.held payload x))
    (hx : x ≤ c.time) : Idle c (c.set id (some (.lapsed x))) := by
  refine ⟨le_refl _, fun id' => ?_⟩
  rw [blobs_set]
  split
  next heq => exact .inr ⟨payload, x, heq ▸ hheld, hx, rfl⟩
  next => exact .inl rfl

theorem respond_spares {lost : D → Prop} {o : RelayOp D P}
    (hwrites : ∀ id, Writes (.relay o) id → lost id) : Spares lost c (respond size clamp o c).2 := by
  cases o with
  | info => exact (Idle.refl c).spares lost
  | get id =>
      rw [respond]
      split
      next payload x hheld =>
        split
        next hx => exact (idle_lapse hheld hx).spares lost
        next => exact (Idle.refl c).spares lost
      next => exact (Idle.refl c).spares lost
  | put id payload ttl =>
      rw [respond]
      split
      next => exact (Idle.refl c).spares lost
      next => exact spares_set (hwrites id rfl) _
  | remove id => exact spares_set (hwrites id rfl) _

theorem world_spares {lost : D → Prop} {o : SyncOp D P} {ans : SyncAns D P o}
    (hworld : World clamp c o ans c') (hwrites : ∀ id, Writes o id → lost id) :
    Spares lost c c' := by
  cases hworld with
  | served size o hidle => exact (hidle.spares lost).trans (respond_spares hwrites)
  | lost o e hidle => exact (hidle.spares lost).trans (respond_spares hwrites)
  | rejected o e hidle => exact hidle.spares lost
  | «local» o ans hidle => exact hidle.spares lost

/-- A request that has been answered. -/
theorem world_answered {o : RelayOp D P} {val : RelayVal D P o}
    (hworld : World clamp c (.relay o) (.ok val) c') :
    ∃ c₁ size, Idle c c₁ ∧ respond size clamp o c₁ = (.ok val, c') := by
  generalize hans : (Except.ok val : RelayAns D P o) = ans at hworld
  cases hworld with
  | served size _ hidle => exact ⟨_, size, hidle, rfl⟩
  | lost _ e => cases hans
  | rejected _ e => cases hans

/-- After a put, stored or not, the relay holds the id. -/
theorem held_of_put {id : D} {payload : P} {ttl : ℤ} {fresh : Bool}
    (hworld : World clamp c (.relay (.put id payload ttl)) (.ok fresh) c') :
    ∃ payload x, c'.blobs id = some (.held payload x) := by
  obtain ⟨c₁, size, -, hanswer⟩ := world_answered hworld
  rw [respond] at hanswer
  split at hanswer
  next payload' x hheld =>
    cases hanswer
    exact ⟨payload', x, hheld⟩
  next =>
    cases hanswer
    exact ⟨payload, _, by rw [blobs_set, if_pos rfl]⟩

/-- Requests that put blobs of files, and requests that only ask. -/
def Uploads (C : Crypto D P) : SyncOp D P → Prop
  | .relay (.put id _ ttl) => ttl = syncBlobTtlSeconds ∧ ∃ key rel hash, id = fileBlobId C key rel hash
  | .relay (.remove _) => False
  | _ => True

/-- Blobs of files have been put that are held until a limit at least, and nothing was removed. -/
structure Since (C : Crypto D P) (limit : ℤ) (c c' : RelayState D P) : Prop where
  later : c.time ≤ c'.time
  due : ∀ id x, Due c id x → ∃ x', (x ≤ x' ∨ limit ≤ x') ∧ Due c' id x'
  held : ∀ id payload x, c'.blobs id = some (.held payload x) →
    c.blobs id = some (.held payload x) ∨ limit ≤ x
  manifest : ∀ key payload x, c'.blobs (manifestId C key) = some (.held payload x) →
    c.blobs (manifestId C key) = some (.held payload x)

section Growth

variable {C : Crypto D P} {limit : ℤ}

omit [DecidableEq D] in
theorem Since.trans (h : Since C limit c c') (h' : Since C limit c' c'') : Since C limit c c'' where
  later := h.later.trans h'.later
  due id x hdue := by
    obtain ⟨x', hx', hdue'⟩ := h.due id x hdue
    obtain ⟨x'', hx'', hdue''⟩ := h'.due id x' hdue'
    refine ⟨x'', ?_, hdue''⟩
    omega
  held id payload x hheld := (h'.held id payload x hheld).elim (h.held id payload x) .inr
  manifest key payload x hheld := h.manifest key payload x (h'.manifest key payload x hheld)

omit [DecidableEq D] in
theorem Idle.since (h : Idle c c') : Since C limit c c' where
  later := h.later
  due _ x hdue := ⟨x, .inl (le_refl x), h.due hdue⟩
  held _ _ _ hheld := .inl (h.held hheld)
  manifest _ _ _ := h.held

/-- A blob of a file is put where the relay holds none. -/
theorem since_put {id : D} {payload : P} {x : ℤ} (hfree : ∀ payload y, c.blobs id ≠ some (.held payload y))
    (hid : ∃ key rel hash, id = fileBlobId C key rel hash) (hx : limit ≤ x) :
    Since C limit c (c.set id (some (.held payload x))) where
  later := le_refl _
  due id' y hdue := by
    by_cases heq : id' = id
    · subst heq
      exact ⟨x, .inr hx, .inl ⟨payload, by rw [blobs_set, if_pos rfl]⟩⟩
    · refine ⟨y, .inl (le_refl y), ?_⟩
      rw [Due, blobs_set, if_neg heq]
      exact hdue
  held id' payload' y hheld := by
    rw [blobs_set] at hheld
    split at hheld
    next =>
      cases hheld
      exact .inr hx
    next => exact .inl hheld
  manifest key payload' y hheld := by
    rw [blobs_set, if_neg] at hheld
    · exact hheld
    · rintro rfl
      obtain ⟨key', rel, hash, hfile⟩ := hid
      exact fileBlobId_ne_manifestId C key' key rel hash hfile.symm

theorem world_since {o : SyncOp D P} {ans : SyncAns D P o} (hworld : World clamp c o ans c')
    (ho : Uploads C o) (hlimit : limit ≤ c.time + clamp syncBlobTtlSeconds) : Since C limit c c' := by
  have hrespond : ∀ (size : Option ℤ) (o : RelayOp D P) (c₁ : RelayState D P), Idle c c₁ →
      Uploads C (.relay o) → Since C limit c (respond size clamp o c₁).2 := by
    intro size o c₁ hidle ho
    refine hidle.since.trans ?_
    cases o with
    | info => exact (Idle.refl c₁).since
    | get id =>
        rw [respond]
        split
        next payload x hheld =>
          split
          next hx => exact (idle_lapse hheld hx).since
          next => exact (Idle.refl c₁).since
        next => exact (Idle.refl c₁).since
    | put id payload ttl =>
        obtain ⟨rfl, hid⟩ := ho
        rw [respond]
        split
        next => exact (Idle.refl c₁).since
        next hfree =>
          refine since_put (fun payload y hheld => hfree payload y hheld) hid ?_
          have hlater := hidle.later
          omega
    | remove id => exact ho.elim
  cases hworld with
  | served size o hidle => exact hrespond size o _ hidle ho
  | lost o e hidle => exact hrespond none o _ hidle ho
  | rejected o e hidle => exact hidle.since
  | «local» o ans hidle => exact hidle.since

end Growth

end Changes

section Store

open Tactile.Relay.Blob Tactile.Relay.Oracle
open Tactile.Relay.FsMethods (lookup_eraseAll mem_expiredKeys)

/-- What of a blob the relay has, and until when. -/
def Blob.shown : Blob P → Option (P × ℤ)
  | .held payload expiresAt => some (payload, expiresAt)
  | .lapsed _ => none

def RelayState.heldAt (c : RelayState D P) (id : D) : Option (P × ℤ) := (c.blobs id).bind Blob.shown

theorem heldAt_eq_some {c : RelayState D P} {id : D} {payload : P} {x : ℤ} :
    c.heldAt id = some (payload, x) ↔ c.blobs id = some (.held payload x) := by
  rw [RelayState.heldAt]
  rcases c.blobs id with _ | ⟨payload', y⟩ | y
  · simp
  · simp [Blob.shown]
  · simp [Blob.shown]

theorem heldAt_eq_none {c : RelayState D P} {id : D} :
    c.heldAt id = none ↔ ∀ payload x, c.blobs id ≠ some (.held payload x) := by
  simp only [Option.eq_none_iff_forall_ne_some, Prod.forall, ne_eq, heldAt_eq_some]

theorem heldAt_set [DecidableEq D] (c : RelayState D P) (id id' : D) (b : Option (Blob P)) :
    (c.set id b).heldAt id' = if id' = id then b.bind Blob.shown else c.heldAt id' := by
  rw [RelayState.heldAt, blobs_set, apply_ite (Option.bind · Blob.shown)]
  rfl

variable {idOf : PubKey → IdentityID} {owner : IdentityID} {m : Model idOf}
variable {c : RelayState BlobID Bytes} {size : Option ℤ} {clamp : ℤ → ℤ}

/-- The relay's store holds for an identity what its devices see. -/
def Shows (owner : IdentityID) (m : Model idOf) (c : RelayState BlobID Bytes) : Prop :=
  ∀ id, c.heldAt id = (m.held.lookup (owner, id)).map fun r => (r.payload, r.expiresAt.toInt)

theorem Shows.erase (h : Shows owner m c) (id : BlobID) {b : Option (Blob Bytes)}
    (hb : b.bind Blob.shown = none) : Shows owner (m.erase (owner, id)) (c.set id b) := by
  intro id'
  rw [heldAt_set, Model.erase, lookup_erase_eq, h id']
  by_cases heq : id' = id
  · rw [if_pos heq, if_pos (by rw [heq]), hb]
    rfl
  · rw [if_neg heq, if_neg (by simpa using heq)]

theorem shows_get (h : Shows owner m c) (id : BlobID) {now : Int64} (hnow : now.toInt = c.time) :
    (respond size clamp (.get id) c).1 =
        .ok ((m.get (owner, id) now).1.toOption.map fun r => r.payload) ∧
      Shows owner (m.get (owner, id) now).2 (respond size clamp (.get id) c).2 := by
  have hid := h id
  rw [respond, Model.get]
  cases hlookup : m.held.lookup (owner, id) with
  | none =>
      rw [hlookup, Option.map_none, heldAt_eq_none] at hid
      split
      next payload x hheld => exact absurd hheld (hid payload x)
      next => exact ⟨rfl, h⟩
  | some r =>
      rw [hlookup, Option.map_some, heldAt_eq_some] at hid
      rw [hid]
      dsimp only
      have hexpired : r.expiresAt ≤ now ↔ r.expiresAt.toInt ≤ c.time := by
        rw [Int64.le_iff_toInt_le, hnow]
      by_cases hpast : r.expiresAt ≤ now
      · rw [if_pos hpast, if_pos (hexpired.mp hpast)]
        exact ⟨rfl, h.erase id rfl⟩
      · rw [if_neg hpast, if_neg (mt hexpired.mpr hpast)]
        exact ⟨rfl, h⟩

/-- A put under the devices' identity, with the expiry that the relay grants. -/
theorem shows_put (h : Shows owner m c) {r : Record} {ttl : ℤ} (howner : idOf r.identity = owner)
    (hexpiry : r.expiresAt.toInt = c.time + clamp ttl) :
    (respond size clamp (.put r.id r.payload ttl) c).1 = .ok (m.put r).1.isOk ∧
      Shows owner (m.put r).2 (respond size clamp (.put r.id r.payload ttl) c).2 := by
  have hid := h r.id
  have hkey : keyOf idOf r = (owner, r.id) := by rw [keyOf, howner]
  rw [respond, Model.put, hkey]
  cases hlookup : m.held.lookup (owner, r.id) with
  | some r' =>
      rw [hlookup, Option.map_some, heldAt_eq_some] at hid
      rw [hid]
      exact ⟨rfl, h⟩
  | none =>
      rw [hlookup, Option.map_none, heldAt_eq_none] at hid
      split
      next payload x hheld => exact absurd hheld (hid payload x)
      next =>
        refine ⟨rfl, fun id' => ?_⟩
        rw [heldAt_set, h id', ← hexpiry, Option.isSome_none, if_neg Bool.false_ne_true, Model.insert]
        dsimp only
        rw [lookup_insert_eq, hkey]
        by_cases heq : id' = r.id
        · rw [if_pos heq, if_pos (by rw [heq])]
          rfl
        · rw [if_neg heq, if_neg (by simpa using heq)]

theorem shows_delete (h : Shows owner m c) (id : BlobID) :
    Shows owner (m.delete (owner, id)).2 (respond size clamp (.remove id) c).2 := by
  rw [respond, Model.delete]
  split
  next => exact h.erase id rfl
  next hnone =>
    have hlookup : m.held.lookup (owner, id) = none := by simpa using hnone
    intro id'
    rw [heldAt_set, h id']
    split
    next heq =>
      rw [heq, hlookup]
      rfl
    next => rfl

/-- All that has expired is dropped. -/
def RelayState.swept (c : RelayState D P) : RelayState D P :=
  { c with blobs := fun id => (c.blobs id).map fun b =>
      match b with
      | .held payload x => if x ≤ c.time then .lapsed x else .held payload x
      | .lapsed x => .lapsed x }

theorem idle_swept (c : RelayState D P) : Idle c c.swept := by
  refine ⟨le_refl _, fun id => ?_⟩
  rw [RelayState.swept]
  dsimp only
  cases hblob : c.blobs id with
  | none => exact .inl rfl
  | some b =>
      cases b with
      | lapsed x => exact .inl rfl
      | held payload x =>
          by_cases hx : x ≤ c.time
          · exact .inr ⟨payload, x, rfl, hx, by simp [hx]⟩
          · exact .inl (by simp [hx])

theorem heldAt_swept (c : RelayState D P) (id : D) :
    c.swept.heldAt id = (c.heldAt id).filter fun b => c.time < b.2 := by
  rw [RelayState.heldAt, RelayState.heldAt, RelayState.swept]
  dsimp only
  cases c.blobs id with
  | none => rfl
  | some b =>
      cases b with
      | lapsed x => rfl
      | held payload x =>
          by_cases hx : x ≤ c.time
          · have hnot : ¬ c.time < x := not_lt.mpr hx
            simp [Blob.shown, hx, hnot, Option.filter]
          · have hlive : c.time < x := not_le.mp hx
            simp [Blob.shown, hx, hlive, Option.filter]

/-- A sweep is time that passes for the devices. -/
theorem shows_sweep (h : Shows owner m c) {now : Int64} (hnow : now.toInt = c.time) :
    Idle c c.swept ∧ Shows owner (m.sweep now).2 c.swept := by
  refine ⟨idle_swept c, fun id => ?_⟩
  rw [heldAt_swept, h id, Model.sweep, lookup_eraseAll]
  simp only [mem_expiredKeys, Int64.le_iff_toInt_le, hnow]
  cases m.held.lookup (owner, id) with
  | none => simp
  | some r =>
      by_cases hx : r.expiresAt.toInt ≤ c.time
      · simp [hx, Option.filter]
      · simp [hx, not_le.mp hx, Option.filter]

end Store

end Tactile.Sync.RelayView

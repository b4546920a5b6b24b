import Tactile.Relay.Oracle

/-!
The index, the usage counters and the total of a store's memory agree with the
records held, and adding or dropping one entry keeps them agreeing.
-/

namespace Tactile.Relay.FsIndex

open Tactile.Lib.FiniteMap Tactile.Lib.ByteString
open Tactile.Relay.Blob Tactile.Relay.Index Tactile.Relay.FsStore Tactile.Relay.Oracle

def entryOf (r : Record) : FsEntry where
  expiresAt := r.expiresAt
  size := r.size
  sig := r.sig

theorem usageOf_insert (held : Held) (k : Key) (r : Record) (owner : IdentityID)
    (hfresh : held.lookup k = none) :
    usageOf (held.insert k r) owner =
      if owner = k.1 then ⟨(usageOf held owner).bytes + r.size, (usageOf held owner).count + 1⟩
      else usageOf held owner := by
  simp only [usageOf, total_insert, hfresh, Option.elim_none]
  by_cases h : owner = k.1
  · subst h
    simp
  · simp [h, Ne.symm h]

theorem usageOf_erase (held : Held) (k : Key) (r : Record) (owner : IdentityID)
    (hheld : held.lookup k = some r) :
    usageOf (held.erase k) owner =
      if owner = k.1 then ⟨(usageOf held owner).bytes - r.size, (usageOf held owner).count - 1⟩
      else usageOf held owner := by
  simp only [usageOf, total_erase, hheld, Option.elim_some]
  by_cases h : owner = k.1
  · subst h
    simp
  · simp [h, Ne.symm h]

theorem totalBytesOf_insert (held : Held) (k : Key) (r : Record)
    (hfresh : held.lookup k = none) :
    totalBytesOf (held.insert k r) = totalBytesOf held + r.size := by
  simp [totalBytesOf, total_insert, hfresh]

theorem totalBytesOf_erase (held : Held) (k : Key) (r : Record)
    (hheld : held.lookup k = some r) :
    totalBytesOf (held.erase k) = totalBytesOf held - r.size := by
  simp [totalBytesOf, total_erase, hheld]

section Tallies

variable {ε : Type} {f g : Key → Record → ε} {a : Accounts ε} {held : Held}

/-- The accounts of a store count exactly the records held, each with its entry. -/
structure Tallies (f : Key → Record → ε) (a : Accounts ε) (held : Held) : Prop where
  entry : ∀ id bid, a.entry id bid = (held.lookup (id, bid)).map (f (id, bid))
  counted : ∀ id bid, (a.entry id bid).isSome → (a.usage.lookup id).isSome
  usage : ∀ id, a.usageID id = usageOf held id
  total : a.totalBytes = totalBytesOf held

theorem Tallies.empty (f : Key → Record → ε) : Tallies f .empty ∅ where
  entry := fun _ _ => rfl
  counted := fun _ _ h => by simp [Accounts.empty, Accounts.entry] at h
  usage := fun _ => rfl
  total := rfl

/-- A record held under a new key. -/
theorem Tallies.add (h : Tallies f a held) (id : IdentityID) (bid : BlobID) (r : Record)
    (hfresh : held.lookup (id, bid) = none) :
    Tallies f (a.add id bid (f (id, bid) r) r.size) (held.insert (id, bid) r) where
  entry := fun id' bid' => by
    simp only [Accounts.entry_add, lookup_insert_eq, Prod.mk.injEq]
    split
    next hsame => rw [hsame.1, hsame.2, Option.map_some]
    next => exact h.entry id' bid'
  counted := fun id' bid' hsome => by
    rw [Accounts.entry_add] at hsome
    simp only [Accounts.add, lookup_insert_eq]
    by_cases hid : id' = id
    · simp [hid]
    · simp only [hid, false_and, if_false] at hsome ⊢
      exact h.counted id' bid' hsome
  usage := fun id' => by
    rw [Accounts.usageID_add, usageOf_insert _ _ _ _ hfresh, ← h.usage]
  total := by
    rw [totalBytesOf_insert _ _ _ hfresh, ← h.total]
    rfl

/-- A held record dropped. -/
theorem Tallies.drop (h : Tallies f a held) (id : IdentityID) (bid : BlobID) (r : Record)
    (hheld : held.lookup (id, bid) = some r) :
    Tallies f (a.drop id bid r.size) (held.erase (id, bid)) where
  entry := fun id' bid' => by
    simp only [Accounts.entry_drop, lookup_erase_eq, Prod.mk.injEq]
    split
    next => rfl
    next => exact h.entry id' bid'
  counted := fun id' bid' hsome => by
    rw [Accounts.entry_drop] at hsome
    split at hsome
    next => simp at hsome
    next hne =>
      have hcounted := h.counted id' bid' hsome
      simp only [Accounts.drop]
      cases hu : a.usage.lookup id with
      | none => exact hcounted
      | some u =>
          rw [lookup_insert_eq]
          split
          next => rfl
          next => exact hcounted
  usage := fun id' => by
    have hsome : (a.usage.lookup id).isSome := h.counted id bid (by rw [h.entry, hheld]; rfl)
    rw [Accounts.usageID_drop _ _ _ _ _ hsome, usageOf_erase _ _ _ _ hheld, ← h.usage]
  total := by
    rw [totalBytesOf_erase _ _ _ hheld, ← h.total]
    rfl

/-- The counts depend only on which record is held under which key. -/
theorem Tallies.congr (h : Tallies f a held) {held' : Held}
    (hsame : ∀ k, held.lookup k = held'.lookup k) : Tallies f a held' where
  entry := fun id bid => by rw [h.entry, hsame]
  counted := h.counted
  usage := fun id => by
    rw [h.usage, usageOf, usageOf, total_eq_of_lookup_eq _ hsame, total_eq_of_lookup_eq _ hsame]
  total := by rw [h.total, totalBytesOf, totalBytesOf, total_eq_of_lookup_eq _ hsame]

theorem Tallies.congr_entries (h : Tallies f a held)
    (hsame : ∀ k r, held.lookup k = some r → f k r = g k r) : Tallies g a held where
  entry := fun id bid => by
    rw [h.entry]
    cases hr : held.lookup (id, bid) with
    | none => rfl
    | some r => rw [Option.map_some, Option.map_some, hsame _ r hr]
  counted := h.counted
  usage := h.usage
  total := h.total

end Tallies

/-- The memory of a store counts exactly the records held. -/
structure Counts (s : FS) (held : Held) : Prop where
  entry : ∀ id bid, s.entry id bid = (held.lookup (id, bid)).map entryOf
  counted : ∀ id bid, (s.entry id bid).isSome → (s.accounts.usage.lookup id).isSome
  usage : ∀ id, s.usageID id = usageOf held id
  total : s.totalBytes = totalBytesOf held

theorem counts_iff {s : FS} {held : Held} :
    Counts s held ↔ Tallies (fun _ r => entryOf r) s.accounts held :=
  ⟨fun h => ⟨h.entry, h.counted, h.usage, h.total⟩, fun h => ⟨h.entry, h.counted, h.usage, h.total⟩⟩

theorem Counts.fresh (maxPayload : ℤ) : Counts (FS.fresh maxPayload) ∅ :=
  counts_iff.mpr (Tallies.empty _)

theorem Counts.add {s : FS} {held : Held} (h : Counts s held) (id : IdentityID) (bid : BlobID)
    (r : Record) (hfresh : held.lookup (id, bid) = none) :
    Counts (s.indexAdd id bid (entryOf r)) (held.insert (id, bid) r) :=
  counts_iff.mpr ((counts_iff.mp h).add id bid r hfresh)

theorem Counts.drop {s : FS} {held : Held} (h : Counts s held) (id : IdentityID) (bid : BlobID)
    (r : Record) (hheld : held.lookup (id, bid) = some r) :
    Counts (s.indexDrop id bid (entryOf r)) (held.erase (id, bid)) :=
  counts_iff.mpr ((counts_iff.mp h).drop id bid r hheld)

theorem Counts.congr {s : FS} {held held' : Held} (h : Counts s held)
    (hsame : ∀ k, held.lookup k = held'.lookup k) : Counts s held' :=
  counts_iff.mpr ((counts_iff.mp h).congr hsame)

end Tactile.Relay.FsIndex

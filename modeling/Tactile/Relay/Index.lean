import Tactile.Lib.FiniteMap
import Tactile.Relay.Blob

/-!
The in-memory index of a relay store with its usage counters; both backends
keep one, with entries of their own.
-/

namespace Tactile.Relay.Index

open Tactile.Lib Tactile.Lib.FiniteMap Tactile.Relay.Blob

/-- Stored bytes and blob count. -/
structure Usage where
  bytes : ℤ
  count : ℤ
  deriving DecidableEq

def Usage.zero : Usage := ⟨0, 0⟩

/-- The maps `index` and `usage` and the counter `totalBytes` of a store. -/
structure Accounts (ε : Type) where
  index : Dict IdentityID (Dict BlobID ε)
  usage : Dict IdentityID Usage
  totalBytes : ℤ

namespace Accounts

variable {ε : Type}

def empty : Accounts ε := ⟨∅, ∅, 0⟩

/-- The index entry of a blob, `s.index[id][bid]`. -/
def entry (s : Accounts ε) (id : IdentityID) (bid : BlobID) : Option ε :=
  (s.index.lookup id).bind fun m => m.lookup bid

/-- Per-identity usage by identity ID. -/
def usageID (s : Accounts ε) (id : IdentityID) : Usage := (s.usage.lookup id).getD .zero

/-- `indexAdd` of both backends, for an entry of a size. -/
def add (id : IdentityID) (bid : BlobID) (e : ε) (size : ℤ) (s : Accounts ε) : Accounts ε :=
  let m := (s.index.lookup id).getD ∅
  let u := (s.usage.lookup id).getD .zero
  { index := s.index.insert id (m.insert bid e)
    usage := s.usage.insert id { bytes := u.bytes + size, count := u.count + 1 }
    totalBytes := s.totalBytes + size }

/-- What both backends do to the memory when a blob's file or object is gone. -/
def drop (id : IdentityID) (bid : BlobID) (size : ℤ) (s : Accounts ε) : Accounts ε where
  index :=
    match s.index.lookup id with
    | some m => s.index.insert id (m.erase bid)
    | none => s.index
  usage :=
    match s.usage.lookup id with
    | some u => s.usage.insert id { bytes := u.bytes - size, count := u.count - 1 }
    | none => s.usage
  totalBytes := s.totalBytes - size

/-- The check at the start of `PutWithin`, the same in both backends: an owner
without a usage record has no identity cap. -/
def check (s : Accounts ε) (id : IdentityID) (bid : BlobID) (size identityCap totalCap : ℤ) :
    Except Err Unit :=
  if (s.entry id bid).isSome then .error .exists
  else if (s.usage.lookup id).any fun u => u.bytes + size > identityCap then
    .error .quotaExceeded
  else if s.totalBytes + size > totalCap then .error .storageFull
  else .ok ()

/-- The keys of the index entries that a test selects. -/
def keysWhere (s : Accounts ε) (p : ε → Bool) : List (IdentityID × BlobID) :=
  (pairs s.index).flatMap fun (id, m) =>
    (FiniteMap.keysWhere m fun _ e => p e).map fun bid => (id, bid)

theorem mem_keysWhere {s : Accounts ε} {p : ε → Bool} {k : IdentityID × BlobID} :
    k ∈ s.keysWhere p ↔ ∃ e, s.entry k.1 k.2 = some e ∧ p e := by
  simp only [keysWhere, List.mem_flatMap, List.mem_map, Prod.exists, mem_pairs,
    FiniteMap.mem_keysWhere, entry, Option.bind_eq_some_iff]
  constructor
  · rintro ⟨id, m, hid, bid, ⟨e, hbid, he⟩, rfl⟩
    exact ⟨e, ⟨m, hid, hbid⟩, he⟩
  · rintro ⟨e, ⟨m, hid, hbid⟩, he⟩
    exact ⟨k.1, m, hid, k.2, ⟨e, hbid, he⟩, rfl⟩

theorem nodup_keysWhere (s : Accounts ε) (p : ε → Bool) : (s.keysWhere p).Nodup := by
  rw [keysWhere, List.nodup_flatMap]
  constructor
  · intro q _
    exact (FiniteMap.nodup_keysWhere _ _).map fun _ _ h => (Prod.mk.injEq .. ▸ h).2
  · have hkeys : ((pairs s.index).map Prod.fst).Nodup := by
      rw [map_fst_pairs]
      exact s.index.keys_nodup
    refine (List.pairwise_map.mp hkeys).imp fun {p q} hne => ?_
    intro k hp hq
    obtain ⟨_, _, rfl⟩ := List.mem_map.mp hp
    obtain ⟨_, _, heq⟩ := List.mem_map.mp hq
    exact hne (Prod.mk.injEq .. ▸ heq).1.symm

theorem entry_add (s : Accounts ε) (id id' : IdentityID) (bid bid' : BlobID) (e : ε) (size : ℤ) :
    (s.add id bid e size).entry id' bid' =
      if id' = id ∧ bid' = bid then some e else s.entry id' bid' := by
  simp only [entry, add, lookup_insert_eq]
  by_cases hid : id' = id
  · subst hid
    cases hm : s.index.lookup id' with
    | none =>
        simp only [if_true, Option.bind_some, Option.getD_none, lookup_insert_eq, true_and,
          AList.lookup_empty, Option.bind_none]
    | some m =>
        simp only [if_true, Option.bind_some, Option.getD_some, lookup_insert_eq, true_and]
  · simp only [hid, if_false, false_and]

theorem entry_drop (s : Accounts ε) (id id' : IdentityID) (bid bid' : BlobID) (size : ℤ) :
    (s.drop id bid size).entry id' bid' =
      if id' = id ∧ bid' = bid then none else s.entry id' bid' := by
  simp only [entry, drop]
  cases hm : s.index.lookup id with
  | none =>
      by_cases hid : id' = id
      · subst hid
        simp [hm]
      · simp [hid]
  | some m =>
      by_cases hid : id' = id
      · subst hid
        simp only [AList.lookup_insert, Option.bind_some, lookup_erase_eq, hm, true_and]
      · simp only [lookup_insert_eq, hid, if_false, false_and]

theorem usageID_add (s : Accounts ε) (id id' : IdentityID) (bid : BlobID) (e : ε) (size : ℤ) :
    (s.add id bid e size).usageID id' =
      if id' = id then ⟨(s.usageID id').bytes + size, (s.usageID id').count + 1⟩
      else s.usageID id' := by
  simp only [usageID, add, lookup_insert_eq]
  by_cases hid : id' = id
  · subst hid
    simp only [if_true, Option.getD_some]
  · simp only [hid, if_false]

theorem usageID_drop (s : Accounts ε) (id id' : IdentityID) (bid : BlobID) (size : ℤ)
    (hsome : (s.usage.lookup id).isSome) :
    (s.drop id bid size).usageID id' =
      if id' = id then ⟨(s.usageID id').bytes - size, (s.usageID id').count - 1⟩
      else s.usageID id' := by
  obtain ⟨u, hu⟩ := Option.isSome_iff_exists.mp hsome
  simp only [usageID, drop, hu, lookup_insert_eq]
  by_cases hid : id' = id
  · subst hid
    simp only [if_true, Option.getD_some, hu]
  · simp only [hid, if_false]

/-- What an accepted check has compared. -/
theorem check_eq_ok {s : Accounts ε} {id : IdentityID} {bid : BlobID}
    {size identityCap totalCap : ℤ} (h : s.check id bid size identityCap totalCap = .ok ()) :
    s.entry id bid = none ∧
      (∀ u, s.usage.lookup id = some u → u.bytes + size ≤ identityCap) ∧
      s.totalBytes + size ≤ totalCap := by
  rw [check] at h
  split at h
  next => cases h
  next hentry =>
    split at h
    next => cases h
    next husage =>
      split at h
      next => cases h
      next htotal =>
        refine ⟨by simpa using hentry, fun u hu => ?_, by omega⟩
        rw [hu] at husage
        simpa using husage

/-- Only an entry that is there is refused as one that exists. -/
theorem check_eq_exists {s : Accounts ε} {id : IdentityID} {bid : BlobID}
    {size identityCap totalCap : ℤ} (h : s.check id bid size identityCap totalCap = .error .exists) :
    (s.entry id bid).isSome := by
  rw [check] at h
  split at h
  next hentry => exact hentry
  next =>
    split at h
    next => cases h
    next => split at h <;> cases h

section Exact

variable (size : ε → ℤ)

/-- The index entries of an owner. -/
def inner (s : Accounts ε) (id : IdentityID) : Dict BlobID ε := (s.index.lookup id).getD ∅

/-- The counters are the sums over the index. -/
structure Exact (s : Accounts ε) : Prop where
  usage : ∀ id, s.usageID id =
    ⟨total (s.inner id) fun _ e => size e, total (s.inner id) fun _ _ => 1⟩
  total : s.totalBytes = total s.index fun _ m => total m fun _ e => size e
  counted : ∀ id, (s.index.lookup id).isSome → (s.usage.lookup id).isSome

variable {size} {s : Accounts ε} {id : IdentityID} {bid : BlobID} {e : ε}

theorem exact_empty : Exact size (empty : Accounts ε) where
  usage := fun _ => rfl
  total := rfl
  counted := fun _ h => by simp [empty] at h

theorem lookup_inner (s : Accounts ε) (id : IdentityID) (bid : BlobID) :
    (s.inner id).lookup bid = s.entry id bid := by
  rw [inner, entry]
  cases s.index.lookup id <;> simp

theorem total_inner (s : Accounts ε) (id : IdentityID) (f : BlobID → ε → ℤ) :
    (s.index.lookup id).elim 0 (fun m => FiniteMap.total m f) = FiniteMap.total (s.inner id) f := by
  rw [inner]
  cases s.index.lookup id <;> rfl

theorem inner_add (s : Accounts ε) (id id' : IdentityID) (bid : BlobID) (e : ε) (n : ℤ) :
    (s.add id bid e n).inner id' =
      if id' = id then (s.inner id).insert bid e else s.inner id' := by
  simp only [inner, add, lookup_insert_eq]
  split <;> rfl

theorem inner_drop (s : Accounts ε) (id id' : IdentityID) (bid : BlobID) (n : ℤ) :
    (s.drop id bid n).inner id' = if id' = id then (s.inner id).erase bid else s.inner id' := by
  simp only [inner, drop]
  cases hm : s.index.lookup id with
  | none =>
      dsimp only
      split
      next heq =>
        subst heq
        rw [hm]
        rfl
      next => rfl
  | some m =>
      simp only [lookup_insert_eq]
      split <;> rfl

/-- A new entry counted with its size. -/
theorem Exact.add (h : Exact size s) (hfresh : s.entry id bid = none) :
    Exact size (s.add id bid e (size e)) where
  usage := fun id' => by
    rw [usageID_add, inner_add, h.usage]
    split
    next heq =>
      subst heq
      rw [total_insert, total_insert, lookup_inner, hfresh, Option.elim_none, Option.elim_none,
        sub_zero, sub_zero]
    next => rfl
  total := by
    change s.totalBytes + size e = _
    rw [Accounts.add, total_insert, total_inner, ← inner, total_insert, lookup_inner, hfresh,
      Option.elim_none, h.total]
    omega
  counted := fun id' hsome => by
    simp only [Accounts.add, lookup_insert_eq] at hsome ⊢
    split
    next => rfl
    next hne =>
      rw [if_neg hne] at hsome
      exact h.counted id' hsome

/-- An entry dropped with its size. -/
theorem Exact.drop (h : Exact size s) (hentry : s.entry id bid = some e) :
    Exact size (s.drop id bid (size e)) := by
  obtain ⟨m, hm, hbid⟩ := Option.bind_eq_some_iff.mp hentry
  have hcounted := h.counted id (by rw [hm]; rfl)
  refine ⟨fun id' => ?_, ?_, fun id' hsome => ?_⟩
  · rw [usageID_drop _ _ _ _ _ hcounted, inner_drop, h.usage]
    split
    next heq =>
      subst heq
      rw [total_erase, total_erase, lookup_inner, hentry, Option.elim_some, Option.elim_some]
    next => rfl
  · change s.totalBytes - size e = _
    rw [Accounts.drop, hm]
    dsimp only
    rw [total_insert, hm, Option.elim_some, total_erase, hbid, Option.elim_some, h.total]
    omega
  · obtain ⟨u, hu⟩ := Option.isSome_iff_exists.mp hcounted
    simp only [Accounts.drop, hm, hu, lookup_insert_eq] at hsome ⊢
    split
    next => rfl
    next hne =>
      rw [if_neg hne] at hsome
      exact h.counted id' hsome

end Exact

end Accounts

end Tactile.Relay.Index

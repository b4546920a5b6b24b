import Tactile.Relay.S3Recovery

/-!
What opening the object backend rebuilds from any bucket: the stored records by the names
of their objects, among objects whose names are no records'.
-/

namespace Tactile.Relay.S3Keys

open Tactile.Lib.FiniteMap Tactile.Lib.ByteString
open Tactile.Relay.Blob Tactile.Relay.Index Tactile.Relay.Oracle
open Tactile.Relay.S3Store Tactile.Relay.S3Calls Tactile.Relay.S3Recovery

/-- What a bucket says of a record: its expiry, in the name, and the size of its object. -/
structure StoredObject where
  expiresAt : Int64
  size : ℤ
  deriving DecidableEq

abbrev Stored : Type := Dict Key StoredObject

/-- The index entry of a record that was read from the bucket. -/
def entryOf (k : Key) (o : StoredObject) : S3Entry where
  key := objectKey k o.expiresAt
  expiresAt := o.expiresAt
  size := o.size
  sig := zeroSig

/-- The bucket holds one object for each stored record, under its key; the names of
all others are rejected. -/
structure Holds (bucket : Dict String ℤ) (stored : Stored) : Prop where
  objects : ∀ k o, stored.lookup k = some o → bucket.lookup (objectKey k o.expiresAt) = some o.size
  others : ∀ key size, bucket.lookup key = some size → parseS3Key key.toList = none ∨
    ∃ k o, stored.lookup k = some o ∧ key = objectKey k o.expiresAt

/-- The accounts have one entry for each stored record, and count these. -/
structure Rebuilt (a : Accounts S3Entry) (stored : Stored) : Prop where
  entry : ∀ id bid, a.entry id bid = (stored.lookup (id, bid)).map (entryOf (id, bid))
  usage : ∀ id, a.usageID id =
    ⟨total stored fun k o => if k.1 = id then o.size else 0,
      total stored fun k _ => if k.1 = id then 1 else 0⟩
  total : a.totalBytes = total stored fun _ o => o.size

section Accounts

variable {a : Accounts S3Entry} {stored stored' : Stored}

theorem Rebuilt.empty : Rebuilt .empty ∅ where
  entry := fun _ _ => rfl
  usage := fun _ => rfl
  total := rfl

theorem Rebuilt.add (h : Rebuilt a stored) (k : Key) (o : StoredObject)
    (hfresh : stored.lookup k = none) :
    Rebuilt (a.add k.1 k.2 (entryOf k o) o.size) (stored.insert k o) where
  entry := fun id bid => by
    rw [Accounts.entry_add, lookup_insert_eq]
    by_cases hk : (id, bid) = k
    · subst hk
      simp
    · rw [if_neg hk, if_neg fun hsame => hk (Prod.ext hsame.1 hsame.2), h.entry]
  usage := fun id => by
    rw [Accounts.usageID_add, h.usage]
    by_cases hid : id = k.1
    · subst hid
      simp [total_insert, hfresh]
    · simp [total_insert, hfresh, hid, Ne.symm hid]
  total := by
    rw [total_insert, hfresh, ← h.total]
    simp [Accounts.add]

theorem Rebuilt.congr (h : Rebuilt a stored) (hsame : ∀ k, stored.lookup k = stored'.lookup k) :
    Rebuilt a stored' where
  entry := fun id bid => by rw [h.entry, hsame]
  usage := fun id => by
    rw [h.usage, total_eq_of_lookup_eq _ hsame, total_eq_of_lookup_eq _ hsame]
  total := by rw [h.total, total_eq_of_lookup_eq _ hsame]

end Accounts

section Load

variable {bucket : Dict String ℤ} {stored : Stored} {maxPayload : ℤ}

/-- The records whose objects are among those listed. -/
def listed (stored : Stored) (objs : List (String × ℤ)) : Stored :=
  select stored fun k o => decide (objectKey k o.expiresAt ∈ objs.map Prod.fst)

/-- Of the last object of a listing only the record it is named after takes notice. -/
theorem filter_listed {key : String} {k : Key} (size : ℤ) (objs : List (String × ℤ))
    (o : StoredObject) (hne : objectKey k o.expiresAt ≠ key) :
    (some o).filter (fun o => decide (objectKey k o.expiresAt ∈ (objs ++ [(key, size)]).map Prod.fst)) =
      (some o).filter (fun o => decide (objectKey k o.expiresAt ∈ objs.map Prod.fst)) := by
  have hmem : objectKey k o.expiresAt ∈ (objs ++ [(key, size)]).map Prod.fst ↔
      objectKey k o.expiresAt ∈ objs.map Prod.fst := by
    rw [List.map_append, List.mem_append]
    simp [hne]
  rw [Option.filter_some, Option.filter_some]
  exact congrArg (fun b : Bool => if b then some o else none) (decide_eq_decide.mpr hmem)

theorem listed_rejected {key : String} (size : ℤ) (hkey : parseS3Key key.toList = none)
    (objs : List (String × ℤ)) (k : Key) :
    (listed stored (objs ++ [(key, size)])).lookup k = (listed stored objs).lookup k := by
  have hne : ∀ o : StoredObject, objectKey k o.expiresAt ≠ key := by
    rintro o rfl
    rw [parseS3Key_objectKey] at hkey
    cases hkey
  rw [listed, listed, lookup_select, lookup_select]
  cases stored.lookup k with
  | none => rfl
  | some o => exact filter_listed size objs o (hne o)

theorem listed_object {k : Key} {o : StoredObject} (hk : stored.lookup k = some o)
    (objs : List (String × ℤ)) (k' : Key) :
    (listed stored (objs ++ [(objectKey k o.expiresAt, o.size)])).lookup k' =
      ((listed stored objs).insert k o).lookup k' := by
  rw [lookup_insert_eq, listed, listed, lookup_select, lookup_select]
  split
  next hsame =>
    subst hsame
    rw [hk, Option.filter_some, if_pos]
    simp
  next hne =>
    cases stored.lookup k' with
    | none => rfl
    | some o' => exact filter_listed o.size objs o' fun hkey => hne (objectKey_inj hkey)

/-- Each object of the listing adds the entry of its record, or nothing. -/
theorem load_listed {objs : List (String × ℤ)} (hstored : Holds bucket stored)
    (hobjs : ∀ o ∈ objs, bucket.lookup o.1 = some o.2) (hnodup : (objs.map Prod.fst).Nodup) :
    Rebuilt (load maxPayload objs).accounts (listed stored objs) := by
  induction objs using List.reverseRecOn with
  | nil =>
      have hnone : listed stored [] = ∅ := by
        refine eq_empty_of_lookup fun k => ?_
        rw [listed, lookup_select]
        cases stored.lookup k <;> rfl
      rw [hnone]
      exact Rebuilt.empty
  | append_singleton objs obj ih =>
      obtain ⟨key, size⟩ := obj
      have hbucket := hobjs _ (List.mem_append_right _ (List.mem_singleton_self _))
      rw [List.map_append, List.nodup_append] at hnodup
      have hbefore := ih (fun o ho => hobjs o (List.mem_append_left _ ho)) hnodup.1
      rw [load, List.foldl_append, ← load, List.foldl_cons, List.foldl_nil, loadObject]
      rcases hstored.others key size hbucket with hrejected | ⟨k, o, hk, rfl⟩
      · rw [hrejected]
        exact hbefore.congr fun k => (listed_rejected size hrejected objs k).symm
      · obtain rfl : o.size = size := Option.some.inj ((hstored.objects k o hk).symm.trans hbucket)
        have hfresh : (listed stored objs).lookup k = none := by
          have hnew : objectKey k o.expiresAt ∉ objs.map Prod.fst := fun hmem =>
            hnodup.2.2 _ hmem _ (List.mem_singleton_self _) rfl
          rw [listed, lookup_select, hk, Option.filter_some]
          exact if_neg (by simpa using hnew)
        rw [parseS3Key_objectKey]
        exact (hbefore.add k o hfresh).congr fun k' => (listed_object hk objs k').symm

/-- The name of a record's object decodes to its owner, its id and its expiry, so records
with one name agree in these; from a bucket of such objects and of rejected ones, listed in
any order, the index is rebuilt with exactly the stored records and their sums. -/
theorem load_rebuilds (maxPayload : ℤ) :
    (∀ (id : IdentityID) (r : Record),
      parseS3Key (s3Key id r).toList = some ((id, r.id), r.expiresAt)) ∧
    (∀ (id id' : IdentityID) (r r' : Record), s3Key id r = s3Key id' r' →
      id = id' ∧ r.id = r'.id ∧ r.expiresAt = r'.expiresAt) ∧
    (∀ (bucket : Dict String ℤ) (stored : Stored), Holds bucket stored →
      ∀ objs : List (String × ℤ), objs.Perm (pairs bucket) →
        Rebuilt (load maxPayload objs).accounts stored) := by
  have hparse : ∀ (id : IdentityID) (r : Record),
      parseS3Key (s3Key id r).toList = some ((id, r.id), r.expiresAt) := by
    intro id r
    rw [s3Key_eq, parseS3Key_objectKey]
  refine ⟨hparse, ?_, ?_⟩
  · intro id id' r r' h
    have hsame := (hparse id r).symm.trans (h ▸ hparse id' r')
    simp only [Option.some.injEq, Prod.mk.injEq] at hsame
    exact ⟨hsame.1.1, hsame.1.2, hsame.2⟩
  · intro bucket stored h objs hperm
    have hobjs : ∀ o ∈ objs, bucket.lookup o.1 = some o.2 :=
      fun o ho => mem_pairs.mp (hperm.mem_iff.mp ho)
    have hnodup : (objs.map Prod.fst).Nodup := by
      rw [(hperm.map Prod.fst).nodup_iff, map_fst_pairs]
      exact bucket.keys_nodup
    refine (load_listed h hobjs hnodup).congr fun k => ?_
    rw [listed, lookup_select]
    cases hk : stored.lookup k with
    | none => rfl
    | some o =>
        have hlisted : objectKey k o.expiresAt ∈ objs.map Prod.fst :=
          List.mem_map.mpr ⟨(objectKey k o.expiresAt, o.size),
            hperm.mem_iff.mpr (mem_pairs.mpr (h.objects k o hk)), rfl⟩
        rw [Option.filter_some]
        exact if_pos (decide_eq_true hlisted)

end Load

end Tactile.Relay.S3Keys

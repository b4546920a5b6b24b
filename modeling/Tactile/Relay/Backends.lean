import Tactile.Relay.FsRefinement
import Tactile.Relay.S3Recovery

/-!
The two backends side by side: over any calls and restarts the object backend
returns what the file-system backend returns, the signatures of a listing aside.
-/

namespace Tactile.Relay.Backends

open Tactile.Lib.Program Tactile.Lib.FiniteMap Tactile.Lib.ByteString Tactile.Lib.Transition
open Tactile.Relay.Blob Tactile.Relay.Index Tactile.Relay.FsStore Tactile.Relay.Oracle
open Tactile.Relay.FsIndex Tactile.Relay.FsMethods Tactile.Relay.FsRefinement
open Tactile.Relay.FileSystem Tactile.Relay.FsFiles Tactile.Relay.FsRecovery
open Tactile.Relay.S3Store Tactile.Relay.S3Calls Tactile.Relay.S3Recovery

section Runs

variable (idOf : PubKey → IdentityID) (maxPayload : ℤ)

/-- What a listing says about an index entry. -/
def s3ListMeta (bid : BlobID) (e : S3Entry) : ListMeta where
  id := bid
  size := e.size - headerSize
  expiresAt := e.expiresAt
  sig := e.sig

/-- Live metadata for an identity. -/
def s3List (s : S3) (pub : PubKey) (now : Int64) : List ListMeta :=
  let m := (s.accounts.index.lookup (idOf pub)).getD ∅
  sortMetas <| ((pairs m).filter fun p => ¬ p.2.expiresAt ≤ now).map fun p => s3ListMeta p.1 p.2

/-- The program of a call; a put has caps that no store reaches. -/
def s3Program (s : S3) : Call → ObjProg Result
  | .put r => .done <$> ofParts (putWithin idOf r (2 ^ 62) (2 ^ 62))
  | .get pub bid now => .record <$> S3Calls.get idOf maxPayload pub bid now
  | .getRange pub bid start stop now => .range <$> S3Calls.getRange idOf pub bid start stop now
  | .list pub now => pure (.metas (s3List idOf s pub now))
  | .delete pub bid => .done <$> deleteKey (idOf pub) bid
  | .sweep now => .count <$> S3Calls.sweep now
  | .usage pub => pure (.usage (s.accounts.usageID (idOf pub)))
  | .totalBytes => pure (.bytes s.accounts.totalBytes)

/-- The object backend taking one event: a call, or a new start that lists the
bucket. -/
inductive S3Step : World → Event → World → Prop
  | call {w w' : World} {c : Call} {result : Result} :
      Exec S3Calls.Serves w (s3Program idOf maxPayload w.mem c) result w' →
      S3Step w (.call c result) w'
  | restarted (w : World) (objs : List (String × ℤ)) :
      objs.Perm (listing w.bucket) → S3Step w .restarted ⟨load maxPayload objs, w.bucket⟩

end Runs

variable {idOf : PubKey → IdentityID} {maxPayload : ℤ} {m : Model idOf} {w : World}
variable {put : List Key}

/-- The index and the bucket hold exactly the records of the map; the signatures
are known for the keys put since the index was built. -/
structure S3Refines (w : World) (m : Model idOf) (put : List Key) : Prop where
  counts : Tallies (entryFrom put) w.mem.accounts m.held
  present : ∀ k r, m.held.lookup k = some r →
    w.bucket.lookup (objectKey k r.expiresAt) = some (marshal r)
  only : ∀ key, (w.bucket.lookup key).isSome →
    ∃ k r, m.held.lookup k = some r ∧ key = objectKey k r.expiresAt

section Agreement

theorem Record.size_nonneg (r : Record) : 0 ≤ r.size := by
  rw [Record.size]
  omega

/-- What an event asks for. -/
inductive Input
  | call (c : Call)
  | stopped (c : Call)
  | restarted
  deriving DecidableEq

def input : Event → Input
  | .call c _ => .call c
  | .stopped c => .stopped c
  | .restarted => .restarted

/-- The bytes that a call adds at most. -/
def putBytes : Call → ℤ
  | .put r => r.size
  | _ => 0

def inputBytes : Input → ℤ
  | .call c | .stopped c => putBytes c
  | .restarted => 0

/-- The keys put and the keys asked for since the last start. -/
structure Seen where
  put : List Key
  served : List Key

theorem inputBytes_nonneg (i : Input) : 0 ≤ inputBytes i := by
  have hcall : ∀ c, 0 ≤ putBytes c := by
    intro c
    cases c with
    | put r => exact Record.size_nonneg r
    | _ => exact Int.le_refl 0
  cases i with
  | call c => exact hcall c
  | stopped c => exact hcall c
  | restarted => exact Int.le_refl 0

variable (idOf : PubKey → IdentityID)

def putAfter (put : List Key) : Call → Result → List Key
  | .put r, .done (.ok ()) => keyOf idOf r :: put
  | _, _ => put

def servedAfter (served : List Key) : Call → List Key
  | .get pub bid _ | .getRange pub bid _ _ _ => (idOf pub, bid) :: served
  | _ => served

/-- A listed blob on both backends: the signature is the same for a blob put
since the last start, and none for one neither put nor asked for since. -/
structure SameMeta (seen : Seen) (owner : IdentityID) (a b : ListMeta) : Prop where
  id : b.id = a.id
  size : b.size = a.size
  expiresAt : b.expiresAt = a.expiresAt
  put : (owner, a.id) ∈ seen.put → b.sig = a.sig
  unserved : (owner, a.id) ∉ seen.put → (owner, a.id) ∉ seen.served → b.sig = zeroSig

/-- The results of a call on both backends. -/
def SameResult (seen : Seen) : Call → Result → Result → Prop
  | .list pub _, .metas as, .metas bs => List.Forall₂ (SameMeta seen (idOf pub)) as bs
  | _, result, result' => result = result'

/-- Two runs with the same results. -/
inductive Agree : Seen → List Event → List Event → Prop
  | nil (seen : Seen) : Agree seen [] []
  | call {seen : Seen} {c : Call} {result result' : Result} {es es' : List Event} :
      SameResult idOf seen c result result' →
      Agree ⟨putAfter idOf seen.put c result, servedAfter idOf seen.served c⟩ es es' →
      Agree seen (.call c result :: es) (.call c result' :: es')
  | restarted {seen : Seen} {es es' : List Event} :
      Agree ⟨[], []⟩ es es' → Agree seen (.restarted :: es) (.restarted :: es')

end Agreement

section Map

theorem get_eq_ok {k : Key} {now : Int64} {r : Record} {m' : Model idOf}
    (h : m.get k now = (.ok r, m')) :
    m.held.lookup k = some r ∧ ¬ r.expiresAt ≤ now ∧ m' = m := by
  unfold Model.get at h
  cases hr : m.held.lookup k with
  | none =>
      rw [hr] at h
      cases h
  | some r' =>
      rw [hr] at h
      dsimp only at h
      split at h
      next => cases h
      next hlive =>
        cases h
        exact ⟨rfl, hlive, rfl⟩

theorem lookup_delete (m : Model idOf) (k k' : Key) :
    (m.delete k).2.held.lookup k' = if k' = k then none else m.held.lookup k' := by
  unfold Model.delete
  split
  next => exact lookup_erase_eq m.held k k'
  next hnone =>
    split
    next hk =>
      rw [hk]
      simpa using hnone
    next => rfl

theorem usageOf_le_totalBytesOf (held : Held) (owner : IdentityID) :
    (usageOf held owner).bytes ≤ totalBytesOf held := by
  change total held (fun k r => if k.1 = owner then r.size else 0) ≤ total held fun _ r => r.size
  refine total_le_total _ held _ fun k r _ => ?_
  have hsize := Record.size_nonneg r
  split
  next => exact Int.le_refl _
  next => exact hsize

theorem totalBytesOf_erase_le (m : Model idOf) (k : Key) :
    totalBytesOf (m.erase k).held ≤ totalBytesOf m.held := by
  rw [Model.erase, totalBytesOf, total_erase]
  cases m.held.lookup k with
  | none => simp [totalBytesOf]
  | some r =>
      have hsize := Record.size_nonneg r
      rw [Option.elim_some, totalBytesOf]
      omega

theorem totalBytesOf_eraseAll_le (ks : List Key) (m : Model idOf) :
    totalBytesOf (m.eraseAll ks).held ≤ totalBytesOf m.held := by
  induction ks generalizing m with
  | nil => exact Int.le_refl _
  | cons k ks ih => exact (ih (m.erase k)).trans (totalBytesOf_erase_le m k)

theorem totalBytesOf_answer_le (m : Model idOf) (c : Call) :
    totalBytesOf (answer m c).2.held ≤ totalBytesOf m.held + putBytes c := by
  have hget : ∀ k now, totalBytesOf (m.get k now).2.held ≤ totalBytesOf m.held := by
    intro k now
    unfold Model.get
    cases m.held.lookup k with
    | none => exact Int.le_refl _
    | some r =>
        dsimp only
        split
        next => exact totalBytesOf_erase_le m k
        next => exact Int.le_refl _
  cases c with
  | put r =>
      change totalBytesOf (m.put r).2.held ≤ totalBytesOf m.held + r.size
      unfold Model.put
      have hsize := Record.size_nonneg r
      cases hr : m.held.lookup (keyOf idOf r) with
      | some r' =>
          change totalBytesOf m.held ≤ _
          omega
      | none =>
          change totalBytesOf (m.held.insert (keyOf idOf r) r) ≤ _
          rw [totalBytesOf_insert _ _ _ hr]
  | get pub bid now =>
      change _ ≤ totalBytesOf m.held + 0
      rw [Int.add_zero]
      exact hget _ _
  | getRange pub bid start stop now =>
      have hsame : (m.getRange (idOf pub, bid) start stop now).2 = (m.get (idOf pub, bid) now).2 := by
        unfold Model.getRange
        split <;> simp_all
      change totalBytesOf (m.getRange (idOf pub, bid) start stop now).2.held ≤
        totalBytesOf m.held + 0
      rw [hsame, Int.add_zero]
      exact hget _ _
  | delete pub bid =>
      change totalBytesOf (m.delete (idOf pub, bid)).2.held ≤ totalBytesOf m.held + 0
      rw [Int.add_zero]
      unfold Model.delete
      split
      next => exact totalBytesOf_erase_le m _
      next => exact Int.le_refl _
  | sweep now =>
      change _ ≤ totalBytesOf m.held + 0
      rw [Int.add_zero]
      exact totalBytesOf_eraseAll_le _ m
  | list pub now => exact Int.le_of_eq (Int.add_zero _).symm
  | usage pub => exact Int.le_of_eq (Int.add_zero _).symm
  | totalBytes => exact Int.le_of_eq (Int.add_zero _).symm

end Map

section Operations

theorem S3Refines.congr (h : S3Refines w m put) {m' : Model idOf}
    (hsame : ∀ k, m.held.lookup k = m'.held.lookup k) : S3Refines w m' put where
  counts := h.counts.congr hsame
  present := fun k r hr => h.present k r (by rw [hsame, hr])
  only := fun key hkey => by
    obtain ⟨k, r, hr, hk⟩ := h.only key hkey
    exact ⟨k, r, by rw [← hsame, hr], hk⟩

theorem S3Refines.empty (maxPayload : ℤ) :
    S3Refines ⟨⟨maxPayload, .empty⟩, ∅⟩ (Model.empty : Model idOf) [] where
  counts := Tallies.empty _
  present := fun _ _ h => by simp [Model.empty] at h
  only := fun _ h => by simp at h

theorem S3Refines.add (h : S3Refines w m put) (r : Record)
    (hfresh : m.held.lookup (keyOf idOf r) = none) :
    S3Refines
      ⟨w.mem.indexAdd (idOf r.identity) r.id (S3Calls.entryOf idOf r),
        w.bucket.insert (objectKey (keyOf idOf r) r.expiresAt) (marshal r)⟩
      (m.insert r) (keyOf idOf r :: put) where
  counts := by
    have hput : Tallies (entryFrom (keyOf idOf r :: put)) w.mem.accounts m.held := by
      refine h.counts.congr_entries fun k r' hr' => ?_
      have hne : k ≠ keyOf idOf r := by
        rintro rfl
        rw [hfresh] at hr'
        cases hr'
      simp [entryFrom, hne]
    have hadd := hput.add (idOf r.identity) r.id r hfresh
    have hentry : entryFrom (keyOf idOf r :: put) (idOf r.identity, r.id) r =
        S3Calls.entryOf idOf r := by
      simp [entryFrom, S3Calls.entryOf, keyOf]
    rw [hentry] at hadd
    exact hadd
  present := fun k r' hr' => by
    rw [Model.insert, lookup_insert_eq] at hr'
    rw [lookup_insert_eq]
    split at hr'
    next hk =>
      cases hr'
      rw [hk, if_pos rfl]
    next hk =>
      rw [if_neg fun hsame => hk (objectKey_inj hsame)]
      exact h.present k r' hr'
  only := fun key hkey => by
    rw [lookup_insert_eq] at hkey
    split at hkey
    next hsame => exact ⟨keyOf idOf r, r, AList.lookup_insert _, hsame⟩
    next =>
      obtain ⟨k, r', hr', hk⟩ := h.only key hkey
      refine ⟨k, r', ?_, hk⟩
      rw [Model.insert, lookup_insert_eq, if_neg]
      · exact hr'
      · rintro rfl
        rw [hfresh] at hr'
        cases hr'

theorem S3Refines.drop (h : S3Refines w m put) {k : Key} {r : Record}
    (hr : m.held.lookup k = some r) :
    S3Refines
      ⟨{ w.mem with accounts := w.mem.accounts.drop k.1 k.2 r.size },
        w.bucket.erase (objectKey k r.expiresAt)⟩
      (m.erase k) put where
  counts := h.counts.drop k.1 k.2 r hr
  present := fun k' r' hr' => by
    rw [Model.erase, lookup_erase_eq] at hr'
    rw [lookup_erase_eq]
    split at hr'
    next => cases hr'
    next hk =>
      rw [if_neg fun hsame => hk (objectKey_inj hsame)]
      exact h.present k' r' hr'
  only := fun key hkey => by
    rw [lookup_erase_eq] at hkey
    split at hkey
    next => cases hkey
    next hne =>
      obtain ⟨k', r', hr', hk⟩ := h.only key hkey
      refine ⟨k', r', ?_, hk⟩
      rw [Model.erase, lookup_erase_eq, if_neg]
      · exact hr'
      · rintro rfl
        rw [hr] at hr'
        cases hr'
        exact hne hk

theorem S3Refines.entry (h : S3Refines w m put) (k : Key) :
    w.mem.accounts.entry k.1 k.2 = (m.held.lookup k).map (entryFrom put k) :=
  h.counts.entry k.1 k.2

/-- The removal of a record, or of none. -/
theorem deleteKey_holds (h : S3Refines w m put) (k : Key) :
    Holds S3Calls.Serves (fun _ _ => True)
      (fun res w' => res = (m.delete k).1 ∧ S3Refines w' (m.delete k).2 put)
      (deleteKey k.1 k.2) w := by
  unfold Model.delete
  refine ⟨trivial, fun e w₁ hserves => ?_⟩
  cases hserves
  rw [h.entry]
  cases hr : m.held.lookup k with
  | none => exact ⟨rfl, h⟩
  | some r =>
      refine ⟨trivial, fun _ w₂ hdeleted => ?_⟩
      cases hdeleted
      refine ⟨trivial, fun _ w₃ hdropped => ?_⟩
      cases hdropped
      exact ⟨rfl, h.drop hr⟩

/-- A lookup finds the entry of a live record, and drops one that has expired. -/
theorem lookup_holds (h : S3Refines w m put) (pub : PubKey) (bid : BlobID) (now : Int64) :
    Holds S3Calls.Serves (fun _ _ => True)
      (fun res w' => S3Refines w' (m.get (idOf pub, bid) now).2 put ∧
        match (m.get (idOf pub, bid) now).1 with
        | .error e => res = .error e
        | .ok r => res = .ok (entryFrom put (idOf pub, bid) r) ∧
            m.held.lookup (idOf pub, bid) = some r ∧ w' = w)
      (S3Calls.lookup idOf pub bid now) w := by
  unfold Model.get
  refine ⟨trivial, fun e w₁ hserves => ?_⟩
  cases hserves
  rw [h.entry (idOf pub, bid)]
  cases hr : m.held.lookup (idOf pub, bid) with
  | none => exact ⟨h, rfl⟩
  | some r =>
      dsimp only
      change Holds _ _ _ (if r.expiresAt ≤ now then _ else _) w
      split
      next =>
        rw [holds_bind]
        refine (deleteKey_holds h (idOf pub, bid)).imp fun _ w₂ hdeleted => ?_
        rw [Model.delete, hr] at hdeleted
        exact ⟨hdeleted.2, rfl⟩
      next => exact ⟨h, rfl, rfl, rfl⟩

theorem get_holds (h : S3Refines w m put) (hfits : Fits maxPayload m) (pub : PubKey) (bid : BlobID)
    (now : Int64) :
    Holds S3Calls.Serves (fun _ _ => True)
      (fun res w' => res = (m.get (idOf pub, bid) now).1 ∧
        S3Refines w' (m.get (idOf pub, bid) now).2 put)
      (S3Calls.get idOf maxPayload pub bid now) w := by
  rw [S3Calls.get, holds_bind]
  refine (lookup_holds h pub bid now).imp fun res w₁ hfound => ?_
  obtain ⟨hw₁, hres⟩ := hfound
  cases hget : (m.get (idOf pub, bid) now).1 with
  | error e =>
      rw [hget] at hres
      rw [hres]
      exact ⟨rfl, hw₁⟩
  | ok r =>
      rw [hget] at hres
      obtain ⟨rfl, hr, rfl⟩ := hres
      obtain ⟨hlimit, hlt⟩ := hfits _ r hr
      refine ⟨trivial, fun body w₂ hserves => ?_⟩
      cases hserves
      have hbody : w₁.bucket.lookup (entryFrom put (idOf pub, bid) r).key = some _ :=
        h.present _ r hr
      rw [hbody]
      exact ⟨unmarshal_marshal_of_lt r maxPayload hlimit hlt, hw₁⟩

theorem S3Refines.has (h : S3Refines w m put) {k : Key} {r : Record}
    (hr : m.held.lookup k = some r) : Ranges.S3Has w k r := by
  refine ⟨entryFrom put k r, ?_, rfl, rfl, h.present k r hr⟩
  rw [h.entry, hr, Option.map_some]

theorem getRange_holds (h : S3Refines w m put) (pub : PubKey) (bid : BlobID) (start stop : ℤ)
    (now : Int64) :
    Holds S3Calls.Serves (fun _ _ => True)
      (fun res w' => res = (m.getRange (idOf pub, bid) start stop now).1 ∧
        S3Refines w' (m.getRange (idOf pub, bid) start stop now).2 put)
      (S3Calls.getRange idOf pub bid start stop now) w := by
  have hlookup := lookup_holds h pub bid now
  unfold Model.getRange
  cases hget : m.get (idOf pub, bid) now with
  | mk out m' =>
      rw [hget] at hlookup
      cases out with
      | error e =>
          rw [S3Calls.getRange, holds_bind]
          refine hlookup.imp fun res w₁ hfound => ?_
          obtain ⟨hw₁, hres⟩ := hfound
          rw [show res = .error e from hres]
          exact ⟨rfl, hw₁⟩
      | ok r =>
          obtain ⟨hr, hlive, hm'⟩ := get_eq_ok hget
          rw [hm']
          refine (Ranges.s3GetRange_holds (h.has hr) hlive start stop).imp fun res w' hres => ?_
          exact ⟨hres.1, by rw [hres.2]; exact h⟩

/-- The first phase of a put of a record that fits the caps. -/
theorem check_eq (h : S3Refines w m put) {r : Record} {cap : ℤ}
    (hcap : totalBytesOf m.held + r.size ≤ cap) :
    w.mem.accounts.check (idOf r.identity) r.id r.size cap cap =
      if (m.held.lookup (keyOf idOf r)).isSome then .error .exists else .ok () := by
  have hentry : (w.mem.accounts.entry (idOf r.identity) r.id).isSome =
      (m.held.lookup (keyOf idOf r)).isSome := by
    rw [h.counts.entry, Option.isSome_map]
    rfl
  have husage : ¬ (w.mem.accounts.usage.lookup (idOf r.identity)).any
      (fun u => u.bytes + r.size > cap) = true := by
    rw [Option.any_eq_true]
    rintro ⟨u, hu, hover⟩
    have hbytes : u = usageOf m.held (idOf r.identity) := by
      rw [← h.counts.usage, Accounts.usageID, hu]
      rfl
    have hle := usageOf_le_totalBytesOf m.held (idOf r.identity)
    have hover := of_decide_eq_true hover
    rw [hbytes] at hover
    omega
  have htotal : ¬ w.mem.accounts.totalBytes + r.size > cap := by
    rw [h.counts.total]
    omega
  rw [Accounts.check, hentry, if_neg husage, if_neg htotal]

theorem put_holds (h : S3Refines w m put) (r : Record)
    (hcap : totalBytesOf m.held + r.size ≤ 2 ^ 62) :
    Holds S3Calls.Serves (fun _ _ => True)
      (fun res w' => res = (m.put r).1 ∧
        S3Refines w' (m.put r).2 (if res = .ok () then keyOf idOf r :: put else put))
      (ofParts (putWithin idOf r (2 ^ 62) (2 ^ 62))) w := by
  unfold Model.put
  refine ⟨trivial, fun checked w₁ hserves => ?_⟩
  cases hserves with
  | part hchecked hlands =>
      cases hchecked
      rw [check_eq h hcap]
      cases hr : m.held.lookup (keyOf idOf r) with
      | some r' => exact ⟨rfl, h⟩
      | none =>
          refine ⟨trivial, fun stored w₂ hserves => ?_⟩
          cases hserves with
          | part hstored hlands =>
              cases hstored with
              | putFailed => cases hlands
              | putLost => cases hlands
              | putObject =>
                  refine ⟨trivial, fun _ w₃ hserves => ?_⟩
                  cases hserves with
                  | part hadded _ =>
                      cases hadded
                      exact ⟨rfl, h.add r hr⟩

/-- A sweep drops the expired records, in any order. -/
theorem sweep_holds (h : S3Refines w m put) (now : Int64) :
    Holds S3Calls.Serves (fun _ _ => True)
      (fun n w' => n = (m.sweep now).1 ∧ S3Refines w' (m.sweep now).2 put)
      (S3Calls.sweep now) w := by
  have hremove : ∀ (dead : List Key) {w : World} {m : Model idOf}, S3Refines w m put →
      Holds S3Calls.Serves (fun _ _ => True) (fun _ w' => S3Refines w' (m.eraseAll dead) put)
        (removeAll dead) w := by
    intro dead
    induction dead with
    | nil => exact fun h => h
    | cons k dead ih =>
        intro w m h
        rw [removeAll, List.forM_cons, holds_bind, holds_bind]
        refine (deleteKey_holds h k).imp fun _ w₁ hdeleted => ?_
        refine ih (m := m.erase k) (hdeleted.2.congr fun k' => ?_)
        rw [lookup_delete, Model.erase, lookup_erase_eq]
  refine ⟨trivial, fun dead w₁ hserves => ?_⟩
  cases hserves with
  | expired _ _ _ hdead =>
      have hperm : dead.Perm (m.expiredKeys now) := by
        refine hdead.trans ((List.perm_ext_iff_of_nodup (Accounts.nodup_keysWhere _ _)
          (nodup_keysWhere _ _)).mpr fun k => ?_)
        change _ ↔ k ∈ m.expiredKeys now
        rw [Accounts.mem_keysWhere, mem_expiredKeys, h.entry]
        cases hr : m.held.lookup k with
        | none => simp
        | some r =>
            simp only [Option.map_some, Option.some.injEq, exists_eq_left', decide_eq_true_eq]
            exact Iff.rfl
      change Holds _ _ _ (removeAll dead >>= _) w
      rw [holds_bind]
      refine (hremove dead h).imp fun _ w₂ hswept => ?_
      refine ⟨hperm.length_eq, hswept.congr fun k => ?_⟩
      rw [Model.sweep, lookup_eraseAll, lookup_eraseAll]
      simp only [hperm.mem_iff]

/-- A change of other fields goes through the order by id. -/
theorem map_sortMetas {f : ListMeta → ListMeta} (hid : ∀ a, (f a).id = a.id)
    (metas : List ListMeta) : (sortMetas metas).map f = sortMetas (metas.map f) := by
  refine List.map_mergeSort fun a _ b _ => ?_
  rw [hid, hid]

/-- The listing of an owner with the signatures that the index has. -/
theorem s3List_eq (h : S3Refines w m put) (pub : PubKey) (now : Int64) :
    s3List idOf w.mem pub now = (m.list (idOf pub) now).map fun a =>
      { a with sig := if (idOf pub, a.id) ∈ put then a.sig else zeroSig } := by
  let seen : ListMeta → ListMeta := fun a =>
    { a with sig := if (idOf pub, a.id) ∈ put then a.sig else zeroSig }
  have hagree : ∀ bid, (((w.mem.accounts.index.lookup (idOf pub)).getD ∅).lookup bid).map
      (fun e => (decide ¬ e.expiresAt ≤ now, s3ListMeta bid e)) =
        (m.held.lookup (idOf pub, bid)).map
          fun r => (decide ¬ r.expiresAt ≤ now, seen (Model.listMeta r)) := by
    intro bid
    change ((w.mem.accounts.inner (idOf pub)).lookup bid).map _ = _
    rw [Accounts.lookup_inner, h.counts.entry]
    cases hr : m.held.lookup (idOf pub, bid) with
    | none => rfl
    | some r =>
        have hkey : bid = r.id := congrArg Prod.snd (m.keyed _ r hr)
        simp only [Option.map_some, s3ListMeta, entryFrom, Model.listMeta, Record.size,
          add_sub_cancel_left, seen]
        rw [hkey]
  have hlist := sortMetas_entries (idOf pub) _ (fun r => decide ¬ r.expiresAt ≤ now) _
    (fun _ r => seen (Model.listMeta r)) (fun _ _ => rfl) hagree
  have hmap : (m.list (idOf pub) now).map seen = sortMetas (((pairs m.held).filter
      fun p => p.1.1 = idOf pub ∧ ¬ p.2.expiresAt ≤ now).map
        fun p => seen (Model.listMeta p.2)) := by
    rw [Model.list, map_sortMetas (f := seen) fun _ => rfl, List.map_map]
    rfl
  rw [hmap]
  simp only [decide_eq_true_eq] at hlist
  exact hlist

theorem restarted_refines (h : S3Refines w m put) {objs : List (String × ℤ)}
    (hobjs : objs.Perm (listing w.bucket)) :
    S3Refines ⟨load maxPayload objs, w.bucket⟩ m [] where
  counts := by
    have hof : ∀ o ∈ objs, ∃ k r, m.held.lookup k = some r ∧
        o = (objectKey k r.expiresAt, r.size) := by
      intro o ho
      obtain ⟨⟨key, body⟩, hkey, rfl⟩ := List.mem_map.mp (hobjs.subset ho)
      have hbody := mem_pairs.mp hkey
      obtain ⟨k, r, hr, rfl⟩ := h.only key (by rw [hbody]; rfl)
      rw [h.present k r hr] at hbody
      cases hbody
      exact ⟨k, r, hr, by rw [length_marshal]⟩
    have hnames : (listing w.bucket).map Prod.fst = w.bucket.keys := by
      rw [listing, List.map_map, ← map_fst_pairs]
      rfl
    have hnodup : (objs.map Prod.fst).Nodup := by
      rw [(hobjs.map Prod.fst).nodup_iff, hnames]
      exact w.bucket.keys_nodup
    have htallies : Tallies (entryFrom []) (load maxPayload objs).accounts (loaded m objs) :=
      load_tallies hof hnodup
    refine htallies.congr fun k => ?_
    rw [loaded, lookup_select]
    cases hr : m.held.lookup k with
    | none => rfl
    | some r =>
        refine if_pos (decide_eq_true ?_)
        rw [(hobjs.map Prod.fst).mem_iff, hnames]
        exact AList.mem_keys.mp (AList.lookup_isSome.mp (by rw [h.present k r hr]; rfl))
  present := h.present
  only := h.only

theorem sameMetas_map (seen : Seen) (owner : IdentityID) (metas : List ListMeta) :
    List.Forall₂ (SameMeta seen owner) metas (metas.map fun a =>
      { a with sig := if (owner, a.id) ∈ seen.put then a.sig else zeroSig }) := by
  rw [List.forall₂_map_right_iff, List.forall₂_same]
  intro a _
  exact ⟨rfl, rfl, rfl, fun hput => if_pos hput, fun hput _ => if_neg hput⟩

/-- A call of the object backend answers as the map does, listings with the
signatures that the index has. -/
theorem s3Program_holds {seen : Seen} (h : S3Refines w m seen.put) (hfits : Fits maxPayload m) (c : Call)
    (hcap : totalBytesOf m.held + putBytes c ≤ 2 ^ 62) :
    Holds S3Calls.Serves (fun _ _ => True)
      (fun result w' => SameResult idOf seen c (answer m c).1 result ∧
        S3Refines w' (answer m c).2 (putAfter idOf seen.put c (answer m c).1))
      (s3Program idOf maxPayload w.mem c) w := by
  cases c with
  | put r =>
      rw [s3Program, holds_map]
      refine (put_holds h r hcap).imp fun res w' hres => ?_
      obtain ⟨rfl, hw'⟩ := hres
      refine ⟨rfl, ?_⟩
      change S3Refines w' (m.put r).2 (putAfter idOf seen.put (.put r) (.done (m.put r).1))
      cases hput : (m.put r).1 with
      | ok =>
          rw [hput, if_pos rfl] at hw'
          exact hw'
      | error e =>
          rw [hput, if_neg nofun] at hw'
          exact hw'
  | get pub bid now =>
      rw [s3Program, holds_map]
      exact (get_holds h hfits pub bid now).imp fun res w' hres =>
        ⟨congrArg Result.record hres.1.symm, hres.2⟩
  | getRange pub bid start stop now =>
      rw [s3Program, holds_map]
      exact (getRange_holds h pub bid start stop now).imp fun res w' hres =>
        ⟨congrArg Result.range hres.1.symm, hres.2⟩
  | list pub now =>
      refine ⟨?_, h⟩
      change List.Forall₂ _ (m.list (idOf pub) now) (s3List idOf w.mem pub now)
      rw [s3List_eq h]
      exact sameMetas_map seen (idOf pub) _
  | delete pub bid =>
      rw [s3Program, holds_map]
      exact (deleteKey_holds h (idOf pub, bid)).imp fun res w' hres =>
        ⟨congrArg Result.done hres.1.symm, hres.2⟩
  | sweep now =>
      rw [s3Program, holds_map]
      exact (sweep_holds h now).imp fun n w' hn => ⟨congrArg Result.count hn.1.symm, hn.2⟩
  | usage pub => exact ⟨congrArg Result.usage (h.counts.usage (idOf pub)).symm, h⟩
  | totalBytes => exact ⟨congrArg Result.bytes h.counts.total.symm, h⟩

end Operations

section Agreeing

theorem agree_of_refines (seen : Seen) {x y : FS × Disk} {w' : World} {events events' : List Event}
    (hrun : Runs (Step idOf maxPayload) x events y)
    (hx : Refines idOf maxPayload x.1 x.2 m) (hw : S3Refines w m seen.put)
    (hrun' : Runs (S3Step idOf maxPayload) w events' w')
    (hsame : events.map input = events'.map input)
    (hfits : ∀ e ∈ events, e.WithinLimit maxPayload ∧ e.FitsHeader)
    (hbytes : totalBytesOf m.held + (events.map fun e => inputBytes (input e)).sum ≤ 2 ^ 62) :
    Agree idOf seen events events' := by
  induction hrun generalizing m w seen events' with
  | nil =>
      rw [List.map_nil, eq_comm, List.map_eq_nil_iff] at hsame
      subst hsame
      exact .nil seen
  | @cons x x' y e es hstep hrest ih =>
      cases hrun' with
      | nil => cases hsame
      | @cons _ w₁ _ e' es' hstep' hrest' =>
          obtain ⟨hinput, hinputs⟩ := List.cons.inj hsame
          have hrestfits : ∀ e ∈ es, e.WithinLimit maxPayload ∧ e.FitsHeader := fun e he =>
            hfits e (List.mem_cons_of_mem _ he)
          obtain ⟨m', hmodel, hx'⟩ := step_simulates hx (hfits e List.mem_cons_self) hstep
          rw [List.map_cons, List.sum_cons] at hbytes
          cases hmodel with
          | stopped => cases hstep' <;> cases hinput
          | restarted =>
              cases hstep' with
              | call => cases hinput
              | restarted objs hobjs =>
                  refine .restarted (ih _ hx' (restarted_refines hw hobjs) hrest' hinputs hrestfits ?_)
                  change totalBytesOf m.held + (0 + _) ≤ _ at hbytes
                  rwa [Int.zero_add] at hbytes
          | call c =>
              cases hstep' with
              | restarted => cases hinput
              | call hexec =>
                  cases hinput
                  change totalBytesOf m.held + (putBytes c + _) ≤ _ at hbytes
                  have hrestbytes : 0 ≤ (es.map fun e => inputBytes (input e)).sum :=
                    List.sum_nonneg fun n hn => by
                      obtain ⟨e, _, rfl⟩ := List.mem_map.mp hn
                      exact inputBytes_nonneg _
                  have hanswer := totalBytesOf_answer_le m c
                  obtain ⟨hresult, hw'⟩ :=
                    (s3Program_holds hw hx.fits c (by omega)).exec hexec
                  exact .call hresult (ih _ hx' hw' hrest' hinputs hrestfits (by omega))

theorem reopens_refines {x : FS × Disk} (hopen : Reopens idOf maxPayload emptyDisk x) :
    Refines idOf maxPayload x.1 x.2 (Model.empty : Model idOf) := by
  have hstores : Stores emptyDisk (Model.empty : Model idOf).held :=
    { present := fun _ _ h => by simp [Model.empty] at h
      only := fun _ _ h => by simp [emptyDisk] at h }
  exact hopen.refines hstores fun _ _ h => by simp [Model.empty] at h

/-- The backends are interchangeable up to the signatures of listings: over the
same calls and restarts from an empty directory and an empty bucket they return
the same, where a listing of the object backend has no signature for a blob that
was neither put nor asked for since the last start. -/
theorem backends_agree {x y : FS × Disk} {w : World} {events events' : List Event}
    (hopen : Reopens idOf maxPayload emptyDisk x) (hrun : Runs (Step idOf maxPayload) x events y)
    (hrun' : Runs (S3Step idOf maxPayload) ⟨load maxPayload [], ∅⟩ events' w)
    (hsame : events.map input = events'.map input)
    (hfits : ∀ e ∈ events, e.WithinLimit maxPayload ∧ e.FitsHeader)
    (hbytes : (events.map fun e => inputBytes (input e)).sum ≤ 2 ^ 62) :
    Agree idOf ⟨[], []⟩ events events' := by
  refine agree_of_refines ⟨[], []⟩ hrun (reopens_refines hopen)
    (S3Refines.empty maxPayload) hrun' hsame hfits ?_
  change 0 + _ ≤ _
  rwa [Int.zero_add]

/-- What an event may ask for in these runs. -/
def Input.Plain (maxPayload : ℤ) : Input → Prop
  | .call c => c.Fits maxPayload
  | .stopped _ => False
  | .restarted => True

/-- The events with the results of the map. -/
def results (m : Model idOf) : List Input → List Event
  | [] => []
  | .call c :: inputs => .call c (answer m c).1 :: results (answer m c).2 inputs
  | .stopped c :: inputs => .stopped c :: results m inputs
  | .restarted :: inputs => .restarted :: results m inputs

/-- The file-system backend runs on any inputs, with the results of the map. -/
theorem fs_runs {x : FS × Disk} (hx : Refines idOf maxPayload x.1 x.2 m) (inputs : List Input)
    (hinputs : ∀ i ∈ inputs, i.Plain maxPayload) :
    ∃ y, Runs (Step idOf maxPayload) x (results m inputs) y := by
  induction inputs generalizing x m with
  | nil => exact ⟨x, .nil x⟩
  | cons i inputs ih =>
      have hrest : ∀ i ∈ inputs, i.Plain maxPayload := fun i hi =>
        hinputs i (List.mem_cons_of_mem _ hi)
      have hi := hinputs i List.mem_cons_self
      cases i with
      | stopped c => exact hi.elim
      | call c =>
          obtain ⟨x', hstep, hx'⟩ := call_returns hx c hi
          obtain ⟨y, hrun⟩ := ih hx' hrest
          exact ⟨y, .cons hstep hrun⟩
      | restarted =>
          obtain ⟨⟨out, s⟩, d, hexec, hQ⟩ :=
            (openFS_holds hx.stores hx.fits).exists_exec fun s o _ => serves_total s o
          cases out with
          | error e => exact hQ.elim
          | ok =>
              have hx' : Refines idOf maxPayload s d m := hQ
              obtain ⟨y, hrun⟩ := ih (x := (s, d)) hx' hrest
              exact ⟨y, .cons (.restarted (.opened hexec)) hrun⟩

/-- The object backend runs on any inputs. -/
theorem s3_runs (w : World) (inputs : List Input) (hinputs : ∀ i ∈ inputs, i.Plain maxPayload) :
    ∃ events w', Runs (S3Step idOf maxPayload) w events w' ∧ events.map input = inputs := by
  induction inputs generalizing w with
  | nil => exact ⟨[], w, .nil w, rfl⟩
  | cons i inputs ih =>
      have hrest : ∀ i ∈ inputs, i.Plain maxPayload := fun i hi =>
        hinputs i (List.mem_cons_of_mem _ hi)
      have hi := hinputs i List.mem_cons_self
      cases i with
      | stopped c => exact hi.elim
      | call c =>
          have hany : ∀ (p : ObjProg Result) (w : World),
              Holds S3Calls.Serves (fun _ _ => True) (fun _ _ => True) p w := by
            intro p
            induction p with
            | ret a => exact fun _ => trivial
            | call o next ih => exact fun _ => ⟨trivial, fun ans w' _ => ih ans w'⟩
          obtain ⟨result, w₁, hexec, -⟩ := (hany (s3Program idOf maxPayload w.mem c) w).exists_exec
            fun w o _ => Ranges.s3Serves_total w o
          obtain ⟨es, w', hrun, hsame⟩ := ih w₁ hrest
          refine ⟨.call c result :: es, w', .cons (.call hexec) hrun, ?_⟩
          rw [List.map_cons, hsame]
          rfl
      | restarted =>
          obtain ⟨es, w', hrun, hsame⟩ := ih ⟨load maxPayload (listing w.bucket), w.bucket⟩ hrest
          refine ⟨.restarted :: es, w', .cons (.restarted w _ (List.Perm.refl _)) hrun, ?_⟩
          rw [List.map_cons, hsame]
          rfl

/-- A record with a signature of ones. -/
def signedRecord : Record :=
  { zeroRecord [7] with sig := ⟨List.replicate 64 1, rfl⟩ }

/-- A put, a new start and a listing. -/
def putRestartList : List Input :=
  [.call (.put signedRecord), .restarted, .call (.list zeroKey 0)]

theorem plain_putRestartList : ∀ i ∈ putRestartList, i.Plain 64 := by
  intro i hi
  simp only [putRestartList, List.mem_cons, List.not_mem_nil, or_false] at hi
  rcases hi with rfl | rfl | rfl
  · change ((1 : ℕ) : ℤ) ≤ 64 ∧ 1 < 2 ^ 32
    decide
  · trivial
  · trivial

/-- The events of these inputs on the file-system backend. -/
def listedEvents : List Event :=
  [.call (.put signedRecord) (.done (.ok ())), .restarted,
    .call (.list zeroKey 0) (.metas [Model.listMeta signedRecord])]

theorem results_putRestartList :
    results (.empty : Model zeroDigest) putRestartList = listedEvents := by
  have hlist : ((.empty : Model zeroDigest).insert signedRecord).list (zeroDigest zeroKey) 0 =
      [Model.listMeta signedRecord] := by
    have hpairs : pairs ((.empty : Model zeroDigest).insert signedRecord).held =
        [(keyOf zeroDigest signedRecord, signedRecord)] := rfl
    rw [Model.list, hpairs, sortMetas, List.filter_cons_of_pos (by decide), List.filter_nil]
    exact List.mergeSort_singleton _
  exact congrArg (fun metas => [Event.call (.put signedRecord) (.done (.ok ())), .restarted,
    .call (.list zeroKey 0) (.metas metas)]) hlist

theorem exists_listedEvents :
    ∃ x y w events', Reopens zeroDigest 64 emptyDisk x ∧
      Runs (Step zeroDigest 64) x listedEvents y ∧
      Runs (S3Step zeroDigest 64) ⟨load 64 [], ∅⟩ events' w ∧
      events'.map input = putRestartList := by
  obtain ⟨x, hopen, hx⟩ := reopens_emptyDisk zeroDigest 64
  obtain ⟨y, hrun⟩ := fs_runs hx putRestartList plain_putRestartList
  obtain ⟨events', w, hrun', hinputs⟩ :=
    s3_runs ⟨load 64 [], ∅⟩ putRestartList plain_putRestartList
  rw [results_putRestartList] at hrun
  exact ⟨x, y, w, events', hopen, hrun, hrun', hinputs⟩

theorem plain_listedEvents : ∀ e ∈ listedEvents, e.WithinLimit 64 ∧ e.FitsHeader := by
  intro e he
  simp only [listedEvents, List.mem_cons, List.not_mem_nil, or_false] at he
  rcases he with rfl | rfl | rfl
  · exact ⟨by change ((1 : ℕ) : ℤ) ≤ 64; decide, by change 1 < 2 ^ 32; decide⟩
  · exact ⟨trivial, trivial⟩
  · exact ⟨trivial, trivial⟩

theorem backends_agree_putRestartList :
    ∃ x y w events', Reopens zeroDigest 64 emptyDisk x ∧
      Runs (Step zeroDigest 64) x listedEvents y ∧
      Runs (S3Step zeroDigest 64) ⟨load 64 [], ∅⟩ events' w ∧
      Agree zeroDigest ⟨[], []⟩ listedEvents events' := by
  obtain ⟨x, y, w, events', hopen, hrun, hrun', hinputs⟩ := exists_listedEvents
  refine ⟨x, y, w, events', hopen, hrun, hrun', ?_⟩
  exact backends_agree hopen hrun hrun' hinputs.symm plain_listedEvents (by decide)

/-- After a new start the object backend lists the blob without its signature. -/
theorem s3_lists_without_signature :
    ∃ x y w events', Reopens zeroDigest 64 emptyDisk x ∧
      Runs (Step zeroDigest 64) x listedEvents y ∧
      Runs (S3Step zeroDigest 64) ⟨load 64 [], ∅⟩ events' w ∧
      listedEvents.map input = events'.map input ∧ listedEvents ≠ events' := by
  obtain ⟨x, y, w, events', hopen, hrun, hrun', hinputs⟩ := exists_listedEvents
  refine ⟨x, y, w, events', hopen, hrun, hrun', hinputs.symm, fun hsame => ?_⟩
  have hagree := agree_of_refines ⟨[], []⟩ hrun (reopens_refines hopen)
    (S3Refines.empty 64) hrun' hinputs.symm plain_listedEvents (by decide)
  rw [← hsame] at hagree
  cases hagree with
  | call _ hrest =>
      cases hrest with
      | restarted hlist =>
          cases hlist with
          | call hmetas _ =>
              have hmeta := (List.forall₂_cons.mp hmetas).1.unserved List.not_mem_nil List.not_mem_nil
              exact absurd hmeta (by decide)

end Agreeing

end Tactile.Relay.Backends

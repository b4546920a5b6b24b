import Mathlib.Data.List.Infix
import Tactile.Relay.FsFiles

/-!
What each method of the file-system store does to the records held, and what it
can leave on disk when it is stopped.
-/

namespace Tactile.Relay.FsMethods

open Tactile.Lib.Program Tactile.Lib.Script Tactile.Lib.FiniteMap Tactile.Lib.ByteString
open Tactile.Relay.Blob Tactile.Relay.FileSystem Tactile.Relay.FsStore Tactile.Relay.Oracle
open Tactile.Relay.Index Tactile.Relay.FsIndex Tactile.Relay.FsFiles

variable {s : FS} {d : Disk} {held : Held}

theorem writeTemp_meets (hs : Stores d held) {tmp : Path} (htmp : ¬ IsBlob tmp)
    (hempty : d.files.lookup tmp = some []) (r : Record) (id : IdentityID) :
    Meets Serves (Guard fun h => h = held ∨ h = held.insert (id, r.id) r)
      (fun _ s' d' => s' = s.indexAdd id r.id (entryOf r) ∧
        Stores d' (held.insert (id, r.id) r))
      (fun _ _ _ => False) (writeTemp tmp (blobPath id r.id) r id) s d := by
  have hnow : ∃ h, (h = held ∨ h = held.insert (id, r.id) r) ∧ Stores d h :=
    ⟨held, .inl rfl, hs⟩
  have hwritten : Stores { d with files := d.files.insert tmp (marshal r) } held :=
    hs.insert_other htmp _
  have hthen : ∃ h, (h = held ∨ h = held.insert (id, r.id) r) ∧
      Stores { d with files := d.files.insert tmp (marshal r) } h := ⟨held, .inl rfl, hwritten⟩
  rw [writeTemp, meets_bind, meets_orElse, meets_bind]
  refine disk_write ⟨hnow, fun file data h => by cases h; exact htmp⟩ ?_
  rw [hempty, Option.getD_some, List.nil_append]
  refine disk_sync ⟨hthen, fun _ _ h => by cases h⟩ ?_
  rw [meets_bind]
  refine disk_close ⟨hthen, fun _ _ h => by cases h⟩ ?_
  rw [meets_bind]
  refine disk_rename ⟨hthen, fun _ _ h => by cases h⟩ (AList.lookup_insert _) ?_
  exact ⟨rfl, (hwritten.erase_other htmp).add id r.id r⟩

/-- A put of a new record: the record is held afterwards, and a put that is
stopped leaves either all of it or nothing. -/
theorem putLocked_meets (hs : Stores d held) (r : Record) (id : IdentityID) :
    Meets Serves (Guard fun h => h = held ∨ h = held.insert (id, r.id) r)
      (fun _ s' d' => s' = s.indexAdd id r.id (entryOf r) ∧
        Stores d' (held.insert (id, r.id) r))
      (fun _ _ _ => False) (putLocked r id) s d := by
  have hdirs : Stores { d with dirs := (idDir id).inits ++ d.dirs } held :=
    hs.of_same fun _ _ => rfl
  have hmem : idDir id ∈ (idDir id).inits ++ d.dirs :=
    List.mem_append_left _ ((List.mem_inits _ _).mpr (List.prefix_refl _))
  rw [putLocked, meets_bind]
  refine disk_mkdirAll ⟨⟨held, .inl rfl, hs⟩, fun _ _ h => by cases h⟩ ?_
  rw [meets_bind]
  refine disk_createTemp ⟨⟨held, .inl rfl, hdirs⟩, fun _ _ h => by cases h⟩ hmem fun n _ => ?_
  have htmp := not_isBlob_temp (idDir id) n
  have hcreated := hdirs.insert_other htmp []
  rw [meets_bind, meets_outcome]
  refine (writeTemp_meets hcreated htmp (AList.lookup_insert _) r id).imp
    (fun _ s' d' h => ?_) fun _ _ _ h => h.elim
  obtain ⟨hs', hd'⟩ := h
  rw [meets_bind]
  refine ignored_remove ⟨⟨_, .inr rfl, hd'⟩, fun _ _ h => by cases h⟩ ?_ ?_
  · exact ⟨hs', hd'.erase_other htmp⟩
  · exact ⟨hs', hd'⟩

/-- The removal of a held record. -/
theorem deleteFile_meets (hs : Stores d held) {id : IdentityID} {bid : BlobID} {e : FsEntry}
    (he : s.entry id bid = some e) (hheld : (held.lookup (id, bid)).isSome) :
    Meets Serves (Guard fun h => h = held ∨ h = held.erase (id, bid))
      (fun _ s' d' => s' = s.indexDrop id bid e ∧ Stores d' (held.erase (id, bid)))
      (fun _ _ _ => False) (deleteFile id bid) s d := by
  obtain ⟨r, hr⟩ := Option.isSome_iff_exists.mp hheld
  have hfile := hs.present _ _ hr
  rw [deleteFile, meets_bind, meets_read]
  simp only [he]
  rw [meets_bind, meets_perform]
  refine ⟨⟨⟨held, .inl rfl, hs⟩, fun _ _ h => by cases h⟩, fun ans d' hserves => ?_⟩
  cases hserves with
  | remove => exact ⟨rfl, hs.drop id bid⟩
  | removeMissing _ _ hmissing =>
      rw [hfile] at hmissing
      cases hmissing

theorem deleteFile_absent {id : IdentityID} {bid : BlobID} (he : s.entry id bid = none)
    {G : Disk → DiskOp → Prop} :
    Meets Serves G (fun _ _ _ => False) (fun err s' d' => err = .notFound ∧ s' = s ∧ d' = d)
      (deleteFile id bid) s d := by
  rw [deleteFile, meets_bind, meets_read]
  simp only [he]
  exact ⟨rfl, rfl, rfl⟩

section Calls

variable {idOf : PubKey → IdentityID} {maxPayload : ℤ}

/-- The records of a map fit the store: within `maxPayload` and within the 32
bits of the header's payload length. -/
def Fits (maxPayload : ℤ) (m : Model idOf) : Prop :=
  ∀ k r, m.held.lookup k = some r →
    (r.payload.length : ℤ) ≤ maxPayload ∧ r.payload.length < 2 ^ 32

/-- An open store and its disk hold exactly the records of the map. -/
structure Refines (idOf : PubKey → IdentityID) (maxPayload : ℤ) (s : FS) (d : Disk)
    (m : Model idOf) : Prop where
  limit : s.maxPayload = maxPayload
  counts : Counts s m.held
  stores : Stores d m.held
  fits : Fits maxPayload m

variable {m : Model idOf}

theorem Refines.congr (h : Refines idOf maxPayload s d m) {m' : Model idOf}
    (hsame : ∀ k, m.held.lookup k = m'.held.lookup k) : Refines idOf maxPayload s d m' where
  limit := h.limit
  counts := h.counts.congr hsame
  stores := h.stores.congr hsame
  fits := fun k r hk => h.fits k r (by rw [hsame, hk])

theorem Refines.entry_some (h : Refines idOf maxPayload s d m) {id : IdentityID} {bid : BlobID}
    {r : Record} (hr : m.held.lookup (id, bid) = some r) : s.entry id bid = some (entryOf r) := by
  rw [h.counts.entry, hr]
  rfl

theorem Refines.entry_none (h : Refines idOf maxPayload s d m) {id : IdentityID} {bid : BlobID}
    (hr : m.held.lookup (id, bid) = none) : s.entry id bid = none := by
  rw [h.counts.entry, hr]
  rfl

/-- A method call behaves as a call on the map with the outcome `out`: it
returns the same, leaves the records of `out`, and when it is stopped leaves
the records from before or those of `out`. -/
def Behaves {α : Type} (idOf : PubKey → IdentityID) (maxPayload : ℤ) (m : Model idOf)
    (out : Except Err α × Model idOf) (method : FsMethod α) (s : FS) (d : Disk) : Prop :=
  Meets Serves (Guard fun h => h = m.held ∨ h = out.2.held)
    (fun a s' d' => out.1 = .ok a ∧ Refines idOf maxPayload s' d' out.2)
    (fun e s' d' => out.1 = .error e ∧ Refines idOf maxPayload s' d' out.2) method s d

theorem put_behaves (h : Refines idOf maxPayload s d m) (r : Record)
    (hfits : (r.payload.length : ℤ) ≤ maxPayload ∧ r.payload.length < 2 ^ 32) :
    Behaves idOf maxPayload m (m.put r) (put idOf r) s d := by
  have hentry : (s.entry (idOf r.identity) r.id).isSome = (m.held.lookup (keyOf idOf r)).isSome := by
    rw [h.counts.entry, Option.isSome_map]
    rfl
  rw [Behaves, put, meets_bind, meets_read, hentry, Model.put]
  by_cases hheld : (m.held.lookup (keyOf idOf r)).isSome
  · rw [if_pos hheld, if_pos hheld]
    exact ⟨rfl, h⟩
  · rw [if_neg hheld, if_neg hheld]
    have hfresh : m.held.lookup (keyOf idOf r) = none := by simpa using hheld
    refine (putLocked_meets h.stores r (idOf r.identity)).imp (fun _ s' d' hput => ?_)
      fun _ _ _ hfail => hfail.elim
    obtain ⟨rfl, hstores⟩ := hput
    refine ⟨rfl, h.limit, h.counts.add _ _ r hfresh, hstores, fun k r' hk => ?_⟩
    rw [Model.insert, lookup_insert_eq] at hk
    split at hk
    next =>
      cases hk
      exact hfits
    next => exact h.fits k r' hk

/-- Dropping a held record. -/
theorem drop_meets (h : Refines idOf maxPayload s d m) (k : Key) {r : Record}
    (hr : m.held.lookup k = some r) :
    Meets Serves (Guard fun h => h = m.held ∨ h = (m.erase k).held)
      (fun _ s' d' => Refines idOf maxPayload s' d' (m.erase k)) (fun _ _ _ => False)
      (deleteFile k.1 k.2) s d := by
  refine (deleteFile_meets h.stores (h.entry_some hr) (by rw [hr]; rfl)).imp
    (fun _ s' d' hdrop => ?_) fun _ _ _ hfail => hfail
  obtain ⟨rfl, hstores⟩ := hdrop
  refine ⟨h.limit, h.counts.drop _ _ r hr, hstores, fun k' r' hk' => ?_⟩
  rw [Model.erase, lookup_erase_eq] at hk'
  split at hk'
  next => cases hk'
  next => exact h.fits k' r' hk'

theorem delete_behaves (h : Refines idOf maxPayload s d m) (pub : PubKey) (bid : BlobID) :
    Behaves idOf maxPayload m (m.delete (idOf pub, bid)) (delete idOf pub bid) s d := by
  rw [Behaves, delete, Model.delete]
  cases hr : m.held.lookup (idOf pub, bid) with
  | none =>
      refine (deleteFile_absent (h.entry_none hr)).imp (fun _ _ _ hok => hok.elim)
        fun e s' d' herr => ?_
      obtain ⟨rfl, rfl, rfl⟩ := herr
      exact ⟨rfl, h⟩
  | some r => exact (drop_meets h _ hr).imp (fun _ _ _ hok => ⟨rfl, hok⟩) fun _ _ _ he => he.elim

theorem openBlob_meets (h : Refines idOf maxPayload s d m) (id : IdentityID) (bid : BlobID)
    (now : Int64) :
    Meets Serves (Guard fun h => h = m.held ∨ h = (m.get (id, bid) now).2.held)
      (fun file s' d' => (∃ r, (m.get (id, bid) now).1 = .ok r ∧ file = marshal r ∧
          m.held.lookup (id, bid) = some r) ∧
        Refines idOf maxPayload s' d' (m.get (id, bid) now).2)
      (fun e s' d' => (m.get (id, bid) now).1 = .error e ∧
        Refines idOf maxPayload s' d' (m.get (id, bid) now).2)
      (openBlob id bid now) s d := by
  rw [openBlob, meets_bind, meets_read, Model.get]
  cases hr : m.held.lookup (id, bid) with
  | none =>
      simp only [h.entry_none hr]
      exact ⟨rfl, h⟩
  | some r =>
      simp only [h.entry_some hr]
      by_cases hexpired : r.expiresAt ≤ now
      · have hexpired' : (entryOf r).expiresAt ≤ now := hexpired
        simp only [hexpired, hexpired', if_true]
        rw [meets_bind, meets_outcome]
        exact (drop_meets h (id, bid) hr).imp (fun _ _ _ hok => ⟨rfl, hok⟩) fun _ _ _ he => he.elim
      · have hexpired' : ¬ (entryOf r).expiresAt ≤ now := hexpired
        simp only [hexpired, hexpired', if_false]
        rw [meets_bind]
        refine ⟨⟨⟨_, .inl rfl, h.stores⟩, fun _ _ ho => by cases ho⟩, fun ans d' hserves => ?_⟩
        have hfile := h.stores.present _ _ hr
        cases hserves with
        | readFile _ _ data hdata =>
            rw [hfile] at hdata
            cases hdata
            exact ⟨⟨r, rfl, rfl, rfl⟩, h⟩
        | readMissing _ _ hmissing =>
            rw [hfile] at hmissing
            cases hmissing

theorem get_behaves (h : Refines idOf maxPayload s d m) (pub : PubKey) (bid : BlobID)
    (now : Int64) :
    Behaves idOf maxPayload m (m.get (idOf pub, bid) now) (get idOf pub bid now) s d := by
  rw [Behaves, FsStore.get, meets_bind, meets_read, meets_bind]
  refine (openBlob_meets h (idOf pub) bid now).imp (fun file s' d' hok => ?_) fun _ _ _ he => he
  obtain ⟨⟨r, hget, rfl, hr⟩, hrefines⟩ := hok
  obtain ⟨hlimit, hlt⟩ := h.fits _ r hr
  rw [h.limit, unmarshal_marshal_of_lt r maxPayload hlimit hlt]
  exact ⟨hget, hrefines⟩

/-- A range of a blob file is that range of the part of the payload that its
32-bit length covers. -/
theorem readRange_marshal (r : Record) (start stop : ℤ) :
    readRange (marshal r) start stop =
      Model.payloadRange (r.payload.take (r.payload.length % 2 ^ 32)) start stop := by
  have htotal : (UInt32.ofNat r.payload.length).toNat = r.payload.length % 2 ^ 32 :=
    UInt32.toNat_ofNat'
  have hle : r.payload.length % 2 ^ 32 ≤ r.payload.length := Nat.mod_le _ _
  rw [readRange, unmarshalHeader_marshal, Model.payloadRange]
  simp only [metaOf, htotal, List.length_take, Nat.min_eq_left hle]
  generalize r.payload.length % 2 ^ 32 = total at hle
  split
  next => rfl
  next hrange =>
    have hdrop : (marshal r).drop (headerSize + start.toNat) = r.payload.drop start.toNat := by
      rw [← List.drop_drop, marshal, ← length_header r, List.drop_left]
    have hlen : min (min stop total - start).toNat (r.payload.drop start.toNat).length =
        (min stop total - start).toNat := by
      rw [List.length_drop]
      omega
    have hmin : min (min stop total - start).toNat (total - start.toNat) =
        (min stop total - start).toNat := by omega
    rw [hdrop, hlen, Nat.sub_self, List.replicate_zero, List.append_nil, List.drop_take,
      List.take_take, hmin]

theorem getRange_behaves (h : Refines idOf maxPayload s d m) (pub : PubKey) (bid : BlobID)
    (start stop : ℤ) (now : Int64) :
    Behaves idOf maxPayload m
      (.ok (m.getRange (idOf pub, bid) start stop now).1,
        (m.getRange (idOf pub, bid) start stop now).2)
      (getRange idOf pub bid start stop now) s d := by
  have hmodel : (m.getRange (idOf pub, bid) start stop now).2 = (m.get (idOf pub, bid) now).2 := by
    rw [Model.getRange]
    split <;> simp_all
  rw [Behaves, getRange, meets_bind, meets_outcome, hmodel]
  refine (openBlob_meets h (idOf pub) bid now).imp (fun file s' d' hok => ?_)
    fun e s' d' herr => ?_
  · obtain ⟨⟨r, hget, rfl, hr⟩, hrefines⟩ := hok
    refine ⟨?_, hrefines⟩
    rw [readRange_marshal, Nat.mod_eq_of_lt (h.fits _ r hr).2, List.take_length, Model.getRange]
    split
    next heq => simp [heq] at hget
    next heq =>
      rw [heq] at hget
      cases hget
      rfl
  · refine ⟨?_, herr.2⟩
    rw [Model.getRange]
    split
    next heq =>
      rw [heq] at herr
      cases herr.1
      rfl
    next heq => simp [heq] at herr

theorem lookup_eraseAll (m : Model idOf) (ks : List Key) (k : Key) :
    (m.eraseAll ks).held.lookup k = if k ∈ ks then none else m.held.lookup k := by
  induction ks generalizing m with
  | nil => rfl
  | cons k' ks ih =>
      rw [Model.eraseAll, List.foldl_cons]
      change ((m.erase k').eraseAll ks).held.lookup k = _
      rw [ih, Model.erase, lookup_erase_eq]
      by_cases hks : k ∈ ks
      · simp [hks]
      · by_cases heq : k = k' <;> simp [hks, heq]

theorem mem_expired {now : Int64} {k : Key} :
    k ∈ expired s now ↔ ∃ e, s.entry k.1 k.2 = some e ∧ e.expiresAt ≤ now := by
  have hexpired : expired s now = s.accounts.keysWhere fun e => e.expiresAt ≤ now := rfl
  simp only [hexpired, Accounts.mem_keysWhere, decide_eq_true_eq, FS.entry]

theorem nodup_expired (s : FS) (now : Int64) : (expired s now).Nodup :=
  Accounts.nodup_keysWhere s.accounts _

theorem mem_expiredKeys {now : Int64} {k : Key} :
    k ∈ m.expiredKeys now ↔ ∃ r, m.held.lookup k = some r ∧ r.expiresAt ≤ now := by
  simp only [Model.expiredKeys, mem_keysWhere, decide_eq_true_eq]

/-- The sweep finds exactly the expired records of the map. -/
theorem expired_perm (h : Refines idOf maxPayload s d m) (now : Int64) :
    (expired s now).Perm (m.expiredKeys now) := by
  refine (List.perm_ext_iff_of_nodup (nodup_expired s now) (nodup_keysWhere _ _)).mpr fun k => ?_
  change k ∈ expired s now ↔ k ∈ m.expiredKeys now
  rw [mem_expired, mem_expiredKeys, h.counts.entry]
  cases hr : m.held.lookup (k.1, k.2) with
  | none => simp
  | some r =>
      simp only [Option.map_some, Option.some.injEq, exists_eq_left']
      exact Iff.rfl

theorem sweep_meets (h : Refines idOf maxPayload s d m) (now : Int64) {dead : List Key}
    (hdead : dead.Perm (expired s now)) :
    Meets Serves (Guard fun h => ∃ ks, (∀ k ∈ ks, k ∈ m.expiredKeys now) ∧
        h = (m.eraseAll ks).held)
      (fun n s' d' => (m.sweep now).1 = n ∧ Refines idOf maxPayload s' d' (m.sweep now).2)
      (fun _ _ _ => False) (sweep dead) s d := by
  have hperm := hdead.trans (expired_perm h now)
  have hnodup : dead.Nodup := hperm.nodup_iff.mpr (nodup_keysWhere _ _)
  rw [sweep, meets_bind]
  refine (meets_forM _ (fun pre s' d' => Refines idOf maxPayload s' d' (m.eraseAll pre)) dead s d h
    ?_).imp (fun _ s' d' hdone => ?_) fun _ _ _ he => he
  · intro pre k post hsplit s' d' hpre
    have hk : k ∈ m.expiredKeys now := hperm.subset (by simp [hsplit])
    have hfresh : k ∉ pre := by
      rw [hsplit] at hnodup
      exact fun hmem => (List.disjoint_of_nodup_append hnodup) hmem List.mem_cons_self
    obtain ⟨r, hr, _⟩ := mem_expiredKeys.mp hk
    have hheld : (m.eraseAll pre).held.lookup k = some r := by
      rw [lookup_eraseAll, if_neg hfresh, hr]
    have hstep : m.eraseAll (pre ++ [k]) = (m.eraseAll pre).erase k := by
      rw [Model.eraseAll, List.foldl_append]
      rfl
    have hsub : ∀ k' ∈ pre, k' ∈ m.expiredKeys now := fun k' hk' =>
      hperm.subset (by simp [hsplit, hk'])
    have hsub' : ∀ k' ∈ pre ++ [k], k' ∈ m.expiredKeys now := fun k' hk' =>
      hperm.subset (by
        rw [hsplit]
        rcases List.mem_append.mp hk' with hk' | hk'
        · exact List.mem_append_left _ hk'
        · rw [List.mem_singleton.mp hk']
          simp)
    rw [meets_bind, meets_outcome, hstep]
    refine (drop_meets hpre k hheld).mono ?_ (fun _ _ _ hok => hok) fun _ _ _ he => he.elim
    rintro d₀ o ⟨⟨hd, hor, hstores⟩, hwrite⟩
    refine ⟨⟨hd, ?_, hstores⟩, hwrite⟩
    rcases hor with rfl | rfl
    · exact ⟨pre, hsub, rfl⟩
    · exact ⟨pre ++ [k], hsub', by rw [hstep]⟩
  · refine ⟨hperm.length_eq.symm, hdone.congr fun k => ?_⟩
    rw [Model.sweep, lookup_eraseAll, lookup_eraseAll]
    simp only [hperm.mem_iff]

private theorem sortMetas_eq_of_perm {metas metas' : List ListMeta} (hperm : metas.Perm metas')
    (hid : ∀ a ∈ metas, ∀ b ∈ metas, a.id = b.id → a = b) : sortMetas metas = sortMetas metas' := by
  have hsorted : ∀ l : List ListMeta, (sortMetas l).Pairwise fun a b => a.id.val ≤ b.id.val := by
    intro l
    refine (List.pairwise_mergeSort ?_ ?_ l).imp fun h => of_decide_eq_true h
    · intro a b c hab hbc
      exact decide_eq_true (List.le_trans (of_decide_eq_true hab) (of_decide_eq_true hbc))
    · intro a b
      rcases List.le_total a.id.val b.id.val with h | h <;> simp [h]
  have hfrom : (sortMetas metas).Perm metas := List.mergeSort_perm _ _
  have hto : (sortMetas metas').Perm metas := (List.mergeSort_perm _ _).trans hperm.symm
  refine List.Perm.eq_of_pairwise (fun a b ha hb hab hba => ?_) (hsorted _) (hsorted _)
    (hfrom.trans hto.symm)
  exact hid a (hfrom.subset ha) b (hto.subset hb) (Subtype.ext (List.le_antisymm hab hba))

/-- A listing of an owner's entries is that of the records held, whatever the
entries are, when each entry says what its record does. -/
theorem sortMetas_entries {ε : Type} {inner : Dict BlobID ε} {held : Held} (owner : IdentityID)
    (live : ε → Bool) (live' : Record → Bool) (item : BlobID → ε → ListMeta)
    (item' : Key → Record → ListMeta) (hid : ∀ bid e, (item bid e).id = bid)
    (hagree : ∀ bid, (inner.lookup bid).map (fun e => (live e, item bid e)) =
      (held.lookup (owner, bid)).map fun r => (live' r, item' (owner, bid) r)) :
    sortMetas (((pairs inner).filter fun p => live p.2).map fun p => item p.1 p.2) =
      sortMetas (((pairs held).filter fun p => p.1.1 = owner ∧ live' p.2 = true).map
        fun p => item' p.1 p.2) := by
  let metas := ((pairs inner).filter fun p => live p.2).map fun p => item p.1 p.2
  let metas' := ((pairs held).filter fun p => p.1.1 = owner ∧ live' p.2 = true).map
    fun p => item' p.1 p.2
  have hto : ∀ bid e, inner.lookup bid = some e →
      ∃ r, held.lookup (owner, bid) = some r ∧ live' r = live e ∧
        item' (owner, bid) r = item bid e := by
    intro bid e he
    have hbid := hagree bid
    rw [he, Option.map_some, eq_comm, Option.map_eq_some_iff] at hbid
    obtain ⟨r, hr, hsame⟩ := hbid
    exact ⟨r, hr, (Prod.mk.inj hsame).1, (Prod.mk.inj hsame).2⟩
  have hfrom : ∀ bid r, held.lookup (owner, bid) = some r →
      ∃ e, inner.lookup bid = some e ∧ live e = live' r ∧ item bid e = item' (owner, bid) r := by
    intro bid r hr
    have hbid := hagree bid
    rw [hr, Option.map_some, Option.map_eq_some_iff] at hbid
    obtain ⟨e, he, hsame⟩ := hbid
    exact ⟨e, he, (Prod.mk.inj hsame).1, (Prod.mk.inj hsame).2⟩
  have hmem : ∀ m, m ∈ metas ↔ ∃ bid e, inner.lookup bid = some e ∧ live e ∧ item bid e = m := by
    intro m
    simp only [metas, List.mem_map, List.mem_filter, Prod.exists, mem_pairs, and_assoc]
  have hmem' : ∀ m, m ∈ metas' ↔ m ∈ metas := by
    intro m
    rw [hmem]
    simp only [metas', List.mem_map, List.mem_filter, Prod.exists, mem_pairs, decide_eq_true_eq]
    constructor
    · rintro ⟨id, bid, r, ⟨hr, rfl, hlive⟩, rfl⟩
      obtain ⟨e, he, hlive', hsame⟩ := hfrom bid r hr
      exact ⟨bid, e, he, hlive'.trans hlive, hsame⟩
    · rintro ⟨bid, e, he, hlive, rfl⟩
      obtain ⟨r, hr, hlive', hsame⟩ := hto bid e he
      exact ⟨owner, bid, r, ⟨hr, rfl, hlive'.trans hlive⟩, hsame⟩
  have hnodup : metas.Nodup := by
    refine List.Nodup.map_on (fun p hp q hq heq => ?_) ((nodup_pairs inner).filter _)
    have hbid : p.1 = q.1 := by
      rw [← hid p.1 p.2, ← hid q.1 q.2, heq]
    have hp' := mem_pairs.mp (List.mem_filter.mp hp).1
    have hq' := mem_pairs.mp (List.mem_filter.mp hq).1
    rw [hbid, hq'] at hp'
    exact Prod.ext hbid (Option.some.inj hp').symm
  have hkey : ∀ p ∈ pairs held, p.1.1 = owner → (item' p.1 p.2).id = p.1.2 := by
    rintro ⟨⟨id, bid⟩, r⟩ hp rfl
    obtain ⟨e, _, _, hsame⟩ := hfrom bid r (mem_pairs.mp hp)
    rw [← hsame, hid]
  have hnodup' : metas'.Nodup := by
    refine List.Nodup.map_on (fun p hp q hq heq => ?_) ((nodup_pairs held).filter _)
    obtain ⟨hp', hpo⟩ := List.mem_filter.mp hp
    obtain ⟨hq', hqo⟩ := List.mem_filter.mp hq
    have hpo := (of_decide_eq_true hpo).1
    have hqo := (of_decide_eq_true hqo).1
    have hsame : p.1 = q.1 := by
      refine Prod.ext (hpo.trans hqo.symm) ?_
      rw [← hkey p hp' hpo, ← hkey q hq' hqo, heq]
    have hp' := mem_pairs.mp hp'
    rw [hsame, mem_pairs.mp hq'] at hp'
    exact Prod.ext hsame (Option.some.inj hp').symm
  have hperm : metas.Perm metas' :=
    (List.perm_ext_iff_of_nodup hnodup hnodup').mpr fun m => (hmem' m).symm
  refine sortMetas_eq_of_perm hperm fun m hm m' hm' hsame => ?_
  obtain ⟨bid, e, he, _, rfl⟩ := (hmem m).mp hm
  obtain ⟨bid', e', he', _, rfl⟩ := (hmem m').mp hm'
  rw [hid, hid] at hsame
  subst hsame
  rw [he] at he'
  rw [Option.some.inj he']

/-- Listings agree. -/
theorem list_eq (h : Refines idOf maxPayload s d m) (pub : PubKey) (now : Int64) :
    list idOf s pub now = m.list (idOf pub) now := by
  have hagree : ∀ bid, (((s.accounts.index.lookup (idOf pub)).getD ∅).lookup bid).map
      (fun e => (decide ¬ e.expiresAt ≤ now, e.listMeta bid)) =
        (m.held.lookup (idOf pub, bid)).map
          fun r => (decide ¬ r.expiresAt ≤ now, Model.listMeta r) := by
    intro bid
    change ((s.accounts.inner (idOf pub)).lookup bid).map _ = _
    rw [Accounts.lookup_inner, ← FS.entry, h.counts.entry]
    cases hr : m.held.lookup (idOf pub, bid) with
    | none => rfl
    | some r =>
        have hkey := congrArg Prod.snd (m.keyed _ r hr)
        simp only [Option.map_some, FsEntry.listMeta, entryOf, Model.listMeta, Record.size,
          add_sub_cancel_left]
        rw [show bid = r.id from hkey]
  have hlist := sortMetas_entries (idOf pub) _ (fun r => decide ¬ r.expiresAt ≤ now) _
    (fun _ r => Model.listMeta r) (fun _ _ => rfl) hagree
  simp only [decide_eq_true_eq] at hlist
  exact hlist

end Calls

end Tactile.Relay.FsMethods

import Tactile.Relay.FsMethods

/-!
Opening a store from its directory: the scan of the headers finds exactly the
records that the blob files hold.
-/

namespace Tactile.Relay.FsRecovery

open Tactile.Lib.Program Tactile.Lib.Script Tactile.Lib.FiniteMap Tactile.Lib.ByteString
open Tactile.Relay.Blob Tactile.Relay.FileSystem Tactile.Relay.FsStore Tactile.Relay.Oracle
open Tactile.Relay.FsIndex Tactile.Relay.FsFiles Tactile.Relay.FsMethods

variable {idOf : PubKey → IdentityID} {maxPayload : ℤ} {m : Model idOf} {s : FS} {d : Disk}

/-- Midway through the scan the memory counts the records whose files have been
visited. -/
structure Scanned (maxPayload : ℤ) (m : Model idOf) (visited : List Path) (s : FS) (d : Disk) :
    Prop where
  limit : s.maxPayload = maxPayload
  stores : Stores d m.held
  counts : ∃ held, Counts s held ∧
    ∀ k, held.lookup k = if blobPath k.1 k.2 ∈ visited then m.held.lookup k else none

theorem Scanned.skip {visited : List Path} (h : Scanned maxPayload m visited s d) {path : Path}
    (hother : ¬ IsBlob path) {d' : Disk} (hd' : Stores d' m.held) :
    Scanned maxPayload m (visited ++ [path]) s d' where
  limit := h.limit
  stores := hd'
  counts := by
    obtain ⟨held, hcounts, hlookup⟩ := h.counts
    refine ⟨held, hcounts, fun k => ?_⟩
    have hne : blobPath k.1 k.2 ≠ path := fun heq => hother (heq ▸ isBlob_blobPath _ _)
    rw [hlookup]
    simp only [List.mem_append, List.mem_singleton, hne, or_false]

/-- One blob file of the scan. -/
theorem Scanned.visit {visited : List Path} (h : Scanned maxPayload m visited s d) {k : Key}
    {r : Record} (hr : m.held.lookup k = some r) (hfresh : blobPath k.1 k.2 ∉ visited) :
    Scanned maxPayload m (visited ++ [blobPath k.1 k.2]) (s.indexAdd k.1 k.2 (entryOf r)) d where
  limit := h.limit
  stores := h.stores
  counts := by
    obtain ⟨held, hcounts, hlookup⟩ := h.counts
    have hnone : held.lookup (k.1, k.2) = none := by rw [hlookup, if_neg hfresh]
    refine ⟨held.insert k r, hcounts.add k.1 k.2 r hnone, fun k' => ?_⟩
    rw [lookup_insert_eq, hlookup]
    by_cases heq : k' = k
    · subst heq
      simp [hr]
    · have hne : blobPath k'.1 k'.2 ≠ blobPath k.1 k.2 := fun hpath => heq (blobPath_inj hpath)
      simp only [heq, if_false, List.mem_append, List.mem_singleton, hne, or_false]

theorem loadFile_meets (hfits : Fits maxPayload m) {visited : List Path}
    (h : Scanned maxPayload m visited s d) {path : Path} (hfresh : path ∉ visited)
    (hheld : IsBlob path → ∃ k r, m.held.lookup k = some r ∧ path = blobPath k.1 k.2) :
    Meets Serves (Guard fun h => h = m.held)
      (fun _ s' d' => Scanned maxPayload m (visited ++ [path]) s' d') (fun _ _ _ => False)
      (loadFile idOf path) s d := by
  have hguard : ∀ o, (∀ file data, o = .write file data → ¬ IsBlob file) →
      Guard (fun h => h = m.held) d o := fun o ho => ⟨⟨_, rfl, h.stores⟩, ho⟩
  rw [loadFile]
  by_cases hblob : IsBlob path
  · have hext : ¬ ext (path.getLastD "") ≠ ".blob" := fun hne => hne hblob
    simp only [if_neg hext]
    obtain ⟨k, r, hr, rfl⟩ := hheld hblob
    obtain ⟨_, hlt⟩ := hfits k r hr
    have hfile := h.stores.present k r hr
    rw [meets_bind]
    refine disk_readFile (hguard _ (fun _ _ ho => by cases ho)) hfile ?_
    have hsize : ((headerSize : ℕ) : ℤ) + ((UInt32.ofNat r.payload.length).toNat : ℕ) = r.size := by
      rw [UInt32.toNat_ofNat', Nat.mod_eq_of_lt hlt, Record.size]
    have hkey := m.keyed k r hr
    have hvisit := h.visit hr hfresh
    rw [hkey] at hvisit
    rw [unmarshalHeader_marshal]
    simp only [meets_update, metaOf, hsize]
    rw [hkey]
    exact hvisit
  · have hext : ext (path.getLastD "") ≠ ".blob" := hblob
    simp only [if_pos hext]
    split
    next =>
      refine ignored_remove (hguard _ fun _ _ ho => by cases ho) ?_ ?_
      · exact h.skip hblob (h.stores.erase_other hblob)
      · exact h.skip hblob h.stores
    next => exact h.skip hblob h.stores

/-- A store opened from a directory with the files of a map's records holds
exactly those records, and an opening that is stopped leaves them on disk. -/
theorem openFS_holds (hstores : Stores d m.held) (hfits : Fits maxPayload m) :
    Holds Serves (Guard fun h => h = m.held)
      (Outcome (fun _ s' d' => Refines idOf maxPayload s' d' m) fun _ _ _ => False)
      (openFS idOf maxPayload) d := by
  change Meets Serves _ _ _ (do disk (.mkdirAll []); load idOf) (FS.fresh maxPayload) d
  have hdirs : Stores { d with dirs := List.inits [] ++ d.dirs } m.held :=
    hstores.of_same fun _ _ => rfl
  rw [meets_bind]
  refine disk_mkdirAll ⟨⟨_, rfl, hstores⟩, fun _ _ ho => by cases ho⟩ ?_
  rw [load, meets_bind]
  refine ⟨⟨⟨_, rfl, hdirs⟩, fun _ _ ho => by cases ho⟩, fun ans d' hserves => ?_⟩
  cases hserves with
  | walkDir _ files hperm =>
      have hnodup : files.Nodup := hperm.nodup_iff.mpr d.files.keys_nodup
      have hstart : Scanned maxPayload m [] (FS.fresh maxPayload)
          { d with dirs := List.inits [] ++ d.dirs } :=
        ⟨rfl, hdirs, ∅, Counts.fresh maxPayload, fun k => by simp⟩
      change Meets Serves _ _ _ (forM files (loadFile idOf)) _ _
      refine (meets_forM _ (fun visited s' d' => Scanned maxPayload m visited s' d') files _ _ hstart
        ?_).imp (fun _ s' d' hdone => ?_) fun _ _ _ he => he
      · intro visited path rest hsplit s' d' hscanned
        have hfresh : path ∉ visited := by
          rw [hsplit] at hnodup
          exact fun hmem => (List.disjoint_of_nodup_append hnodup) hmem List.mem_cons_self
        have hpath : path ∈ d.files.keys := hperm.subset (by simp [hsplit])
        refine loadFile_meets hfits hscanned hfresh fun hblob => ?_
        obtain ⟨k, hk, heq⟩ := hstores.only path hblob (AList.lookup_isSome.mpr hpath)
        obtain ⟨r, hr⟩ := Option.isSome_iff_exists.mp hk
        exact ⟨k, r, hr, heq⟩
      · obtain ⟨held, hcounts, hlookup⟩ := hdone.counts
        refine ⟨hdone.limit, hcounts.congr fun k => ?_, hdone.stores, hfits⟩
        rw [hlookup]
        split
        next => rfl
        next hmissing =>
          cases hr : m.held.lookup k with
          | none => rfl
          | some r =>
              have hfile := hstores.present k r hr
              have hkey : blobPath k.1 k.2 ∈ d.files.keys :=
                AList.lookup_isSome.mp (by rw [hfile]; rfl)
              exact absurd (hperm.symm.subset hkey) hmissing

end Tactile.Relay.FsRecovery

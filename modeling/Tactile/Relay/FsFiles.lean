import Tactile.Relay.FsIndex

/-!
The blob files on disk agree with the records held, and the file operations of
the store keep them agreeing wherever it is stopped.
-/

namespace Tactile.Relay.FsFiles

open Tactile.Lib.Program Tactile.Lib.Script Tactile.Lib.FiniteMap Tactile.Lib.ByteString
open Tactile.Relay.Blob Tactile.Relay.FileSystem Tactile.Relay.FsStore Tactile.Relay.Oracle
open Tactile.Relay.FsIndex

/-- A path that the walk of `load` takes for a blob. -/
def IsBlob (path : Path) : Prop := ext (path.getLastD "") = ".blob"

theorem isBlob_blobPath (id : IdentityID) (bid : BlobID) : IsBlob (blobPath id bid) := by
  have hname : blobName bid = String.ofList (bid.val.flatMap hexByte ++ '.' :: "blob".toList) := by
    apply String.toList_injective
    simp [blobName, hexEncode]
  have hsuffix : '.' ∉ "blob".toList := by decide
  change ext (blobName bid) = ".blob"
  rw [hname, ext_of_dot _ _ hsuffix]
  rfl

theorem not_isBlob_temp (dir : Path) (n : ℕ) : ¬ IsBlob (dir ++ [tempName n]) := by
  have hsuffix : '.' ∉ "tmp-".toList ++ Nat.toDigits 10 n := by
    rw [List.mem_append, not_or]
    exact ⟨by decide, dot_notMem_digits n⟩
  have hext : ext (tempName n) = String.ofList ('.' :: ("tmp-".toList ++ Nat.toDigits 10 n)) :=
    ext_of_dot [] _ hsuffix
  intro h
  rw [IsBlob, List.getLastD_concat, hext] at h
  have htail := congrArg (fun name => name.toList.drop 1 |>.take 1) h
  simp at htail

theorem blobPath_inj {id id' : IdentityID} {bid bid' : BlobID}
    (h : blobPath id bid = blobPath id' bid') : (id, bid) = (id', bid') := by
  injection h with hid hrest
  injection hrest with hname
  have hbid : hexEncode bid.val = hexEncode bid'.val := by
    apply String.toList_injective
    have := congrArg String.toList hname
    simpa [blobName] using this
  rw [Subtype.ext (hexEncode_inj hid), Subtype.ext (hexEncode_inj hbid)]

/-- The blob files on disk are exactly the records held. -/
structure Stores (d : Disk) (held : Held) : Prop where
  present : ∀ k r, held.lookup k = some r → d.files.lookup (blobPath k.1 k.2) = some (marshal r)
  only : ∀ path, IsBlob path → (d.files.lookup path).isSome →
    ∃ k, (held.lookup k).isSome ∧ path = blobPath k.1 k.2

theorem Stores.of_same {d d' : Disk} {held : Held} (h : Stores d held)
    (hsame : ∀ path, IsBlob path → d'.files.lookup path = d.files.lookup path) :
    Stores d' held where
  present := fun k r hk => by
    rw [hsame _ (isBlob_blobPath _ _)]
    exact h.present k r hk
  only := fun path hblob hsome => by
    rw [hsame _ hblob] at hsome
    exact h.only path hblob hsome

theorem Stores.insert_other {d : Disk} {held : Held} (h : Stores d held) {path : Path}
    (hother : ¬ IsBlob path) (data : Bytes) :
    Stores { d with files := d.files.insert path data } held :=
  h.of_same fun _ hblob => AList.lookup_insert_ne fun heq => hother (heq ▸ hblob)

theorem Stores.erase_other {d : Disk} {held : Held} (h : Stores d held) {path : Path}
    (hother : ¬ IsBlob path) : Stores { d with files := d.files.erase path } held :=
  h.of_same fun _ hblob => AList.lookup_erase_ne fun heq => hother (heq ▸ hblob)

/-- The rename of a complete temp file. -/
theorem Stores.add {d : Disk} {held : Held} (h : Stores d held) (id : IdentityID) (bid : BlobID)
    (r : Record) :
    Stores { d with files := d.files.insert (blobPath id bid) (marshal r) }
      (held.insert (id, bid) r) where
  present := fun k r' hk => by
    rw [lookup_insert_eq] at hk
    rw [lookup_insert_eq]
    split at hk
    next heq =>
      cases hk
      rw [heq, if_pos rfl]
    next hne =>
      rw [if_neg fun heq => hne (blobPath_inj heq)]
      exact h.present k r' hk
  only := fun path hblob hsome => by
    by_cases heq : path = blobPath id bid
    · exact ⟨(id, bid), by simp, heq⟩
    · rw [AList.lookup_insert_ne heq] at hsome
      obtain ⟨k, hk, hpath⟩ := h.only path hblob hsome
      refine ⟨k, ?_, hpath⟩
      rw [lookup_insert_eq]
      split
      next => rfl
      next => exact hk

/-- The removal of a blob file. -/
theorem Stores.drop {d : Disk} {held : Held} (h : Stores d held) (id : IdentityID)
    (bid : BlobID) :
    Stores { d with files := d.files.erase (blobPath id bid) } (held.erase (id, bid)) where
  present := fun k r hk => by
    rw [lookup_erase_eq] at hk
    split at hk
    next => cases hk
    next hne =>
      rw [AList.lookup_erase_ne fun heq => hne (blobPath_inj heq)]
      exact h.present k r hk
  only := fun path hblob hsome => by
    by_cases heq : path = blobPath id bid
    · rw [heq, AList.lookup_erase] at hsome
      simp at hsome
    · rw [AList.lookup_erase_ne heq] at hsome
      obtain ⟨k, hk, hpath⟩ := h.only path hblob hsome
      refine ⟨k, ?_, hpath⟩
      rw [AList.lookup_erase_ne]
      · exact hk
      · rintro rfl
        exact heq hpath

theorem Stores.congr {d : Disk} {held held' : Held} (h : Stores d held)
    (hsame : ∀ k, held.lookup k = held'.lookup k) : Stores d held' where
  present := fun k r hk => h.present k r (by rw [hsame, hk])
  only := fun path hblob hsome => by
    obtain ⟨k, hk, hpath⟩ := h.only path hblob hsome
    exact ⟨k, by rw [← hsame]; exact hk, hpath⟩

/-- What must hold before each file operation so that the store may be stopped
there: the disk holds one of the allowed sets of records, and the operation
writes into no blob. -/
def Guard (allowed : Held → Prop) (d : Disk) (o : DiskOp) : Prop :=
  (∃ held, allowed held ∧ Stores d held) ∧ ∀ file data, o = .write file data → ¬ IsBlob file

theorem Guard.torn {allowed : Held → Prop} {d d' : Disk} {o : DiskOp} (h : Guard allowed d o)
    (htorn : Torn d o d') : ∃ held, allowed held ∧ Stores d' held := by
  obtain ⟨⟨held, hallowed, hstores⟩, hwrite⟩ := h
  refine ⟨held, hallowed, ?_⟩
  cases htorn with
  | untouched => exact hstores
  | write file data n => exact hstores.insert_other (hwrite file data rfl) _

section Operations

variable {G : Disk → DiskOp → Prop} {E : Err → FS → Disk → Prop} {s : FS} {d : Disk}

theorem disk_mkdirAll {dir : Path} {Q : Unit → FS → Disk → Prop} (hG : G d (.mkdirAll dir))
    (hQ : Q () s { d with dirs := dir.inits ++ d.dirs }) :
    Meets Serves G Q E (disk (.mkdirAll dir)) s d := by
  refine ⟨hG, ?_⟩
  rintro _ _ ⟨⟩
  exact hQ

theorem disk_createTemp {dir : Path} {Q : Path → FS → Disk → Prop} (hG : G d (.createTemp dir))
    (hdir : dir ∈ d.dirs)
    (hQ : ∀ n, d.files.lookup (dir ++ [tempName n]) = none → Q (dir ++ [tempName n]) s
      { d with files := d.files.insert (dir ++ [tempName n]) [] }) :
    Meets Serves G Q E (disk (.createTemp dir)) s d := by
  refine ⟨hG, fun ans d' hserves => ?_⟩
  cases hserves with
  | createTemp _ _ n _ hfree => exact hQ n hfree
  | createTempMissing _ _ hmissing => exact absurd hdir hmissing

theorem disk_write {file : Path} {data : Bytes} {Q : Unit → FS → Disk → Prop}
    (hG : G d (.write file data))
    (hQ : Q () s
      { d with files := d.files.insert file ((d.files.lookup file).getD [] ++ data) }) :
    Meets Serves G Q E (disk (.write file data)) s d := by
  refine ⟨hG, ?_⟩
  rintro _ _ ⟨⟩
  exact hQ

theorem disk_sync {file : Path} {Q : Unit → FS → Disk → Prop} (hG : G d (.sync file))
    (hQ : Q () s d) : Meets Serves G Q E (disk (.sync file)) s d := by
  refine ⟨hG, ?_⟩
  rintro _ _ ⟨⟩
  exact hQ

theorem disk_close {file : Path} {Q : Unit → FS → Disk → Prop} (hG : G d (.close file))
    (hQ : Q () s d) : Meets Serves G Q E (disk (.close file)) s d := by
  refine ⟨hG, ?_⟩
  rintro _ _ ⟨⟩
  exact hQ

theorem disk_rename {src dst : Path} {data : Bytes} {Q : Unit → FS → Disk → Prop}
    (hG : G d (.rename src dst)) (hsrc : d.files.lookup src = some data)
    (hQ : Q () s { d with files := (d.files.erase src).insert dst data }) :
    Meets Serves G Q E (disk (.rename src dst)) s d := by
  refine ⟨hG, fun ans d' hserves => ?_⟩
  cases hserves with
  | rename _ _ _ data' hdata =>
      rw [hsrc] at hdata
      cases hdata
      exact hQ
  | renameMissing _ _ _ hmissing =>
      rw [hsrc] at hmissing
      cases hmissing

theorem disk_readFile {file : Path} {data : Bytes} {Q : Bytes → FS → Disk → Prop}
    (hG : G d (.readFile file)) (hfile : d.files.lookup file = some data) (hQ : Q data s d) :
    Meets Serves G Q E (disk (.readFile file)) s d := by
  refine ⟨hG, fun ans d' hserves => ?_⟩
  cases hserves with
  | readFile _ _ data' hdata =>
      rw [hfile] at hdata
      cases hdata
      exact hQ
  | readMissing _ _ hmissing =>
      rw [hfile] at hmissing
      cases hmissing

theorem ignored_remove {file : Path} {Q : Unit → FS → Disk → Prop} (hG : G d (.remove file))
    (hQ : Q () s { d with files := d.files.erase file }) (hmissing : Q () s d) :
    Meets Serves G Q E (ignored (.remove file)) s d := by
  refine ⟨hG, fun ans d' hserves => ?_⟩
  cases hserves with
  | remove => exact hQ
  | removeMissing => exact hmissing

end Operations

end Tactile.Relay.FsFiles

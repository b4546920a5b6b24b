import Tactile.Relay.Backends
import Tactile.Relay.RelayClient

/-!
What an answer that a blob is stored is worth: whether the blob can be read at the
time of the answer, on both backends.
-/

namespace Tactile.Relay.StoredAnswers

open Tactile.Lib.Program Tactile.Lib.Script Tactile.Lib.FiniteMap Tactile.Lib.ByteString
open Tactile.Relay.Blob Tactile.Relay.Index Tactile.Relay.FileSystem Tactile.Relay.FsStore
open Tactile.Relay.Oracle Tactile.Relay.FsIndex Tactile.Relay.FsFiles Tactile.Relay.FsMethods
open Tactile.Relay.S3Store Tactile.Relay.S3Calls Tactile.Relay.Backends

/-- The answers of a put that the relay's clients take for stored. -/
def SaysStored (out : Except Err Unit) : Prop := out = .ok () ∨ out = .error .exists

/-- What a backend holds of a blob: the expiry in its index, and the file or the object
where there is one. -/
structure Copy where
  expiresAt : Int64
  file : Option Bytes

section Copies

/-- What both backends return of a blob. -/
def readCopy (maxPayload : ℤ) (now : Int64) : Option Copy → Except Err Record
  | none => .error .notFound
  | some c =>
    if c.expiresAt ≤ now then .error .expired
    else
      match c.file with
      | none => .error .notFound
      | some file => unmarshal file maxPayload

def Live (now : Int64) (out : Except Err Record) : Prop := ∃ r, out = .ok r ∧ now < r.expiresAt

/-- The index shows the blob as live, and what is stored reads as a live record. -/
def Copy.Readable (maxPayload : ℤ) (now : Int64) (c : Copy) : Prop :=
  now < c.expiresAt ∧
    ∃ file r, c.file = some file ∧ unmarshal file maxPayload = .ok r ∧ now < r.expiresAt

/-- A copy that is there already is readable; where there is none the new record is not
expired, and its length as its header shows it is within the limit. -/
def Keeps (maxPayload : ℤ) (now : Int64) (r : Record) : Option Copy → Prop
  | some c => c.Readable maxPayload now
  | none => now < r.expiresAt ∧ ((r.payload.length % 2 ^ 32 : ℕ) : ℤ) ≤ maxPayload

/-- The copy of a record that was written. -/
def copyOf (r : Record) : Copy := ⟨r.expiresAt, some (marshal r)⟩

variable {maxPayload : ℤ} {now : Int64}

theorem live_readCopy {c : Copy} :
    Live now (readCopy maxPayload now (some c)) ↔ c.Readable maxPayload now := by
  rw [readCopy, Copy.Readable]
  by_cases hexpired : c.expiresAt ≤ now
  · rw [if_pos hexpired]
    constructor
    · rintro ⟨r, hr, -⟩
      cases hr
    · rintro ⟨hlive, -⟩
      exact absurd hexpired (Int64.not_le.mpr hlive)
  · rw [if_neg hexpired]
    cases c.file with
    | none => simp [Live]
    | some file =>
        simp only [Live, Int64.not_le.mp hexpired, true_and, Option.some.injEq, exists_and_left,
          exists_eq_left']

theorem unmarshal_marshal_iff {r r' : Record} :
    unmarshal (marshal r) maxPayload = .ok r' ↔
      ((r.payload.length % 2 ^ 32 : ℕ) : ℤ) ≤ maxPayload ∧
        r' = { r with payload := r.payload.take (r.payload.length % 2 ^ 32) } := by
  have hmod : (UInt32.ofNat r.payload.length).toNat = r.payload.length % 2 ^ 32 :=
    UInt32.toNat_ofNat'
  have hle : r.payload.length % 2 ^ 32 ≤ r.payload.length := Nat.mod_le _ _
  have hrest : (marshal r).drop headerSize = r.payload := by
    rw [marshal, ← length_header r, List.drop_left]
  have hshort : ¬ r.payload.length < r.payload.length % 2 ^ 32 := by omega
  rw [unmarshal, unmarshalHeader_marshal]
  by_cases hlimit : ((r.payload.length % 2 ^ 32 : ℕ) : ℤ) > maxPayload
  · simp only [metaOf, hmod, Except.bind, bind, if_pos hlimit, throw, throwThe,
      MonadExceptOf.throw]
    constructor
    · intro h
      cases h
    · rintro ⟨hfits, -⟩
      omega
  · simp only [metaOf, hmod, hrest, Except.bind, bind, if_neg hlimit, if_neg hshort, pure,
      Except.pure, Except.ok.injEq]
    constructor
    · intro h
      exact ⟨by omega, h.symm⟩
    · rintro ⟨-, rfl⟩
      rfl

/-- A record that was written is readable before its expiry, within the limit. -/
theorem readable_copyOf {r : Record} :
    (copyOf r).Readable maxPayload now ↔ Keeps maxPayload now r none := by
  simp only [copyOf, Copy.Readable, Keeps, Option.some.injEq, exists_eq_left',
    unmarshal_marshal_iff, and_assoc, exists_and_left, exists_eq_left]
  tauto

end Copies

section Files

/-- A file system on which any operation may fail, with what a stopped one leaves. -/
inductive Faulty : Answers DiskOp DiskAns Disk
  | served {d d' : Disk} {o : DiskOp} {ans : DiskAns o} :
      FileSystem.Serves d o ans d' → Faulty d o ans d'
  | failed {d d' : Disk} {o : DiskOp} (e : Errno) : Torn d o d' → Faulty d o (.error e) d'

variable {s : FS} {d : Disk}

/-- The failures of the file system, which are not that a blob exists. -/
def IsIo (err : Err) (_ : FS) (_ : Disk) : Prop := ∃ e, err = .io e

theorem disk_faulty {o : DiskOp} {Q : DiskVal o → FS → Disk → Prop}
    (hok : ∀ val d', FileSystem.Serves d o (.ok val) d' → Q val s d') :
    Meets Faulty (fun _ _ => True) Q IsIo (disk o) s d := by
  rw [disk, meets_bind, meets_perform]
  refine ⟨trivial, fun ans d' hserves => (meets_ofExcept ..).mpr ⟨?_, fun e _ => ⟨e, rfl⟩⟩⟩
  rintro val rfl
  cases hserves with
  | served hserved => exact hok val d' hserved

theorem remove_faulty {file path : Path} {ans : DiskAns (.remove file)} {d' : Disk}
    (h : Faulty d (.remove file) ans d') (hne : path ≠ file) :
    d'.files.lookup path = d.files.lookup path := by
  rcases h with hserved | ⟨e, htorn⟩
  · rcases hserved with _ | _ | _ | _ | _ | _ | _ | _ | _ | _
    · exact AList.lookup_erase_ne hne
    · rfl
  · rcases htorn with _ | _
    rfl

/-- The temp file holds the record when it is renamed. -/
theorem writeTemp_faulty {tmp path : Path} (hempty : d.files.lookup tmp = some []) (r : Record)
    (id : IdentityID) :
    Meets Faulty (fun _ _ => True)
      (fun _ s' d' => s' = s.indexAdd id r.id (entryOf r) ∧ d'.files.lookup path = some (marshal r))
      IsIo (writeTemp tmp path r id) s d := by
  have hclose : ∀ {Q : Unit → FS → Disk → Prop} err s d, IsIo err s d →
      Meets Faulty (fun _ _ => True) Q IsIo (do ignored (.close tmp); throw err : FsMethod Unit) s d := by
    intro Q err s d hio
    exact ⟨trivial, fun _ _ _ => hio⟩
  rw [writeTemp, meets_bind, meets_orElse, meets_bind]
  refine Meets.imp (disk_faulty fun _ d₁ hwrite => ?_) (fun _ _ _ h => h) hclose
  have hwritten : d₁.files.lookup tmp = some (marshal r) := by
    cases hwrite
    simp [hempty]
  refine Meets.imp (disk_faulty fun _ d₂ hsync => ?_) (fun _ _ _ h => h) hclose
  cases hsync
  rw [meets_bind]
  refine disk_faulty fun _ d₃ hcloses => ?_
  cases hcloses
  rw [meets_bind]
  refine disk_faulty fun _ d₄ hrename => ?_
  rcases hrename with _ | _ | _ | _ | _ | _ | @⟨_, _, _, data, hdata⟩
  rw [hwritten] at hdata
  cases hdata
  exact ⟨rfl, AList.lookup_insert _⟩

theorem putLocked_faulty (r : Record) (id : IdentityID) :
    Meets Faulty (fun _ _ => True)
      (fun _ s' d' => s' = s.indexAdd id r.id (entryOf r) ∧
        d'.files.lookup (blobPath id r.id) = some (marshal r))
      IsIo (putLocked r id) s d := by
  rw [putLocked, meets_bind]
  refine disk_faulty fun _ d₁ _ => ?_
  rw [meets_bind]
  refine disk_faulty fun tmp d₂ hcreate => ?_
  obtain ⟨hempty, hother⟩ : d₂.files.lookup tmp = some [] ∧ blobPath id r.id ≠ tmp := by
    cases hcreate with
    | createTemp _ _ n _ _ =>
        refine ⟨AList.lookup_insert _, fun heq => not_isBlob_temp (idDir id) n ?_⟩
        rw [← heq]
        apply isBlob_blobPath
  rw [meets_bind, meets_outcome]
  have hremove : ∀ (out : Except Err Unit) (s₃ : FS) (d₃ : Disk), (∀ e, out = .error e → IsIo e s₃ d₃) →
      (out = .ok () → s₃ = s.indexAdd id r.id (entryOf r) ∧
        d₃.files.lookup (blobPath id r.id) = some (marshal r)) →
      Meets Faulty (fun _ _ => True)
        (fun _ s' d' => s' = s.indexAdd id r.id (entryOf r) ∧
          d'.files.lookup (blobPath id r.id) = some (marshal r))
        IsIo (do ignored (.remove tmp); Method.ofExcept (fun e => e) out) s₃ d₃ := by
    intro out s₃ d₃ herror hok
    refine ⟨trivial, fun ans d₄ hserves => ?_⟩
    cases out with
    | error e => exact herror e rfl
    | ok =>
        obtain ⟨hs, hfile⟩ := hok rfl
        exact ⟨hs, by rw [remove_faulty hserves hother, hfile]⟩
  refine (writeTemp_faulty hempty r id).imp (fun _ s₃ d₃ h => ?_) fun err s₃ d₃ h => ?_
  · exact hremove (.ok ()) s₃ d₃ (fun e he => by cases he) fun _ => h
  · exact hremove (.error err) s₃ d₃ (fun e he => by cases he; exact h) fun hok => by cases hok

variable {idOf : PubKey → IdentityID} {r : Record}

/-- What the file-system backend holds of a record's blob. -/
def fsCopy (idOf : PubKey → IdentityID) (r : Record) (s : FS) (d : Disk) : Option Copy :=
  (s.entry (idOf r.identity) r.id).map fun e =>
    ⟨e.expiresAt, d.files.lookup (blobPath (idOf r.identity) r.id)⟩

/-- A put finds a copy and says so, or writes one, or fails in another way. -/
theorem putWithin_faulty (idOf : PubKey → IdentityID) (r : Record) (identityCap totalCap : ℤ) :
    Meets Faulty (fun _ _ => True)
      (fun _ s' d' => fsCopy idOf r s d = none ∧ s'.maxPayload = s.maxPayload ∧
        fsCopy idOf r s' d' = some (copyOf r))
      (fun e s' d' => e = .exists → (fsCopy idOf r s d).isSome ∧ s' = s ∧ d' = d)
      (FsStore.putWithin idOf r identityCap totalCap) s d := by
  rw [FsStore.putWithin, meets_bind, meets_read, meets_bind, meets_ofExcept]
  refine ⟨fun _ hcheck => ?_, fun e hcheck he => ?_⟩
  · obtain ⟨hentry, -⟩ := Accounts.check_eq_ok hcheck
    have hnone : fsCopy idOf r s d = none := by
      rw [fsCopy, FS.entry, hentry]
      rfl
    refine (putLocked_faulty r (idOf r.identity)).imp (fun _ s' d' h => ?_) fun e s' d' h he => ?_
    · obtain ⟨rfl, hfile⟩ := h
      refine ⟨hnone, rfl, ?_⟩
      rw [fsCopy, FS.entry, FS.indexAdd, Accounts.entry_add, if_pos ⟨rfl, rfl⟩, hfile]
      rfl
    · obtain ⟨code, rfl⟩ := h
      cases he
  · subst he
    refine ⟨?_, rfl, rfl⟩
    rw [fsCopy, Option.isSome_map]
    exact Accounts.check_eq_exists hcheck

/-- A get returns what the copy reads as. -/
theorem get_reads (now : Int64) :
    Meets FileSystem.Serves (fun _ _ => True)
      (fun r' _ _ => readCopy s.maxPayload now (fsCopy idOf r s d) = .ok r')
      (fun e _ _ => readCopy s.maxPayload now (fsCopy idOf r s d) = .error e)
      (FsStore.get idOf r.identity r.id now) s d := by
  rw [FsStore.get, meets_bind, meets_read, meets_bind, openBlob, meets_bind, meets_read]
  cases hentry : s.entry (idOf r.identity) r.id with
  | none =>
      show readCopy s.maxPayload now (fsCopy idOf r s d) = .error .notFound
      simp [fsCopy, hentry, readCopy]
  | some e =>
      dsimp only
      by_cases hexpired : e.expiresAt ≤ now
      · have hread : readCopy s.maxPayload now (fsCopy idOf r s d) = .error .expired := by
          simp [fsCopy, hentry, readCopy, hexpired]
        rw [if_pos hexpired, meets_bind, meets_outcome]
        exact Meets.any (fun _ _ _ => hread) fun _ _ _ => hread
      · rw [if_neg hexpired, meets_bind]
        refine ⟨trivial, fun ans d' hserves => ?_⟩
        rcases hserves with _ | _ | _ | _ | _ | _ | _ | _ | _ | _ | ⟨_, _, data, hdata⟩ | ⟨_, _, hmissing⟩
        · refine (meets_ofExcept ..).mpr ⟨fun r' hr' => ?_, fun e he => ?_⟩
          · simp [fsCopy, hentry, readCopy, hexpired, hdata, hr']
          · simp [fsCopy, hentry, readCopy, hexpired, hdata, he]
        · show readCopy s.maxPayload now (fsCopy idOf r s d) = .error .notFound
          simp [fsCopy, hentry, readCopy, hexpired, hmissing]

/-- Every get of a record's blob at a time returns a live record. -/
def FsGetsLive (idOf : PubKey → IdentityID) (r : Record) (now : Int64) (s : FS) (d : Disk) : Prop :=
  ∀ out s' d', Exec FileSystem.Serves d ((FsStore.get idOf r.identity r.id now).call s) (out, s') d' →
    Live now out

theorem fsGetsLive_iff (now : Int64) :
    FsGetsLive idOf r now s d ↔ Live now (readCopy s.maxPayload now (fsCopy idOf r s d)) := by
  have hreads : Holds FileSystem.Serves (fun _ _ => True)
      (fun out _ => out.1 = readCopy s.maxPayload now (fsCopy idOf r s d))
      ((FsStore.get idOf r.identity r.id now).call s) d := by
    refine Holds.imp (get_reads now) fun out d' h => ?_
    rcases out with ⟨_ | _, _⟩ <;> exact h.symm
  constructor
  · intro h
    obtain ⟨⟨out, s'⟩, d', hexec, hout⟩ := hreads.exists_exec fun d o _ => serves_total d o
    rw [← hout]
    exact h out s' d' hexec
  · intro h out s' d' hexec
    have hout : out = readCopy s.maxPayload now (fsCopy idOf r s d) := hreads.exec hexec
    rwa [hout]

/-- After a put of the file-system backend that says stored, the blob can be read exactly if
the put kept a live one. -/
theorem fs_stored_iff {identityCap totalCap : ℤ} {now : Int64} {out : Except Err Unit} {s' : FS}
    {d' : Disk}
    (hexec : Exec Faulty d ((FsStore.putWithin idOf r identityCap totalCap).call s) (out, s') d')
    (hout : SaysStored out) :
    FsGetsLive idOf r now s' d' ↔ Keeps s.maxPayload now r (fsCopy idOf r s d) := by
  have hput := Holds.exec (putWithin_faulty idOf r identityCap totalCap) hexec
  rw [fsGetsLive_iff]
  rcases hout with rfl | rfl
  · obtain ⟨hnone, hmax, hcopy⟩ := hput
    rw [hnone, hmax, hcopy, live_readCopy, readable_copyOf]
  · obtain ⟨hsome, rfl, rfl⟩ := hput rfl
    obtain ⟨c, hc⟩ := Option.isSome_iff_exists.mp hsome
    rw [hc, live_readCopy, Keeps]

end Files

section Objects

variable {idOf : PubKey → IdentityID} {r : Record} {w : World}

/-- What the object backend holds of a record's blob. -/
def s3Copy (idOf : PubKey → IdentityID) (r : Record) (w : World) : Option Copy :=
  (w.mem.accounts.entry (idOf r.identity) r.id).map fun e => ⟨e.expiresAt, w.bucket.lookup e.key⟩

/-- A put finds a copy and says so, or writes one, or fails in another way. -/
theorem putWithin_holds (idOf : PubKey → IdentityID) (r : Record) (identityCap totalCap : ℤ) :
    Holds S3Store.Serves (fun _ _ => True)
      (fun out w' => (out = .ok () → s3Copy idOf r w = none ∧
          w'.mem.maxPayload = w.mem.maxPayload ∧ s3Copy idOf r w' = some (copyOf r)) ∧
        (out = .error .exists → (s3Copy idOf r w).isSome ∧ w' = w))
      (S3Store.putWithin idOf r identityCap totalCap) w := by
  rw [S3Store.putWithin]
  refine ⟨trivial, fun checked w₁ hserves => ?_⟩
  obtain ⟨hcheck, rfl⟩ : checked =
      w.mem.accounts.check (idOf r.identity) r.id r.size identityCap totalCap ∧ w₁ = w := by
    cases hserves
    exact ⟨rfl, rfl⟩
  cases checked with
  | error e =>
      refine ⟨nofun, fun he => ⟨?_, rfl⟩⟩
      cases he
      rw [s3Copy, Option.isSome_map]
      exact Accounts.check_eq_exists hcheck.symm
  | ok =>
      obtain ⟨hentry, -⟩ := Accounts.check_eq_ok hcheck.symm
      refine ⟨trivial, fun stored w₂ hput => ?_⟩
      cases stored with
      | error e => exact ⟨nofun, nofun⟩
      | ok =>
          refine ⟨trivial, fun _ w₃ hadd => ⟨fun _ => ?_, nofun⟩⟩
          cases hput
          cases hadd
          refine ⟨by simp [s3Copy, hentry], rfl, ?_⟩
          simp only [s3Copy, S3.indexAdd, Accounts.entry_add, and_self, if_true, Option.map_some,
            AList.lookup_insert]
          rfl

theorem lookup_holds (now : Int64) :
    Holds S3Calls.Serves (fun _ _ => True)
      (fun found w' => match found with
        | .error e => ∀ maxPayload, readCopy maxPayload now (s3Copy idOf r w) = .error e
        | .ok e => w' = w ∧ ¬ e.expiresAt ≤ now ∧
            s3Copy idOf r w = some ⟨e.expiresAt, w.bucket.lookup e.key⟩)
      (S3Calls.lookup idOf r.identity r.id now) w := by
  refine ⟨trivial, fun e w₁ hserves => ?_⟩
  obtain ⟨hentry, rfl⟩ : e = w.mem.accounts.entry (idOf r.identity) r.id ∧ w₁ = w := by
    cases hserves
    exact ⟨rfl, rfl⟩
  cases e with
  | none =>
      intro maxPayload
      simp [s3Copy, ← hentry, readCopy]
  | some e =>
      show Holds _ _ _ (if e.expiresAt ≤ now then _ else _) w₁
      by_cases hexpired : e.expiresAt ≤ now
      · rw [if_pos hexpired, holds_bind]
        refine (holds_true _ _).imp fun _ _ _ maxPayload => ?_
        simp [s3Copy, ← hentry, readCopy, hexpired]
      · rw [if_neg hexpired]
        refine ⟨rfl, hexpired, ?_⟩
        simp [s3Copy, ← hentry]

/-- A get returns what the copy reads as. -/
theorem s3_get_reads (maxPayload : ℤ) (now : Int64) :
    Holds S3Calls.Serves (fun _ _ => True)
      (fun out _ => out = readCopy maxPayload now (s3Copy idOf r w))
      (S3Calls.get idOf maxPayload r.identity r.id now) w := by
  rw [S3Calls.get, holds_bind]
  refine (lookup_holds now).imp fun found w₁ hfound => ?_
  cases found with
  | error e => exact (hfound maxPayload).symm
  | ok e =>
      obtain ⟨rfl, hlive, hcopy⟩ := hfound
      refine ⟨trivial, fun body w₂ hserves => ?_⟩
      have hbody : body = w₁.bucket.lookup e.key := by
        cases hserves
        simp [sliceOf]
      rw [hcopy, readCopy, if_neg hlive, ← hbody]
      cases body with
      | none =>
          show Holds _ _ _ (deleteKey (idOf r.identity) r.id >>= _) w₂
          rw [holds_bind]
          exact (holds_true _ _).imp fun _ _ _ => rfl
      | some body => rfl

/-- Every get of a record's blob at a time returns a live record. -/
def S3GetsLive (idOf : PubKey → IdentityID) (r : Record) (now : Int64) (w : World) : Prop :=
  ∀ out w', Exec S3Calls.Serves w (S3Calls.get idOf w.mem.maxPayload r.identity r.id now) out w' →
    Live now out

theorem s3GetsLive_iff (now : Int64) :
    S3GetsLive idOf r now w ↔ Live now (readCopy w.mem.maxPayload now (s3Copy idOf r w)) := by
  have hreads : Holds S3Calls.Serves (fun _ _ => True)
      (fun out _ => out = readCopy w.mem.maxPayload now (s3Copy idOf r w))
      (S3Calls.get idOf w.mem.maxPayload r.identity r.id now) w := s3_get_reads w.mem.maxPayload now
  constructor
  · intro h
    obtain ⟨out, w', hexec, hout⟩ := hreads.exists_exec fun w o _ => Ranges.s3Serves_total w o
    rw [← hout]
    exact h out w' hexec
  · intro h out w' hexec
    rwa [hreads.exec hexec]

/-- After a put of the object backend that says stored, the blob can be read exactly if the
put kept a live one. -/
theorem s3_stored_iff {identityCap totalCap : ℤ} {now : Int64} {out : Except Err Unit} {w' : World}
    (hexec : Exec S3Store.Serves w (S3Store.putWithin idOf r identityCap totalCap) out w')
    (hout : SaysStored out) :
    S3GetsLive idOf r now w' ↔ Keeps w.mem.maxPayload now r (s3Copy idOf r w) := by
  obtain ⟨hok, hexists⟩ := (putWithin_holds idOf r identityCap totalCap).exec hexec
  rw [s3GetsLive_iff]
  rcases hout with rfl | rfl
  · obtain ⟨hnone, hmax, hcopy⟩ := hok rfl
    rw [hnone, hmax, hcopy, live_readCopy, readable_copyOf]
  · obtain ⟨hsome, rfl⟩ := hexists rfl
    obtain ⟨c, hc⟩ := Option.isSome_iff_exists.mp hsome
    rw [hc, live_readCopy, Keeps]

end Objects

section Held

variable {idOf : PubKey → IdentityID} {maxPayload : ℤ} {m : Model idOf} {r : Record}

/-- In the states that the runs of the file-system backend reach, the copies are those of the
records held. -/
theorem fsCopy_held {s : FS} {d : Disk} (h : Refines idOf maxPayload s d m) :
    fsCopy idOf r s d = (m.held.lookup (keyOf idOf r)).map copyOf := by
  rw [fsCopy, h.counts.entry]
  show Option.map _ (Option.map FsIndex.entryOf (m.held.lookup (keyOf idOf r))) = _
  cases hheld : m.held.lookup (keyOf idOf r) with
  | none => rfl
  | some r' =>
      have hfile := h.stores.present (keyOf idOf r) r' hheld
      simp only [Option.map_some, Option.some.injEq]
      exact congrArg (Copy.mk r'.expiresAt) hfile

/-- So they are in the states of the object backend. -/
theorem s3Copy_held {w : World} {put : List Key} (h : S3Refines w m put) :
    s3Copy idOf r w = (m.held.lookup (keyOf idOf r)).map copyOf := by
  have hentry := h.entry (keyOf idOf r)
  rw [s3Copy]
  show Option.map _ (w.mem.accounts.entry (keyOf idOf r).1 (keyOf idOf r).2) = _
  rw [hentry]
  cases hheld : m.held.lookup (keyOf idOf r) with
  | none => rfl
  | some r' =>
      have hobject := h.present (keyOf idOf r) r' hheld
      simp only [Option.map_some, Option.some.injEq]
      exact congrArg (Copy.mk r'.expiresAt) hobject

/-- There, a put that says stored keeps a live record unless one is held that has expired, or
the new one has. -/
theorem keeps_held {now : Int64} (h : Fits maxPayload m)
    (hfits : (r.payload.length : ℤ) ≤ maxPayload) :
    Keeps maxPayload now r ((m.held.lookup (keyOf idOf r)).map copyOf) ↔
      now < ((m.held.lookup (keyOf idOf r)).getD r).expiresAt := by
  have hshort : ∀ r : Record, (r.payload.length : ℤ) ≤ maxPayload →
      ((r.payload.length % 2 ^ 32 : ℕ) : ℤ) ≤ maxPayload := by
    intro r hr
    have hle : r.payload.length % 2 ^ 32 ≤ r.payload.length := Nat.mod_le _ _
    omega
  cases hheld : m.held.lookup (keyOf idOf r) with
  | none => simp only [Option.map_none, Keeps, hshort r hfits, and_true, Option.getD_none]
  | some r' =>
      show (copyOf r').Readable maxPayload now ↔ now < r'.expiresAt
      rw [readable_copyOf, Keeps]
      simp only [hshort r' (h _ _ hheld).1, and_true]

end Held

section Client

open Tactile.Relay.Rest

/-- What `RelayClient.put` returns for an answer, unless it throws: whether the blob was
written, where 409 counts as already stored. -/
def putReturns (res : Response) : Option Bool :=
  if res.status = 409 then some false
  else if res.status = 200 ∨ res.status = 201 then some true
  else none

/-- The client's put returns exactly when the store's answer says stored. -/
theorem putReturns_iff {σ : Type} {R : Answers RelayOp RelayAns σ} {s s' : σ}
    {calls : List (Call RelayOp RelayAns)} {srv : Server} {q : RestRequest} {arr : Arrival}
    {f : PutFields} {res : Response} (hcheck : srv.checkPut q arr = .ok f)
    (hexec : Exec (Logged R) (s, []) (srv.handlePut q arr) res (s', calls)) :
    ∃ out, ⟨.putWithin (srv.putRecord f arr.now) srv.identityQuota srv.maxStorage, out⟩ ∈ calls ∧
      ((putReturns res).isSome ↔ SaysStored out) := by
  have hholds : Holds (Logged R) (fun _ _ => True)
      (fun res t => ∃ out,
        ⟨.putWithin (srv.putRecord f arr.now) srv.identityQuota srv.maxStorage, out⟩ ∈ t.2 ∧
          ((putReturns res).isSome ↔ SaysStored out))
      (srv.handlePut q arr) (s, []) := by
    rw [Server.handlePut, hcheck]
    refine ⟨trivial, fun out t hans => ?_⟩
    obtain ⟨s₁, calls₁⟩ := t
    obtain ⟨-, rfl⟩ := hans
    rcases out with e | _
    · cases e <;> exact ⟨_, List.mem_cons_self, by simp [putReturns, Response.status, SaysStored]⟩
    · refine ⟨trivial, fun _ t hans => ?_⟩
      obtain ⟨s₂, calls₂⟩ := t
      obtain ⟨-, rfl⟩ := hans
      exact ⟨_, List.mem_cons_self, by simp [putReturns, Response.status, SaysStored]⟩
  exact hholds.exec hexec

end Client

/-- On both backends and in every state: after a put that says stored, the get at the same
time returns a live record exactly if the put kept one. -/
theorem stored_readable_iff (idOf : PubKey → IdentityID) (r : Record) (identityCap totalCap : ℤ)
    (now : Int64) :
    (∀ s d out s' d',
      Exec Faulty d ((FsStore.putWithin idOf r identityCap totalCap).call s) (out, s') d' →
        SaysStored out →
          (FsGetsLive idOf r now s' d' ↔ Keeps s.maxPayload now r (fsCopy idOf r s d))) ∧
    ∀ w out w', Exec S3Store.Serves w (S3Store.putWithin idOf r identityCap totalCap) out w' →
      SaysStored out →
        (S3GetsLive idOf r now w' ↔ Keeps w.mem.maxPayload now r (s3Copy idOf r w)) := by
  constructor
  · intro s d out s' d' hexec hout
    exact fs_stored_iff hexec hout
  · intro w out w' hexec hout
    exact s3_stored_iff hexec hout

section Sample

open Tactile.Relay.Ranges

variable {idOf : PubKey → IdentityID} {r : Record} {identityCap totalCap : ℤ}

theorem exec_putWithin_exists {s : FS} (d : Disk) (h : (s.entry (idOf r.identity) r.id).isSome) :
    Exec Faulty d ((FsStore.putWithin idOf r identityCap totalCap).call s) (.error .exists, s) d := by
  have hcheck : s.accounts.check (idOf r.identity) r.id r.size identityCap totalCap =
      .error .exists := if_pos h
  show Exec Faulty d ((Method.ofExcept (fun e => e)
    (s.accounts.check (idOf r.identity) r.id r.size identityCap totalCap) >>=
      fun _ => putLocked r (idOf r.identity) : FsMethod Unit).call s) _ d
  rw [hcheck]
  exact .refl _ _

theorem exec_s3_putWithin_exists {w : World}
    (h : (w.mem.accounts.entry (idOf r.identity) r.id).isSome) :
    Exec S3Store.Serves w (S3Store.putWithin idOf r identityCap totalCap) (.error .exists) w := by
  have hcheck : w.mem.accounts.check (idOf r.identity) r.id r.size identityCap totalCap =
      .error .exists := if_pos h
  have hserves := S3Store.Serves.check w (idOf r.identity) r.id r.size identityCap totalCap
  rw [hcheck] at hserves
  exact .step hserves (.refl _ _)

/-- A record that expires at 1, put again before, can be read. -/
theorem stored_readable_before :
    FsGetsLive zeroDigest (zeroRecord [7]) 0 (oneFs (zeroRecord [7])) (oneDisk (zeroRecord [7])) ∧
      S3GetsLive zeroDigest (zeroRecord [7]) 0 (oneBucket (zeroRecord [7])) := by
  have hcopy : (copyOf (zeroRecord [7])).Readable 64 0 := readable_copyOf.mpr ⟨by decide, by decide⟩
  have h := stored_readable_iff zeroDigest (zeroRecord [7]) 1000 1000 0
  constructor
  · apply (h.1 _ _ _ _ _ (exec_putWithin_exists _ _) (.inr rfl)).mpr
    · exact hcopy
    · rfl
  · apply (h.2 _ _ _ (exec_s3_putWithin_exists _) (.inr rfl)).mpr
    · exact hcopy
    · rfl

/-- A record that expired at 1 and was not swept makes a put at time 5 say stored, and there
is nothing to read. -/
theorem expired_says_stored :
    let r : Record := { zeroRecord [7] with expiresAt := 10 }
    Exec Faulty (oneDisk (zeroRecord [7]))
        ((FsStore.putWithin zeroDigest r 1000 1000).call (oneFs (zeroRecord [7])))
        (.error .exists, oneFs (zeroRecord [7])) (oneDisk (zeroRecord [7])) ∧
      ¬ FsGetsLive zeroDigest r 5 (oneFs (zeroRecord [7])) (oneDisk (zeroRecord [7])) ∧
      Exec S3Store.Serves (oneBucket (zeroRecord [7])) (S3Store.putWithin zeroDigest r 1000 1000)
        (.error .exists) (oneBucket (zeroRecord [7])) ∧
      ¬ S3GetsLive zeroDigest r 5 (oneBucket (zeroRecord [7])) := by
  intro r
  have hexpired : ¬ (copyOf (zeroRecord [7])).Readable 64 5 := fun h => absurd h.1 (by decide)
  refine ⟨exec_putWithin_exists _ rfl, fun h => ?_, exec_s3_putWithin_exists rfl, fun h => ?_⟩
  · exact hexpired (live_readCopy.mp ((fsGetsLive_iff 5).mp h))
  · exact hexpired (live_readCopy.mp ((s3GetsLive_iff 5).mp h))

end Sample

end Tactile.Relay.StoredAnswers

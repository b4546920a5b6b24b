import Tactile.Storage.Backend

/-!
The records of a sync: what the manifest and the base say of a path, the files
that a walk finds, and the names of conflict copies and blobs.
-/

namespace Tactile.Sync.Records

open Tactile.Lib.FiniteMap Tactile.Storage.Paths Tactile.Storage.Idb

abbrev Bytes : Type := List UInt8

section Entries

/-- What the manifest says of a path: the hash `h` of the content, the time `m`,
the size `s`, the id `b` of the blob and the tombstone flag `d`. -/
structure RemoteFileEntry (D : Type) where
  h : D
  m : ℤ
  s : ℕ
  b : D
  d : Bool := false
  deriving DecidableEq

structure Manifest (D : Type) where
  updated : ℤ
  files : Dict Text (RemoteFileEntry D)

/-- What the base says of a path: the hash and the blob of the last sync. -/
structure BaseEntry (D : Type) where
  h : D
  b : D
  deriving DecidableEq

structure LocalSyncState (D : Type) where
  lastSync : ℤ
  files : Dict Text (BaseEntry D)

structure LocalFile (D : Type) where
  rel : Text
  abs : Text
  data : Bytes
  hash : D
  size : ℕ
  mtime : ℤ
  deriving DecidableEq

def RemoteFileEntry.base {D : Type} (e : RemoteFileEntry D) : BaseEntry D := ⟨e.h, e.b⟩

end Entries

section Blobs

/-- What is hashed: the content of a file, or the text that an id is made of,
which names its domain and separates its parts. -/
inductive Preimage (D : Type)
  | content (data : Bytes)
  | manifest (key : Text)
  | file (key : Text) (rel : Text) (hash : D)
  deriving DecidableEq

/-- What is encrypted: the JSON text of a manifest, or the content of a file. -/
inductive Plaintext (D : Type)
  | json (m : Manifest D)
  | bytes (data : Bytes)

/-- What a part of the run fails with. -/
inductive SyncError
  | relay (message : String)
  | storage (e : Failure)
  | undecryptable
  | missing (rel : Text)
  | outOfFuel
  deriving DecidableEq

/-- The cryptography and the JSON texts that the devices of an identity share:
SHA-256 without collisions, and encryption under the shared key. -/
structure Crypto (D P : Type) where
  sha256 : Preimage D → D
  encrypt : Plaintext D → P
  decrypt : P → Option (Plaintext D)
  stringify : Manifest D → Bytes
  parse : Bytes → Option (Manifest D)
  stateText : LocalSyncState D → String
  parseState : String → Option (LocalSyncState D)
  sha256_injective : Function.Injective sha256
  decrypt_encrypt : ∀ x, decrypt (encrypt x) = some x

variable {D P : Type} (C : Crypto D P)

def Crypto.contentHash (data : Bytes) : D := C.sha256 (.content data)

def manifestId (key : Text) : D := C.sha256 (.manifest key)

def fileBlobId (key : Text) (rel : Text) (hash : D) : D := C.sha256 (.file key rel hash)

theorem fileBlobId_ne_manifestId (key key' rel : Text) (hash : D) :
    fileBlobId C key rel hash ≠ manifestId C key' := by
  intro h
  cases C.sha256_injective h

theorem fileBlobId_inj {key rel rel' : Text} {hash hash' : D}
    (h : fileBlobId C key rel hash = fileBlobId C key rel' hash') : rel = rel' ∧ hash = hash' := by
  cases C.sha256_injective h
  exact ⟨rfl, rfl⟩

theorem contentHash_inj {data data' : Bytes} (h : C.contentHash data = C.contentHash data') :
    data = data' := by
  cases C.sha256_injective h
  rfl

/-- The plaintext as the text of a manifest. -/
def Plaintext.asManifest : Plaintext D → Option (Manifest D)
  | .json m => some m
  | .bytes data => C.parse data

def Plaintext.asBytes : Plaintext D → Bytes
  | .json m => C.stringify m
  | .bytes data => data

/-- The file that a walk reads at a path. -/
def localFile (rel abs : Text) (data : Bytes) (mtime : ℤ) : LocalFile D :=
  { rel := rel, abs := abs, data := data, hash := C.contentHash data, size := data.length, mtime := mtime }

/-- The entry that the upload of a file makes. -/
def uploadEntry (key : Text) (l : LocalFile D) (now : ℤ) : RemoteFileEntry D :=
  { h := l.hash, m := if l.mtime = 0 then now else l.mtime, s := l.size,
    b := fileBlobId C key l.rel l.hash }

/-- The manifest in a payload, none where it does not decrypt or parse. -/
def openManifest (payload : P) : Option (Manifest D) := do
  let plain ← C.decrypt payload
  plain.asManifest C

@[simp] theorem openManifest_encrypt (m : Manifest D) :
    openManifest C (C.encrypt (.json m)) = some m := by
  rw [openManifest, C.decrypt_encrypt]
  rfl

end Blobs

section Paths

def tactileDir : Text := ".tactile".toList

def syncStateFile : Text := tactileDir ++ "/sync-state.json".toList

/-- The name of the collection, by which the devices pair it. -/
def collectionKey (collection : Text) : Text :=
  let segments := ((collection.reverse.dropWhile (· = '/')).reverse).splitOn '/'
  match segments.getLast? with
  | none | some [] => "collection".toList
  | some name => name

/-- The place of the last such character, -1 where there is none. -/
def lastIndexOf (c : Char) (s : Text) : ℤ := (s.length : ℤ) - 1 - (s.reverse.idxOf c : ℤ)

/-- The year, month and day of a number of days since 1970-01-01. -/
def civil (days : ℤ) : ℤ × ℤ × ℤ :=
  let z := days + 719468
  let era := z / 146097
  let dayOfEra := z % 146097
  let yearOfEra := (dayOfEra - dayOfEra / 1460 + dayOfEra / 36524 - dayOfEra / 146096) / 365
  let dayOfYear := dayOfEra - (365 * yearOfEra + yearOfEra / 4 - yearOfEra / 100)
  let mp := (5 * dayOfYear + 2) / 153
  let day := dayOfYear - (153 * mp + 2) / 5 + 1
  let month := if mp < 10 then mp + 3 else mp - 9
  let year := yearOfEra + era * 400
  (if month ≤ 2 then year + 1 else year, month, day)

def padded (width : ℕ) (n : ℤ) : String :=
  let digits := toString n.natAbs
  String.ofList (List.replicate (width - digits.length) '0') ++ digits

/-- The year of `toISOString`: four digits, or a sign and six. -/
def isoYear (year : ℤ) : String :=
  if 0 ≤ year ∧ year ≤ 9999 then padded 4 year
  else (if year < 0 then "-" else "+") ++ padded 6 year

/-- The time of `toISOString` as a conflict copy is named by it: the first 19
characters, with a blank for the T and dashes for the colons. -/
def conflictStamp (now : ℤ) : String :=
  let (year, month, day) := civil (now / 86400000)
  let second := now / 1000 % 86400
  let text := isoYear year ++ "-" ++ padded 2 month ++ "-" ++ padded 2 day ++ " " ++
    padded 2 (second / 3600) ++ "-" ++ padded 2 (second / 60 % 60) ++ "-" ++ padded 2 (second % 60)
  String.ofList (text.toList.take 19)

def conflictMark (now : ℤ) : Text := (" (conflict " ++ conflictStamp now ++ ")").toList

/-- The path with the mark before its last dot, or at its end where the last name
has no dot. -/
def conflictPath (rel : Text) (now : ℤ) : Text :=
  let dot := lastIndexOf '.' rel
  if lastIndexOf '/' rel < dot then rel.take dot.toNat ++ conflictMark now ++ rel.drop dot.toNat
  else rel ++ conflictMark now

example : conflictPath "a/b.md".toList 1700000000000 =
    "a/b (conflict 2023-11-14 22-13-20).md".toList := by decide

theorem noSlash_padded (width : ℕ) (n : ℤ) : '/' ∉ (padded width n).toList := by
  intro h
  rw [padded, String.toList_append, String.toList_ofList, List.mem_append] at h
  rcases h with h | h
  · exact absurd (List.eq_of_mem_replicate h) (by decide)
  · have hdigits : '/' ∈ (Nat.repr n.natAbs).toList := h
    rw [Nat.toList_repr] at hdigits
    exact absurd (Nat.isDigit_of_mem_toDigits (by omega) (by omega) hdigits) (by decide)

theorem noSlash_isoYear (year : ℤ) : '/' ∉ (isoYear year).toList := by
  rw [isoYear]
  split
  next => exact noSlash_padded 4 year
  next =>
    rw [String.toList_append, List.mem_append, not_or]
    refine ⟨?_, noSlash_padded 6 year⟩
    split <;> decide

theorem noSlash_conflictStamp (now : ℤ) : '/' ∉ (conflictStamp now).toList := by
  rw [conflictStamp]
  dsimp only
  rw [String.toList_ofList]
  intro h
  have hall := List.mem_of_mem_take h
  simp only [String.toList_append, List.mem_append] at hall
  simp [noSlash_padded, noSlash_isoYear] at hall

theorem noSlash_conflictMark (now : ℤ) : '/' ∉ conflictMark now := by
  rw [conflictMark, String.toList_append, String.toList_append]
  simp [noSlash_conflictStamp]

theorem blank_mem_conflictMark (now : ℤ) : ' ' ∈ conflictMark now := by
  rw [conflictMark, String.toList_append, String.toList_append]
  simp

theorem lastIndexOf_append_right {c : Char} {b : Text} (h : c ∈ b) (a : Text) :
    lastIndexOf c (a ++ b) = a.length + lastIndexOf c b := by
  rw [lastIndexOf, lastIndexOf, List.reverse_append, List.idxOf_append, if_pos (by simpa using h),
    List.length_append]
  omega

theorem lastIndexOf_append_left {c : Char} {b : Text} (h : c ∉ b) (a : Text) :
    lastIndexOf c (a ++ b) = lastIndexOf c a := by
  rw [lastIndexOf, lastIndexOf, List.reverse_append, List.idxOf_append, if_neg (by simpa using h),
    List.length_append, List.length_reverse]
  omega

theorem lastIndexOf_lt (c : Char) (a : Text) : lastIndexOf c a < a.length := by
  rw [lastIndexOf]
  omega

theorem lastIndexOf_nonneg {c : Char} {a : Text} (h : c ∈ a) : 0 ≤ lastIndexOf c a := by
  have hlt := List.idxOf_lt_length_iff.mpr (List.mem_reverse.mpr h)
  rw [List.length_reverse] at hlt
  rw [lastIndexOf]
  omega

/-- A conflict copy is beside its file, under a name with a blank in it. -/
theorem conflictPath_beside {pre name : Text} (hpre : pre = [] ∨ ∃ dir, pre = dir ++ ['/'])
    (hname : '/' ∉ name) (now : ℤ) :
    ∃ name', conflictPath (pre ++ name) now = pre ++ name' ∧ '/' ∉ name' ∧ ' ' ∈ name' := by
  have hmark := noSlash_conflictMark now
  have hblank := blank_mem_conflictMark now
  have hslash : lastIndexOf '/' (pre ++ name) = pre.length - 1 := by
    rw [lastIndexOf_append_left hname]
    rcases hpre with rfl | ⟨dir, rfl⟩
    · rfl
    · rw [lastIndexOf_append_right (List.mem_singleton_self _), List.length_append]
      have hlast : lastIndexOf '/' ['/'] = 0 := by decide
      rw [hlast, List.length_singleton]
      omega
  by_cases hdot : '.' ∈ name
  · have hindex := lastIndexOf_append_right hdot pre
    have hnonneg := lastIndexOf_nonneg hdot
    refine ⟨name.take (lastIndexOf '.' name).toNat ++ conflictMark now ++
      name.drop (lastIndexOf '.' name).toNat, ?_, ?_, by simp [hblank]⟩
    · have hnat : (lastIndexOf '.' (pre ++ name)).toNat =
          pre.length + (lastIndexOf '.' name).toNat := by
        omega
      rw [conflictPath, if_pos (by omega), hnat, List.take_length_add_append, List.drop_length_add_append]
      simp
    · simp only [List.mem_append, not_or]
      exact ⟨⟨fun h => hname (List.mem_of_mem_take h), hmark⟩,
        fun h => hname (List.mem_of_mem_drop h)⟩
  · have hindex := lastIndexOf_append_left hdot pre
    have hlt := lastIndexOf_lt '.' pre
    refine ⟨name ++ conflictMark now, ?_, ?_, by simp [hblank]⟩
    · rw [conflictPath, if_neg (by omega), List.append_assoc]
    · rw [List.mem_append, not_or]
      exact ⟨hname, hmark⟩

theorem isName_of_blank {s : Text} (hslash : '/' ∉ s) (hblank : ' ' ∈ s) : IsName s := by
  refine ⟨?_, ?_, ?_, hslash⟩
  · rintro rfl
    cases hblank
  · rintro rfl
    exact absurd hblank (by decide)
  · rintro rfl
    exact absurd hblank (by decide)

theorem conflictPath_relText {init : List Text} {name : Text} (hname : IsName name) (now : ℤ) :
    ∃ name', conflictPath (relText (init ++ [name])) now = relText (init ++ [name']) ∧
      IsName name' ∧ ' ' ∈ name' := by
  by_cases hinit : init = []
  · subst hinit
    obtain ⟨name', hpath, hslash, hblank⟩ := conflictPath_beside (.inl rfl) hname.noSlash now
    refine ⟨name', ?_, isName_of_blank hslash hblank, hblank⟩
    simpa [relText] using hpath
  · obtain ⟨name', hpath, hslash, hblank⟩ :=
      conflictPath_beside (.inr ⟨relText init, rfl⟩) hname.noSlash now
    refine ⟨name', ?_, isName_of_blank hslash hblank, hblank⟩
    rw [relText_append hinit, relText_append hinit]
    simpa using hpath

end Paths

section Limits

/-- The retention asked for, in seconds. -/
def syncBlobTtlSeconds : ℤ := 90 * 24 * 3600

/-- The age after which a tombstone is dropped, in milliseconds. -/
def tombstonePruneMs : ℤ := 30 * 24 * 3600 * 1000

def maxFileBytes : ℤ := 64 * 2 ^ 20

end Limits

end Tactile.Sync.Records

import Tactile.Lib.Utf8
import Tactile.Storage.Versioned

/-!
What restoring a version leaves of the bytes that the version was taken of.
-/

namespace Tactile.Storage.Restoring

open Tactile.Lib.Program Tactile.Lib.Script Tactile.Lib.FiniteMap
open Tactile.Lib.Text (utf8)
open Tactile.Lib.Utf8 (bom utf8_decode_iff)
open Tactile.Storage.Paths Tactile.Storage.Idb Tactile.Storage.Opfs Tactile.Storage.Backend
open Tactile.Storage.Versioned

/-- `TextEncoder` and `TextDecoder` of the browsers. -/
def utf8Codec : TextCodec where
  encode s := utf8 s.toList
  decode bytes := String.ofList (Tactile.Lib.Utf8.decode bytes)

/-- The bytes of a text, without a byte order mark. -/
def PlainText (bytes : List UInt8) : Prop := (∃ text, utf8 text = bytes) ∧ ¬ bom <+: bytes

theorem encode_decode_iff (bytes : List UInt8) :
    utf8Codec.encode (utf8Codec.decode bytes) = bytes ↔ PlainText bytes := by
  simpa [utf8Codec, PlainText] using utf8_decode_iff bytes

section Records

variable (codec : TextCodec)

/-- `IdbFsBackend.readFile` of a record. -/
def readFile : Data → List UInt8
  | .text contents => codec.encode contents
  | .bytes contents => contents

/-- `IdbFsBackend.readTextFile` of a record. -/
def readTextFile : Data → String
  | .text contents => contents
  | .bytes contents => codec.decode contents

/-- A record of bytes that is read as a text and written back. -/
theorem readFile_readTextFile_iff (bytes : List UInt8) :
    readFile utf8Codec (.text (readTextFile utf8Codec (.bytes bytes))) = bytes ↔ PlainText bytes :=
  encode_decode_iff bytes

end Records

section Runs

variable {codec : TextCodec} {clock : Clock} {cfg : Config} {mem mem' : LastSnapshotAt}
variable {path dir id : Text} {segs d : List Text} {bytes : List UInt8} {t t' : Tree}

/-- A restore that goes through leaves the file with what the version reads as. -/
theorem restoreVersion_stores (fuel : ℕ) (hpath : pathSegments path = .ok segs) :
    Meets (Serves codec clock) (fun _ _ => True)
      (fun _ _ t' => ∃ contents, Reads codec cfg t path id contents ∧
        t'.lookup segs = some (.file (codec.encode contents)))
      (fun _ _ _ => True) (restoreVersion cfg fuel path id) mem t := by
  rw [restoreVersion, meets_bind]
  refine (readVersion_spec path id).imp (fun contents _ t₁ h => ?_) fun _ _ _ _ => trivial
  obtain ⟨-, rfl, hreads⟩ := h
  have hwritten : ∀ mem t₂, Meets (Serves codec clock) (fun _ _ => True)
      (fun _ _ t' => ∃ contents, Reads codec cfg t₁ path id contents ∧
        t'.lookup segs = some (.file (codec.encode contents)))
      (fun _ _ _ => True) (inner (.writeTextFile path contents)) mem t₂ := by
    intro mem t₂
    refine meets_inner fun _ t₃ hans => ?_
    rw [respond, writing_ok hpath] at hans
    obtain ⟨-, -, rfl⟩ := writeFileAt_eq_ok.mp hans
    exact ⟨contents, hreads, AList.lookup_insert _⟩
  rw [writeTextFile, meets_bind]
  refine meets_pathResult fun versioned _ => ?_
  dsimp only
  split
  · rw [meets_bind]
    exact Meets.any (fun _ mem t₂ => hwritten mem t₂) fun _ _ _ => trivial
  · exact hwritten _ _

/-- The version that a write adds is of what the file held before it. -/
theorem version_of_write {fuel : ℕ} {contents : Contents} (hv : t.Valid)
    (hpath : pathSegments path = .ok segs) (hfile : t.lookup segs = some (.file bytes))
    (hversioned : cfg.shouldVersion path = .ok true)
    (hdir : versionDirFor cfg path = .ok (some dir)) (hd : pathSegments dir = .ok d)
    (hwrite : Exec (Serves codec clock) t ((contents.write cfg fuel path).call mem) (.ok (), mem') t')
    (hnew : t.lookup (d ++ [id]) = none) (hadded : t'.lookup (d ++ [id]) ≠ none) :
    ∃ time, id = versionName time ∧ t'.lookup (d ++ [id]) = some (.file bytes) := by
  obtain ⟨t₁, rfl, hleft⟩ := (write_spec hv hpath hfile hdir hd fuel contents hversioned).exec hwrite
  have happart : d ++ [id] ≠ segs := by
    rintro rfl
    rw [hnew] at hfile
    cases hfile
  rw [lookup_insert_eq, if_neg happart] at hadded ⊢
  rcases hleft with ⟨-, rfl⟩ | ⟨-, t₂, hmkdir, time, -, hlookup⟩
  · exact absurd hnew hadded
  · have hbelow : ¬ d ++ [id] <+: d := fun hpre => by simpa using hpre.length_le
    have hmade := lookup_mkdirAt_apart (t := t) hbelow
    rw [hmkdir] at hmade
    have hversion := lookup_version hlookup id
    rw [hmade, hnew] at hversion
    rw [hversion] at hadded ⊢
    split at hadded
    next => exact absurd rfl hadded
    next hkept =>
      split at hadded
      next htime =>
        rw [if_neg hkept, if_pos htime]
        exact ⟨time, htime, rfl⟩
      next => exact absurd rfl hadded

end Runs

/-- Restoring the version that a write took of a file leaves the file with its bytes
exactly if they are those of a text without a byte order mark. -/
theorem restoreVersion_bytes_iff (cfg : Config) (fuel fuel' : ℕ) (path dir id : Text)
    (segs d : List Text) (bytes : List UInt8) (contents : Contents) (clock clock' : Clock)
    (mem mem₁ mem₂ mem₃ : LastSnapshotAt) (t t₁ t₂ t₃ : Tree) (hv : t.Valid)
    (hpath : pathSegments path = .ok segs) (hfile : t.lookup segs = some (.file bytes))
    (hversioned : cfg.shouldVersion path = .ok true)
    (hdir : versionDirFor cfg path = .ok (some dir)) (hd : pathSegments dir = .ok d)
    (hwrite : Exec (Serves utf8Codec clock) t ((contents.write cfg fuel path).call mem)
      (.ok (), mem₁) t₁)
    (hnew : t.lookup (d ++ [id]) = none) (hadded : t₁.lookup (d ++ [id]) ≠ none)
    (hkept : t₂.lookup (d ++ [id]) = t₁.lookup (d ++ [id]))
    (hrestore : Exec (Serves utf8Codec clock') t₂ ((restoreVersion cfg fuel' path id).call mem₂)
      (.ok (), mem₃) t₃) :
    t₃.lookup segs = some (.file bytes) ↔ PlainText bytes := by
  obtain ⟨time, rfl, hversion⟩ :=
    version_of_write hv hpath hfile hversioned hdir hd hwrite hnew hadded
  obtain ⟨text, hreads, hleft⟩ := (restoreVersion_stores fuel' hpath).exec hrestore
  have hread : Reads utf8Codec cfg t₂ path (versionName time) (utf8Codec.decode bytes) := by
    refine ⟨hreads.1, dir, d ++ [versionName time], bytes, hdir, ?_, ?_, rfl⟩
    · exact pathSegments_version hd (isName_versionName time)
    · rw [hkept, hversion]
  rw [hleft, hreads.unique hread, ← encode_decode_iff]
  simp

section Sample

/-- A note without versions. -/
def noteOf (bytes : List UInt8) : Tree :=
  ofPairs [(noteVersions.take 1, .dir), (noteSegments, .file bytes)]

def firstClock : Clock := ⟨40000, fun _ => none⟩

def secondClock : Clock := ⟨80000, fun _ => none⟩

/-- The note of some bytes, written over. -/
def overwritten (bytes : List UInt8) : (Except VersionError Unit × LastSnapshotAt) × Tree :=
  eval (respond utf8Codec firstClock)
    (((Contents.text "new").write defaults 1 notePath).call ∅) (noteOf bytes)

/-- The note with its version restored. -/
def restoredNote (bytes : List UInt8) : (Except VersionError Unit × LastSnapshotAt) × Tree :=
  eval (respond utf8Codec secondClock)
    ((restoreVersion defaults 1 notePath "40000.md".toList).call (overwritten bytes).1.2)
    (overwritten bytes).2

theorem restored_bytes_iff :
    (restoredNote [0x61]).2.lookup noteSegments = some (.file [0x61]) ↔ PlainText [0x61] :=
  restoreVersion_bytes_iff defaults 1 1 notePath (render noteVersions) "40000.md".toList noteSegments
    noteVersions [0x61] (.text "new") firstClock secondClock ∅ (overwritten [0x61]).1.2
    (overwritten [0x61]).1.2 (restoredNote [0x61]).1.2 (noteOf [0x61]) (overwritten [0x61]).2
    (overwritten [0x61]).2 (restoredNote [0x61]).2 (by decide) rfl rfl rfl rfl rfl
    (served_of_eval rfl) rfl nofun rfl (served_of_eval rfl)

/-- A byte that is none of UTF-8 comes back as the three of a replacement character. -/
theorem restoreVersion_garbles : ¬ ∀ (cfg : Config) (fuel fuel' : ℕ) (path dir id : Text)
    (segs d : List Text) (bytes : List UInt8) (contents : Contents) (clock clock' : Clock)
    (mem mem₁ mem₂ mem₃ : LastSnapshotAt) (t t₁ t₂ t₃ : Tree), t.Valid →
    pathSegments path = .ok segs → t.lookup segs = some (.file bytes) →
    cfg.shouldVersion path = .ok true → versionDirFor cfg path = .ok (some dir) →
    pathSegments dir = .ok d →
    Exec (Serves utf8Codec clock) t ((contents.write cfg fuel path).call mem) (.ok (), mem₁) t₁ →
    t.lookup (d ++ [id]) = none → t₁.lookup (d ++ [id]) ≠ none →
    t₂.lookup (d ++ [id]) = t₁.lookup (d ++ [id]) →
    Exec (Serves utf8Codec clock') t₂ ((restoreVersion cfg fuel' path id).call mem₂) (.ok (), mem₃) t₃ →
    t₃.lookup segs = some (.file bytes) := by
  intro h
  have hback := h defaults 1 1 notePath (render noteVersions) "40000.md".toList noteSegments
    noteVersions [0xFF] (.text "new") firstClock secondClock ∅ (overwritten [0xFF]).1.2
    (overwritten [0xFF]).1.2 (restoredNote [0xFF]).1.2 (noteOf [0xFF]) (overwritten [0xFF]).2
    (overwritten [0xFF]).2 (restoredNote [0xFF]).2 (by decide) rfl rfl rfl rfl rfl
    (served_of_eval rfl) rfl nofun rfl (served_of_eval rfl)
  have hleft : (restoredNote [0xFF]).2.lookup noteSegments = some (.file [0xEF, 0xBF, 0xBD]) := rfl
  rw [hleft] at hback
  exact absurd hback (by decide)

end Sample

end Tactile.Storage.Restoring

import Mathlib.Data.Set.Function
import Tactile.Lib.Split
import Tactile.Lib.Utf8
import Tactile.Sync.Records

/-!
The bytes that the ids of blobs are hashes of: domains, texts and a hash, with NULs between them.
-/

namespace Tactile.Sync.BlobIds

open Tactile.Lib.ByteString Tactile.Lib.Text Tactile.Lib.Utf8 Tactile.Storage.Paths
open Tactile.Sync.Records (Preimage)

abbrev Hash : Type := ByteArr 32

def manifestDomain : Bytes := utf8 "tactile-sync/manifest/v1".toList

def fileDomain : Bytes := utf8 "tactile-sync/file/v1".toList

def manifestPreimage (key : Text) : Bytes := manifestDomain ++ utf8 key

def filePreimage (key rel : Text) (hash : Hash) : Bytes :=
  fileDomain ++ utf8 key ++ [0] ++ utf8 rel ++ [0] ++ hash.val

def manifestId (sha256 : Bytes → Hash) (key : Text) : Hash := sha256 (manifestPreimage key)

def fileBlobId (sha256 : Bytes → Hash) (key rel : Text) (hash : Hash) : Hash :=
  sha256 (filePreimage key rel hash)

/-- A text without NUL. -/
def Clean (text : Text) : Prop := '\x00' ∉ text

instance (text : Text) : Decidable (Clean text) := inferInstanceAs (Decidable ('\x00' ∉ text))

section Parsing

variable {key key' rel rel' : Text} {hash hash' : Hash}

theorem manifestPreimage_inj (h : manifestPreimage key = manifestPreimage key') : key = key' :=
  utf8_inj (List.append_cancel_left h)

/-- The first NUL after the domain ends the key, the next one the path, and the rest is the hash. -/
theorem filePreimage_inj (hkey : Clean key) (hrel : Clean rel) (hkey' : Clean key')
    (hrel' : Clean rel') (h : filePreimage key rel hash = filePreimage key' rel' hash') :
    key = key' ∧ rel = rel' ∧ hash = hash' := by
  simp only [filePreimage, List.append_assoc, List.singleton_append] at h
  obtain ⟨hkeys, hrest⟩ := Tactile.Lib.Split.cut_inj (zero_notMem_utf8 hkey)
    (zero_notMem_utf8 hkey') (List.append_cancel_left h)
  obtain ⟨hrels, hhashes⟩ := Tactile.Lib.Split.cut_inj (zero_notMem_utf8 hrel)
    (zero_notMem_utf8 hrel') hrest
  exact ⟨utf8_inj hkeys, utf8_inj hrels, Subtype.ext hhashes⟩

/-- The domains part at the letter after the slash. -/
theorem manifestPreimage_ne_filePreimage (key key' rel : Text) (hash : Hash) :
    manifestPreimage key ≠ filePreimage key' rel hash := by
  intro h
  have hmanifest : (manifestPreimage key)[13]? = some 0x6D := by
    have hdomain : manifestDomain[13]? = some 0x6D := by decide
    rw [manifestPreimage, List.getElem?_append_left (by decide), hdomain]
  have hfile : (filePreimage key' rel hash)[13]? = some 0x66 := by
    have hdomain : fileDomain[13]? = some 0x66 := by decide
    simp only [filePreimage, List.append_assoc]
    rw [List.getElem?_append_left (by decide), hdomain]
  rw [h, hfile] at hmanifest
  exact absurd hmanifest (by decide)

end Parsing

section Preimages

/-- The bytes of what is hashed. -/
def bytes : Preimage Hash → Bytes
  | .content data => data
  | .manifest key => manifestPreimage key
  | .file key rel hash => filePreimage key rel hash

/-- What is made of it: the hash of a content, or an id. -/
def digest (sha256 : Bytes → Hash) : Preimage Hash → Hash
  | .content data => sha256 data
  | .manifest key => manifestId sha256 key
  | .file key rel hash => fileBlobId sha256 key rel hash

theorem digest_eq (sha256 : Bytes → Hash) (p : Preimage Hash) :
    digest sha256 p = sha256 (bytes p) := by
  cases p <;> rfl

/-- What ids are made of, the parts of a file with clean texts. -/
def Names : Preimage Hash → Prop
  | .content _ => False
  | .manifest _ => True
  | .file key rel _ => Clean key ∧ Clean rel

theorem bytes_injOn : Set.InjOn bytes {p | Names p} := by
  rintro (_ | key | ⟨key, rel, hash⟩) hp (_ | key' | ⟨key', rel', hash'⟩) hp' h
  · exact hp.elim
  · exact hp.elim
  · exact hp.elim
  · exact hp'.elim
  · rw [manifestPreimage_inj h]
  · exact absurd h (manifestPreimage_ne_filePreimage key key' rel' hash')
  · exact hp'.elim
  · exact absurd h.symm (manifestPreimage_ne_filePreimage key' key rel hash)
  · obtain ⟨rfl, rfl, rfl⟩ := filePreimage_inj hp.1 hp.2 hp'.1 hp'.2 h
    rfl

end Preimages

/-- Different names are hashed as different strings, and so ids differ wherever SHA-256 tells
apart the strings that are hashed. -/
theorem ids_never_collide :
    (∀ (key rel key' rel' : Text) (hash hash' : Hash),
      Clean key → Clean rel → Clean key' → Clean rel' → (key, rel, hash) ≠ (key', rel', hash') →
      filePreimage key rel hash ≠ filePreimage key' rel' hash') ∧
    (∀ key key' : Text, key ≠ key' → manifestPreimage key ≠ manifestPreimage key') ∧
    (∀ (key key' rel : Text) (hash : Hash), manifestPreimage key ≠ filePreimage key' rel hash) ∧
    ∀ (sha256 : Bytes → Hash) (hashed : Set (Preimage Hash)),
      (∀ p ∈ hashed, Names p) → Set.InjOn sha256 (bytes '' hashed) →
      Set.InjOn (digest sha256) hashed := by
  refine ⟨?_, fun _ _ hne h => hne (manifestPreimage_inj h), manifestPreimage_ne_filePreimage, ?_⟩
  · intro key rel key' rel' hash hash' hkey hrel hkey' hrel' hne h
    obtain ⟨rfl, rfl, rfl⟩ := filePreimage_inj hkey hrel hkey' hrel' h
    exact hne rfl
  · intro sha256 hashed hnames hsha p hp p' hp' h
    rw [digest_eq, digest_eq] at h
    have hbytes : bytes p = bytes p' :=
      hsha (Set.mem_image_of_mem bytes hp) (Set.mem_image_of_mem bytes hp') h
    exact bytes_injOn (hnames p hp) (hnames p' hp') hbytes

/-- The NUL that begins a hash does not make up for a shorter path. -/
theorem ids_never_collide_notes :
    filePreimage "notes".toList "a".toList ⟨List.replicate 32 0, by decide⟩ ≠
      filePreimage "notes".toList "ab".toList ⟨List.replicate 32 0, by decide⟩ :=
  ids_never_collide.1 "notes".toList "a".toList "notes".toList "ab".toList _ _
    (by decide) (by decide) (by decide) (by decide) (by decide)

end Tactile.Sync.BlobIds

import Tactile.Storage.Versioned

/-!
Where the versions of a file lie: the directory that the encoded path names.
-/

namespace Tactile.Storage.VersionDirs

open Tactile.Lib.ByteString Tactile.Lib.Text
open Tactile.Storage.Paths Tactile.Storage.Versioned

section Encoding

theorem slash_notMem_percent (b : UInt8) : '/' ∉ percent b := by
  have hdigit : ∀ n < 16, (n.digitChar).toUpper ≠ '/' := by decide
  have hhigh := hdigit (b.toNat / 16) (by have := b.toNat_lt; omega)
  have hlow := hdigit (b.toNat % 16) (Nat.mod_lt _ (by decide))
  simp [percent, hhigh.symm, hlow.symm]

theorem slash_notMem_encodeURIComponent (s : Text) : '/' ∉ encodeURIComponent s := by
  rw [encodeURIComponent, List.mem_flatMap]
  rintro ⟨c, -, hc⟩
  split at hc
  next hunreserved =>
    rw [← List.mem_singleton.mp hc] at hunreserved
    exact absurd hunreserved (by decide)
  next =>
    obtain ⟨b, -, hb⟩ := List.mem_flatMap.mp hc
    exact slash_notMem_percent b hb

theorem slash_notMem_fnv1a (s : Text) : '/' ∉ fnv1a s := by
  simp [fnv1a, slash_notMem_toDigits]

/-- The directory name of a path: the truncated encoding, and the hash. -/
def dirName (normalized : Text) : Text :=
  (encodeURIComponent normalized).take 120 ++ '-' :: fnv1a normalized

theorem encodePathAsDir_normalized {path normalized : Text} (h : normalizePath path = .ok normalized) :
    encodePathAsDir path = .ok (dirName normalized) := by
  rw [encodePathAsDir, h]
  rfl

theorem length_fnv1a (s : Text) : 8 ≤ (fnv1a s).length := by
  simp only [fnv1a, List.length_append, List.length_replicate]
  omega

theorem isName_dirName (normalized : Text) : IsName (dirName normalized) := by
  have hlen : 9 ≤ (dirName normalized).length := by
    have hhash := length_fnv1a normalized
    simp only [dirName, List.length_append, List.length_cons]
    omega
  refine ⟨?_, ?_, ?_, ?_⟩
  · rintro h
    simp [h] at hlen
  · rintro h
    simp [h] at hlen
  · rintro h
    simp [h] at hlen
  · rw [dirName, List.mem_append, List.mem_cons, not_or, not_or]
    refine ⟨fun h => ?_, by decide, slash_notMem_fnv1a _⟩
    exact slash_notMem_encodeURIComponent _ (List.mem_of_mem_take h)

end Encoding

section Directories

variable {cfg : Config} {path dir : Text} {d : List Text}

theorem versionDirFor_dirName (h : versionDirFor cfg path = .ok (some dir)) :
    ∃ normalized root, normalizePath path = .ok normalized ∧ cfg.rootFor normalized = .ok (some root) ∧
      root ≠ [] ∧ dir = root ++ '/' :: cfg.versionsDir ++ '/' :: dirName normalized := by
  obtain ⟨normalized, root, name, hnorm, hroot, hne, hname, rfl⟩ := versionDirFor_eq_some h
  have hself : normalizePath normalized = .ok normalized := by
    obtain ⟨l, hl, rfl⟩ := normalizePath_eq_ok hnorm
    exact normalizePath_render hl
  rw [encodePathAsDir_normalized hself] at hname
  exact ⟨normalized, root, hnorm, hroot, hne, by rw [Except.ok.inj hname]⟩

/-- It ends in the name that the path is encoded as. -/
theorem versionDir_name (h : versionDirFor cfg path = .ok (some dir)) (hd : pathSegments dir = .ok d) :
    ∃ normalized above, normalizePath path = .ok normalized ∧ d = above ++ [dirName normalized] := by
  obtain ⟨normalized, root, hnorm, -, hroot, rfl⟩ := versionDirFor_dirName h
  have hne : root ++ '/' :: cfg.versionsDir ≠ [] := fun heq => hroot (List.append_eq_nil_iff.mp heq).1
  obtain ⟨above, habove⟩ := pathSegments_left hne hd
  have hplace := pathSegments_name habove (isName_dirName normalized)
  rw [hd] at hplace
  exact ⟨normalized, above, hnorm, Except.ok.inj hplace⟩

end Directories

end Tactile.Storage.VersionDirs

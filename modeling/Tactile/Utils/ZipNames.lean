import Tactile.Utils.Zip
import Tactile.Storage.Paths
import Mathlib.Data.List.Perm.Subperm

/-!
The names in an archive: what sanitizing and numbering leave of a name, and that
no two entries share one.
-/

namespace Tactile.Utils.Zip

open Tactile.Lib.ByteString Tactile.Lib.Split

section Segments

/-- No segment of the name is empty or made of dots; so no slash leads it. -/
def Clean (name : Text) : Prop :=
  ∀ s ∈ name.splitOn '/', s ≠ [] ∧ s ≠ ['.'] ∧ s ≠ ['.', '.']

instance (name : Text) : Decidable (Clean name) := by
  rw [Clean]
  infer_instance

theorem clean_untitled : Clean "untitled".toList := by decide

theorem clean_sanitizeName {name : Text} (h : sanitizeName name ≠ []) :
    Clean (sanitizeName name) := by
  rw [sanitizeName] at h ⊢
  generalize hkept : ((name.map fun c => if c = '\\' then '/' else c).splitOn '/').filter
    (fun s => decide (s ≠ [] ∧ s ≠ ['.'] ∧ s ≠ ['.', '.'])) = kept at h ⊢
  have hmem : ∀ s ∈ kept, '/' ∉ s ∧ s ≠ [] ∧ s ≠ ['.'] ∧ s ≠ ['.', '.'] := by
    intro s hs
    rw [← hkept, List.mem_filter, decide_eq_true_eq] at hs
    exact ⟨notMem_of_mem_splitOn hs.1, hs.2⟩
  have hne : kept ≠ [] := by
    rintro rfl
    exact h rfl
  intro s hs
  rw [List.splitOn_intercalate '/' (fun s hs => (hmem s hs).1) hne] at hs
  exact (hmem s hs).2

/-- Text without a slash that is put into a name is in one segment, and the other
segments stay. -/
theorem mem_splitOn_insert {mid : Text} (hmid : '/' ∉ mid) (x y : Text) {s : Text}
    (h : s ∈ (x ++ mid ++ y).splitOn '/') : s ∈ (x ++ y).splitOn '/' ∨ ∃ a b, s = a ++ mid ++ b := by
  by_cases hx : '/' ∈ x
  · obtain ⟨x₁, x₂, hsplit, hx₁⟩ := List.eq_append_cons_of_mem hx
    have hleft : x ++ mid ++ y = x₁ ++ '/' :: (x₂ ++ mid ++ y) := by simp [hsplit]
    have hright : x ++ y = x₁ ++ '/' :: (x₂ ++ y) := by simp [hsplit]
    rw [hleft, List.splitOn_append_cons_self_of_not_mem hx₁, List.mem_cons] at h
    rw [hright, List.splitOn_append_cons_self_of_not_mem hx₁, List.mem_cons]
    rcases h with h | h
    · exact .inl (.inl h)
    · exact (mem_splitOn_insert hmid x₂ y h).imp_left .inr
  · by_cases hy : '/' ∈ y
    · obtain ⟨y₁, y₂, rfl, hy₁⟩ := List.eq_append_cons_of_mem hy
      have hno : '/' ∉ x ++ mid ++ y₁ := by simp [hx, hmid, hy₁]
      have hno' : '/' ∉ x ++ y₁ := by simp [hx, hy₁]
      rw [← List.append_assoc, List.splitOn_append_cons_self_of_not_mem hno, List.mem_cons] at h
      rw [← List.append_assoc, List.splitOn_append_cons_self_of_not_mem hno', List.mem_cons]
      rcases h with h | h
      · exact .inr ⟨x, y₁, h⟩
      · exact .inl (.inr h)
    · have hno : '/' ∉ x ++ mid ++ y := by simp [hx, hmid, hy]
      rw [List.splitOn_eq_singleton hno, List.mem_singleton] at h
      exact .inr ⟨x, y, h⟩
  termination_by x.length
  decreasing_by
    rw [hsplit, List.length_append, List.length_cons]
    omega

/-- A number that is put into a clean name leaves it clean. -/
theorem clean_numbered {stem ext : Text} (h : Clean (stem ++ ext)) (i : ℕ) :
    Clean (numbered stem ext i) := by
  have hdigits : '/' ∉ Nat.toDigits 10 i := by
    intro hslash
    cases Tactile.Lib.Text.isDigit_of_mem_digits hslash
  have hmid : '/' ∉ " (".toList ++ Nat.toDigits 10 i ++ ")".toList := by
    simp [hdigits]
  have hassoc : numbered stem ext i =
      stem ++ (" (".toList ++ Nat.toDigits 10 i ++ ")".toList) ++ ext := by
    simp only [numbered, List.append_assoc]
  intro s hs
  rw [hassoc] at hs
  rcases mem_splitOn_insert hmid stem ext hs with hold | ⟨a, b, rfl⟩
  · exact h s hold
  · have hspace : ' ' ∈ a ++ (" (".toList ++ Nat.toDigits 10 i ++ ")".toList) ++ b := by simp
    refine ⟨?_, ?_, ?_⟩ <;> intro heq <;> rw [heq] at hspace <;> simp at hspace

end Segments

section Numbering

theorem numbered_inj {stem ext : Text} {i j : ℕ} (h : numbered stem ext i = numbered stem ext j) :
    i = j := by
  rw [numbered, numbered, List.append_left_inj, List.append_left_inj, List.append_right_inj] at h
  exact Tactile.Lib.Text.digits_inj h

/-- When the search ends on a used name, all names it has tried are used. -/
theorem used_of_firstFree_used {usedNames : List Text} {stem ext : Text} (fuel i : ℕ)
    (h : numbered stem ext (firstFree usedNames stem ext fuel i) ∈ usedNames) :
    ∀ k ≤ fuel, numbered stem ext (i + k) ∈ usedNames := by
  induction fuel generalizing i with
  | zero =>
      intro k hk
      rw [Nat.le_zero.mp hk]
      exact h
  | succ fuel ih =>
      rw [firstFree] at h
      split at h
      next hused =>
        intro k hk
        cases k with
        | zero => exact hused
        | succ k =>
            have hlater := ih (i + 1) h k (by omega)
            rwa [Nat.add_assoc, Nat.add_comm 1 k] at hlater
      next hfree => exact absurd h hfree

/-- Among more numbers than there are names one is free, so the search finds it. -/
theorem firstFree_notMem (usedNames : List Text) (stem ext : Text) :
    numbered stem ext (firstFree usedNames stem ext usedNames.length 1) ∉ usedNames := by
  intro h
  have hall := used_of_firstFree_used usedNames.length 1 h
  have hnodup : ((List.range (usedNames.length + 1)).map fun k => numbered stem ext (1 + k)).Nodup :=
    List.nodup_range.map fun j k hjk => Nat.add_left_cancel (numbered_inj hjk)
  have hsub : (List.range (usedNames.length + 1)).map (fun k => numbered stem ext (1 + k)) ⊆
      usedNames := by
    intro name hname
    obtain ⟨k, hk, rfl⟩ := List.mem_map.mp hname
    exact hall k (by rw [List.mem_range] at hk; omega)
  have hle := (hnodup.subperm hsub).length_le
  rw [List.length_map, List.length_range] at hle
  omega

theorem archiveName_notMem (usedNames : List Text) (name : Text) :
    archiveName usedNames name ∉ usedNames := by
  rw [archiveName]
  generalize (if sanitizeName name = [] then "untitled".toList else sanitizeName name) = base
  change (if base ∈ usedNames then numbered _ _ (firstFree usedNames _ _ usedNames.length 1)
    else base) ∉ usedNames
  split
  · exact firstFree_notMem usedNames _ _
  · assumption

theorem clean_archiveName (usedNames : List Text) (name : Text) :
    Clean (archiveName usedNames name) := by
  rw [archiveName]
  generalize hbase : (if sanitizeName name = [] then "untitled".toList else sanitizeName name) = base
  have hclean : Clean base := by
    rw [← hbase]
    split
    · exact clean_untitled
    · exact clean_sanitizeName ‹_›
  change Clean (if base ∈ usedNames then numbered (if 0 < lastIndexOfDot base then _ else _)
    (if 0 < lastIndexOfDot base then _ else _) _ else base)
  split
  · apply clean_numbered
    split
    · rwa [List.take_append_drop]
    · rwa [List.append_nil]
  · exact hclean

end Numbering

section Entries

/-- The names of the entries in the archive. -/
def archiveNames : List Text → List ZipEntry → List Text
  | _, [] => []
  | usedNames, entry :: entries =>
    let name := archiveName usedNames entry.name
    name :: archiveNames (name :: usedNames) entries

variable (now : ℕ → JsDate)

theorem nameBytes_prepare (i : ℕ) (usedNames : List Text) (entries : List ZipEntry) :
    (prepare now i usedNames entries).map Prepared.nameBytes =
      (archiveNames usedNames entries).map encode := by
  induction entries generalizing i usedNames with
  | nil => rfl
  | cons entry entries ih => rw [prepare, archiveNames, List.map_cons, List.map_cons, ih]

theorem clean_archiveNames (usedNames : List Text) (entries : List ZipEntry) :
    ∀ name ∈ archiveNames usedNames entries, Clean name := by
  induction entries generalizing usedNames with
  | nil => exact fun _ h => nomatch h
  | cons entry entries ih =>
      rw [archiveNames, List.forall_mem_cons]
      exact ⟨clean_archiveName usedNames entry.name, ih _⟩

/-- The names differ, from each other and from those used before. -/
theorem archiveNames_fresh (usedNames : List Text) (entries : List ZipEntry) :
    (archiveNames usedNames entries).Nodup ∧
      ∀ name ∈ archiveNames usedNames entries, name ∉ usedNames := by
  induction entries generalizing usedNames with
  | nil => exact ⟨List.nodup_nil, fun _ h => nomatch h⟩
  | cons entry entries ih =>
      obtain ⟨hnodup, hfresh⟩ := ih (archiveName usedNames entry.name :: usedNames)
      rw [archiveNames, List.nodup_cons, List.forall_mem_cons]
      refine ⟨⟨fun hmem => hfresh _ hmem List.mem_cons_self, hnodup⟩,
        archiveName_notMem usedNames entry.name, ?_⟩
      intro name hname hused
      exact hfresh name hname (List.mem_cons_of_mem _ hused)

end Entries

end Tactile.Utils.Zip

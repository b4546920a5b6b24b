import Mathlib.Order.Defs.Unbundled
import Tactile.Storage.Paths

/-!
The laws of the path helpers: normalizing, joining, nesting, and the parent and name of a path.
-/

namespace Tactile.Storage.PathAlgebra

open Tactile.Storage.Paths

/-- A path as `normalizePath` returns it. -/
structure NormalPath where
  text : Text
  normal : normalizePath text = .ok text

/-- The names of a normalized path. -/
def NormalPath.segments (p : NormalPath) : List Text :=
  match pathSegments p.text with
  | .ok l => l
  | .error _ => []

/-- Whether a normalized path is another one or nested under it. -/
def Under (child ancestor : NormalPath) : Prop := isUnder child.text ancestor.text = .ok true

section Laws

variable {path q root rel : Text} {l l' : List Text}

theorem normalizePath_idem (h : normalizePath path = .ok q) : normalizePath q = .ok q := by
  obtain ⟨l, hl, rfl⟩ := normalizePath_eq_ok h
  exact normalizePath_render hl

theorem isUnder_of_segments (hchild : pathSegments path = .ok l)
    (hancestor : pathSegments root = .ok l') : isUnder path root = .ok (l' <+: l : Bool) := by
  have hl := names_of_pathSegments hchild
  have hl' := names_of_pathSegments hancestor
  rw [← isUnder_render hl hl', isUnder, isUnder, normalizePath_of_pathSegments hchild,
    normalizePath_of_pathSegments hancestor, normalizePath_render hl, normalizePath_render hl']

/-- The segments of a joined path begin with those of its first part. -/
theorem joinPath_isUnder (hroot : root ≠ []) (h : joinPath [root, rel] = .ok q) :
    isUnder q root = .ok true := by
  rw [joinPath_pair] at h
  obtain ⟨l, hl, rfl⟩ := normalizePath_eq_ok h
  obtain ⟨l', hl', hbegins⟩ := pathSegments_prefix hroot (pathSegments_of_normalizePath hl h)
  rw [isUnder_of_segments (pathSegments_render hl) hl', decide_eq_true hbegins]

theorem joinPath_parentPath_baseName (h : normalizePath path = .ok q) (hroot : q ≠ ['/']) :
    ∃ parent name, parentPath path = .ok parent ∧ baseName path = .ok name ∧
      joinPath [parent, name] = .ok q := by
  obtain ⟨l, hl, rfl⟩ := normalizePath_eq_ok h
  have hparent : parentPath path = parentPath (render l) := by
    rw [parentPath, parentPath, h, normalizePath_render hl]
  have hbase : baseName path = baseName (render l) := by
    rw [baseName, baseName, h, normalizePath_render hl]
  rcases List.eq_nil_or_concat l with rfl | ⟨l', s, rfl⟩
  · exact absurd rfl hroot
  · rw [List.concat_eq_append] at hl hparent hbase ⊢
    have hl' : Names l' := (names_append.mp hl).1
    refine ⟨render l', s, ?_, ?_, ?_⟩
    · rw [hparent, parentPath_render hl, List.dropLast_concat]
    · rw [hbase, baseName_render hl]
    · rw [joinPath_pair]
      exact normalizePath_of_pathSegments
        (pathSegments_name (pathSegments_render hl') (hl s (by simp)))

end Laws

section Order

variable (p child ancestor : NormalPath)

theorem NormalPath.pathSegments_text : pathSegments p.text = .ok p.segments := by
  obtain ⟨l, hl, htext⟩ := normalizePath_eq_ok p.normal
  have hsegments : pathSegments p.text = .ok l := htext ▸ pathSegments_render hl
  rw [NormalPath.segments, hsegments]

theorem NormalPath.text_eq : p.text = render p.segments :=
  Except.ok.inj (p.normal.symm.trans (normalizePath_of_pathSegments p.pathSegments_text))

theorem NormalPath.ext_segments {p p' : NormalPath} (h : p.segments = p'.segments) : p = p' := by
  have htext : p.text = p'.text := by rw [p.text_eq, p'.text_eq, h]
  cases p
  cases p'
  cases htext
  rfl

theorem isUnder_text :
    isUnder child.text ancestor.text = .ok (ancestor.segments <+: child.segments : Bool) :=
  isUnder_of_segments child.pathSegments_text ancestor.pathSegments_text

theorem under_iff {child ancestor : NormalPath} :
    Under child ancestor ↔ ancestor.segments <+: child.segments := by
  rw [Under, isUnder_text, Except.ok.injEq, decide_eq_true_iff]

instance : IsPartialOrder NormalPath Under where
  refl _ := under_iff.mpr (List.prefix_refl _)
  trans _ _ _ h h' := under_iff.mpr ((under_iff.mp h').trans (under_iff.mp h))
  antisymm _ _ h h' := by
    have hlen := (under_iff.mp h).length_le
    exact NormalPath.ext_segments ((under_iff.mp h').eq_of_length_le hlen)

end Order

/-- The empty root is refused where a path is asked to be under it, and a path that is not
normalized comes back normalized. -/
theorem path_algebra_refused :
    joinPath [[], "a".toList] = .ok "/a".toList ∧
      (∃ e, isUnder "/a".toList [] = .error e) ∧
      parentPath "a".toList = .ok "/".toList ∧ baseName "a".toList = .ok "a".toList ∧
      joinPath ["/".toList, "a".toList] = .ok "/a".toList :=
  ⟨by decide, ⟨_, rfl⟩, by decide, by decide, by decide⟩

/-- The laws of the helpers, for every path that they accept. -/
theorem path_algebra :
    (∀ path q, normalizePath path = .ok q → normalizePath q = .ok q) ∧
    (∀ root rel q, root ≠ [] → joinPath [root, rel] = .ok q → isUnder q root = .ok true) ∧
    IsPartialOrder NormalPath Under ∧
    (∀ child ancestor : NormalPath, ∃ c a,
      pathSegments child.text = .ok c ∧ pathSegments ancestor.text = .ok a ∧
      isUnder child.text ancestor.text = .ok (a <+: c : Bool)) ∧
    ∀ path q, normalizePath path = .ok q → q ≠ ['/'] → ∃ parent name,
      parentPath path = .ok parent ∧ baseName path = .ok name ∧
      joinPath [parent, name] = .ok q :=
  ⟨fun _ _ => normalizePath_idem, fun _ _ _ => joinPath_isUnder, inferInstance,
    fun child ancestor => ⟨_, _, child.pathSegments_text, ancestor.pathSegments_text,
      isUnder_text child ancestor⟩,
    fun _ _ => joinPath_parentPath_baseName⟩

/-- A root with slashes and dots, and the name below it. -/
theorem path_algebra_notes :
    isUnder "/notes/todo.md".toList "//notes/./".toList = .ok true ∧
      ∃ parent name, parentPath "notes//todo.md".toList = .ok parent ∧
        baseName "notes//todo.md".toList = .ok name ∧
        joinPath [parent, name] = .ok "/notes/todo.md".toList :=
  ⟨path_algebra.2.1 "//notes/./".toList "todo.md".toList _ (by decide) (by decide),
    path_algebra.2.2.2.2 "notes//todo.md".toList _ (by decide) (by decide)⟩

end Tactile.Storage.PathAlgebra

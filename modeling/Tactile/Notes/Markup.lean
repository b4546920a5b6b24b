import Tactile.Lib.Matching
import Tactile.Lib.Split
import Tactile.Search.Highlights

/-!
What the editor's markdown rules share: the text that they read, the tokens of HTML that
they push, and the escaping of what stands in the HTML.
-/

namespace Tactile.Notes.Markup

open Tactile.Lib.CodeUnits Tactile.Lib.Matching
open Tactile.Lib.Split (flatMap_inj)
open Tactile.Search.Highlights (replaceAll escapeUnit escapeHtml_eq)

/-- A paragraph that is read, and the contents of the `html_inline` tokens pushed so far. -/
structure StateInline where
  src : JsString
  pos : ℕ
  tokens : List JsString
  deriving DecidableEq

def esc (s : JsString) : JsString :=
  replaceAll '"' (js "&quot;".toList) (replaceAll '>' (js "&gt;".toList)
    (replaceAll '<' (js "&lt;".toList) (replaceAll '&' (js "&amp;".toList) s)))

/-- `String.prototype.indexOf` from a position. -/
def indexOf (p s : JsString) (start : ℕ) : Option ℕ :=
  (occurrence p (s.drop start)).map (start + ·)

theorem esc_eq (s : JsString) : esc s = s.flatMap escapeUnit := escapeHtml_eq s

theorem escapeUnit_ne_nil (u : UInt16) : escapeUnit u ≠ [] := by
  rw [escapeUnit]
  split_ifs <;> simp [js]

def escaped : List UInt16 := [unit '&', unit '<', unit '>', unit '"']

theorem escapeUnit_cases (u : UInt16) : u ∈ escaped ∨ escapeUnit u = [u] ∧ u ≠ unit '&' := by
  rw [escapeUnit]
  split_ifs with hamp hlt hgt hquot
  · exact .inl (by simp [escaped, hamp])
  · exact .inl (by simp [escaped, hlt])
  · exact .inl (by simp [escaped, hgt])
  · exact .inl (by simp [escaped, hquot])
  · exact .inr ⟨rfl, hamp⟩

theorem forall_mem_escaped {p : UInt16 → Prop} :
    (∀ w ∈ escaped, p w) ↔ p (unit '&') ∧ p (unit '<') ∧ p (unit '>') ∧ p (unit '"') := by
  simp [escaped]

/-- No code of a unit begins the code of another one. -/
theorem escapeUnit_free (u v : UInt16) (h : escapeUnit u <+: escapeUnit v) : u = v := by
  have hlong : ∀ w ∈ escaped, 1 < (escapeUnit w).length := by
    simp only [forall_mem_escaped]
    decide
  have hamp : ∀ w ∈ escaped, (escapeUnit w).head? = some (unit '&') := by
    simp only [forall_mem_escaped]
    decide
  have hdistinct : ∀ w ∈ escaped, ∀ w' ∈ escaped, escapeUnit w <+: escapeUnit w' → w = w' := by
    simp only [forall_mem_escaped]
    decide
  rcases escapeUnit_cases u with hu | ⟨hu, hne⟩
  · rcases escapeUnit_cases v with hv | ⟨hv, -⟩
    · exact hdistinct u hu v hv h
    · rw [hv] at h
      exact absurd h.length_le (not_le.mpr (hlong u hu))
  · rw [hu] at h
    obtain ⟨rest, hrest⟩ := h
    rcases escapeUnit_cases v with hv | ⟨hv, -⟩
    · have hhead := hamp v hv
      rw [← hrest] at hhead
      exact absurd (Option.some.inj hhead) hne
    · rw [hv] at hrest
      exact (List.cons.inj hrest).1

theorem esc_inj {s t : JsString} (h : esc s = esc t) : s = t := by
  rw [esc_eq, esc_eq] at h
  exact flatMap_inj escapeUnit_ne_nil escapeUnit_free h

theorem quote_notMem_esc (s : JsString) : unit '"' ∉ esc s := by
  rw [esc_eq, List.mem_flatMap]
  rintro ⟨u, -, hu⟩
  rw [escapeUnit] at hu
  split_ifs at hu with hamp hlt hgt hquot
  · exact absurd hu (by decide)
  · exact absurd hu (by decide)
  · exact absurd hu (by decide)
  · exact absurd hu (by decide)
  · exact hquot (List.mem_singleton.mp hu).symm

end Tactile.Notes.Markup

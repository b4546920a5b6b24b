import Mathlib.Data.Int.Notation
import Tactile.Utils.Diff

/-!
The display of a diff: long runs of unchanged rows collapsed, without loss.
-/

namespace Tactile.Utils.Collapse

open Tactile.Utils.Diff

section Scan

inductive DisplayRow
  | line (line : DiffLine)
  | collapsed (count firstOld firstNew : ℕ)
  deriving DecidableEq

/-- The rows so far, and the run of unchanged lines that is not yet among them. -/
structure Scan where
  rows : List DisplayRow := []
  runStart : ℤ := -1
  runLength : ℕ := 0

variable (lines : List DiffLine)

/-- The line at an index, none where it is undefined. -/
def lineAt (i : ℤ) : Option DiffLine := if i < 0 then none else lines[i.toNat]?

/-- The lines of a run from `k` on, before `stop`. -/
def runLines (runStart : ℤ) (k stop : ℕ) : Option (List DisplayRow) :=
  (List.range' k (stop - k)).mapM fun (k : ℕ) => (lineAt lines (runStart + k)).map .line

def Scan.flush (context : ℕ) (s : Scan) : Option Scan :=
  if s.runLength = 0 then some s
  else if s.runLength ≤ context * 2 + 1 then do
    let run ← runLines lines s.runStart 0 s.runLength
    pure { rows := s.rows ++ run }
  else do
    let head ← runLines lines s.runStart 0 context
    let first ← lineAt lines (s.runStart + context)
    let tail ← runLines lines s.runStart (s.runLength - context) s.runLength
    let count := s.runLength - context * 2
    pure { rows := s.rows ++ head ++
      .collapsed count (first.oldNumber.getD 0) (first.newNumber.getD 0) :: tail }

def Scan.step (context : ℕ) (s : Scan) (i : ℕ) : Option Scan := do
  let line ← lines[i]?
  if line.type = .same then
    pure { s with
      runStart := if s.runLength = 0 then (i : ℤ) else s.runStart
      runLength := s.runLength + 1 }
  else do
    let s ← s.flush lines context
    pure { s with rows := s.rows ++ [.line line] }

end Scan

section Runs

end Runs

section Reading

variable {lines done run rest : List DiffLine} {context : ℕ} {rows : List DisplayRow}

/-- The scan with the lines of `run` open, which follow those of `done`. -/
def pending (rows : List DisplayRow) (done run : List DiffLine) : Scan :=
  { rows := rows, runStart := if run = [] then -1 else (done.length : ℤ), runLength := run.length }

variable {line : DiffLine}

end Reading

section Restoring

variable (lines : List DiffLine)

/-- The lines from the one with two numbers on. -/
def linesFrom (firstOld firstNew : ℕ) : List DiffLine :=
  lines.dropWhile fun line => ¬ (line.oldNumber = some firstOld ∧ line.newNumber = some firstNew)

/-- The lines that a row stands for. -/
def restoreRow : DisplayRow → List DiffLine
  | .line line => [line]
  | .collapsed count firstOld firstNew => (linesFrom lines firstOld firstNew).take count

def restore (rows : List DisplayRow) : List DiffLine := rows.flatMap (restoreRow lines)

variable {lines} {done run rest post : List DiffLine} {line : DiffLine} {context : ℕ}
  {rows rows' : List DisplayRow}

@[simp] theorem restore_nil : restore lines [] = [] := rfl

end Restoring

section Places

variable {lines pre run run' post : List DiffLine} {line : DiffLine} (context : ℕ)

end Places

section Numbers

end Numbers

end Tactile.Utils.Collapse

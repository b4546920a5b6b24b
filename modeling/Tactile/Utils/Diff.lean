import Mathlib.Data.List.Basic

/-!
The line diff of the version history: rows that spell the old and the new text.
-/

namespace Tactile.Utils.Diff

section Records

/-- A string, by its UTF-16 code units. -/
abbrev JsString : Type := List UInt16

inductive DiffLineType
  | same
  | add
  | del
  deriving DecidableEq

/-- A row with the numbers of its line in the documents it belongs to. -/
structure DiffLine where
  type : DiffLineType
  text : JsString
  oldNumber : Option ℕ := none
  newNumber : Option ℕ := none
  deriving DecidableEq

structure DiffResult where
  lines : List DiffLine
  added : ℕ
  removed : ℕ
  unchanged : ℕ
  truncated : Bool
  deriving DecidableEq

/-- A row of the middle, with its places in the two slices. -/
structure LcsLine where
  type : DiffLineType
  text : JsString
  aIndex : Option ℕ := none
  bIndex : Option ℕ := none

end Records

section Lcs

def cell (dp : List (List ℕ)) (i j : ℕ) : ℕ := (dp.getD i []).getD j 0

/-- The walk through the table; what is left when a list ends is removed or added. -/
def walk (dp : List (List ℕ)) : ℕ → ℕ → List JsString → List JsString → List LcsLine
  | i, j, x :: xs, y :: ys =>
    if x = y then
      { type := .same, text := x, aIndex := some i, bIndex := some j } ::
        walk dp (i + 1) (j + 1) xs ys
    else if cell dp i (j + 1) ≤ cell dp (i + 1) j then
      { type := .del, text := x, aIndex := some i } :: walk dp (i + 1) j xs (y :: ys)
    else { type := .add, text := y, bIndex := some j } :: walk dp i (j + 1) (x :: xs) ys
  | i, j, x :: xs, [] => { type := .del, text := x, aIndex := some i } :: walk dp (i + 1) j xs []
  | i, j, [], y :: ys => { type := .add, text := y, bIndex := some j } :: walk dp i (j + 1) [] ys
  | _, _, [], [] => []
  termination_by _ _ xs ys => xs.length + ys.length

end Lcs

section Diff

/-- The lines of a text, none of the empty one. -/
def sourceLines (text : JsString) : List JsString := if text = [] then [] else text.splitOn 10

def LcsLine.row (pre : ℕ) (line : LcsLine) : DiffLine :=
  { type := line.type, text := line.text, oldNumber := line.aIndex.map fun i => pre + i + 1,
    newNumber := line.bIndex.map fun j => pre + j + 1 }

end Diff

section Sides

/-- What a row says of the old document. -/
def DiffLine.oldSide (row : DiffLine) : Option (JsString × Option ℕ) :=
  if row.type = .add then none else some (row.text, row.oldNumber)

/-- What a row says of the new document. -/
def DiffLine.newSide (row : DiffLine) : Option (JsString × Option ℕ) :=
  if row.type = .del then none else some (row.text, row.newNumber)

/-- Lines with their numbers, from a place on. -/
def numbered (k : ℕ) (xs : List JsString) : List (JsString × Option ℕ) :=
  xs.mapIdx fun n text => (text, some (k + n + 1))

/-- Rows that spell one list of lines on the old side and one on the new side. -/
structure Spells (i j : ℕ) (rows : List DiffLine) (a b : List JsString) : Prop where
  old : rows.filterMap DiffLine.oldSide = numbered i a
  new : rows.filterMap DiffLine.newSide = numbered j b
  absent : ∀ row ∈ rows, (row.type = .add → row.oldNumber = none) ∧
    (row.type = .del → row.newNumber = none)

variable {i j : ℕ} {rows rows' : List DiffLine} {a a' b b' : List JsString}

theorem mapIdx_cons_shift {γ : Type} {f g : ℕ → JsString → γ}
    (hshift : ∀ n text, f (n + 1) text = g n text) (x : JsString) (xs : List JsString) :
    (x :: xs).mapIdx f = f 0 x :: xs.mapIdx g := by
  rw [List.mapIdx_cons]
  apply congrArg
  apply congrArg (fun f => List.mapIdx f xs)
  funext n text
  exact hshift n text

theorem succ_place (i n : ℕ) : i + (n + 1) + 1 = i + 1 + n + 1 := by omega

theorem numbered_cons (k : ℕ) (x : JsString) (xs : List JsString) :
    numbered k (x :: xs) = (x, some (k + 1)) :: numbered (k + 1) xs :=
  mapIdx_cons_shift (fun n text => by rw [succ_place]) x xs

theorem numbered_append (k : ℕ) (xs ys : List JsString) :
    numbered k (xs ++ ys) = numbered k xs ++ numbered (k + xs.length) ys := by
  induction xs generalizing k with
  | nil => rfl
  | cons x xs ih =>
      have hplace : k + (xs.length + 1) = k + 1 + xs.length := by omega
      rw [List.cons_append, numbered_cons, ih, numbered_cons, List.cons_append, List.length_cons,
        hplace]

theorem Spells.append (h : Spells i j rows a b)
    (h' : Spells (i + a.length) (j + b.length) rows' a' b') :
    Spells i j (rows ++ rows') (a ++ a') (b ++ b') where
  old := by rw [List.filterMap_append, h.old, h'.old, numbered_append]
  new := by rw [List.filterMap_append, h.new, h'.new, numbered_append]
  absent row hrow := (List.mem_append.mp hrow).elim (h.absent row) (h'.absent row)

end Sides

section Middle

variable {a b : List JsString}

/-- The number of rows of a type. -/
def count (type : DiffLineType) (rows : List DiffLine) : ℕ := rows.countP fun row => row.type = type

theorem count_append (type : DiffLineType) (rows rows' : List DiffLine) :
    count type (rows ++ rows') = count type rows + count type rows' :=
  List.countP_append

end Middle

section Faithful

/-- A result whose rows spell the old and the new lines and whose counts are those of
its rows. -/
structure Faithful (old new : List JsString) (res : DiffResult) : Prop where
  spells : Spells 0 0 res.lines old new
  added : res.added = count .add res.lines
  removed : res.removed = count .del res.lines
  unchanged : res.unchanged = count .same res.lines

theorem count_types (rows : List DiffLine) :
    rows.length = count .same rows + count .add rows + count .del rows := by
  induction rows with
  | nil => rfl
  | cons row rows ih =>
      rw [count, count, count] at *
      rw [List.length_cons, List.countP_cons, List.countP_cons, List.countP_cons, ih]
      cases row.type <;> simp <;> omega

end Faithful

end Tactile.Utils.Diff

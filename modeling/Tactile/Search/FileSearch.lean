import Tactile.Lib.Split
import Tactile.Search.Units

/-!
The search of the web app in one file, on strings of code units: the lines it lists and
when it lists none.
-/

namespace Tactile.Search.FileSearch

open Tactile.Lib.Matching Tactile.Lib.CodeUnits Tactile.Lib.Split
open Tactile.Search.Fuzzy (MatchMode FuzzyMatch Kind toHighlightRanges maxMatchesPerFile)
open Tactile.Search.Units
open scoped List

section Search

/-- A row of results. -/
structure SearchResult where
  path : JsString
  kind : Kind
  line : Option ℕ
  preview : JsString
  score : ℤ
  highlights : List (ℕ × ℕ)

structure FileSearchResult where
  results : List SearchResult
  score : ℤ

variable (low : Lowering) (mode : MatchMode) (caseSensitive : Bool)

/-- The loop over the terms, which ends at the first that does not match. -/
def termsLoop (text : JsString) : List JsString → FuzzyMatch ℤ → Option (FuzzyMatch ℤ)
  | [], m => some m
  | term :: terms, m =>
    match matchTerm low term text mode caseSensitive with
    | none => none
    | some m' => termsLoop text terms ⟨m.score + m'.score, m.indices ++ m'.indices⟩

def newline : UInt16 := unit '\n'

/-- The row of a line that all terms match. -/
def lineResult (path : JsString) (lines : List JsString) (i : ℕ) (m : FuzzyMatch ℤ) :
    SearchResult :=
  let startLine := i - 1
  let endLine := min (lines.length - 1) (i + 1)
  let lineOffset := (((lines.drop startLine).take (i - startLine)).map fun l => l.length + 1).sum
  { path := path
    kind := .content
    line := some (i + 1)
    preview := [newline].intercalate ((lines.drop startLine).take (endLine + 1 - startLine))
    score := m.score
    highlights := toHighlightRanges (m.indices.map fun idx => idx + lineOffset) }

/-- The loop over the lines from number `i` on: the rows so far and the best score. -/
def linesLoop (path : JsString) (lines terms : List JsString) :
    ℕ → List JsString → List SearchResult → ℤ → List SearchResult × ℤ
  | _, [], lineResults, best => (lineResults, best)
  | i, line :: rest, lineResults, best =>
    if lineResults.length < maxMatchesPerFile then
      if trim line = [] then linesLoop path lines terms (i + 1) rest lineResults best
      else
        match termsLoop low mode caseSensitive line terms ⟨0, []⟩ with
        | none => linesLoop path lines terms (i + 1) rest lineResults best
        | some m => linesLoop path lines terms (i + 1) rest
            (lineResults ++ [lineResult path lines i m]) (max best m.score)
    else (lineResults, best)

/-- The last part of a path. -/
def baseName (path : JsString) : JsString := (path.splitOn (unit '/')).getLast?.getD path

/-- Descending scores. -/
def byScore (a b : SearchResult) : Bool := decide (b.score - a.score ≤ 0)

/-- The row of a name that all terms match. -/
def nameResult (path : JsString) (m : FuzzyMatch ℤ) : SearchResult where
  path := path
  kind := .name
  line := none
  preview := baseName path
  score := m.score
  highlights := toHighlightRanges m.indices

def searchFile (path content : JsString) (terms : List JsString) : Option FileSearchResult :=
  let name := baseName path
  let named := termsLoop low mode caseSensitive name terms ⟨0, []⟩
  let nameResults := match named with
    | none => []
    | some m => [nameResult path m]
  let lines := content.splitOn newline
  let (lineResults, best) := linesLoop low mode caseSensitive path lines terms 0 lines [] 0
  let matchedTermsInContent :=
    terms.all fun term => (matchTerm low term content mode caseSensitive).isSome
  if named.isNone && (!matchedTermsInContent || lineResults.isEmpty) then none
  else
    let sorted := lineResults.mergeSort byScore
    let nameScore := match named with
      | none => 0
      | some m => m.score + 100
    some ⟨nameResults ++ sorted, nameScore + best + sorted.length * 3⟩

/-- Every term matches the text. -/
def MatchesAll (terms : List JsString) (text : JsString) : Prop :=
  ∀ term ∈ terms, (matchTerm low term text mode caseSensitive).isSome = true

instance (terms : List JsString) : DecidablePred (MatchesAll low mode caseSensitive terms) :=
  fun _ => inferInstanceAs (Decidable (∀ term ∈ terms, _ = true))

/-- The line is not blank, and every term matches it. -/
def Hit (terms : List JsString) (line : JsString) : Prop :=
  trim line ≠ [] ∧ MatchesAll low mode caseSensitive terms line

instance (terms : List JsString) : DecidablePred (Hit low mode caseSensitive terms) :=
  fun line => inferInstanceAs (Decidable (trim line ≠ [] ∧ _))

/-- The match of all terms in a text, when all match it. -/
def matchOf (terms : List JsString) (text : JsString) : FuzzyMatch ℤ :=
  (termsLoop low mode caseSensitive text terms ⟨0, []⟩).getD ⟨0, []⟩

/-- The first lines of a file that are hits, with their places. -/
def firstLines (content : JsString) (terms : List JsString) : List (JsString × ℕ) :=
  ((content.splitOn newline).zipIdx.filter fun hit =>
    decide (Hit low mode caseSensitive terms hit.1)).take maxMatchesPerFile

/-- The row of a hit. -/
def hitRow (path : JsString) (lines terms : List JsString) (hit : JsString × ℕ) : SearchResult :=
  lineResult path lines hit.2 (matchOf low mode caseSensitive terms hit.1)

/-- A hit has a higher score than another, or the same in an earlier line. -/
def Ahead (terms : List JsString) (hit hit' : JsString × ℕ) : Prop :=
  (matchOf low mode caseSensitive terms hit'.1).score <
      (matchOf low mode caseSensitive terms hit.1).score ∨
    (matchOf low mode caseSensitive terms hit'.1).score =
      (matchOf low mode caseSensitive terms hit.1).score ∧ hit.2 < hit'.2

/-- The rows of a file: one for its name, when every term matches it, and those of its first
lines that are hits, the best first and ties in line order. -/
def Lists (path content : JsString) (terms : List JsString) (results : List SearchResult) : Prop :=
  ∃ hits : List (JsString × ℕ), hits.Perm (firstLines low mode caseSensitive content terms) ∧
    hits.Pairwise (Ahead low mode caseSensitive terms) ∧
    results =
      (if MatchesAll low mode caseSensitive terms (baseName path) then
        [nameResult path (matchOf low mode caseSensitive terms (baseName path))] else []) ++
      hits.map (hitRow low mode caseSensitive path (content.splitOn newline) terms)

end Search

section Terms

variable {low : Lowering} {mode : MatchMode} {caseSensitive : Bool} {text : JsString}

theorem termsLoop_isSome (terms : List JsString) (m : FuzzyMatch ℤ) :
    (termsLoop low mode caseSensitive text terms m).isSome = true ↔
      MatchesAll low mode caseSensitive terms text := by
  induction terms generalizing m with
  | nil => simp [termsLoop, MatchesAll]
  | cons term terms ih =>
      rw [termsLoop, MatchesAll, List.forall_mem_cons]
      cases matchTerm low term text mode caseSensitive with
      | none => simp
      | some m' => simpa [MatchesAll] using ih _

theorem termsLoop_eq (terms : List JsString) :
    termsLoop low mode caseSensitive text terms ⟨0, []⟩ =
      if MatchesAll low mode caseSensitive terms text then
        some (matchOf low mode caseSensitive terms text) else none := by
  rw [matchOf]
  split
  next hall =>
    obtain ⟨m, hm⟩ := Option.isSome_iff_exists.mp ((termsLoop_isSome terms ⟨0, []⟩).mpr hall)
    rw [hm]
    rfl
  next hnot =>
    rw [← Option.not_isSome_iff_eq_none, termsLoop_isSome]
    exact hnot

/-- What the loop over the lines does at a line. -/
def lineMatch (low : Lowering) (mode : MatchMode) (caseSensitive : Bool) (terms : List JsString)
    (line : JsString) : Option (FuzzyMatch ℤ) :=
  if trim line = [] then none else termsLoop low mode caseSensitive line terms ⟨0, []⟩

theorem linesLoop_eq (path : JsString) (lines terms : List JsString) (rest : List JsString) (i : ℕ)
    (rows : List SearchResult) (best : ℤ) (hrows : rows.length ≤ maxMatchesPerFile) :
    (linesLoop low mode caseSensitive path lines terms i rest rows best).1 =
      rows ++ (firstHits (lineMatch low mode caseSensitive terms)
        (maxMatchesPerFile - rows.length) i rest).map fun hit =>
          lineResult path lines hit.1 hit.2 := by
  induction rest generalizing i rows best with
  | nil => simp [linesLoop, firstHits]
  | cons line rest ih =>
      rw [linesLoop]
      split
      next hlt =>
        obtain ⟨cap, hcap⟩ := Nat.exists_eq_add_of_lt hlt
        have hleft : maxMatchesPerFile - rows.length = cap + 1 := by omega
        rw [hleft, firstHits]
        split
        next hblank =>
          have hnone : lineMatch low mode caseSensitive terms line = none := if_pos hblank
          rw [hnone, ih _ _ _ hrows, hleft]
        next hblank =>
          have hline : lineMatch low mode caseSensitive terms line =
              termsLoop low mode caseSensitive line terms ⟨0, []⟩ := if_neg hblank
          rw [hline]
          cases termsLoop low mode caseSensitive line terms ⟨0, []⟩ with
          | none => exact (ih _ _ _ hrows).trans (by rw [hleft])
          | some m =>
              have hlonger : (rows ++ [lineResult path lines i m]).length = rows.length + 1 := by
                simp
              dsimp only
              rw [ih _ _ _ (by omega), hlonger, List.append_assoc]
              have hnext : maxMatchesPerFile - (rows.length + 1) = cap := by omega
              rw [hnext]
              rfl
      next hfull =>
        have hleft : maxMatchesPerFile - rows.length = 0 := by omega
        rw [hleft, firstHits_zero, List.map_nil, List.append_nil]

end Terms

section Sorting

variable {α : Type} {le : α → α → Bool}

end Sorting

section Inside

variable {low : Lowering} {mode : MatchMode} {caseSensitive : Bool} {p h a b : JsString} {i : ℕ}

end Inside

section File

variable {low : Lowering} {mode : MatchMode} {caseSensitive : Bool}

end File

section Sample

end Sample

end Tactile.Search.FileSearch

import Mathlib.Algebra.Order.Ring.Int
import Tactile.Lib.Matching

/-!
The fuzzy matchers of the web app and its search in one file.
-/

namespace Tactile.Search.Fuzzy

open Tactile.Lib.Matching

abbrev Text : Type := List Char

section Types

/-- A runtime's character tables; on ASCII characters they are the usual ones. -/
structure Unicode where
  lowercase : Text → Text
  isLowercase : Char → Bool
  isUppercase : Char → Bool
  isWhitespace : Char → Bool
  lowercase_ascii : ∀ s : Text, (∀ c ∈ s, c.toNat < 128) → lowercase s = s.map Char.toLower
  isLowercase_ascii : ∀ c : Char, c.toNat < 128 → isLowercase c = c.isLower
  isUppercase_ascii : ∀ c : Char, c.toNat < 128 → isUppercase c = c.isUpper
  isWhitespace_ascii : ∀ c : Char, c.toNat < 128 →
    isWhitespace c = decide (c = ' ' ∨ (9 ≤ c.toNat ∧ c.toNat ≤ 13))

inductive MatchMode
  | fuzzy
  | word
  | exact
deriving DecidableEq

/-- A match of a term in a text, with scores in `S`. -/
structure FuzzyMatch (S : Type) where
  score : S
  indices : List ℕ
deriving DecidableEq

inductive Kind
  | name
  | content
deriving DecidableEq

/-- A row of results, with scores in `S` and offsets in `O`. -/
structure SearchResult (S O : Type) where
  path : Text
  kind : Kind
  line : Option ℕ
  preview : Text
  score : S
  highlights : List (O × O)
deriving DecidableEq

/-- The rows of one file and its aggregate score. -/
structure FileResult (S O : Type) where
  results : List (SearchResult S O)
  score : S
deriving DecidableEq

end Types

section Matchers

def scoreMatch : ℤ := 10
def bonusBoundary : ℤ := 8
def bonusCamel : ℤ := 6
def bonusConsecutive : ℤ := 8
def penaltyGap : ℤ := 1

def isWordChar (c : Char) : Bool :=
  ('a' ≤ c && c ≤ 'z') || ('A' ≤ c && c ≤ 'Z') || ('0' ≤ c && c ≤ '9')

def isLower (c : Char) : Bool := 'a' ≤ c && c ≤ 'z'

/-- The bonus for a match at position `i`; an index out of range reads `undefined`. -/
def boundaryBonus (text : Text) (i : ℕ) : ℤ :=
  if i = 0 then bonusBoundary
  else if !(text[i - 1]?).any isWordChar then bonusBoundary
  else if (text[i - 1]?).any isLower && !(text[i]?).any isLower then bonusCamel
  else 0

/-- `String.prototype.indexOf` from a start. -/
def indexOf (text needle : Text) (start : ℕ) : Option ℕ :=
  first (fun i => start ≤ i ∧ Stands needle text i) (text.length + 1)

variable (u : Unicode)

/-- The text that is searched, or the pattern that is searched for. -/
def folded (caseSensitive : Bool) (s : Text) : Text := if caseSensitive then s else u.lowercase s

/-- The bonus for a match right after the previous one, or the penalty for a gap. -/
def scoreGap (score : ℤ) (found : ℕ) : Option ℕ → ℤ
  | none => score
  | some previous =>
    if found = previous + 1 then score + bonusConsecutive
    else score - ((found : ℤ) - previous - 1) * penaltyGap

/-- The loop over the characters of the needle. -/
def fuzzyLoop (haystack text : Text) : Text → ℕ → Option ℕ → FuzzyMatch ℤ → Option (FuzzyMatch ℤ)
  | [], _, _, m => some m
  | char :: needle, cursor, previous, m =>
    match indexOf haystack [char] cursor with
    | none => none
    | some found =>
      let score := scoreGap (m.score + (scoreMatch + boundaryBonus text found)) found previous
      fuzzyLoop haystack text needle (found + 1) (some found) ⟨score, m.indices ++ [found]⟩

def fuzzyMatch (pattern text : Text) (caseSensitive : Bool) : Option (FuzzyMatch ℤ) :=
  if pattern.length = 0 then some ⟨0, []⟩
  else if pattern.length > text.length then none
  else fuzzyLoop (folded u caseSensitive text) text (folded u caseSensitive pattern) 0 none ⟨0, []⟩

/-- The search for a whole word; `turns` bounds the turns of the loop. -/
def wordLoop (haystack needle : Text) : ℕ → ℕ → Option (FuzzyMatch ℤ)
  | 0, _ => none
  | turns + 1, cursor =>
    if cursor + needle.length ≤ haystack.length then
      match indexOf haystack needle cursor with
      | none => none
      | some found =>
        let before := if found = 0 then some ' ' else haystack[found - 1]?
        let after := if found + needle.length ≥ haystack.length then some ' '
          else haystack[found + needle.length]?
        if !before.any isWordChar && !after.any isWordChar then
          some ⟨(scoreMatch + bonusConsecutive) * needle.length + bonusBoundary,
            List.range' found needle.length⟩
        else wordLoop haystack needle turns (found + 1)
    else none

def wordMatch (pattern text : Text) (caseSensitive : Bool) : Option (FuzzyMatch ℤ) :=
  if pattern.length = 0 then some ⟨0, []⟩
  else
    let haystack := folded u caseSensitive text
    wordLoop haystack (folded u caseSensitive pattern) (haystack.length + 1) 0

def exactMatch (pattern text : Text) (caseSensitive : Bool) : Option (FuzzyMatch ℤ) :=
  if pattern.length = 0 then some ⟨0, []⟩
  else
    let needle := folded u caseSensitive pattern
    (indexOf (folded u caseSensitive text) needle 0).map fun found =>
      ⟨(scoreMatch + bonusConsecutive) * needle.length + boundaryBonus text found + bonusBoundary,
        List.range' found needle.length⟩

def matchTerm (term text : Text) (mode : MatchMode) (caseSensitive : Bool) :
    Option (FuzzyMatch ℤ) :=
  if mode = .word then wordMatch u term text caseSensitive
  else
    let exact := exactMatch u term text caseSensitive
    if exact.isSome ∨ mode = .exact then exact else fuzzyMatch u term text caseSensitive

/-- The loop over the sorted indices, with the range that is open. -/
def rangesLoop : List ℕ → ℕ → ℕ → List (ℕ × ℕ)
  | [], start, stop => [(start, stop)]
  | idx :: rest, start, stop =>
    if idx = stop then rangesLoop rest start (idx + 1)
    else (start, stop) :: rangesLoop rest idx (idx + 1)

def toHighlightRanges (indices : List ℕ) : List (ℕ × ℕ) :=
  match indices.mergeSort with
  | [] => []
  | idx :: rest => rangesLoop rest idx (idx + 1)

end Matchers

section File

variable (u : Unicode) (mode : MatchMode) (caseSensitive : Bool)

def maxMatchesPerFile : ℕ := 12

/-- The loop over the terms, which ends at the first that does not match. -/
def termsLoop (text : Text) : List Text → FuzzyMatch ℤ → Option (FuzzyMatch ℤ)
  | [], m => some m
  | term :: terms, m =>
    match matchTerm u term text mode caseSensitive with
    | none => none
    | some m' => termsLoop text terms ⟨m.score + m'.score, m.indices ++ m'.indices⟩

def joinLines (lines : List Text) : Text := List.intercalate ['\n'] lines

/-- The row of a line that all terms match. -/
def lineResult (path : Text) (lines : List Text) (i : ℕ) (m : FuzzyMatch ℤ) : SearchResult ℤ ℕ :=
  let startLine := i - 1
  let endLine := min (lines.length - 1) (i + 1)
  let lineOffset := (((lines.drop startLine).take (i - startLine)).map fun l => l.length + 1).sum
  { path := path
    kind := .content
    line := some (i + 1)
    preview := joinLines ((lines.drop startLine).take (endLine + 1 - startLine))
    score := m.score
    highlights := toHighlightRanges (m.indices.map fun idx => idx + lineOffset) }

/-- The loop over the lines from number `i` on: the rows so far and the best score. -/
def linesLoop (path : Text) (lines terms : List Text) :
    ℕ → List Text → List (SearchResult ℤ ℕ) → ℤ → List (SearchResult ℤ ℕ) × ℤ
  | _, [], lineResults, best => (lineResults, best)
  | i, line :: rest, lineResults, best =>
    if lineResults.length < maxMatchesPerFile then
      if line.all u.isWhitespace then linesLoop path lines terms (i + 1) rest lineResults best
      else
        match termsLoop u mode caseSensitive line terms ⟨0, []⟩ with
        | none => linesLoop path lines terms (i + 1) rest lineResults best
        | some m => linesLoop path lines terms (i + 1) rest
            (lineResults ++ [lineResult path lines i m]) (max best m.score)
    else (lineResults, best)

/-- The last part of a path. -/
def baseName (path : Text) : Text := (path.splitOn '/').getLast?.getD path

def searchFile (path content : Text) (terms : List Text) : Option (FileResult ℤ ℕ) :=
  let name := baseName path
  let named := termsLoop u mode caseSensitive name terms ⟨0, []⟩
  let nameResults := match named with
    | none => []
    | some m => [⟨path, .name, none, name, m.score, toHighlightRanges m.indices⟩]
  let lines := content.splitOn '\n'
  let (lineResults, best) := linesLoop u mode caseSensitive path lines terms 0 lines [] 0
  let matchedTermsInContent :=
    terms.all fun term => (matchTerm u term content mode caseSensitive).isSome
  if named.isNone && (!matchedTermsInContent || lineResults.isEmpty) then none
  else
    let sorted := lineResults.mergeSort fun a b => decide (b.score - a.score ≤ 0)
    let nameScore := match named with
      | none => 0
      | some m => m.score + 100
    some ⟨nameResults ++ sorted, nameScore + best + sorted.length * 3⟩

end File

end Tactile.Search.Fuzzy

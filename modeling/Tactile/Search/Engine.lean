import Tactile.Lib.Panics
import Tactile.Search.Fuzzy

/-!
The search engine of the desktop app: the matchers, with every index and slice
checked as the program checks them, and the search in one file.
-/

namespace Tactile.Search.Engine

open Tactile.Lib.Panics
open Tactile.Search.Fuzzy (Text Unicode MatchMode Kind FuzzyMatch SearchResult FileResult)

section Matchers

def scoreMatch : Int32 := 10
def bonusBoundary : Int32 := 8
def bonusCamel : Int32 := 6
def bonusConsecutive : Int32 := 8
def penaltyGap : Int32 := 1

def isWordChar (c : Char) : Bool := c.isAlphanum

variable (u : Unicode)

def boundaryBonus (chars : Text) (i : ℕ) : Checked Int32 :=
  if i = 0 then pure bonusBoundary
  else do
    let prev ← index chars (i - 1)
    if !isWordChar prev then pure bonusBoundary
    else if u.isLowercase prev then do
      let c ← index chars i
      pure (if u.isUppercase c then bonusCamel else 0)
    else pure 0

def toChars (s : Text) (caseSensitive : Bool) : Text :=
  if caseSensitive then s else u.lowercase s

/-- The bonus for a match right after the previous one, or the penalty for a gap. -/
def scoreGap (score : Int32) (found : ℕ) : Option ℕ → Int32
  | none => score
  | some prev =>
    if found = prev + 1 then score + bonusConsecutive
    else score - Int32.ofNat (found - prev - 1) * penaltyGap

/-- The loop over the characters of the pattern. -/
def fuzzyLoop (hay raw : Text) :
    Text → ℕ → Option ℕ → FuzzyMatch Int32 → Checked (Option (FuzzyMatch Int32))
  | [], _, _, m => pure (some m)
  | pc :: pattern, cursor, previous, m => do
    let rest ← slice hay cursor hay.length
    match rest.findIdx? (· == pc) with
    | none => pure none
    | some p => do
      let found := cursor + p
      let bonus ← boundaryBonus u raw found
      let score := scoreGap (m.score + (scoreMatch + bonus)) found previous
      fuzzyLoop hay raw pattern (found + 1) (some found) ⟨score, m.indices ++ [found]⟩

def fuzzyMatch (pattern text : Text) (caseSensitive : Bool) :
    Checked (Option (FuzzyMatch Int32)) :=
  if pattern = [] then pure (some ⟨0, []⟩)
  else
    let hay := toChars u text caseSensitive
    if pattern.length > hay.length then pure none
    else fuzzyLoop u hay text pattern 0 none ⟨0, []⟩

def beforeOk (hay : Text) (start : ℕ) : Checked Bool :=
  if start = 0 then pure true
  else do
    let c ← index hay (start - 1)
    pure !isWordChar c

def afterOk (hay : Text) (stop : ℕ) : Checked Bool :=
  if stop ≥ hay.length then pure true
  else do
    let c ← index hay stop
    pure !isWordChar c

/-- The loop over the starts of a whole word. -/
def wordLoop (hay pattern : Text) : List ℕ → Checked (Option (FuzzyMatch Int32))
  | [] => pure none
  | start :: starts => do
    let window ← slice hay start (start + pattern.length)
    if window = pattern then do
      let before ← beforeOk hay start
      let after ← afterOk hay (start + pattern.length)
      if before && after then
        pure (some ⟨(scoreMatch + bonusConsecutive) * Int32.ofNat pattern.length + bonusBoundary,
          List.range' start pattern.length⟩)
      else wordLoop hay pattern starts
    else wordLoop hay pattern starts

def wordMatch (pattern text : Text) (caseSensitive : Bool) :
    Checked (Option (FuzzyMatch Int32)) :=
  if pattern = [] then pure (some ⟨0, []⟩)
  else
    let hay := toChars u text caseSensitive
    if pattern.length > hay.length then pure none
    else wordLoop hay pattern (List.range (hay.length - pattern.length + 1))

/-- The loop over the starts of a literal substring. -/
def exactLoop (hay raw pattern : Text) : List ℕ → Checked (Option (FuzzyMatch Int32))
  | [] => pure none
  | start :: starts => do
    let window ← slice hay start (start + pattern.length)
    if window = pattern then do
      let bonus ← boundaryBonus u raw start
      pure (some ⟨(scoreMatch + bonusConsecutive) * Int32.ofNat pattern.length + bonus +
        bonusBoundary, List.range' start pattern.length⟩)
    else exactLoop hay raw pattern starts

def exactMatch (pattern text : Text) (caseSensitive : Bool) :
    Checked (Option (FuzzyMatch Int32)) :=
  if pattern = [] then pure (some ⟨0, []⟩)
  else
    let hay := toChars u text caseSensitive
    if pattern.length > hay.length then pure none
    else exactLoop u hay text pattern (List.range (hay.length - pattern.length + 1))

def matchTerm (term text : Text) (mode : MatchMode) (caseSensitive : Bool) :
    Checked (Option (FuzzyMatch Int32)) :=
  let pattern := toChars u term caseSensitive
  match mode with
  | .word => wordMatch u pattern text caseSensitive
  | .exact => exactMatch u pattern text caseSensitive
  | .fuzzy => do
    match ← exactMatch u pattern text caseSensitive with
    | some m => pure (some m)
    | none => fuzzyMatch u pattern text caseSensitive

end Matchers

section Ranges

def lenUtf16 (c : Char) : UInt32 := if c.toNat < 0x10000 then 1 else 2

/-- The offset of each character, and of the end. -/
def charToUtf16 : Text → UInt32 → List UInt32
  | [], utf16 => [utf16]
  | c :: text, utf16 => utf16 :: charToUtf16 text (utf16 + lenUtf16 c)

def rangeAt (offsets : List UInt32) (start stop : ℕ) : Checked (UInt32 × UInt32) := do
  let a ← index offsets start
  let b ← index offsets stop
  pure (a, b)

/-- The loop over the sorted indices, with the range that is open. -/
def rangesLoop (offsets : List UInt32) : List ℕ → ℕ → ℕ → Checked (List (UInt32 × UInt32))
  | [], start, stop => do
    let range ← rangeAt offsets start stop
    pure [range]
  | idx :: rest, start, stop =>
    if idx = stop then rangesLoop offsets rest start (stop + 1)
    else do
      let range ← rangeAt offsets start stop
      let ranges ← rangesLoop offsets rest idx (idx + 1)
      pure (range :: ranges)

/-- The ranges of the indices, each taken once. -/
def utf16Ranges (text : Text) (indices : List ℕ) : Checked (List (UInt32 × UInt32)) :=
  if indices = [] then pure []
  else do
    let sorted := indices.dedup.mergeSort
    let start ← index sorted 0
    let rest ← slice sorted 1 sorted.length
    rangesLoop (charToUtf16 text 0) rest start (start + 1)

end Ranges

section File

variable (u : Unicode) (mode : MatchMode) (caseSensitive : Bool)

def maxMatchesPerFile : ℕ := 12

/-- The loop over the terms, which ends at the first that does not match. -/
def termsLoop (text : Text) :
    List Text → FuzzyMatch Int32 → Checked (Option (FuzzyMatch Int32))
  | [], m => pure (some m)
  | term :: terms, m => do
    match ← matchTerm u term text mode caseSensitive with
    | none => pure none
    | some m' => termsLoop text terms ⟨m.score + m'.score, m.indices ++ m'.indices⟩

def stripReturn (line : Text) : Text :=
  if line.getLast? = some '\r' then line.dropLast else line

/-- `str::lines`: a line ends before `\n` or `\r\n`, and an empty last line is none. -/
def linesOf (content : Text) : List Text :=
  let parts := content.splitOn '\n'
  parts.dropLast.map stripReturn ++ (parts.getLast?.toList.filter fun line => line ≠ [])

def joinLines (lines : List Text) : Text := List.intercalate ['\n'] lines

/-- The row of a line that all terms match. -/
def lineResult (relPath : Text) (lines : List Text) (i : ℕ) (m : FuzzyMatch Int32) :
    Checked (SearchResult Int32 UInt32) := do
  let start := i - 1
  let stop := min (i + 1) (lines.length - 1)
  let window ← slice lines start (stop + 1)
  let context := joinLines window
  let before ← slice lines start i
  let offset := (before.map fun l => l.length + 1).sum
  let highlights ← utf16Ranges context (m.indices.map fun x => x + offset)
  pure ⟨relPath, .content, some (i + 1), context, m.score, highlights⟩

/-- The loop over the lines from number `i` on: the rows so far and the best score. -/
def linesLoop (relPath : Text) (lines terms : List Text) :
    ℕ → List Text → List (SearchResult Int32 UInt32) → Int32 →
      Checked (List (SearchResult Int32 UInt32) × Int32)
  | _, [], lineResults, best => pure (lineResults, best)
  | i, line :: rest, lineResults, best =>
    if lineResults.length ≥ maxMatchesPerFile then pure (lineResults, best)
    else if line.all u.isWhitespace then linesLoop relPath lines terms (i + 1) rest lineResults best
    else do
      match ← termsLoop u mode caseSensitive line terms ⟨0, []⟩ with
      | none => linesLoop relPath lines terms (i + 1) rest lineResults best
      | some m => do
        let row ← lineResult relPath lines i m
        linesLoop relPath lines terms (i + 1) rest (lineResults ++ [row]) (max best m.score)

/-- Whether all terms match the content, up to the first that does not. -/
def allMatch (content : Text) : List Text → Checked Bool
  | [] => pure true
  | term :: terms => do
    let m ← matchTerm u term content mode caseSensitive
    if m.isSome then allMatch content terms else pure false

/-- The row of the file name, if all terms match it. -/
def nameResults (relPath fileName : Text) :
    Option (FuzzyMatch Int32) → Checked (List (SearchResult Int32 UInt32))
  | none => pure []
  | some m => do
    let highlights ← utf16Ranges fileName m.indices
    pure [⟨relPath, .name, none, fileName, m.score, highlights⟩]

def searchFile (relPath fileName content : Text) (terms : List Text) :
    Checked (Option (FileResult Int32 UInt32)) := do
  let named ← termsLoop u mode caseSensitive fileName terms ⟨0, []⟩
  let results ← nameResults relPath fileName named
  let lines := linesOf content
  let (lineResults, best) ← linesLoop u mode caseSensitive relPath lines terms 0 lines [] 0
  let contentMatched ←
    if named.isNone then allMatch u mode caseSensitive content terms else pure true
  if named.isNone && (!contentMatched || lineResults.isEmpty) then pure none
  else
    let sorted := lineResults.mergeSort fun a b => decide (b.score ≤ a.score)
    let nameScore := match named with
      | none => 0
      | some m => m.score + 100
    pure (some ⟨results ++ sorted, nameScore + best + Int32.ofNat sorted.length * 3⟩)

end File

end Tactile.Search.Engine

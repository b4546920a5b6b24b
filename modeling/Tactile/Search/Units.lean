import Tactile.Lib.CodeUnits
import Tactile.Search.Spots

/-!
The fuzzy matchers of the web app on strings of code units: which positions they return
when folding moves characters and when characters are surrogate pairs.
-/

namespace Tactile.Search.Units

open Tactile.Lib.Matching Tactile.Lib.CodeUnits
open Tactile.Search.Fuzzy (MatchMode FuzzyMatch scoreMatch bonusBoundary bonusCamel
  bonusConsecutive scoreGap)
open Tactile.Search.Spots (gap spread scoreGap_eq)
open scoped List

section Strings

def isHigh (c : UInt16) : Bool := 0xD800 ≤ c && c ≤ 0xDBFF

def isLow (c : UInt16) : Bool := 0xDC00 ≤ c && c ≤ 0xDFFF

/-- The code points of a string as its iterator gives them; half of a surrogate pair without
the other is one. -/
def codePoints : JsString → List JsString
  | [] => []
  | [c] => [[c]]
  | c :: d :: s =>
    if isHigh c && isLow d then [c, d] :: codePoints s else [c] :: codePoints (d :: s)

/-- `String.prototype.indexOf` from a start. -/
def indexOf (text needle : JsString) (start : ℕ) : Option ℕ :=
  first (fun i => start ≤ i ∧ Stands needle text i) (text.length + 1)

/-- A runtime's lower case: what each code point of a string becomes there. None gets
shorter. -/
structure Lowering where
  lower : JsString → ℕ → JsString
  grows : ∀ s i part, (codePoints s)[i]? = some part → part.length ≤ (lower s i).length

/-- The folded forms of the code points, in order. -/
def pieces (low : Lowering) (s : JsString) : List JsString :=
  (List.range (codePoints s).length).map (low.lower s)

def toLowerCase (low : Lowering) (s : JsString) : JsString := (pieces low s).flatten

end Strings

section Matchers

def isWordChar (c : UInt16) : Bool :=
  (unit 'a' ≤ c && c ≤ unit 'z') || (unit 'A' ≤ c && c ≤ unit 'Z') ||
    (unit '0' ≤ c && c ≤ unit '9')

def isLower (c : UInt16) : Bool := unit 'a' ≤ c && c ≤ unit 'z'

/-- The bonus for a match at position `i`; an index out of range reads `undefined`. -/
def boundaryBonus (text : JsString) (i : ℕ) : ℤ :=
  if i = 0 then bonusBoundary
  else if !(text[i - 1]?).any isWordChar then bonusBoundary
  else if (text[i - 1]?).any isLower && !(text[i]?).any isLower then bonusCamel
  else 0

variable (low : Lowering)

/-- The text that is searched, or the pattern that is searched for. -/
def folded (caseSensitive : Bool) (s : JsString) : JsString :=
  if caseSensitive then s else toLowerCase low s

/-- The loop over the code points of the needle. -/
def fuzzyLoop (haystack text : JsString) :
    List JsString → ℕ → Option ℕ → FuzzyMatch ℤ → Option (FuzzyMatch ℤ)
  | [], _, _, m => some m
  | char :: chars, cursor, previous, m =>
    match indexOf haystack char cursor with
    | none => none
    | some found =>
      let score := scoreGap (m.score + (scoreMatch + boundaryBonus text found)) found previous
      fuzzyLoop haystack text chars (found + 1) (some found) ⟨score, m.indices ++ [found]⟩

def fuzzyMatch (pattern text : JsString) (caseSensitive : Bool) : Option (FuzzyMatch ℤ) :=
  if pattern.length = 0 then some ⟨0, []⟩
  else if pattern.length > text.length then none
  else
    fuzzyLoop (folded low caseSensitive text) text (codePoints (folded low caseSensitive pattern)) 0
      none ⟨0, []⟩

/-- What stands before and after a place is no word character. -/
def isBounded (haystack needle : JsString) (found : ℕ) : Bool :=
  let before := if found = 0 then some (unit ' ') else haystack[found - 1]?
  let after := if found + needle.length ≥ haystack.length then some (unit ' ')
    else haystack[found + needle.length]?
  !before.any isWordChar && !after.any isWordChar

/-- The search for a whole word; `turns` bounds the turns of the loop. -/
def wordLoop (haystack needle : JsString) : ℕ → ℕ → Option (FuzzyMatch ℤ)
  | 0, _ => none
  | turns + 1, cursor =>
    if cursor + needle.length ≤ haystack.length then
      match indexOf haystack needle cursor with
      | none => none
      | some found =>
        if isBounded haystack needle found then
          some ⟨(scoreMatch + bonusConsecutive) * needle.length + bonusBoundary,
            List.range' found needle.length⟩
        else wordLoop haystack needle turns (found + 1)
    else none

def wordMatch (pattern text : JsString) (caseSensitive : Bool) : Option (FuzzyMatch ℤ) :=
  if pattern.length = 0 then some ⟨0, []⟩
  else
    let haystack := folded low caseSensitive text
    wordLoop haystack (folded low caseSensitive pattern) (haystack.length + 1) 0

def exactMatch (pattern text : JsString) (caseSensitive : Bool) : Option (FuzzyMatch ℤ) :=
  if pattern.length = 0 then some ⟨0, []⟩
  else
    let needle := folded low caseSensitive pattern
    (indexOf (folded low caseSensitive text) needle 0).map fun found =>
      ⟨(scoreMatch + bonusConsecutive) * needle.length + boundaryBonus text found + bonusBoundary,
        List.range' found needle.length⟩

def matchTerm (term text : JsString) (mode : MatchMode) (caseSensitive : Bool) :
    Option (FuzzyMatch ℤ) :=
  if mode = .word then wordMatch low term text caseSensitive
  else
    let exact := exactMatch low term text caseSensitive
    if exact.isSome ∨ mode = .exact then exact else fuzzyMatch low term text caseSensitive

end Matchers

section Spec

variable (low : Lowering) (caseSensitive : Bool)

/-- What stands at a position of a text cut into parts, when each part is put in the place of
another of its own length or not. -/
def placed : List JsString → List JsString → ℕ → Option UInt16
  | part :: parts, piece :: pieces, i =>
    if i < part.length then piece[i]? else placed parts pieces (i - part.length)
  | _, _, _ => none

/-- What the character at a position of a string folds to. -/
def foldAt (s : JsString) (i : ℕ) : Option UInt16 :=
  if caseSensitive then s[i]? else placed (codePoints s) (pieces low s) i

/-- The needle stands at the place, between characters that are no word characters. -/
def WordAt (needle haystack : JsString) (i : ℕ) : Prop :=
  Stands needle haystack i ∧ i ≤ haystack.length ∧
    (i = 0 ∨ (haystack[i - 1]?).any isWordChar = false) ∧
      (haystack[i + needle.length]?).any isWordChar = false

instance (needle haystack : JsString) : DecidablePred (WordAt needle haystack) :=
  fun i => inferInstanceAs (Decidable (Stands needle haystack i ∧ _ ∧ _ ∧ _))

end Spec

section Found

variable {h : JsString}

/-- The first place of each code point after the one before. -/
def places (h : JsString) : List JsString → ℕ → Option (List ℕ)
  | [], _ => some []
  | char :: chars, cursor =>
    (indexOf h char cursor).bind fun found => (places h chars (found + 1)).map (found :: ·)

theorem indexOf_eq_some {p : JsString} {start i : ℕ} :
    indexOf h p start = some i ↔ i ≤ h.length ∧ (start ≤ i ∧ Stands p h i) ∧
      ∀ j < i, ¬(start ≤ j ∧ Stands p h j) := by
  rw [indexOf, first_eq_some, Nat.lt_succ_iff]

theorem indexOf_zero (text needle : JsString) :
    indexOf text needle 0 = occurrence needle text :=
  first_congr fun k => by simp

theorem fuzzyLoop_eq (h text : JsString) (chars : List JsString) (cursor : ℕ) (prev : Option ℕ)
    (m : FuzzyMatch ℤ) :
    fuzzyLoop h text chars cursor prev m = (places h chars cursor).map fun ps =>
      ⟨m.score + spread prev ps + (ps.map (boundaryBonus text)).sum, m.indices ++ ps⟩ := by
  induction chars generalizing cursor prev m with
  | nil => simp [fuzzyLoop, places, spread]
  | cons char chars ih =>
      rw [fuzzyLoop, places]
      cases indexOf h char cursor with
      | none => rfl
      | some found =>
          simp only [ih, Option.bind_some, Option.map_map]
          congr 1
          funext ps
          simp only [Function.comp_apply, scoreGap_eq, spread, scoreMatch, List.map_cons,
            List.sum_cons, List.append_assoc, List.singleton_append]
          congr 1
          ring

theorem length_places {chars : List JsString} {cursor : ℕ} {ps : List ℕ}
    (hps : places h chars cursor = some ps) : ps.length = chars.length := by
  induction chars generalizing cursor ps with
  | nil =>
      cases hps
      rfl
  | cons char chars ih =>
      rw [places, Option.bind_eq_some_iff] at hps
      obtain ⟨found, -, hrest⟩ := hps
      obtain ⟨ps, hps, rfl⟩ := Option.map_eq_some_iff.mp hrest
      rw [List.length_cons, List.length_cons, ih hps]

theorem places_stands {chars : List JsString} {cursor k i : ℕ} {ps : List ℕ}
    (hps : places h chars cursor = some ps) (hk : ps[k]? = some i) :
    ∃ char, chars[k]? = some char ∧ Stands char h i := by
  induction chars generalizing cursor ps k with
  | nil =>
      cases hps
      cases hk
  | cons char chars ih =>
      rw [places, Option.bind_eq_some_iff] at hps
      obtain ⟨found, hfound, hrest⟩ := hps
      obtain ⟨ps, hps, rfl⟩ := Option.map_eq_some_iff.mp hrest
      cases k with
      | zero =>
          cases hk
          exact ⟨char, rfl, (indexOf_eq_some.mp hfound).2.1.2⟩
      | succ k => exact ih hps hk

/-- The search for the first bounded place. -/
theorem isBounded_iff {p : JsString} {i : ℕ} (hi : Stands p h i) (hle : i ≤ h.length) :
    isBounded h p i = true ↔ WordAt p h i := by
  have hspace : isWordChar (unit ' ') = false := by decide
  have hbefore : (if i = 0 then some (unit ' ') else h[i - 1]?).any isWordChar = false ↔
      i = 0 ∨ (h[i - 1]?).any isWordChar = false := by
    split
    next heq => simp [heq, hspace]
    next hne => simp [hne]
  have hafter : (if i + p.length ≥ h.length then some (unit ' ') else h[i + p.length]?).any
      isWordChar = (h[i + p.length]?).any isWordChar := by
    split
    next hle =>
      rw [List.getElem?_eq_none hle]
      exact hspace
    next => rfl
  rw [isBounded, Bool.and_eq_true, Bool.not_eq_true', Bool.not_eq_true', hbefore, hafter]
  exact ⟨fun hword => ⟨hi, hle, hword⟩, fun hword => hword.2.2⟩

theorem WordAt.add_le {p : JsString} {i : ℕ} (hi : WordAt p h i) : i + p.length ≤ h.length := by
  have hlength := List.IsPrefix.length_le hi.1
  rw [List.length_drop] at hlength
  have := hi.2.1
  omega

/-- The loop over the occurrences finds the first that is a whole word. -/
theorem wordLoop_eq (h p : JsString) (turns cursor : ℕ) (hturns : h.length < cursor + turns) :
    wordLoop h p turns cursor =
      (first (fun i => cursor ≤ i ∧ WordAt p h i) (h.length + 1)).map fun i =>
        ⟨(scoreMatch + bonusConsecutive) * p.length + bonusBoundary, List.range' i p.length⟩ := by
  have hstands : ∀ i, WordAt p h i → Stands p h i := fun _ hword => hword.1
  induction turns generalizing cursor with
  | zero =>
      have hnone : first (fun i => cursor ≤ i ∧ WordAt p h i) (h.length + 1) = none :=
        first_eq_none.mpr fun k hk hword => by omega
      rw [hnone]
      rfl
  | succ turns ih =>
      rw [wordLoop]
      split
      next hle =>
        cases hfound : indexOf h p cursor with
        | none =>
            rw [firstFrom_eq_none hstands hfound]
            rfl
        | some found =>
            obtain ⟨hlt, ⟨hcursor, hat⟩, -⟩ := first_eq_some.mp hfound
            have hbounded := isBounded_iff hat (Nat.lt_succ_iff.mp hlt)
            rw [firstFrom_eq hstands hfound]
            dsimp only
            by_cases hword : WordAt p h found
            · rw [if_pos (hbounded.mpr hword), if_pos hword]
              rfl
            · rw [if_neg fun hb => hword (hbounded.mp hb), if_neg hword, ih _ (by omega)]
      next hgt =>
        have hnone : first (fun i => cursor ≤ i ∧ WordAt p h i) (h.length + 1) = none :=
          first_eq_none.mpr fun k hk hword => by
            have := hword.2.add_le
            omega
        rw [hnone]
        rfl

end Found

section Folding

variable {low : Lowering} {caseSensitive : Bool} {s : JsString} {i : ℕ}

theorem flatten_codePoints (s : JsString) : (codePoints s).flatten = s := by
  induction s using codePoints.induct with
  | case1 => rfl
  | case2 c => rfl
  | case3 c d s hpair ih =>
      rw [codePoints, if_pos hpair, List.flatten_cons, ih]
      rfl
  | case4 c d s hpair ih =>
      rw [codePoints, if_neg hpair, List.flatten_cons, ih]
      rfl

/-- The parts of a list and what replaces them, each at least as long. -/
abbrev Grown : List JsString → List JsString → Prop :=
  List.Forall₂ fun part piece => part.length ≤ piece.length

theorem grown_pieces (low : Lowering) (s : JsString) : Grown (codePoints s) (pieces low s) := by
  have hlength : (codePoints s).length = (pieces low s).length := by
    rw [pieces, List.length_map, List.length_range]
  refine List.forall₂_iff_get.mpr ⟨hlength, fun k hk hk' => ?_⟩
  have hpiece : (pieces low s).get ⟨k, hk'⟩ = low.lower s k := by simp [pieces]
  rw [hpiece]
  exact low.grows s k _ (List.getElem?_eq_getElem hk)

theorem Grown.length_le {parts ps : List JsString} (h : Grown parts ps) :
    parts.flatten.length ≤ ps.flatten.length := by
  induction h with
  | nil => exact le_refl _
  | cons hle _ ih =>
      rw [List.flatten_cons, List.flatten_cons, List.length_append, List.length_append]
      omega

/-- When no part gets longer, each position keeps its character. -/
theorem Grown.placed_eq {parts ps : List JsString} (h : Grown parts ps)
    (hlength : ps.flatten.length = parts.flatten.length) (i : ℕ) :
    placed parts ps i = ps.flatten[i]? := by
  induction h generalizing i with
  | nil => rfl
  | @cons part piece parts ps hle hrest ih =>
      have hrestle := Grown.length_le hrest
      simp only [List.flatten_cons, List.length_append] at hlength ⊢
      have heq : part.length = piece.length := by omega
      rw [placed, List.getElem?_append, heq, ih (by omega)]

variable (low caseSensitive)

/-- The folded string has at the position what the string's own character there folds to. -/
def InPlace (s : JsString) (i : ℕ) : Prop :=
  foldAt low caseSensitive s i = (folded low caseSensitive s)[i]?

variable {low caseSensitive}

/-- Folding that keeps the length of a string keeps every character in place. -/
theorem inPlace_of_length (h : (folded low caseSensitive s).length = s.length) (i : ℕ) :
    InPlace low caseSensitive s i := by
  cases caseSensitive with
  | true => rfl
  | false =>
      apply (grown_pieces low s).placed_eq
      rw [flatten_codePoints]
      exact h

theorem length_le_folded (low : Lowering) (caseSensitive : Bool) (s : JsString) :
    s.length ≤ (folded low caseSensitive s).length := by
  cases caseSensitive with
  | true => exact le_refl _
  | false =>
      have hle := (grown_pieces low s).length_le
      rwa [flatten_codePoints] at hle

end Folding

section Right

variable {low : Lowering} {caseSensitive : Bool} {pattern text : JsString}

variable (low caseSensitive)

/-- Folding keeps the pattern's length, and every character of the text in place from the
position on for that length. -/
def InPlaceFrom (pattern text : JsString) (f : ℕ) : Prop :=
  (folded low caseSensitive pattern).length = pattern.length ∧
    ∀ k < pattern.length, InPlace low caseSensitive text (f + k)

/-- The places are as many as the pattern's characters, and at each the text's character
folds to the pattern's. -/
def FitsAll (pattern text : JsString) (ps : List ℕ) : Prop :=
  ps.length = pattern.length ∧ ∀ k i, ps[k]? = some i →
    ∃ c, foldAt low caseSensitive pattern k = some c ∧ foldAt low caseSensitive text i = some c

/-- Folding moves nothing at the first occurrence of the folded pattern. -/
def ExactInPlace (pattern text : JsString) : Prop :=
  ∀ f, occurrence (folded low caseSensitive pattern) (folded low caseSensitive text) = some f →
    InPlaceFrom low caseSensitive pattern text f

/-- The first place of the folded pattern as a whole word. -/
def firstWord (needle haystack : JsString) : Option ℕ :=
  first (WordAt needle haystack) (haystack.length + 1)

/-- Folding moves nothing at the first place of the folded pattern as a whole word, and the
empty pattern is only searched for where it is one. -/
def WordInPlace (pattern text : JsString) : Prop :=
  (pattern = [] → ∃ i, WordAt [] (folded low caseSensitive text) i) ∧
    ∀ f, firstWord (folded low caseSensitive pattern) (folded low caseSensitive text) = some f →
      InPlaceFrom low caseSensitive pattern text f

/-- When the folded pattern is a subsequence, the pattern is no longer than the text, and the
first places of its code points, one after another, are as many as its own code units and at
characters of the text that fold to these; else its code points have no such places. -/
def FuzzyInPlace (pattern text : JsString) : Prop :=
  (folded low caseSensitive pattern <+ folded low caseSensitive text →
    pattern.length ≤ text.length ∧ ∃ ps, places (folded low caseSensitive text)
      (codePoints (folded low caseSensitive pattern)) 0 = some ps ∧
        FitsAll low caseSensitive pattern text ps) ∧
  (pattern.length ≤ text.length →
    (places (folded low caseSensitive text)
      (codePoints (folded low caseSensitive pattern)) 0).isSome = true →
        folded low caseSensitive pattern <+ folded low caseSensitive text)

variable {low caseSensitive}

end Right

section Kept

variable {low : Lowering} {caseSensitive : Bool} {pattern text : JsString}

/-- Every code point of the string is one code unit. -/
def NoPairs (s : JsString) : Prop := ∀ part ∈ codePoints s, part.length = 1

theorem eq_map_flatten {parts : List JsString} (h : ∀ part ∈ parts, part.length = 1) :
    parts = parts.flatten.map fun c => [c] := by
  induction parts with
  | nil => rfl
  | cons part parts ih =>
      rw [List.forall_mem_cons] at h
      obtain ⟨c, rfl⟩ := List.length_eq_one_iff.mp h.1
      rw [List.flatten_cons, List.map_append, ← ih h.2]
      rfl

theorem NoPairs.codePoints_eq {s : JsString} (h : NoPairs s) :
    codePoints s = s.map fun c => [c] := by
  have heq := eq_map_flatten h
  rwa [flatten_codePoints] at heq

/-- Parts that are as many as their characters have one each. -/
theorem length_eq_one {parts : List JsString} (hne : ∀ part ∈ parts, part ≠ [])
    (h : parts.length = parts.flatten.length) : ∀ part ∈ parts, part.length = 1 := by
  have hle : ∀ parts : List JsString, (∀ part ∈ parts, part ≠ []) →
      parts.length ≤ parts.flatten.length := by
    intro parts
    induction parts with
    | nil => exact fun _ => le_refl _
    | cons part parts ih =>
        intro hne
        rw [List.forall_mem_cons] at hne
        have hpos := List.length_pos_of_ne_nil hne.1
        have := ih hne.2
        rw [List.flatten_cons, List.length_append, List.length_cons]
        omega
  induction parts with
  | nil => nofun
  | cons part parts ih =>
      rw [List.forall_mem_cons] at hne ⊢
      have hpos := List.length_pos_of_ne_nil hne.1
      have hrest := hle parts hne.2
      rw [List.flatten_cons, List.length_append, List.length_cons] at h
      exact ⟨by omega, ih hne.2 (by omega)⟩

theorem ne_nil_of_mem_codePoints {s part : JsString} (h : part ∈ codePoints s) : part ≠ [] := by
  induction s using codePoints.induct with
  | case1 => cases h
  | case2 c =>
      rintro rfl
      simp [codePoints] at h
  | case3 c d s hpair ih =>
      rw [codePoints, if_pos hpair] at h
      rcases List.mem_cons.mp h with rfl | h
      · simp
      · exact ih h
  | case4 c d s hpair ih =>
      rw [codePoints, if_neg hpair] at h
      rcases List.mem_cons.mp h with rfl | h
      · simp
      · exact ih h

/-- Characters one after another have places when they are a subsequence. -/
theorem places_isSome_iff (h needle : JsString) (cursor : ℕ) :
    (places h (needle.map fun c => [c]) cursor).isSome = true ↔ needle <+ h.drop cursor := by
  induction needle generalizing cursor with
  | nil => simp [places]
  | cons c needle ih =>
      rw [List.map_cons, places, indexOf, first_singleton, cons_sublist_iff_findIdx]
      cases (h.drop cursor).findIdx? (· == c) with
      | none => simp
      | some k => simp [ih, Nat.add_assoc]

theorem exactInPlace_of_kept
    (hpattern : (folded low caseSensitive pattern).length = pattern.length)
    (htext : (folded low caseSensitive text).length = text.length) :
    ExactInPlace low caseSensitive pattern text :=
  fun f _ => ⟨hpattern, fun k _ => inPlace_of_length htext (f + k)⟩

theorem wordInPlace_of_kept (hne : pattern ≠ [])
    (hpattern : (folded low caseSensitive pattern).length = pattern.length)
    (htext : (folded low caseSensitive text).length = text.length) :
    WordInPlace low caseSensitive pattern text :=
  ⟨fun h => absurd h hne, fun f _ => ⟨hpattern, fun k _ => inPlace_of_length htext (f + k)⟩⟩

/-- Where folding keeps the lengths and the folded pattern is a subsequence, the positions
are the right ones as long as no code point of the pattern takes two code units. -/
theorem fuzzyInPlace_of_kept
    (hpattern : (folded low caseSensitive pattern).length = pattern.length)
    (htext : (folded low caseSensitive text).length = text.length)
    (hsub : folded low caseSensitive pattern <+ folded low caseSensitive text) :
    FuzzyInPlace low caseSensitive pattern text ↔ NoPairs (folded low caseSensitive pattern) := by
  constructor
  · rintro ⟨hfits, -⟩
    obtain ⟨-, ps, hps, hlength, -⟩ := hfits hsub
    apply length_eq_one fun part => ne_nil_of_mem_codePoints
    rw [flatten_codePoints, hpattern, ← length_places hps, hlength]
  · intro hpairs
    refine ⟨fun _ => ⟨by rw [← hpattern, ← htext]; exact hsub.length_le, ?_⟩, fun _ _ => hsub⟩
    have hsome := (places_isSome_iff (folded low caseSensitive text)
      (folded low caseSensitive pattern) 0).mpr hsub
    rw [← hpairs.codePoints_eq] at hsome
    obtain ⟨ps, hps⟩ := Option.isSome_iff_exists.mp hsome
    refine ⟨ps, hps, ?_, fun k i hi => ?_⟩
    · rw [length_places hps, hpairs.codePoints_eq, List.length_map, hpattern]
    · obtain ⟨char, hchar, hstands⟩ := places_stands hps hi
      rw [hpairs.codePoints_eq, List.getElem?_map, Option.map_eq_some_iff] at hchar
      obtain ⟨c, hc, rfl⟩ := hchar
      exact ⟨c, (inPlace_of_length hpattern k).trans hc,
        (inPlace_of_length htext i).trans (stands_singleton.mp hstands)⟩

end Kept

section Sample

/-- A lower case in which the dotted capital I becomes two characters and nothing else
changes. -/
def dotted : Lowering where
  lower s i := ((codePoints s)[i]?).elim [] fun part =>
    if part = [0x130] then [0x69, 0x307] else part
  grows := by
    intro s i part h
    rw [h, Option.elim_some]
    split
    next heq => simp [heq]
    next => exact le_refl _

end Sample

end Tactile.Search.Units

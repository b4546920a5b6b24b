import Tactile.Search.Bounds
import Mathlib.Data.List.Dedup

/-!
What the search of the desktop app returns for one file: its rows and its score, and
the lookups out of bounds at which it panics instead.
-/

namespace Tactile.Search.Rows

open Tactile.Lib.Matching Tactile.Lib.Panics
open Tactile.Search.Fuzzy (Text Unicode MatchMode Kind FuzzyMatch SearchResult FileResult)
open Tactile.Search.Engine Tactile.Search.Spots Tactile.Search.Bounds
open scoped List

section Ranges

/-- The ranges of a sorted list of indices. -/
def rangesOf : List ℕ → List (ℕ × ℕ)
  | [] => []
  | i :: rest => Fuzzy.rangesLoop rest i (i + 1)

def offsetAt (offsets : List UInt32) (r : ℕ × ℕ) : UInt32 × UInt32 :=
  (offsets.getD r.1 0, offsets.getD r.2 0)

theorem returns_rangeAt (offsets : List UInt32) (start stop : ℕ) :
    Returns (rangeAt offsets start stop) (start < offsets.length ∧ stop < offsets.length)
      (offsetAt offsets (start, stop)) := by
  have hindex : ∀ i, Returns (index offsets i) (i < offsets.length) (offsets.getD i 0) := by
    refine fun i => returns_index fun hi => ?_
    rw [List.getD_eq_getElem?_getD, List.getElem?_eq_getElem hi]
    rfl
  exact (hindex start).bind fun _ => (hindex stop).map fun b => (offsets.getD start 0, b)

theorem returns_rangesLoop (offsets : List UInt32) (rest : List ℕ) (start stop : ℕ) :
    Returns (rangesLoop offsets rest start stop)
      (∀ r ∈ Fuzzy.rangesLoop rest start stop, r.1 < offsets.length ∧ r.2 < offsets.length)
      ((Fuzzy.rangesLoop rest start stop).map (offsetAt offsets)) := by
  induction rest generalizing start stop with
  | nil =>
      refine ((returns_rangeAt offsets start stop).map fun r => [r]).iff ?_
      simp [Fuzzy.rangesLoop]
  | cons idx rest ih =>
      rw [rangesLoop, Fuzzy.rangesLoop]
      split
      next heq =>
        rw [heq]
        exact ih start (stop + 1)
      next hne =>
        have hrest := (ih idx (idx + 1)).map fun ranges =>
          offsetAt offsets (start, stop) :: ranges
        refine ((returns_rangeAt offsets start stop).bind fun _ => hrest).iff ?_
        rw [List.forall_mem_cons]

theorem rangesLoop_lt {rest : List ℕ} {start stop : ℕ} (hlt : start < stop) :
    ∀ r ∈ Fuzzy.rangesLoop rest start stop, r.1 < r.2 := by
  induction rest generalizing start stop with
  | nil => simpa [Fuzzy.rangesLoop] using hlt
  | cons idx rest ih =>
      rw [Fuzzy.rangesLoop]
      split
      · exact ih (by omega)
      · rw [List.forall_mem_cons]
        exact ⟨hlt, ih (Nat.lt_succ_self idx)⟩

/-- The ends of the ranges are within bounds when the indices are. -/
theorem rangesLoop_within (rest : List ℕ) (start stop n : ℕ) :
    (∀ r ∈ Fuzzy.rangesLoop rest start stop, r.2 < n) ↔ stop < n ∧ ∀ i ∈ rest, i + 1 < n := by
  induction rest generalizing start stop with
  | nil => simp [Fuzzy.rangesLoop]
  | cons idx rest ih =>
      rw [Fuzzy.rangesLoop, List.forall_mem_cons]
      split
      next heq =>
        rw [ih]
        constructor
        · rintro ⟨hidx, hrest⟩
          exact ⟨by omega, hidx, hrest⟩
        · exact fun h => h.2
      next => rw [List.forall_mem_cons, ih]

theorem toHighlightRanges_eq (indices : List ℕ) :
    Fuzzy.toHighlightRanges indices = rangesOf indices.mergeSort := by
  rw [Fuzzy.toHighlightRanges]
  cases indices.mergeSort with
  | nil => rfl
  | cons i rest => rfl

theorem rangesOf_within (l : List ℕ) (n : ℕ) :
    (∀ r ∈ rangesOf l, r.2 < n) ↔ ∀ i ∈ l, i + 1 < n := by
  cases l with
  | nil => simp [rangesOf]
  | cons i rest => rw [rangesOf, rangesLoop_within, List.forall_mem_cons]

theorem rangesOf_lt (l : List ℕ) : ∀ r ∈ rangesOf l, r.1 < r.2 := by
  cases l with
  | nil => exact fun _ hr => nomatch hr
  | cons i rest => exact rangesLoop_lt (Nat.lt_succ_self i)

/-- The positions in a range. -/
def span (r : ℕ × ℕ) : List ℕ := List.range' r.1 (r.2 - r.1)

theorem mem_span {r : ℕ × ℕ} {i : ℕ} : i ∈ span r ↔ r.1 ≤ i ∧ i < r.2 := by
  rw [span, List.mem_range'_1]
  omega

theorem flatMap_span_rangesLoop (rest : List ℕ) (start stop : ℕ) (hlt : start < stop) :
    (Fuzzy.rangesLoop rest start stop).flatMap span = span (start, stop) ++ rest := by
  induction rest generalizing start stop with
  | nil => simp [Fuzzy.rangesLoop]
  | cons idx rest ih =>
      have hsingle : span (idx, idx + 1) = [idx] := by
        simp [span]
      rw [Fuzzy.rangesLoop]
      split
      next heq =>
        have hlonger : span (start, idx + 1) = span (start, stop) ++ [idx] := by
          have hlen : idx + 1 - start = stop - start + 1 := by omega
          have hlast : start + (stop - start) = idx := by omega
          rw [span, hlen, List.range'_concat, Nat.one_mul, hlast]
          rfl
        rw [ih start (idx + 1) (by omega), hlonger, List.append_assoc]
        rfl
      next =>
        rw [List.flatMap_cons, ih idx (idx + 1) (Nat.lt_succ_self idx), hsingle]
        rfl

/-- The ranges of a list put it in pieces. -/
theorem flatMap_span (l : List ℕ) : (rangesOf l).flatMap span = l := by
  cases l with
  | nil => rfl
  | cons i rest =>
      rw [rangesOf, flatMap_span_rangesLoop rest i (i + 1) (Nat.lt_succ_self i), span,
        Nat.add_sub_cancel_left]
      rfl

/-- The ranges are together as long as the list of indices. -/
theorem sum_rangesOf (l : List ℕ) : ((rangesOf l).map fun r => r.2 - r.1).sum = l.length := by
  have hlen := congrArg List.length (flatMap_span l)
  rw [List.length_flatMap] at hlen
  simpa [span] using hlen

theorem length_charToUtf16 (text : Text) (utf16 : UInt32) :
    (charToUtf16 text utf16).length = text.length + 1 := by
  induction text generalizing utf16 with
  | nil => rfl
  | cons c text ih => rw [charToUtf16, List.length_cons, ih, List.length_cons]

/-- The ranges are found when every index is one of the text's. -/
theorem returns_utf16Ranges (text : Text) (indices : List ℕ) :
    Returns (utf16Ranges text indices) (∀ i ∈ indices, i < text.length)
      ((rangesOf (indices.dedup.mergeSort)).map (offsetAt (charToUtf16 text 0))) := by
  rw [utf16Ranges]
  split
  next hempty =>
    rw [hempty, List.dedup_nil, List.mergeSort_nil]
    exact (returns_pure []).iff (iff_of_true trivial fun _ h => absurd h List.not_mem_nil)
  next hne =>
    have hmem : ∀ i, i ∈ indices.dedup.mergeSort ↔ i ∈ indices :=
      fun i => List.mem_mergeSort.trans List.mem_dedup
    generalize indices.dedup.mergeSort = sorted at hmem
    cases sorted with
    | nil =>
        obtain ⟨i, hi⟩ := List.exists_mem_of_ne_nil _ hne
        exact absurd ((hmem i).mpr hi) List.not_mem_nil
    | cons start rest =>
        have hslice : slice (start :: rest) 1 (start :: rest).length = .ok rest := by
          rw [slice_ok (by simp) (le_refl _)]
          simp
        have hloop := returns_rangesLoop (charToUtf16 text 0) rest start (start + 1)
        dsimp only
        rw [hslice]
        refine hloop.iff ?_
        have hbound : (∀ r ∈ Fuzzy.rangesLoop rest start (start + 1),
            r.1 < (charToUtf16 text 0).length ∧ r.2 < (charToUtf16 text 0).length) ↔
            ∀ r ∈ Fuzzy.rangesLoop rest start (start + 1), r.2 < text.length + 1 := by
          rw [length_charToUtf16]
          refine ⟨fun h r hr => (h r hr).2, fun h r hr => ⟨?_, h r hr⟩⟩
          exact (rangesLoop_lt (Nat.lt_succ_self start) r hr).trans (h r hr)
        rw [hbound, rangesLoop_within]
        simp only [← hmem, List.forall_mem_cons, Nat.add_lt_add_iff_right]

end Ranges

section Terms

variable (u : Unicode) (mode : MatchMode) (caseSensitive : Bool)

/-- Where the terms are found in a text, if all are. -/
def spotsOf (terms : List Text) (text : Text) : Option (List Spot) :=
  spots mode (terms.map fun term => toChars u term caseSensitive) (toChars u text caseSensitive)

/-- The match of a term asks for no bonus out of reach. -/
def TermSafe (term text : Text) : Prop :=
  ∀ i ∈ asked mode (toChars u term caseSensitive) (toChars u text caseSensitive), i ≤ reach u text

/-- The terms that are tried in a text, up to the first that is not found, are safe. -/
def TermsSafe (terms : List Text) (text : Text) : Prop :=
  ∀ pre term post, terms = pre ++ term :: post →
    (spotsOf u mode caseSensitive pre text).isSome → TermSafe u mode caseSensitive term text

theorem spotsOf_cons (term : Text) (terms : List Text) (text : Text) :
    spotsOf u mode caseSensitive (term :: terms) text =
      (spot mode (toChars u term caseSensitive) (toChars u text caseSensitive)).bind fun s =>
        (spotsOf u mode caseSensitive terms text).map fun ss => s :: ss :=
  spots_cons ..

theorem termsSafe_cons (term : Text) (terms : List Text) (text : Text) :
    TermsSafe u mode caseSensitive (term :: terms) text ↔
      TermSafe u mode caseSensitive term text ∧
        ((spot mode (toChars u term caseSensitive) (toChars u text caseSensitive)).isSome →
          TermsSafe u mode caseSensitive terms text) := by
  constructor
  · intro hsafe
    refine ⟨hsafe [] term terms rfl rfl, fun hsome pre term' post heq hpre => ?_⟩
    refine hsafe (term :: pre) term' post (by rw [heq]; rfl) ?_
    rw [spotsOf_cons]
    obtain ⟨s, hs⟩ := Option.isSome_iff_exists.mp hsome
    rw [hs, Option.bind_some, Option.isSome_map]
    exact hpre
  · rintro ⟨hterm, hrest⟩ pre term' post heq hpre
    cases pre with
    | nil =>
        cases heq
        exact hterm
    | cons term₁ pre =>
        obtain ⟨rfl, htail⟩ := List.cons.inj heq
        rw [spotsOf_cons] at hpre
        cases hspot : spot mode (toChars u term caseSensitive) (toChars u text caseSensitive) with
        | none =>
            rw [hspot] at hpre
            cases hpre
        | some s =>
            rw [hspot, Option.bind_some, Option.isSome_map] at hpre
            exact hrest (by rw [hspot]; rfl) pre term' post htail hpre

/-- The loop over the terms. -/
theorem returns_termsLoop (terms : List Text) (text : Text) (z : ℤ) (l : List ℕ) :
    Returns (termsLoop u mode caseSensitive text terms ⟨Int32.ofInt z, l⟩)
      (TermsSafe u mode caseSensitive terms text)
      ((spotsOf u mode caseSensitive terms text).map fun ss =>
        ⟨Int32.ofInt (z + scores (bonusOf u text) ss), l ++ positions ss⟩) := by
  induction terms generalizing z l with
  | nil =>
      have hvalue : (⟨Int32.ofInt (z + scores (bonusOf u text) []), l ++ positions []⟩ :
          FuzzyMatch Int32) = ⟨Int32.ofInt z, l⟩ := by simp [scores, positions]
      have hnil : spotsOf u mode caseSensitive [] text = some [] := rfl
      rw [hnil, Option.map_some, hvalue]
      refine (returns_pure _).iff ?_
      refine iff_of_true trivial fun pre term post heq _ => ?_
      cases pre with
      | nil => cases heq
      | cons _ _ => cases heq
  | cons term terms ih =>
      have hterm := returns_matchTerm u caseSensitive mode term text
      rw [termsLoop, spotsOf_cons, termsSafe_cons]
      cases hspot : spot mode (toChars u term caseSensitive) (toChars u text caseSensitive) with
      | none =>
          rw [hspot] at hterm
          refine Returns.iff (Returns.bind_ok hterm rfl) ?_
          simp [TermSafe]
      | some s =>
          rw [hspot] at hterm
          have hrest := ih (z + s.score (bonusOf u text)) (l ++ s.positions)
          have hvalue : ∀ ss, (⟨Int32.ofInt (z + s.score (bonusOf u text) +
              scores (bonusOf u text) ss), l ++ s.positions ++ positions ss⟩ : FuzzyMatch Int32) =
              ⟨Int32.ofInt (z + scores (bonusOf u text) (s :: ss)), l ++ positions (s :: ss)⟩ := by
            intro ss
            rw [scores_cons, add_assoc, positions, positions, List.flatMap_cons, List.append_assoc]
          rw [Int32.ofInt_add] at hrest
          simp only [hvalue] at hrest
          rw [Option.bind_some, Option.map_map]
          refine Returns.bind_of hterm hrest ?_
          simp [TermSafe]

theorem returns_allMatch (terms : List Text) (text : Text) :
    Returns (allMatch u mode caseSensitive text terms) (TermsSafe u mode caseSensitive terms text)
      (spotsOf u mode caseSensitive terms text).isSome := by
  induction terms with
  | nil =>
      refine (returns_pure true).iff (iff_of_true trivial fun pre term post heq _ => ?_)
      cases pre with
      | nil => cases heq
      | cons _ _ => cases heq
  | cons term terms ih =>
      have hterm := returns_matchTerm u caseSensitive mode term text
      rw [allMatch, spotsOf_cons, termsSafe_cons]
      cases hspot : spot mode (toChars u term caseSensitive) (toChars u text caseSensitive) with
      | none =>
          rw [hspot] at hterm
          refine Returns.iff (Returns.bind_ok hterm rfl) ?_
          simp [TermSafe]
      | some s =>
          rw [hspot] at hterm
          rw [Option.bind_some, Option.isSome_map]
          refine Returns.bind_of hterm ih ?_
          simp [TermSafe]

end Terms

section Lines

variable (u : Unicode) (mode : MatchMode) (caseSensitive : Bool)

/-- The lines around a line. -/
def window (lines : List Text) (i : ℕ) : List Text :=
  (lines.drop (i - 1)).take (min (i + 1) (lines.length - 1) + 1 - (i - 1))

/-- Where a line starts in its window. -/
def offset (lines : List Text) (i : ℕ) : ℕ :=
  (((lines.drop (i - 1)).take (i - (i - 1))).map fun l => l.length + 1).sum

/-- A window is what stands before the line, the line and the next line. -/
theorem window_eq {lines : List Text} {i : ℕ} {line : Text} (hline : lines[i]? = some line) :
    window lines i = (lines.drop (i - 1)).take (i - (i - 1)) ++ line :: lines[i + 1]?.toList := by
  obtain ⟨hi, hget⟩ := List.getElem?_eq_some_iff.mp hline
  have hdrop : (lines.drop (i - 1)).drop (i - (i - 1)) = line :: lines.drop (i + 1) := by
    rw [List.drop_drop, Nat.add_sub_cancel' (Nat.sub_le i 1), List.drop_eq_getElem_cons hi, hget]
  rw [window]
  cases hnext : lines[i + 1]? with
  | none =>
      have hlen := List.getElem?_eq_none_iff.mp hnext
      have hcount : min (i + 1) (lines.length - 1) + 1 - (i - 1) = (i - (i - 1)) + 1 := by omega
      rw [hcount, List.take_add, hdrop]
      rfl
  | some next =>
      obtain ⟨hlt, hgetnext⟩ := List.getElem?_eq_some_iff.mp hnext
      have hcount : min (i + 1) (lines.length - 1) + 1 - (i - 1) = (i - (i - 1)) + 2 := by omega
      rw [hcount, List.take_add, hdrop, List.drop_eq_getElem_cons hlt, hgetnext]
      rfl

/-- The length of some lines that are joined. -/
theorem length_joinLines {lines : List Text} (hne : lines ≠ []) :
    (joinLines lines).length + 1 = (lines.map fun l => l.length + 1).sum := by
  induction lines with
  | nil => exact absurd rfl hne
  | cons line lines ih =>
      cases lines with
      | nil => simp [joinLines]
      | cons next lines =>
          have hnext := ih (List.cons_ne_nil _ _)
          rw [joinLines] at hnext ⊢
          rw [List.intercalate_cons_cons, List.map_cons, List.sum_cons, ← hnext]
          simp
          omega

/-- How far the characters after the start of a line go in its window. -/
theorem add_offset_lt_iff {lines : List Text} {i : ℕ} {line : Text} (hline : lines[i]? = some line)
    (x : ℕ) :
    x + offset lines i < (joinLines (window lines i)).length ↔
      x < line.length + (lines[i + 1]?.toList.map fun l => l.length + 1).sum := by
  have hwindow := window_eq hline
  have hne : window lines i ≠ [] := by
    rw [hwindow]
    simp
  have hlen := length_joinLines hne
  rw [hwindow, List.map_append, List.sum_append, List.map_cons, List.sum_cons, ← hwindow] at hlen
  rw [offset]
  omega

/-- The row of a line for the desktop app. -/
def desktopRow (relPath : Text) (lines : List Text) (i : ℕ) (m : FuzzyMatch Int32) :
    SearchResult Int32 UInt32 :=
  let context := joinLines (window lines i)
  ⟨relPath, .content, some (i + 1), context, m.score,
    (rangesOf (m.indices.map fun x => x + offset lines i).dedup.mergeSort).map
      (offsetAt (charToUtf16 context 0))⟩

theorem returns_lineResult (relPath : Text) {lines : List Text} {i : ℕ} (hi : i < lines.length)
    (m : FuzzyMatch Int32) :
    Returns (lineResult relPath lines i m)
      (∀ x ∈ m.indices, x + offset lines i < (joinLines (window lines i)).length)
      (desktopRow relPath lines i m) := by
  have hranges := (returns_utf16Ranges (joinLines (window lines i))
    (m.indices.map fun x => x + offset lines i)).map fun highlights =>
      (⟨relPath, .content, some (i + 1), joinLines (window lines i), m.score, highlights⟩ :
        SearchResult Int32 UInt32)
  rw [lineResult]
  dsimp only
  rw [slice_ok (by omega) (by omega), slice_ok (by omega) (by omega)]
  refine hranges.iff ?_
  simp

/-- The match of a line that is not blank. -/
def lineSpots (terms : List Text) (line : Text) : Option (List Spot) :=
  if line.all u.isWhitespace then none else spotsOf u mode caseSensitive terms line

/-- The search in a line asks for no bonus and no offset out of bounds. -/
def LineSafe (terms lines : List Text) (i : ℕ) (line : Text) : Prop :=
  line.all u.isWhitespace = false → TermsSafe u mode caseSensitive terms line ∧
    ∀ ss, spotsOf u mode caseSensitive terms line = some ss →
      ∀ x ∈ positions ss, x + offset lines i < (joinLines (window lines i)).length

/-- The match in a line whose terms are found. -/
def matchOf (text : Text) (ss : List Spot) : FuzzyMatch Int32 :=
  ⟨Int32.ofInt (scores (bonusOf u text) ss), positions ss⟩

/-- The row of a hit. -/
def hitRow (relPath : Text) (lines : List Text) (hit : ℕ × List Spot) :
    SearchResult Int32 UInt32 :=
  desktopRow relPath lines hit.1 (matchOf u (lines.getD hit.1 []) hit.2)

theorem returns_terms (terms : List Text) (text : Text) :
    Returns (termsLoop u mode caseSensitive text terms ⟨0, []⟩)
      (TermsSafe u mode caseSensitive terms text)
      ((spotsOf u mode caseSensitive terms text).map (matchOf u text)) := by
  have hterms := returns_termsLoop u mode caseSensitive terms text 0 []
  simp only [zero_add, List.nil_append] at hterms
  exact hterms

/-- The rows of some hits and the best score. -/
def rowsOf (relPath : Text) (lines : List Text) (acc : List (SearchResult Int32 UInt32))
    (best : Int32) (hits : List (ℕ × List Spot)) : List (SearchResult Int32 UInt32) × Int32 :=
  (acc ++ hits.map (hitRow u relPath lines),
    hits.foldl (fun best hit => max best (hitRow u relPath lines hit).score) best)

theorem rowsOf_nil (relPath : Text) (lines : List Text) (acc : List (SearchResult Int32 UInt32))
    (best : Int32) : rowsOf u relPath lines acc best [] = (acc, best) := by
  rw [rowsOf, List.map_nil, List.append_nil]
  rfl

theorem rowsOf_cons (relPath : Text) (lines : List Text) (acc : List (SearchResult Int32 UInt32))
    (best : Int32) (hit : ℕ × List Spot) (hits : List (ℕ × List Spot)) :
    rowsOf u relPath lines acc best (hit :: hits) =
      rowsOf u relPath lines (acc ++ [hitRow u relPath lines hit])
        (max best (hitRow u relPath lines hit).score) hits := by
  rw [rowsOf, rowsOf, List.map_cons, List.append_assoc]
  rfl

/-- The loop over the lines takes the first hits. -/
theorem returns_linesLoop (relPath : Text) (lines terms : List Text) (rest : List Text)
    (cap i : ℕ) (hrest : lines.drop i = rest) (acc : List (SearchResult Int32 UInt32))
    (hcap : acc.length + cap = maxMatchesPerFile) (best : Int32) :
    Returns (linesLoop u mode caseSensitive relPath lines terms i rest acc best)
      (AllVisited (lineSpots u mode caseSensitive terms)
        (LineSafe u mode caseSensitive terms lines) cap i rest)
      (rowsOf u relPath lines acc best
        (firstHits (lineSpots u mode caseSensitive terms) cap i rest)) := by
  induction rest generalizing cap i acc best with
  | nil =>
      rw [linesLoop, firstHits, rowsOf_nil, allVisited_nil]
      exact returns_pure _
  | cons line rest ih =>
      have hi : i < lines.length := by
        by_contra hge
        rw [List.drop_of_length_le (Nat.le_of_not_lt hge)] at hrest
        cases hrest
      have hline : lines.getD i [] = line := by
        rw [List.getD_eq_getElem?_getD, ← List.head?_drop, hrest]
        rfl
      have hnext : lines.drop (i + 1) = rest := by
        rw [← List.tail_drop, hrest]
        rfl
      rw [linesLoop]
      cases cap with
      | zero =>
          rw [if_pos (by omega), firstHits_zero, rowsOf_nil, allVisited_zero]
          exact returns_pure _
      | succ cap =>
          rw [if_neg (by omega), allVisited_cons, firstHits]
          split
          next hblank =>
            have hnone : lineSpots u mode caseSensitive terms line = none := if_pos hblank
            rw [hnone]
            refine (ih (cap + 1) (i + 1) hnext acc hcap best).iff ?_
            simp [LineSafe, hblank]
          next hblank =>
            have hspots : lineSpots u mode caseSensitive terms line =
                spotsOf u mode caseSensitive terms line := if_neg hblank
            have hterms := returns_terms u mode caseSensitive terms line
            rw [hspots]
            rw [Bool.not_eq_true] at hblank
            cases hfound : spotsOf u mode caseSensitive terms line with
            | none =>
                rw [hfound] at hterms
                refine Returns.bind_of hterms (ih (cap + 1) (i + 1) hnext acc hcap best) ?_
                simp [LineSafe, hblank, hfound]
            | some ss =>
                rw [hfound] at hterms
                have hrow := returns_lineResult relPath hi (matchOf u line ss)
                have hrows := ih cap (i + 1) hnext
                  (acc ++ [desktopRow relPath lines i (matchOf u line ss)])
                  (by rw [List.length_append, List.length_singleton]; omega)
                  (max best (matchOf u line ss).score)
                dsimp only
                rw [rowsOf_cons, hitRow, hline]
                refine Returns.bind_of hterms (Returns.bind_of hrow hrows Iff.rfl) ?_
                simp [LineSafe, hblank, hfound, matchOf, and_assoc]

end Lines

section File

variable (u : Unicode) (mode : MatchMode) (caseSensitive : Bool)

/-- The row of a file name that all terms match. -/
def nameRow (relPath fileName : Text) (ss : List Spot) : SearchResult Int32 UInt32 :=
  ⟨relPath, .name, none, fileName, (matchOf u fileName ss).score,
    (rangesOf (positions ss).dedup.mergeSort).map (offsetAt (charToUtf16 fileName 0))⟩

theorem returns_nameResults (relPath fileName : Text) (named : Option (List Spot)) :
    Returns (nameResults relPath fileName (named.map (matchOf u fileName)))
      (∀ ss ∈ named, ∀ x ∈ positions ss, x < fileName.length)
      (named.toList.map (nameRow u relPath fileName)) := by
  cases named with
  | none => exact (returns_pure []).iff (by simp)
  | some ss =>
      have hranges := (returns_utf16Ranges fileName (positions ss)).map fun highlights =>
        [(⟨relPath, .name, none, fileName, (matchOf u fileName ss).score, highlights⟩ :
          SearchResult Int32 UInt32)]
      exact hranges.iff (by simp)

/-- The rows of the first hits of a file and the best score. -/
def lineRows (relPath content : Text) (terms : List Text) :
    List (SearchResult Int32 UInt32) × Int32 :=
  rowsOf u relPath (linesOf content) [] 0
    (firstHits (lineSpots u mode caseSensitive terms) maxMatchesPerFile 0 (linesOf content))

/-- What the search in a file returns. -/
def fileResult (relPath fileName content : Text) (terms : List Text) :
    Option (FileResult Int32 UInt32) :=
  let named := spotsOf u mode caseSensitive terms fileName
  let rows := lineRows u mode caseSensitive relPath content terms
  if named.isNone && (!(spotsOf u mode caseSensitive terms content).isSome || rows.1.isEmpty) then
    none
  else
    let sorted := rows.1.mergeSort fun a b => decide (b.score ≤ a.score)
    let nameScore := (named.map fun ss => (matchOf u fileName ss).score + 100).getD 0
    some ⟨named.toList.map (nameRow u relPath fileName) ++ sorted,
      nameScore + rows.2 + Int32.ofNat sorted.length * 3⟩

/-- Every lookup of the search in a file is within bounds. -/
structure FileSafe (fileName content : Text) (terms : List Text) : Prop where
  name : TermsSafe u mode caseSensitive terms fileName
  nameRow : ∀ ss ∈ spotsOf u mode caseSensitive terms fileName,
    ∀ x ∈ positions ss, x < fileName.length
  lines : AllVisited (lineSpots u mode caseSensitive terms)
    (LineSafe u mode caseSensitive terms (linesOf content)) maxMatchesPerFile 0 (linesOf content)
  content : spotsOf u mode caseSensitive terms fileName = none →
    TermsSafe u mode caseSensitive terms content

theorem fileSafe_iff (fileName content : Text) (terms : List Text) :
    FileSafe u mode caseSensitive fileName content terms ↔
      TermsSafe u mode caseSensitive terms fileName ∧
      (∀ ss ∈ spotsOf u mode caseSensitive terms fileName,
        ∀ x ∈ positions ss, x < fileName.length) ∧
      AllVisited (lineSpots u mode caseSensitive terms)
        (LineSafe u mode caseSensitive terms (linesOf content)) maxMatchesPerFile 0
        (linesOf content) ∧
      (spotsOf u mode caseSensitive terms fileName = none →
        TermsSafe u mode caseSensitive terms content) :=
  ⟨fun h => ⟨h.name, h.nameRow, h.lines, h.content⟩, fun h => ⟨h.1, h.2.1, h.2.2.1, h.2.2.2⟩⟩

/-- The search in a file returns its result when every lookup is within bounds. -/
theorem returns_searchFile (relPath fileName content : Text) (terms : List Text) :
    Returns (searchFile u mode caseSensitive relPath fileName content terms)
      (FileSafe u mode caseSensitive fileName content terms)
      (fileResult u mode caseSensitive relPath fileName content terms) := by
  have hname := returns_terms u mode caseSensitive terms fileName
  have hnames := returns_nameResults u relPath fileName
    (spotsOf u mode caseSensitive terms fileName)
  have hlines := returns_linesLoop u mode caseSensitive relPath (linesOf content) terms _
    maxMatchesPerFile 0 List.drop_zero [] (Nat.zero_add _) 0
  have hcontent := returns_allMatch u mode caseSensitive terms content
  rw [searchFile, fileSafe_iff]
  refine Returns.bind_of hname (Returns.bind_of hnames (Returns.bind_of hlines ?_ Iff.rfl) Iff.rfl)
    Iff.rfl
  cases hnamed : spotsOf u mode caseSensitive terms fileName with
  | none =>
      refine Returns.iff (Returns.bind_ok hcontent ?_) (by simp)
      rw [fileResult, hnamed]
      dsimp only
      split
      next hnone => exact congrArg Except.ok (if_pos hnone).symm
      next hsome => exact congrArg Except.ok (if_neg hsome).symm
  | some ss =>
      rw [fileResult, hnamed]
      exact (returns_pure _).iff (by simp)

end File

end Tactile.Search.Rows

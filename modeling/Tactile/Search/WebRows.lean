import Tactile.Search.Ascii

/-!
What the search of the web app returns for one ASCII file: the rows of the same places
that the desktop app finds.
-/

namespace Tactile.Search.WebRows

open Tactile.Lib.Matching
open Tactile.Search.Fuzzy (Text Unicode MatchMode Kind FuzzyMatch SearchResult FileResult)
open Tactile.Search.Spots Tactile.Search.Rows Tactile.Search.Ascii

variable (u : Unicode) (mode : MatchMode) (caseSensitive : Bool)

/-- The match in a text whose terms are found. -/
def webMatchOf (text : Text) (ss : List Spot) : FuzzyMatch ℤ :=
  ⟨scores (Fuzzy.boundaryBonus text) ss, positions ss⟩

variable {terms : List Text} (hterms : ∀ t ∈ terms, Ascii t)

include hterms in
theorem termsLoop_eq {text : Text} (htext : Ascii text) (z : ℤ) (l : List ℕ) :
    Fuzzy.termsLoop u mode caseSensitive text terms ⟨z, l⟩ =
      (spotsOf u mode caseSensitive terms text).map fun ss =>
        ⟨z + (webMatchOf text ss).score, l ++ (webMatchOf text ss).indices⟩ := by
  induction terms generalizing z l with
  | nil =>
      change some _ = some _
      simp [webMatchOf, scores, positions]
  | cons term terms ih =>
      rw [List.forall_mem_cons] at hterms
      rw [Fuzzy.termsLoop, matchTerm_web u caseSensitive mode hterms.1 htext, spotsOf_cons]
      change _ = ((spot mode (Fuzzy.folded u caseSensitive term)
        (Fuzzy.folded u caseSensitive text)).bind _).map _
      cases spot mode (Fuzzy.folded u caseSensitive term) (Fuzzy.folded u caseSensitive text) with
      | none => rfl
      | some s =>
          rw [Option.map_some, Option.bind_some, Option.map_map]
          dsimp only
          rw [ih hterms.2]
          congr 1
          funext ss
          simp only [Function.comp_apply, webMatchOf, scores_cons, Spot.webMatch, positions,
            List.flatMap_cons, List.append_assoc, add_assoc]

include hterms in
theorem terms_eq {text : Text} (htext : Ascii text) :
    Fuzzy.termsLoop u mode caseSensitive text terms ⟨0, []⟩ =
      (spotsOf u mode caseSensitive terms text).map (webMatchOf text) := by
  rw [termsLoop_eq u mode caseSensitive hterms htext]
  congr 1
  funext ss
  rw [zero_add, List.nil_append]

include hterms in
theorem all_eq {text : Text} (htext : Ascii text) :
    (terms.all fun term => (Fuzzy.matchTerm u term text mode caseSensitive).isSome) =
      (spotsOf u mode caseSensitive terms text).isSome := by
  apply Bool.eq_iff_iff.mpr
  rw [List.all_eq_true, spotsOf, spots_isSome, List.forall_mem_map]
  refine forall₂_congr fun term hterm => ?_
  rw [matchTerm_web u caseSensitive mode (hterms term hterm) htext, Option.isSome_map]
  exact Iff.rfl

/-- The row of a hit for the web app. -/
def webRow (path : Text) (lines : List Text) (hit : ℕ × List Spot) : SearchResult ℤ ℕ :=
  Fuzzy.lineResult path lines hit.1 (webMatchOf (lines.getD hit.1 []) hit.2)

theorem webRow_eq (path : Text) (lines : List Text) (hit : ℕ × List Spot) :
    webRow path lines hit =
      ⟨path, .content, some (hit.1 + 1), Engine.joinLines (window lines hit.1),
        (webMatchOf (lines.getD hit.1 []) hit.2).score,
        Fuzzy.toHighlightRanges ((positions hit.2).map fun x => x + offset lines hit.1)⟩ := by
  rw [webRow, Fuzzy.lineResult, window, offset, Nat.min_comm]
  rfl

/-- The rows of some hits and the best score. -/
def webRowsOf (path : Text) (lines : List Text) (acc : List (SearchResult ℤ ℕ)) (best : ℤ)
    (hits : List (ℕ × List Spot)) : List (SearchResult ℤ ℕ) × ℤ :=
  (acc ++ hits.map (webRow path lines),
    hits.foldl (fun best hit => max best (webRow path lines hit).score) best)

theorem webRowsOf_nil (path : Text) (lines : List Text) (acc : List (SearchResult ℤ ℕ))
    (best : ℤ) : webRowsOf path lines acc best [] = (acc, best) := by
  rw [webRowsOf, List.map_nil, List.append_nil]
  rfl

theorem webRowsOf_cons (path : Text) (lines : List Text) (acc : List (SearchResult ℤ ℕ))
    (best : ℤ) (hit : ℕ × List Spot) (hits : List (ℕ × List Spot)) :
    webRowsOf path lines acc best (hit :: hits) =
      webRowsOf path lines (acc ++ [webRow path lines hit])
        (max best (webRow path lines hit).score) hits := by
  rw [webRowsOf, webRowsOf, List.map_cons, List.append_assoc]
  rfl

include hterms in
/-- The loop over the lines takes the first hits. -/
theorem linesLoop_eq (path : Text) {lines : List Text} (hlines : ∀ line ∈ lines, Ascii line)
    (rest : List Text) (cap i : ℕ) (hrest : lines.drop i = rest)
    (acc : List (SearchResult ℤ ℕ)) (hcap : acc.length + cap = Fuzzy.maxMatchesPerFile) (best : ℤ) :
    Fuzzy.linesLoop u mode caseSensitive path lines terms i rest acc best =
      webRowsOf path lines acc best
        (firstHits (lineSpots u mode caseSensitive terms) cap i rest) := by
  induction rest generalizing cap i acc best with
  | nil => rw [Fuzzy.linesLoop, firstHits, webRowsOf_nil]
  | cons line rest ih =>
      have hmem : line ∈ lines.drop i := by
        rw [hrest]
        exact List.mem_cons_self
      have hline : lines.getD i [] = line := by
        rw [List.getD_eq_getElem?_getD, ← List.head?_drop, hrest]
        rfl
      have hnext : lines.drop (i + 1) = rest := by
        rw [← List.tail_drop, hrest]
        rfl
      rw [Fuzzy.linesLoop]
      cases cap with
      | zero => rw [if_neg (by omega), firstHits_zero, webRowsOf_nil]
      | succ cap =>
          rw [if_pos (by omega), firstHits, lineSpots]
          split
          next hblank => rw [ih (cap + 1) (i + 1) hnext acc hcap best]
          next hblank =>
            rw [terms_eq u mode caseSensitive hterms (hlines line (List.mem_of_mem_drop hmem))]
            cases spotsOf u mode caseSensitive terms line with
            | none => exact ih (cap + 1) (i + 1) hnext acc hcap best
            | some ss =>
                have hrow : webRow path lines (i, ss) =
                    Fuzzy.lineResult path lines i (webMatchOf line ss) := by rw [webRow, hline]
                dsimp only [Option.map_some]
                rw [webRowsOf_cons, hrow]
                exact ih cap (i + 1) hnext _
                  (by rw [List.length_append, List.length_singleton]; omega) _

/-- The row of a file name that all terms match. -/
def webNameRow (path : Text) (ss : List Spot) : SearchResult ℤ ℕ :=
  ⟨path, .name, none, Fuzzy.baseName path, (webMatchOf (Fuzzy.baseName path) ss).score,
    Fuzzy.toHighlightRanges (positions ss)⟩

/-- The rows of the first hits of a file and the best score. -/
def webLineRows (path content : Text) (terms : List Text) : List (SearchResult ℤ ℕ) × ℤ :=
  webRowsOf path (content.splitOn '\n') [] 0
    (firstHits (lineSpots u mode caseSensitive terms) Fuzzy.maxMatchesPerFile 0
      (content.splitOn '\n'))

/-- What the search in a file returns. -/
def webFileResult (path content : Text) (terms : List Text) : Option (FileResult ℤ ℕ) :=
  let name := Fuzzy.baseName path
  let named := spotsOf u mode caseSensitive terms name
  let rows := webLineRows u mode caseSensitive path content terms
  if named.isNone && (!(spotsOf u mode caseSensitive terms content).isSome || rows.1.isEmpty) then
    none
  else
    let sorted := rows.1.mergeSort fun a b => decide (b.score - a.score ≤ 0)
    let nameScore := (named.map fun ss => (webMatchOf name ss).score + 100).getD 0
    some ⟨named.toList.map (webNameRow path) ++ sorted, nameScore + rows.2 + sorted.length * 3⟩

include hterms in
theorem searchFile_eq {path content : Text} (hname : Ascii (Fuzzy.baseName path))
    (hcontent : Ascii content) :
    Fuzzy.searchFile u mode caseSensitive path content terms =
      webFileResult u mode caseSensitive path content terms := by
  have hlines := linesLoop_eq u mode caseSensitive hterms path
    (fun _ hline => ascii_splitOn hcontent hline) _ Fuzzy.maxMatchesPerFile 0
    List.drop_zero [] (Nat.zero_add _) 0
  unfold Fuzzy.searchFile webFileResult
  dsimp only
  rw [hlines, terms_eq u mode caseSensitive hterms hname,
    all_eq u mode caseSensitive hterms hcontent, Option.isNone_map]
  cases spotsOf u mode caseSensitive terms (Fuzzy.baseName path) with
  | none => rfl
  | some ss => rfl

end Tactile.Search.WebRows

import Tactile.Search.Lines

/-!
Searches in ASCII texts: all tables agree and lowercasing keeps the length of a text,
so the desktop app panics nowhere, and its offsets are the positions themselves.
-/

namespace Tactile.Search.Ascii

open Tactile.Lib.Matching Tactile.Lib.Panics
open Tactile.Search.Fuzzy (Text Unicode MatchMode FuzzyMatch)
open Tactile.Search.Engine Tactile.Search.Spots Tactile.Search.Bounds Tactile.Search.Rows
open Tactile.Search.Safety Tactile.Search.Lines
open scoped List

section Folding

variable {u v : Unicode} (caseSensitive : Bool)

instance : DecidablePred Ascii := fun s =>
  decidable_of_iff (s.all fun c => decide (c.toNat < 128)) (by simp [Ascii, List.all_eq_true])

theorem ascii_append {s t : Text} : Ascii (s ++ t) ↔ Ascii s ∧ Ascii t := by
  rw [Ascii, List.forall_mem_append, Ascii, Ascii]

/-- All tables fold an ASCII text alike. -/
theorem toChars_tables {s : Text} (hs : Ascii s) :
    toChars u s caseSensitive = toChars v s caseSensitive := by
  cases caseSensitive with
  | true => rfl
  | false => exact (u.lowercase_ascii s hs).trans (v.lowercase_ascii s hs).symm

theorem length_toChars {s : Text} (hs : Ascii s) :
    (toChars u s caseSensitive).length = s.length := length_folded u caseSensitive hs

/-- An ASCII text is folded character by character. -/
theorem toChars_eq_map {s : Text} (hs : Ascii s) :
    toChars u s caseSensitive = s.map fun c => if caseSensitive then c else c.toLower := by
  cases caseSensitive with
  | true => exact (List.map_id s).symm
  | false => exact u.lowercase_ascii s hs

theorem toChars_append {s t : Text} (hs : Ascii (s ++ t)) :
    toChars u (s ++ t) caseSensitive =
      toChars u s caseSensitive ++ toChars u t caseSensitive := by
  obtain ⟨hleft, hright⟩ := ascii_append.mp hs
  rw [toChars_eq_map caseSensitive hs, toChars_eq_map caseSensitive hleft,
    toChars_eq_map caseSensitive hright, List.map_append]

theorem isWhitespace_tables {s : Text} (hs : Ascii s) :
    s.all u.isWhitespace = s.all v.isWhitespace := by
  apply Bool.eq_iff_iff.mpr
  rw [List.all_eq_true, List.all_eq_true]
  refine forall₂_congr fun c hc => ?_
  rw [u.isWhitespace_ascii c (hs c hc), v.isWhitespace_ascii c (hs c hc)]

/-- Where the terms are found does not depend on the tables. -/
theorem spotsOf_tables (mode : MatchMode) {terms : List Text} {text : Text}
    (hterms : ∀ t ∈ terms, Ascii t) (htext : Ascii text) :
    spotsOf u mode caseSensitive terms text = spotsOf v mode caseSensitive terms text := by
  rw [spotsOf, spotsOf, toChars_tables (v := v) caseSensitive htext]
  congr 1
  exact List.map_congr_left fun t ht => toChars_tables caseSensitive (hterms t ht)

theorem lineSpots_tables (mode : MatchMode) {terms : List Text} {line : Text}
    (hterms : ∀ t ∈ terms, Ascii t) (hline : Ascii line) :
    lineSpots u mode caseSensitive terms line = lineSpots v mode caseSensitive terms line := by
  rw [lineSpots, lineSpots, isWhitespace_tables (v := v) hline,
    spotsOf_tables (v := v) caseSensitive mode hterms hline]

end Folding

section Places

variable {mode : MatchMode} {p h : Text}

theorem asked_lt {i : ℕ} (hi : i ∈ asked mode p h) : i < h.length := by
  unfold asked at hi
  rcases Decidable.em (p = []) with hempty | hp
  · rw [if_pos hempty] at hi
    cases hi
  · rw [if_neg hp] at hi
    have hpos := List.length_pos_of_ne_nil hp
    have hocc : ∀ k, occurrence p h = some k → k < h.length := by
      intro k hk
      have hle := (first_eq_some.mp hk).2.1.add_le hp
      omega
    cases mode with
    | word => cases hi
    | exact => exact hocc i (Option.mem_toList.mp hi)
    | fuzzy =>
        dsimp only at hi
        cases hk : occurrence p h with
        | some k =>
            rw [hk] at hi
            cases List.mem_singleton.mp hi
            exact hocc i hk
        | none =>
            rw [hk] at hi
            dsimp only at hi
            split at hi
            · have := reached_lt hi
              omega
            · cases hi

theorem exactSpot_lt {s : Spot} (hp : p ≠ []) (hs : exactSpot p h = some s) :
    ∀ i ∈ s.positions, i < h.length := by
  obtain ⟨k, hk, rfl⟩ := Option.map_eq_some_iff.mp hs
  have hle := (first_eq_some.mp hk).2.1.add_le hp
  intro i hi
  have := List.mem_range'_1.mp hi
  omega

/-- What is found in a text is found at positions of the text. -/
theorem spot_lt {s : Spot} (hs : spot mode p h = some s) : ∀ i ∈ s.positions, i < h.length := by
  unfold spot at hs
  rcases Decidable.em (p = []) with hempty | hp
  · rw [if_pos hempty] at hs
    cases hs
    exact fun _ hi => nomatch hi
  · rw [if_neg hp] at hs
    cases mode with
    | word =>
        obtain ⟨k, hk, rfl⟩ := Option.map_eq_some_iff.mp hs
        have hle := (first_eq_some.mp hk).2.1.1.add_le hp
        intro i hi
        have := List.mem_range'_1.mp hi
        omega
    | exact => exact exactSpot_lt hp hs
    | fuzzy =>
        rcases Option.or_eq_some_iff.mp hs with hs | ⟨-, hs⟩
        · exact exactSpot_lt hp hs
        · rw [fuzzySpot] at hs
          split at hs
          next =>
            cases hs
            intro i hi
            have := reached_lt hi
            omega
          next => cases hs

variable {u : Unicode} {caseSensitive : Bool}

/-- The terms found in an ASCII text are found at positions of it. -/
theorem spotsOf_lt {terms : List Text} {text : Text} {ss : List Spot} (htext : Ascii text)
    (hss : spotsOf u mode caseSensitive terms text = some ss) :
    ∀ x ∈ positions ss, x < text.length := by
  induction terms generalizing ss with
  | nil =>
      cases hss
      exact fun _ hx => nomatch hx
  | cons term terms ih =>
      rw [spotsOf_cons] at hss
      obtain ⟨s, hs, hrest⟩ := Option.bind_eq_some_iff.mp hss
      obtain ⟨ss', hss', rfl⟩ := Option.map_eq_some_iff.mp hrest
      intro x hx
      rw [positions, List.flatMap_cons, List.mem_append] at hx
      rcases hx with hx | hx
      · have := spot_lt hs x hx
        rwa [length_toChars caseSensitive htext] at this
      · exact ih hss' x hx

end Places

section Safe

variable {u : Unicode} {mode : MatchMode} {caseSensitive : Bool}

theorem termsSafe_ascii (terms : List Text) {text : Text} (htext : Ascii text) :
    TermsSafe u mode caseSensitive terms text := by
  intro pre term post _ _ i hi
  have hlt := asked_lt hi
  rw [length_toChars caseSensitive htext] at hlt
  have hreach := length_pred_le_reach u text
  omega

theorem ascii_splitOn {content line : Text} (hcontent : Ascii content)
    (hline : line ∈ content.splitOn '\n') : Ascii line := by
  obtain ⟨a, b, rfl, -, -⟩ := mem_splitOn hline
  exact (ascii_append.mp (ascii_append.mp hcontent).1).2

theorem ascii_stripReturn {line : Text} (hline : Ascii line) : Ascii (stripReturn line) :=
  fun c hc => hline c ((stripReturn_front line).subset hc)

theorem ascii_linesOf {content line : Text} (hcontent : Ascii content)
    (hline : line ∈ linesOf content) : Ascii line := by
  obtain ⟨j, hj⟩ := List.getElem?_of_mem hline
  rw [linesOf_eq, getElem?_endings] at hj
  split at hj
  next =>
    obtain ⟨part, hpart, rfl⟩ := Option.map_eq_some_iff.mp hj
    exact ascii_stripReturn (ascii_splitOn hcontent (List.mem_of_getElem? hpart))
  next =>
    have hpart := (Option.filter_eq_some_iff.mp hj).1
    exact ascii_splitOn hcontent (List.mem_of_getElem? hpart)

/-- The search in an ASCII text looks up nothing out of bounds. -/
theorem fileSafe_ascii {fileName content : Text} {terms : List Text} (hname : Ascii fileName)
    (hcontent : Ascii content) : FileSafe u mode caseSensitive fileName content terms := by
  refine ⟨termsSafe_ascii terms hname, fun ss hss x hx => spotsOf_lt hname hss x hx, ?_,
    fun _ => termsSafe_ascii terms hcontent⟩
  intro j line hline _ _
  have hascii := ascii_linesOf hcontent (List.mem_of_getElem? hline)
  refine ⟨termsSafe_ascii terms hascii, fun ss hss x hx => ?_⟩
  rw [Nat.zero_add, add_offset_lt_iff hline]
  have := spotsOf_lt hascii hss x hx
  omega

/-- The search in an ASCII file returns its result. -/
theorem searchFile_ok {relPath fileName content : Text} {terms : List Text}
    (hname : Ascii fileName) (hcontent : Ascii content) :
    searchFile u mode caseSensitive relPath fileName content terms =
      .ok (fileResult u mode caseSensitive relPath fileName content terms) :=
  (returns_searchFile ..).1 (fileSafe_ascii hname hcontent)

end Safe

section Around

variable {u : Unicode} {mode : MatchMode} {caseSensitive : Bool} {a b : Text}

/-- Terms found in a text are found in a text with lines around it. -/
theorem spotsOf_append {terms : List Text} {text : Text} (hwhole : Ascii (a ++ text ++ b))
    (ha : a = [] ∨ a.getLast? = some '\n')
    (hb : b = [] ∨ b.head? = some '\n' ∨ b.head? = some '\r')
    (hfound : (spotsOf u mode caseSensitive terms text).isSome) :
    (spotsOf u mode caseSensitive terms (a ++ text ++ b)).isSome := by
  obtain ⟨hleft, hright⟩ := ascii_append.mp hwhole
  obtain ⟨hbefore, -⟩ := ascii_append.mp hleft
  have hbreak : ∀ c : Char, c = '\n' ∨ c = '\r' →
      Fuzzy.isWordChar (if caseSensitive then c else c.toLower) = false := by
    rintro c (rfl | rfl)
    · cases caseSensitive with
      | true => rfl
      | false => rfl
    · cases caseSensitive with
      | true => rfl
      | false => rfl
  have hstart : Before (toChars u a caseSensitive) := by
    rw [Before, toChars_eq_map caseSensitive hbefore, List.getLast?_map]
    rcases ha with rfl | ha
    · rfl
    · rw [ha]
      exact hbreak _ (.inl rfl)
  have hstop : After (toChars u b caseSensitive) := by
    rw [After, toChars_eq_map caseSensitive hright, List.head?_map]
    rcases hb with rfl | hb | hb
    · rfl
    · rw [hb]
      exact hbreak _ (.inl rfl)
    · rw [hb]
      exact hbreak _ (.inr rfl)
  rw [spotsOf_isSome] at hfound ⊢
  intro t ht
  rw [Found, toChars_append caseSensitive hwhole, toChars_append caseSensitive hleft]
  exact finds_append mode hstart hstop (hfound t ht)

theorem lineSpots_isSome_iff (terms : List Text) (line : Text) :
    (lineSpots u mode caseSensitive terms line).isSome ↔
      line.all u.isWhitespace = false ∧ (spotsOf u mode caseSensitive terms line).isSome := by
  rw [lineSpots]
  split
  next hblank => simp [hblank]
  next hblank => simp [hblank]

/-- A hit in a line is a hit in the line with its carriage return. -/
theorem lineSpots_stripReturn {terms : List Text} {line : Text} (hline : Ascii line)
    (hhit : (lineSpots u mode caseSensitive terms (stripReturn line)).isSome) :
    (lineSpots u mode caseSensitive terms line).isSome := by
  obtain ⟨b, heq, hb⟩ := eq_stripReturn_append line
  rw [lineSpots_isSome_iff] at hhit ⊢
  constructor
  · rw [heq, List.all_append, hhit.1, Bool.false_and]
  · have hwhole : Ascii ([] ++ stripReturn line ++ b) := by
      rw [List.nil_append, ← heq]
      exact hline
    have hadd := spotsOf_append hwhole (.inl rfl)
      (hb.imp_right fun hb => .inr (by rw [hb]; rfl)) hhit.2
    rwa [List.nil_append, ← heq] at hadd

/-- The terms that match a line match the content. -/
theorem spotsOf_content {terms : List Text} {content line : Text} (hcontent : Ascii content)
    (hline : line ∈ content.splitOn '\n')
    (hhit : (lineSpots u mode caseSensitive terms line).isSome) :
    (spotsOf u mode caseSensitive terms content).isSome := by
  obtain ⟨a, b, rfl, ha, hb⟩ := mem_splitOn hline
  exact spotsOf_append hcontent ha (hb.imp_right .inl) ((lineSpots_isSome_iff ..).mp hhit).2

end Around

end Tactile.Search.Ascii

import Tactile.Search.Rows

/-!
When the search of the desktop app in a file panics: the lowercased text in which terms
are found need not be as long as the text that is looked up.
-/

namespace Tactile.Search.Safety

open Tactile.Lib.Matching Tactile.Lib.Panics
open Tactile.Search.Fuzzy (Text Unicode MatchMode)
open Tactile.Search.Engine Tactile.Search.Spots Tactile.Search.Bounds Tactile.Search.Rows
open scoped List

section Patterns

/-- The pattern is found in the text that is searched. -/
def Finds (mode : MatchMode) (p h : Text) : Prop :=
  match mode with
  | .word => p = [] ∨ ∃ i, WordAt p h i
  | .exact => p <:+: h
  | .fuzzy => p <+ h

/-- The pattern is found before position `n`. -/
def FindsBefore (mode : MatchMode) (p h : Text) (n : ℕ) : Prop :=
  match mode with
  | .word => p = [] ∨ ∃ i, WordAt p h i ∧ i + p.length ≤ n
  | .exact => p <:+: h.take n
  | .fuzzy => p <:+: h.take n ∨ (¬ p <:+: h ∧ p <+ h.take n)

/-- The pattern, if it occurs, starts at position `m` or before; if not, so does every
character that the fuzzy search finds. -/
def StartsBy (mode : MatchMode) (p h : Text) (m : ℕ) : Prop :=
  match mode with
  | .word => True
  | .exact => p <:+: h → p <:+: h.take (m + p.length)
  | .fuzzy => (p <:+: h → p <:+: h.take (m + p.length)) ∧
      (¬ p <:+: h → p.length ≤ h.length → ∀ k, p.take k <+ h → p.take k <+ h.take (m + 1))

theorem occurrence_none {p h : Text} : occurrence p h = none ↔ ¬ p <:+: h := by
  rw [← occurrence_isSome, Option.not_isSome_iff_eq_none]

theorem wordSpot_isSome {p h : Text} (hp : p ≠ []) :
    (wordSpot p h).isSome ↔ ∃ i, WordAt p h i := by
  rw [wordSpot, Option.isSome_map]
  constructor
  · intro hsome
    obtain ⟨i, hi⟩ := Option.isSome_iff_exists.mp hsome
    exact ⟨i, (first_eq_some.mp hi).2.1⟩
  · rintro ⟨i, hi⟩
    cases hfirst : first (WordAt p h) (h.length + 1) with
    | some k => rfl
    | none =>
        have hle := hi.1.add_le hp
        exact absurd hi (first_eq_none.mp hfirst i (by omega))

theorem spot_isSome (mode : MatchMode) (p h : Text) : (spot mode p h).isSome ↔ Finds mode p h := by
  unfold spot Finds
  rcases Decidable.em (p = []) with rfl | hp
  · rw [if_pos rfl]
    cases mode with
    | word => simp
    | exact => simp
    | fuzzy => simp
  · rw [if_neg hp]
    cases mode with
    | word => simp [hp, wordSpot_isSome hp]
    | exact => simp only [exactSpot, Option.isSome_map, occurrence_isSome]
    | fuzzy =>
        simp only [Option.isSome_or, exactSpot, Option.isSome_map, fuzzySpot, length_reached_iff,
          Bool.or_eq_true, occurrence_isSome]
        constructor
        · rintro (hinside | hsub)
          · exact hinside.sublist
          · split at hsub
            next h => exact h
            next => cases hsub
        · intro hsub
          right
          rw [if_pos hsub]
          rfl

instance (mode : MatchMode) (p h : Text) : Decidable (Finds mode p h) :=
  decidable_of_iff _ (spot_isSome mode p h)

theorem occurrence_infix {p h : Text} {k : ℕ} (hk : occurrence p h = some k) : p <:+: h :=
  occurrence_isSome.mp (by rw [hk]; rfl)

theorem asked_le_iff (mode : MatchMode) (p h : Text) (m : ℕ) :
    (∀ i ∈ asked mode p h, i ≤ m) ↔ StartsBy mode p h m := by
  unfold asked StartsBy
  rcases Decidable.em (p = []) with rfl | hp
  · rw [if_pos rfl]
    cases mode with
    | word => simp
    | exact => simp
    | fuzzy => simp
  · rw [if_neg hp]
    cases mode with
    | word => simp
    | exact =>
        cases hocc : occurrence p h with
        | none =>
            have hnot := occurrence_none.mp hocc
            exact iff_of_true (by simp) fun h => absurd h hnot
        | some k =>
            have hinside := occurrence_infix hocc
            have hle := occurrence_add_le_iff (m := m + p.length) hp hocc
            rw [Nat.add_le_add_iff_right] at hle
            simp [hinside, hle]
    | fuzzy =>
        cases hocc : occurrence p h with
        | none =>
            have hnot := occurrence_none.mp hocc
            have hreached := reached_lt_iff p h 0 (m + 1)
            rw [Nat.zero_add] at hreached
            simp only [hnot, false_implies, not_false_eq_true, true_implies, true_and, ← hreached]
            split
            next hle => simp [hle, Nat.lt_succ_iff]
            next hgt => simp [hgt]
        | some k =>
            have hinside := occurrence_infix hocc
            have hle := occurrence_add_le_iff (m := m + p.length) hp hocc
            rw [Nat.add_le_add_iff_right] at hle
            simp [hinside, hle]

theorem range_lt_iff (start len n : ℕ) (hlen : 0 < len) :
    (∀ x ∈ List.range' start len, x < n) ↔ start + len ≤ n := by
  simp only [List.mem_range'_1]
  constructor
  · intro hall
    have := hall (start + len - 1) (by omega)
    omega
  · intro hle x hx
    omega

/-- The places of a pattern are before `n` when it is found before `n`. -/
theorem positions_lt_iff (mode : MatchMode) {p h : Text} (n : ℕ) {s : Spot}
    (hs : spot mode p h = some s) : (∀ x ∈ s.positions, x < n) ↔ FindsBefore mode p h n := by
  unfold spot at hs
  unfold FindsBefore
  rcases Decidable.em (p = []) with rfl | hp
  · rw [if_pos rfl] at hs
    cases hs
    cases mode with
    | word => simp
    | exact => simp
    | fuzzy => simp
  · rw [if_neg hp] at hs
    have hpos := List.length_pos_of_ne_nil hp
    have hexact : ∀ s, exactSpot p h = some s →
        ((∀ x ∈ s.positions, x < n) ↔ p <:+: h.take n) ∧ p <:+: h := by
      intro s hs
      obtain ⟨k, hk, rfl⟩ := Option.map_eq_some_iff.mp hs
      exact ⟨(range_lt_iff k _ n hpos).trans (occurrence_add_le_iff hp hk), occurrence_infix hk⟩
    cases mode with
    | word =>
        obtain ⟨k, hk, rfl⟩ := Option.map_eq_some_iff.mp hs
        obtain ⟨_, hword, hbefore⟩ := first_eq_some.mp hk
        refine (range_lt_iff k _ n hpos).trans ?_
        simp only [hp, false_or]
        refine ⟨fun hle => ⟨k, hword, hle⟩, fun ⟨j, hj, hle⟩ => ?_⟩
        have hkj : ¬ j < k := fun hlt => hbefore j hlt hj
        omega
    | exact => exact (hexact s hs).1
    | fuzzy =>
        cases hspot : exactSpot p h with
        | some s' =>
            have hs' := hs
            rw [hspot] at hs'
            cases hs'
            obtain ⟨hiff, hinside⟩ := hexact _ hspot
            simp [hiff, hinside]
        | none =>
            have hnot : ¬ p <:+: h := by
              rw [exactSpot, Option.map_eq_none_iff] at hspot
              exact occurrence_none.mp hspot
            have hs' : fuzzySpot p h = some s := by
              have hor := hs
              rw [hspot] at hor
              exact hor
            rw [fuzzySpot] at hs'
            split at hs'
            next hlen =>
              cases hs'
              have hsub := (length_reached_iff p h 0).mp hlen
              have hreached := reached_lt_iff p h 0 n
              rw [Nat.zero_add] at hreached
              have hshort : ¬ p <:+: h.take n :=
                fun hin => hnot (hin.trans (List.take_prefix n h).isInfix)
              rw [hreached]
              simp only [hnot, hshort, not_false_eq_true, true_and, false_or]
              constructor
              · intro hall
                have hwhole := hall p.length
                rw [List.take_length] at hwhole
                exact hwhole hsub
              · intro htake k _
                exact (List.take_sublist k p).trans htake
            next => cases hs'

end Patterns

section Files

variable (u : Unicode) (mode : MatchMode) (caseSensitive : Bool)

/-- The term is found in the text. -/
def Found (term text : Text) : Prop :=
  Finds mode (toChars u term caseSensitive) (toChars u text caseSensitive)

instance (term text : Text) : Decidable (Found u mode caseSensitive term text) :=
  inferInstanceAs (Decidable (Finds _ _ _))

/-- The places of the term in the searched text are positions below `n`. -/
def FoundBefore (n : ℕ) (term text : Text) : Prop :=
  FindsBefore mode (toChars u term caseSensitive) (toChars u text caseSensitive) n

/-- Every term up to the first that is not found starts where a bonus can be looked
up. -/
def Tried (terms : List Text) (text : Text) : Prop :=
  ∀ pre term post, terms = pre ++ term :: post → (∀ t ∈ pre, Found u mode caseSensitive t text) →
    StartsBy mode (toChars u term caseSensitive) (toChars u text caseSensitive) (reach u text)

/-- A line that all terms match. -/
def Hit (terms : List Text) (line : Text) : Prop :=
  line.all u.isWhitespace = false ∧ ∀ t ∈ terms, Found u mode caseSensitive t line

instance (terms : List Text) : DecidablePred (Hit u mode caseSensitive terms) :=
  fun _ => inferInstanceAs (Decidable (_ ∧ _))

/-- In the texts that the search looks at, the terms start where a bonus can be looked
up, and the positions of a match are in the file name or in the window of the line. -/
structure InBounds (fileName content : Text) (terms : List Text) : Prop where
  name : Tried u mode caseSensitive terms fileName
  nameRow : (∀ t ∈ terms, Found u mode caseSensitive t fileName) →
    ∀ t ∈ terms, FoundBefore u mode caseSensitive fileName.length t fileName
  lines : ∀ i line, (linesOf content)[i]? = some line → line.all u.isWhitespace = false →
    ((linesOf content).take i).countP (Hit u mode caseSensitive terms) < maxMatchesPerFile →
    Tried u mode caseSensitive terms line ∧
      ((∀ t ∈ terms, Found u mode caseSensitive t line) → ∀ t ∈ terms, FoundBefore u mode
        caseSensitive (line.length + ((linesOf content)[i + 1]?.toList.map fun l =>
          l.length + 1).sum) t line)
  content : (¬ ∀ t ∈ terms, Found u mode caseSensitive t fileName) →
    Tried u mode caseSensitive terms content

theorem spotsOf_isSome (terms : List Text) (text : Text) :
    (spotsOf u mode caseSensitive terms text).isSome ↔
      ∀ t ∈ terms, Found u mode caseSensitive t text := by
  rw [spotsOf, spots_isSome, List.forall_mem_map]
  simp only [spot_isSome]
  exact Iff.rfl

theorem termsSafe_iff (terms : List Text) (text : Text) :
    TermsSafe u mode caseSensitive terms text ↔ Tried u mode caseSensitive terms text := by
  simp only [TermsSafe, Tried, TermSafe, asked_le_iff, spotsOf_isSome]

theorem positionsOf_lt_iff (terms : List Text) (text : Text) (n : ℕ) {ss : List Spot}
    (hss : spotsOf u mode caseSensitive terms text = some ss) :
    (∀ x ∈ positions ss, x < n) ↔ ∀ t ∈ terms, FoundBefore u mode caseSensitive n t text := by
  induction terms generalizing ss with
  | nil =>
      cases hss
      simp [positions]
  | cons term terms ih =>
      rw [spotsOf_cons] at hss
      obtain ⟨s, hs, hrest⟩ := Option.bind_eq_some_iff.mp hss
      obtain ⟨ss', hss', rfl⟩ := Option.map_eq_some_iff.mp hrest
      have hterm := positions_lt_iff mode n hs
      rw [List.forall_mem_cons, ← ih hss', FoundBefore, ← hterm, positions, positions]
      simp only [List.flatMap_cons, List.mem_append]
      exact ⟨fun h => ⟨fun x hx => h x (.inl hx), fun x hx => h x (.inr hx)⟩,
        fun h x hx => hx.elim (h.1 x) (h.2 x)⟩

theorem forall_positions_iff (terms : List Text) (text : Text) (n : ℕ) :
    (∀ ss, spotsOf u mode caseSensitive terms text = some ss → ∀ x ∈ positions ss, x < n) ↔
      ((∀ t ∈ terms, Found u mode caseSensitive t text) →
        ∀ t ∈ terms, FoundBefore u mode caseSensitive n t text) := by
  rw [← spotsOf_isSome]
  constructor
  · intro hall hsome
    obtain ⟨ss, hss⟩ := Option.isSome_iff_exists.mp hsome
    exact (positionsOf_lt_iff u mode caseSensitive terms text n hss).mp (hall ss hss)
  · intro hfound ss hss
    exact (positionsOf_lt_iff u mode caseSensitive terms text n hss).mpr
      (hfound (by rw [hss]; rfl))

theorem lineSpots_isSome (terms : List Text) (line : Text) :
    (lineSpots u mode caseSensitive terms line).isSome =
      decide (Hit u mode caseSensitive terms line) := by
  rw [Bool.eq_iff_iff, decide_eq_true_iff, Hit, lineSpots, ← spotsOf_isSome]
  split
  next hblank => simp [hblank]
  next hblank =>
    rw [Bool.not_eq_true] at hblank
    simp [hblank]

theorem linesSafe_iff (terms lines : List Text) :
    AllVisited (lineSpots u mode caseSensitive terms) (LineSafe u mode caseSensitive terms lines)
      maxMatchesPerFile 0 lines ↔
    ∀ i line, lines[i]? = some line → line.all u.isWhitespace = false →
      (lines.take i).countP (Hit u mode caseSensitive terms) < maxMatchesPerFile →
      Tried u mode caseSensitive terms line ∧
        ((∀ t ∈ terms, Found u mode caseSensitive t line) → ∀ t ∈ terms, FoundBefore u mode
          caseSensitive (line.length + (lines[i + 1]?.toList.map fun l => l.length + 1).sum)
          t line) := by
  simp only [AllVisited, LineSafe, lineSpots_isSome, Nat.zero_add, termsSafe_iff]
  have hrow : ∀ i line, lines[i]? = some line →
      ((∀ ss, spotsOf u mode caseSensitive terms line = some ss →
        ∀ x ∈ positions ss, x + offset lines i < (joinLines (window lines i)).length) ↔
      ((∀ t ∈ terms, Found u mode caseSensitive t line) → ∀ t ∈ terms, FoundBefore u mode
          caseSensitive (line.length + (lines[i + 1]?.toList.map fun l => l.length + 1).sum)
          t line)) := by
    intro i line hline
    simp only [add_offset_lt_iff hline]
    exact forall_positions_iff ..
  constructor
  · intro hall i line hline hblank hcount
    obtain ⟨htried, hpositions⟩ := hall i line hline hcount hblank
    exact ⟨htried, (hrow i line hline).mp hpositions⟩
  · intro hall i line hline hcount hblank
    obtain ⟨htried, hpositions⟩ := hall i line hline hblank hcount
    exact ⟨htried, (hrow i line hline).mpr hpositions⟩

theorem fileSafe_iff_inBounds (fileName content : Text) (terms : List Text) :
    FileSafe u mode caseSensitive fileName content terms ↔
      InBounds u mode caseSensitive fileName content terms := by
  have hnone : spotsOf u mode caseSensitive terms fileName = none ↔
      ¬ ∀ t ∈ terms, Found u mode caseSensitive t fileName := by
    rw [← spotsOf_isSome, Option.not_isSome_iff_eq_none]
  have hname := forall_positions_iff u mode caseSensitive terms fileName fileName.length
  constructor
  · intro h
    exact ⟨(termsSafe_iff ..).mp h.name, hname.mp h.nameRow, (linesSafe_iff ..).mp h.lines,
      fun hnot => (termsSafe_iff ..).mp (h.content (hnone.mpr hnot))⟩
  · intro h
    exact ⟨(termsSafe_iff ..).mpr h.name, hname.mpr h.nameRow, (linesSafe_iff ..).mpr h.lines,
      fun hnot => (termsSafe_iff ..).mpr (h.content (hnone.mp hnot))⟩

/-- The search in a file has all its lookups within bounds just when the terms are found
early enough in the lowercased texts. -/
theorem searchFile_returns_iff (relPath fileName content : Text) (terms : List Text) :
    (∃ r, searchFile u mode caseSensitive relPath fileName content terms = .ok r) ↔
      InBounds u mode caseSensitive fileName content terms :=
  (returns_searchFile ..).isOk.trans (fileSafe_iff_inBounds ..)

end Files

/-- Tables in which the capital dotted I has two lowercase characters, as it has in
Unicode. -/
def dottedTables : Unicode where
  lowercase s := s.flatMap fun c => if c = 'İ' then ['i', '\u0307'] else [c.toLower]
  isLowercase := Char.isLower
  isUppercase c := c.isUpper || c == 'İ'
  isWhitespace c := decide (c = ' ' ∨ (9 ≤ c.toNat ∧ c.toNat ≤ 13))
  lowercase_ascii s hs := by
    induction s with
    | nil => rfl
    | cons c s ih =>
        have hc : c ≠ 'İ' := by
          rintro rfl
          exact absurd (hs 'İ' List.mem_cons_self) (by decide)
        rw [List.flatMap_cons, if_neg hc, ih fun c hc => hs c (List.mem_cons_of_mem _ hc)]
        rfl
  isLowercase_ascii _ _ := rfl
  isUppercase_ascii c hc := by
    have hne : c ≠ 'İ' := by
      rintro rfl
      exact absurd hc (by decide)
    rw [beq_eq_false_iff_ne.mpr hne, Bool.or_false]
  isWhitespace_ascii _ _ := rfl

/-- The last character of a name is found one position after the name's end. -/
theorem searchFile_panics :
    ¬ ∀ (u : Unicode) (mode : MatchMode) (caseSensitive : Bool)
      (relPath fileName content : Text) (terms : List Text),
      ∃ r, searchFile u mode caseSensitive relPath fileName content terms = .ok r := by
  intro h
  obtain ⟨r, hr⟩ := h dottedTables .fuzzy false "İa.md".toList "İa.md".toList [] [['d']]
  have hpanic : searchFile dottedTables .fuzzy false "İa.md".toList "İa.md".toList [] [['d']] =
      .error (.index 5 5) := by rfl
  rw [hpanic] at hr
  cases hr

end Tactile.Search.Safety

import Tactile.Search.Units
import Tactile.Search.Safety
import Mathlib.Tactic.Linarith

/-!
When a literal hit outranks a scattered one: what the boundaries inside the runs of a
scattered hit add to its score against what the scatter costs it.
-/

namespace Tactile.Search.Outranking

open Tactile.Lib.Matching Tactile.Lib.Panics Tactile.Lib.CodeUnits
open Tactile.Search.Fuzzy (Text Unicode MatchMode FuzzyMatch)
open Tactile.Search.Spots (Spot gap spread spot exactSpot fuzzySpot)
open Tactile.Search.Bounds (bonusOf reach asked returns_matchTerm)
open scoped List

section Scores

variable (bonus : ℕ → ℤ)

/-- The bonuses at the positions that follow the one before directly. -/
def inner : Option ℕ → List ℕ → ℤ
  | _, [] => 0
  | prev, i :: rest =>
    (if prev.map (· + 1) = some i then bonus i else 0) + inner (some i) rest

/-- The characters skipped before a position. -/
def skipped : Option ℕ → ℕ → ℤ
  | none, _ => 0
  | some prev, i => i - prev - 1

/-- What the other positions cost: the bonus that each does not get, up to the one of a
boundary, and the characters skipped before it. -/
def slack : Option ℕ → List ℕ → ℤ
  | _, [] => 0
  | prev, i :: rest =>
    (if prev.map (· + 1) = some i then 0 else 8 - bonus i + skipped prev i) + slack (some i) rest

/-- The bonuses inside the runs are outweighed by what the scatter costs, by the boundary of
the literal hit and by the code units that the positions leave out. -/
def Outweighed (units : ℕ) (first : ℤ) (ps : List ℕ) : Prop :=
  inner bonus none ps < 18 * ((units : ℤ) - ps.length) + 8 + first + slack bonus none ps

/-- The score of positions is that of a single run, with the bonuses inside the runs and
without the cost of the scatter. -/
theorem spread_add_sum (prev : Option ℕ) (ps : List ℕ) :
    spread prev ps + (ps.map bonus).sum =
      18 * ps.length + inner bonus prev ps - slack bonus prev ps := by
  induction ps generalizing prev with
  | nil => rfl
  | cons i rest ih =>
      have hhead : 10 + gap prev i + bonus i =
          18 + (if prev.map (· + 1) = some i then bonus i else 0) -
            (if prev.map (· + 1) = some i then 0 else 8 - bonus i + skipped prev i) := by
        cases prev with
        | none =>
            simp only [gap, skipped, Option.map_none, reduceCtorEq, if_false]
            ring
        | some q =>
            simp only [gap, skipped, Option.map_some, Option.some_inj, eq_comm (a := i)]
            split
            · ring
            · ring
      have hrest := ih (some i)
      rw [spread, List.map_cons, List.sum_cons, inner, slack, List.length_cons]
      push_cast
      linarith

theorem outweighed_iff (units : ℕ) (first : ℤ) (ps : List ℕ) :
    Outweighed bonus units first ps ↔
      spread none ps + (ps.map bonus).sum < 18 * units + 8 + first := by
  rw [Outweighed, spread_add_sum]
  constructor
  · intro h
    linarith
  · intro h
    linarith

end Scores

/-- The pattern is in the text as a subsequence and not in one piece. -/
def Scattered {α : Type} (p h : List α) : Prop := p <+ h ∧ ¬p <:+: h

section Web

open Tactile.Search.Units

variable (low : Lowering) (caseSensitive : Bool) {term text : JsString}

/-- A text with the term in one piece is given a higher score than one with its characters
scattered. -/
def WebOutranks (term literal scattered : JsString) : Prop :=
  term ≠ [] → folded low caseSensitive term <:+: folded low caseSensitive literal →
    Scattered (folded low caseSensitive term) (folded low caseSensitive scattered) →
      ∃ m, matchTerm low term literal .fuzzy caseSensitive = some m ∧
        ∀ m', matchTerm low term scattered .fuzzy caseSensitive = some m' → m'.score < m.score

/-- When the term is found in both texts, the bonuses inside the runs of the second are
outweighed. -/
def WebOutweighed (term literal scattered : JsString) : Prop :=
  term ≠ [] → Scattered (folded low caseSensitive term) (folded low caseSensitive scattered) →
    ∀ f ps, occurrence (folded low caseSensitive term) (folded low caseSensitive literal) = some f →
      term.length ≤ scattered.length →
      places (folded low caseSensitive scattered) (codePoints (folded low caseSensitive term)) 0 =
        some ps →
      Outweighed (boundaryBonus scattered) (folded low caseSensitive term).length
        (boundaryBonus literal f) ps

theorem matchTerm_literal (hterm : term ≠ []) {f : ℕ}
    (hf : occurrence (folded low caseSensitive term) (folded low caseSensitive text) = some f) :
    ∃ m, matchTerm low term text .fuzzy caseSensitive = some m ∧
      m.score = 18 * (folded low caseSensitive term).length + 8 + boundaryBonus text f := by
  have hlength : term.length ≠ 0 := fun h => hterm (List.length_eq_zero_iff.mp h)
  rw [matchTerm, if_neg (by decide), exactMatch, if_neg hlength]
  dsimp only
  rw [indexOf_zero, hf, Option.map_some, if_pos (.inl rfl)]
  refine ⟨_, rfl, ?_⟩
  simp only [Fuzzy.scoreMatch, Fuzzy.bonusConsecutive, Fuzzy.bonusBoundary]
  ring

theorem matchTerm_scattered (hterm : term ≠ [])
    (hnone : occurrence (folded low caseSensitive term) (folded low caseSensitive text) = none) :
    matchTerm low term text .fuzzy caseSensitive =
      if term.length > text.length then none
      else (places (folded low caseSensitive text) (codePoints (folded low caseSensitive term)) 0).map
        fun ps => ⟨spread none ps + (ps.map (boundaryBonus text)).sum, ps⟩ := by
  have hlength : term.length ≠ 0 := fun h => hterm (List.length_eq_zero_iff.mp h)
  rw [matchTerm, if_neg (by decide), exactMatch, if_neg hlength]
  dsimp only
  rw [indexOf_zero, hnone, Option.map_none, if_neg (by decide), fuzzyMatch, if_neg hlength, fuzzyLoop_eq]
  simp only [zero_add, List.nil_append]

theorem webOutranks_iff (term literal scattered : JsString) :
    WebOutranks low caseSensitive term literal scattered ↔
      WebOutweighed low caseSensitive term literal scattered := by
  rw [WebOutranks, WebOutweighed]
  refine forall_congr' fun hterm => ?_
  rw [← occurrence_isSome]
  cases hf : occurrence (folded low caseSensitive term) (folded low caseSensitive literal) with
  | none => exact iff_of_true nofun fun _ _ _ => nofun
  | some f =>
      obtain ⟨m, hm, hscore⟩ := matchTerm_literal low caseSensitive hterm hf
      rw [imp_iff_right Option.isSome_some]
      refine forall_congr' fun hscattered => ?_
      have hnone : occurrence (folded low caseSensitive term) (folded low caseSensitive scattered) =
          none := by
        rw [← Option.not_isSome_iff_eq_none, occurrence_isSome]
        exact hscattered.2
      rw [hm, matchTerm_scattered low caseSensitive hterm hnone]
      constructor
      · rintro ⟨m₁, heq, hless⟩ f' ps hf' hle hps
        cases heq
        cases hf'
        rw [if_neg (by omega), hps] at hless
        rw [outweighed_iff, ← hscore]
        exact hless _ rfl
      · intro hall
        refine ⟨m, rfl, fun m' hm' => ?_⟩
        split at hm'
        next => cases hm'
        next hle =>
          obtain ⟨ps, hps, rfl⟩ := Option.map_eq_some_iff.mp hm'
          rw [hscore, ← outweighed_iff]
          exact hall f ps rfl (by omega) hps

end Web

section Bounds

variable {q n : ℕ} {ps : List ℕ}

/-- Positions after another, in order and among the first `n`, score no more than one run and
lose no more than the characters up to the end. -/
theorem spread_bounds (hasc : (q :: ps).Pairwise (· < ·)) (hlt : ∀ i ∈ q :: ps, i < n) :
    (q : ℤ) + 1 - n ≤ spread (some q) ps ∧ spread (some q) ps ≤ 18 * ps.length := by
  induction ps generalizing q with
  | nil =>
      have := hlt q List.mem_cons_self
      simp only [spread, List.length_nil]
      omega
  | cons i rest ih =>
      rw [List.pairwise_cons] at hasc
      have hqi := hasc.1 i List.mem_cons_self
      have hrest := ih hasc.2 fun j hj => hlt j (List.mem_cons_of_mem _ hj)
      rw [spread, gap, List.length_cons]
      split
      · omega
      · omega

theorem spread_none_bounds (hasc : ps.Pairwise (· < ·)) (hlt : ∀ i ∈ ps, i < n) :
    -(n : ℤ) ≤ spread none ps ∧ spread none ps ≤ 18 * ps.length := by
  cases ps with
  | nil =>
      simp only [spread, List.length_nil]
      omega
  | cons i rest =>
      have hrest := spread_bounds hasc hlt
      rw [spread, gap, List.length_cons]
      omega

theorem sum_bounds {bonus : ℕ → ℤ} (hbonus : ∀ i, 0 ≤ bonus i ∧ bonus i ≤ 8) (ps : List ℕ) :
    0 ≤ (ps.map bonus).sum ∧ (ps.map bonus).sum ≤ 8 * ps.length := by
  induction ps with
  | nil => exact ⟨le_refl _, le_refl _⟩
  | cons i rest ih =>
      have hi := hbonus i
      rw [List.map_cons, List.sum_cons, List.length_cons]
      omega

theorem bonusOf_bounds (u : Unicode) (chars : Text) (i : ℕ) :
    0 ≤ bonusOf u chars i ∧ bonusOf u chars i ≤ 8 := by
  rw [bonusOf]
  split
  · decide
  · split
    · decide
    · split
      · decide
      · decide

end Bounds

section Desktop

open Tactile.Search.Engine

variable (u : Unicode) (caseSensitive : Bool) {term text : Text}

/-- The program gives a text with the term in one piece a higher score than one with its
characters scattered, and panics on neither. -/
def DesktopOutranks (term literal scattered : Text) : Prop :=
  term ≠ [] → toChars u term caseSensitive <:+: toChars u literal caseSensitive →
    Scattered (toChars u term caseSensitive) (toChars u scattered caseSensitive) →
      ∃ m m', matchTerm u term literal .fuzzy caseSensitive = .ok (some m) ∧
        matchTerm u term scattered .fuzzy caseSensitive = .ok (some m') ∧ m'.score < m.score

/-- The texts are short enough for their scores to be 32-bit integers. -/
def Short (text : Text) : Prop := 26 * text.length + 16 < 2 ^ 31

instance (text : Text) : Decidable (Short text) := inferInstanceAs (Decidable (_ < _))

/-- The bonuses inside the runs of a text are outweighed, in a text that is too long after
wrapping around. -/
def Outweighed32 (p h : Text) (first : ℤ) (bonus : ℕ → ℤ) : Prop :=
  if Short h then Outweighed bonus p.length first (reached p h 0)
  else Int32.ofInt (18 * p.length + inner bonus none (reached p h 0) -
      slack bonus none (reached p h 0)) < Int32.ofInt (18 * p.length + 8 + first)

/-- All positions are looked up within the texts, and the bonuses inside the runs are
outweighed. -/
def DesktopOutweighed (term literal scattered : Text) : Prop :=
  term ≠ [] → Scattered (toChars u term caseSensitive) (toChars u scattered caseSensitive) →
    ∀ f, occurrence (toChars u term caseSensitive) (toChars u literal caseSensitive) = some f →
      f ≤ reach u literal ∧
      (∀ i ∈ reached (toChars u term caseSensitive) (toChars u scattered caseSensitive) 0,
        i ≤ reach u scattered) ∧
      Outweighed32 (toChars u term caseSensitive) (toChars u scattered caseSensitive)
        (bonusOf u literal f) (bonusOf u scattered)

theorem returns_literal {f : ℕ} (hterm : toChars u term caseSensitive ≠ [])
    (hf : occurrence (toChars u term caseSensitive) (toChars u text caseSensitive) = some f) :
    ∃ indices, Returns (matchTerm u term text .fuzzy caseSensitive) (f ≤ reach u text)
      (some ⟨Int32.ofInt (18 * (toChars u term caseSensitive).length + 8 + bonusOf u text f),
        indices⟩) := by
  have hreturns := returns_matchTerm u caseSensitive .fuzzy term text
  rw [asked, if_neg hterm, spot, if_neg hterm] at hreturns
  simp only [hf, exactSpot, Option.map_some, Option.some_or, Bounds.Spot.desktopMatch, Spot.score,
    List.map_cons, List.map_nil, List.sum_cons, List.sum_nil, add_zero] at hreturns
  exact ⟨_, hreturns.iff (by simp)⟩

theorem returns_scattered
    (h : Scattered (toChars u term caseSensitive) (toChars u text caseSensitive)) :
    ∃ indices, Returns (matchTerm u term text .fuzzy caseSensitive)
      (∀ i ∈ reached (toChars u term caseSensitive) (toChars u text caseSensitive) 0,
        i ≤ reach u text)
      (some ⟨Int32.ofInt
        (spread none (reached (toChars u term caseSensitive) (toChars u text caseSensitive) 0) +
          ((reached (toChars u term caseSensitive) (toChars u text caseSensitive) 0).map
            (bonusOf u text)).sum), indices⟩) := by
  have hterm : toChars u term caseSensitive ≠ [] := fun hnil => h.2 (hnil ▸ List.nil_infix)
  have hnone : occurrence (toChars u term caseSensitive) (toChars u text caseSensitive) = none := by
    rw [← Option.not_isSome_iff_eq_none, occurrence_isSome]
    exact h.2
  have hreturns := returns_matchTerm u caseSensitive .fuzzy term text
  rw [asked, if_neg hterm, spot, if_neg hterm] at hreturns
  simp only [hnone, exactSpot, fuzzySpot, if_pos h.1.length_le,
    if_pos ((length_reached_iff _ _ _).mpr h.1), Option.map_none, Option.none_or, Option.map_some,
    Bounds.Spot.desktopMatch, Spot.score] at hreturns
  exact ⟨_, hreturns⟩

theorem outweighed32_iff {p h : Text} (hsub : p <+ h) {first : ℤ} {bonus : ℕ → ℤ}
    (hfirst : 0 ≤ first ∧ first ≤ 8) (hbonus : ∀ i, 0 ≤ bonus i ∧ bonus i ≤ 8) :
    Outweighed32 p h first bonus ↔
      Int32.ofInt (spread none (reached p h 0) + ((reached p h 0).map bonus).sum) <
        Int32.ofInt (18 * p.length + 8 + first) := by
  have hlength := (length_reached_iff p h 0).mpr hsub
  rw [Outweighed32]
  split
  next hshort =>
    have hspread := spread_none_bounds (reached_ascending p h 0) fun i hi => reached_lt hi
    have hsum := sum_bounds hbonus (reached p h 0)
    have hle := hsub.length_le
    rw [Short] at hshort
    rw [hlength] at hspread hsum
    rw [outweighed_iff, Int32.lt_iff_toInt_lt, Int32.toInt_ofInt_of_le (by omega) (by omega),
      Int32.toInt_ofInt_of_le (by omega) (by omega)]
  next => rw [spread_add_sum, hlength]

theorem desktopOutranks_iff (term literal scattered : Text) :
    DesktopOutranks u caseSensitive term literal scattered ↔
      DesktopOutweighed u caseSensitive term literal scattered := by
  rw [DesktopOutranks, DesktopOutweighed]
  refine forall_congr' fun _ => ?_
  rw [← occurrence_isSome]
  cases hf : occurrence (toChars u term caseSensitive) (toChars u literal caseSensitive) with
  | none => exact iff_of_true nofun fun _ _ => nofun
  | some f =>
      rw [imp_iff_right Option.isSome_some]
      refine forall_congr' fun hscattered => ?_
      have hp : toChars u term caseSensitive ≠ [] :=
        fun hnil => hscattered.2 (hnil ▸ List.nil_infix)
      obtain ⟨indices, hliteral⟩ := returns_literal u caseSensitive hp hf
      obtain ⟨indices', hreturns⟩ := returns_scattered u caseSensitive hscattered
      constructor
      · rintro ⟨m, m', hm, hm', hless⟩ f' hf'
        cases hf'
        have hreach := hliteral.isOk.mp ⟨_, hm⟩
        have hreached := hreturns.isOk.mp ⟨_, hm'⟩
        rw [hliteral.1 hreach] at hm
        rw [hreturns.1 hreached] at hm'
        cases hm
        cases hm'
        exact ⟨hreach, hreached, (outweighed32_iff hscattered.1 (bonusOf_bounds u literal f)
          (bonusOf_bounds u scattered)).mpr hless⟩
      · intro hall
        obtain ⟨hreach, hreached, hoverweighed⟩ := hall f rfl
        exact ⟨_, _, hliteral.1 hreach, hreturns.1 hreached, (outweighed32_iff hscattered.1
          (bonusOf_bounds u literal f) (bonusOf_bounds u scattered)).mp hoverweighed⟩

end Desktop

/-- In both programs a literal hit outranks a scattered one exactly when the boundaries inside
the runs of that one are outweighed. -/
theorem literal_outranks_iff (low : Units.Lowering) (u : Unicode) (caseSensitive : Bool)
    (webTerm webLiteral webScattered : JsString) (term literal scattered : Text) :
    (WebOutranks low caseSensitive webTerm webLiteral webScattered ↔
      WebOutweighed low caseSensitive webTerm webLiteral webScattered) ∧
    (DesktopOutranks u caseSensitive term literal scattered ↔
      DesktopOutweighed u caseSensitive term literal scattered) :=
  ⟨webOutranks_iff low caseSensitive webTerm webLiteral webScattered,
    desktopOutranks_iff u caseSensitive term literal scattered⟩

section Sample

/-- Four dashes after a digit, and four of which the last stands after a dot. -/
def ruled : Text := "1----".toList
def broken : Text := "---.-".toList

theorem broken_outranks_web (caseSensitive : Bool) :
    ¬WebOutranks Units.dotted caseSensitive (js "----".toList) (js ruled) (js broken) := by
  have hmatches : ∀ caseSensitive,
      Units.matchTerm Units.dotted (js "----".toList) (js ruled) .fuzzy caseSensitive =
        some ⟨80, [1, 2, 3, 4]⟩ ∧
      Units.matchTerm Units.dotted (js "----".toList) (js broken) .fuzzy caseSensitive =
        some ⟨87, [0, 1, 2, 4]⟩ := by
    decide
  have hplaces : ∀ caseSensitive,
      Units.folded Units.dotted caseSensitive (js "----".toList) <:+:
        Units.folded Units.dotted caseSensitive (js ruled) ∧
      Scattered (Units.folded Units.dotted caseSensitive (js "----".toList))
        (Units.folded Units.dotted caseSensitive (js broken)) := by
    unfold Scattered
    decide
  intro h
  obtain ⟨m, hm, hless⟩ := h (by decide) (hplaces caseSensitive).1 (hplaces caseSensitive).2
  rw [(hmatches caseSensitive).1] at hm
  cases hm
  exact absurd (hless _ (hmatches caseSensitive).2) (by decide)

theorem broken_outranks_desktop (caseSensitive : Bool) :
    ¬DesktopOutranks Safety.dottedTables caseSensitive "----".toList ruled broken := by
  have hmatches : ∀ caseSensitive,
      Engine.matchTerm Safety.dottedTables "----".toList ruled .fuzzy caseSensitive =
        .ok (some ⟨80, [1, 2, 3, 4]⟩) ∧
      Engine.matchTerm Safety.dottedTables "----".toList broken .fuzzy caseSensitive =
        .ok (some ⟨87, [0, 1, 2, 4]⟩) := by
    decide
  have hplaces : ∀ caseSensitive,
      Engine.toChars Safety.dottedTables "----".toList caseSensitive <:+:
        Engine.toChars Safety.dottedTables ruled caseSensitive ∧
      Scattered (Engine.toChars Safety.dottedTables "----".toList caseSensitive)
        (Engine.toChars Safety.dottedTables broken caseSensitive) := by
    unfold Scattered
    decide
  intro h
  obtain ⟨m, m', hm, hm', hless⟩ :=
    h (by decide) (hplaces caseSensitive).1 (hplaces caseSensitive).2
  rw [(hmatches caseSensitive).1] at hm
  rw [(hmatches caseSensitive).2] at hm'
  cases hm
  cases hm'
  exact absurd hless (by decide)

/-- Under either case setting the scattered dashes are given the higher score, 87 against 80. -/
theorem broken_outranks :
    ¬WebOutranks Units.dotted true (js "----".toList) (js ruled) (js broken) ∧
    ¬WebOutranks Units.dotted false (js "----".toList) (js ruled) (js broken) ∧
    ¬DesktopOutranks Safety.dottedTables true "----".toList ruled broken ∧
    ¬DesktopOutranks Safety.dottedTables false "----".toList ruled broken :=
  ⟨broken_outranks_web true, broken_outranks_web false, broken_outranks_desktop true,
    broken_outranks_desktop false⟩

end Sample

end Tactile.Search.Outranking

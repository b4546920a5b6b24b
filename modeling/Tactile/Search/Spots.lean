import Tactile.Search.Engine
import Mathlib.Algebra.BigOperators.Group.List.Basic
import Mathlib.Tactic.Ring

/-!
Where a term is found in a text, without either program: the places of the term and
the places at which its match is given a bonus. Both matchers find a term there, and
the desktop one panics at a place that it looks up out of bounds.
-/

namespace Tactile.Search.Spots

open Tactile.Lib.Matching Tactile.Lib.Panics
open Tactile.Search.Fuzzy (Text Unicode MatchMode FuzzyMatch)
open scoped List

section Spec

/-- A place of a term: its score without bonuses, its positions and the positions at
which a bonus is added. -/
structure Spot where
  base : ℤ
  positions : List ℕ
  bonuses : List ℕ

/-- The pattern stands at the position as a whole word. -/
def WordAt (p h : Text) (i : ℕ) : Prop :=
  Stands p h i ∧ (i = 0 ∨ (h[i - 1]?).any Fuzzy.isWordChar = false) ∧
    (h[i + p.length]?).any Fuzzy.isWordChar = false

instance (p h : Text) : DecidablePred (WordAt p h) :=
  fun i => inferInstanceAs (Decidable (Stands p h i ∧ _ ∧ _))

/-- What is added for a character after the last one found. -/
def gap : Option ℕ → ℕ → ℤ
  | none, _ => 0
  | some prev, i => if i = prev + 1 then 8 else -((i : ℤ) - prev - 1)

/-- The score of characters found one after another, without bonuses. -/
def spread : Option ℕ → List ℕ → ℤ
  | _, [] => 0
  | prev, i :: rest => 10 + gap prev i + spread (some i) rest

def wordSpot (p h : Text) : Option Spot :=
  (first (WordAt p h) (h.length + 1)).map fun i =>
    ⟨18 * p.length + 8, List.range' i p.length, []⟩

def exactSpot (p h : Text) : Option Spot :=
  (occurrence p h).map fun i => ⟨18 * p.length + 8, List.range' i p.length, [i]⟩

def fuzzySpot (p h : Text) : Option Spot :=
  if (reached p h 0).length = p.length then
    some ⟨spread none (reached p h 0), reached p h 0, reached p h 0⟩
  else none

/-- Where a pattern is found. -/
def spot (mode : MatchMode) (p h : Text) : Option Spot :=
  if p = [] then some ⟨0, [], []⟩
  else match mode with
    | .word => wordSpot p h
    | .exact => exactSpot p h
    | .fuzzy => (exactSpot p h).or (fuzzySpot p h)

/-- The score of a place with its bonuses. -/
def Spot.score (bonus : ℕ → ℤ) (s : Spot) : ℤ := s.base + (s.bonuses.map bonus).sum

/-- The score of some places and all their positions. -/
def scores (bonus : ℕ → ℤ) (ss : List Spot) : ℤ := (ss.map (Spot.score bonus)).sum

def positions (ss : List Spot) : List ℕ := ss.flatMap Spot.positions

/-- Where some patterns are found, if all are. -/
def spots (mode : MatchMode) (ps : List Text) (h : Text) : Option (List Spot) :=
  ps.mapM fun p => spot mode p h

theorem spots_nil (mode : MatchMode) (h : Text) : spots mode [] h = some [] := rfl

theorem spots_cons (mode : MatchMode) (p h : Text) (ps : List Text) :
    spots mode (p :: ps) h =
      (spot mode p h).bind fun s => (spots mode ps h).map fun ss => s :: ss := by
  rw [spots, List.mapM_cons]
  cases spot mode p h with
  | none => rfl
  | some s =>
      change ((ps.mapM fun p => spot mode p h).bind fun ss => some (s :: ss)) = _
      exact (Option.map_eq_bind ..).symm

theorem scores_cons (bonus : ℕ → ℤ) (s : Spot) (ss : List Spot) :
    scores bonus (s :: ss) = s.score bonus + scores bonus ss := by
  rw [scores, List.map_cons, List.sum_cons, scores]

theorem spots_isSome (mode : MatchMode) (h : Text) (ps : List Text) :
    (spots mode ps h).isSome ↔ ∀ p ∈ ps, (spot mode p h).isSome := by
  induction ps with
  | nil => simp [spots_nil]
  | cons p ps ih =>
      rw [spots_cons, List.forall_mem_cons, ← ih]
      cases spot mode p h with
      | none => simp
      | some s => simp

end Spec

section Web

variable (u : Unicode)

/-- ASCII characters. -/
def Ascii (s : Text) : Prop := ∀ c ∈ s, c.toNat < 128

theorem length_folded (caseSensitive : Bool) {s : Text} (hs : Ascii s) :
    (Fuzzy.folded u caseSensitive s).length = s.length := by
  cases caseSensitive with
  | true => rfl
  | false => exact (congrArg List.length (u.lowercase_ascii s hs)).trans (List.length_map _)

theorem indexOf_zero (text needle : Text) :
    Fuzzy.indexOf text needle 0 = occurrence needle text :=
  first_congr fun k => by simp

theorem indexOf_singleton (h : Text) (c : Char) (start : ℕ) :
    Fuzzy.indexOf h [c] start = ((h.drop start).findIdx? (· == c)).map (start + ·) :=
  first_singleton h c start

theorem scoreGap_eq (score : ℤ) (found : ℕ) (prev : Option ℕ) :
    Fuzzy.scoreGap score found prev = score + gap prev found := by
  cases prev with
  | none => exact (add_zero score).symm
  | some previous =>
      simp only [Fuzzy.scoreGap, gap, Fuzzy.bonusConsecutive, Fuzzy.penaltyGap]
      split
      · rfl
      · ring

/-- The loop over the characters of a needle finds the places reached. -/
theorem fuzzyLoop_eq (h text p : Text) (cursor : ℕ) (prev : Option ℕ) (m : FuzzyMatch ℤ) :
    Fuzzy.fuzzyLoop h text p cursor prev m =
      if (reached p (h.drop cursor) cursor).length = p.length then
        some ⟨m.score + spread prev (reached p (h.drop cursor) cursor) +
          ((reached p (h.drop cursor) cursor).map (Fuzzy.boundaryBonus text)).sum,
          m.indices ++ reached p (h.drop cursor) cursor⟩
      else none := by
  induction p generalizing cursor prev m with
  | nil => simp [Fuzzy.fuzzyLoop, reached_nil, spread]
  | cons c p ih =>
      rw [Fuzzy.fuzzyLoop, indexOf_singleton, reached_cons]
      cases (h.drop cursor).findIdx? (· == c) with
      | none => rfl
      | some k =>
          simp only [Option.map_some, ih, List.drop_drop, List.length_cons, Nat.succ_inj,
            ← Nat.add_assoc]
          rw [scoreGap_eq, Fuzzy.scoreMatch]
          congr 2
          simp only [spread, List.map_cons, List.sum_cons, List.append_assoc, List.singleton_append]
          congr 1
          ring

/-- The check of the characters around an occurrence. -/
theorem word_iff {p h : Text} {i : ℕ} (hi : Stands p h i) :
    (!(if i = 0 then some ' ' else h[i - 1]?).any Fuzzy.isWordChar &&
      !(if i + p.length ≥ h.length then some ' ' else h[i + p.length]?).any Fuzzy.isWordChar) =
        true ↔ WordAt p h i := by
  have hspace : Fuzzy.isWordChar ' ' = false := by decide
  have hbefore : (if i = 0 then some ' ' else h[i - 1]?).any Fuzzy.isWordChar = false ↔
      i = 0 ∨ (h[i - 1]?).any Fuzzy.isWordChar = false := by
    split
    next heq => simp [heq, hspace]
    next hne => simp [hne]
  have hafter : (if i + p.length ≥ h.length then some ' ' else h[i + p.length]?).any
      Fuzzy.isWordChar = (h[i + p.length]?).any Fuzzy.isWordChar := by
    split
    next hle =>
      rw [List.getElem?_eq_none hle]
      exact hspace
    next => rfl
  rw [Bool.and_eq_true, Bool.not_eq_true', Bool.not_eq_true', hbefore, hafter]
  exact ⟨fun hword => ⟨hi, hword⟩, fun hword => hword.2⟩

/-- The loop over the occurrences finds the first that is a whole word. -/
theorem wordLoop_eq {p h : Text} (hp : p ≠ []) (turns cursor : ℕ)
    (hturns : h.length < cursor + turns) :
    Fuzzy.wordLoop h p turns cursor =
      (first (fun i => cursor ≤ i ∧ WordAt p h i) (h.length + 1)).map fun i =>
        ⟨18 * p.length + 8, List.range' i p.length⟩ := by
  have hstands : ∀ i, WordAt p h i → Stands p h i := fun _ hword => hword.1
  induction turns generalizing cursor with
  | zero =>
      have hnone : first (fun i => cursor ≤ i ∧ WordAt p h i) (h.length + 1) = none :=
        first_eq_none.mpr fun k hk hword => by omega
      rw [hnone]
      rfl
  | succ turns ih =>
      rw [Fuzzy.wordLoop]
      split
      next hle =>
        cases hfound : Fuzzy.indexOf h p cursor with
        | none =>
            rw [firstFrom_eq_none hstands hfound]
            rfl
        | some found =>
            obtain ⟨hlt, ⟨hcursor, hat⟩, -⟩ := first_eq_some.mp hfound
            rw [firstFrom_eq hstands hfound]
            dsimp only
            rcases Decidable.em (WordAt p h found) with hword | hword
            · rw [if_pos ((word_iff hat).mpr hword), if_pos hword]
              rfl
            · rw [if_neg fun h => hword ((word_iff hat).mp h), if_neg hword, ih _ (by omega)]
      next hgt =>
        have hnone : first (fun i => cursor ≤ i ∧ WordAt p h i) (h.length + 1) = none :=
          first_eq_none.mpr fun k hk hword => by
            have := hword.2.1.add_le hp
            omega
        rw [hnone]
        rfl

variable {term text : Text} (caseSensitive : Bool)

/-- The match that a place is for the web app. -/
def Spot.webMatch (text : Text) (s : Spot) : FuzzyMatch ℤ :=
  ⟨s.score (Fuzzy.boundaryBonus text), s.positions⟩

theorem exactMatch_web (hterm : term ≠ []) :
    Fuzzy.exactMatch u term text caseSensitive =
      (exactSpot (Fuzzy.folded u caseSensitive term) (Fuzzy.folded u caseSensitive text)).map
        (Spot.webMatch text) := by
  rw [Fuzzy.exactMatch, if_neg fun h => hterm (List.length_eq_zero_iff.mp h)]
  dsimp only
  rw [indexOf_zero, exactSpot, Option.map_map]
  congr 1
  funext found
  simp only [Function.comp_apply, Spot.webMatch, Spot.score, Fuzzy.scoreMatch,
    Fuzzy.bonusConsecutive, Fuzzy.bonusBoundary, List.map_cons, List.map_nil, List.sum_cons,
    List.sum_nil]
  congr 1
  ring

theorem wordMatch_web (hterm : term ≠ []) (hpattern : Fuzzy.folded u caseSensitive term ≠ []) :
    Fuzzy.wordMatch u term text caseSensitive =
      (wordSpot (Fuzzy.folded u caseSensitive term) (Fuzzy.folded u caseSensitive text)).map
        (Spot.webMatch text) := by
  rw [Fuzzy.wordMatch, if_neg fun h => hterm (List.length_eq_zero_iff.mp h)]
  dsimp only
  rw [wordLoop_eq hpattern _ _ (by omega), wordSpot, Option.map_map]
  have hfirst : first (fun i => 0 ≤ i ∧ WordAt (Fuzzy.folded u caseSensitive term)
      (Fuzzy.folded u caseSensitive text) i) ((Fuzzy.folded u caseSensitive text).length + 1) =
      first (WordAt (Fuzzy.folded u caseSensitive term) (Fuzzy.folded u caseSensitive text))
        ((Fuzzy.folded u caseSensitive text).length + 1) := first_congr fun k => by simp
  rw [hfirst]
  congr 1

theorem fuzzyMatch_web (hterm : term ≠ [])
    (hpattern : (Fuzzy.folded u caseSensitive term).length = term.length)
    (htext : (Fuzzy.folded u caseSensitive text).length = text.length) :
    Fuzzy.fuzzyMatch u term text caseSensitive =
      (fuzzySpot (Fuzzy.folded u caseSensitive term) (Fuzzy.folded u caseSensitive text)).map
        (Spot.webMatch text) := by
  rw [Fuzzy.fuzzyMatch, if_neg fun h => hterm (List.length_eq_zero_iff.mp h), fuzzySpot]
  split
  next hlong =>
    rw [if_neg]
    · rfl
    · intro hlen
      have hsub := ((length_reached_iff _ _ _).mp hlen).length_le
      omega
  next =>
    rw [fuzzyLoop_eq, List.drop_zero]
    split
    next => simp [Spot.webMatch, Spot.score]
    next => rfl

/-- The matcher of the web app finds a term at its place. -/
theorem matchTerm_web (mode : MatchMode) (hterm : Ascii term) (htext : Ascii text) :
    Fuzzy.matchTerm u term text mode caseSensitive =
      (spot mode (Fuzzy.folded u caseSensitive term) (Fuzzy.folded u caseSensitive text)).map
        (Spot.webMatch text) := by
  have hpattern := length_folded u caseSensitive hterm
  rcases Decidable.em (term = []) with rfl | hne
  · have hempty : Fuzzy.folded u caseSensitive [] = [] := List.length_eq_zero_iff.mp hpattern
    unfold spot
    rw [Fuzzy.matchTerm, if_pos hempty]
    cases mode with
    | word => rfl
    | exact => rfl
    | fuzzy => rfl
  · have hp : Fuzzy.folded u caseSensitive term ≠ [] := by
      intro hempty
      rw [hempty] at hpattern
      exact hne (List.length_eq_zero_iff.mp hpattern.symm)
    unfold spot
    rw [Fuzzy.matchTerm, if_neg hp]
    cases mode with
    | word => exact wordMatch_web u caseSensitive hne hp
    | exact =>
        rw [if_neg (by decide), if_pos (.inr rfl)]
        exact exactMatch_web u caseSensitive hne
    | fuzzy =>
        rw [if_neg (by decide), exactMatch_web u caseSensitive hne,
          fuzzyMatch_web u caseSensitive hne hpattern (length_folded u caseSensitive htext)]
        cases exactSpot (Fuzzy.folded u caseSensitive term) (Fuzzy.folded u caseSensitive text) with
        | none => rfl
        | some s => rfl

end Web

end Tactile.Search.Spots

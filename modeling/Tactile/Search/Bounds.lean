import Tactile.Search.Spots

/-!
When the matchers of the desktop app return: the positions of a match in the searched
text that they look up in the original one.
-/

namespace Tactile.Search.Bounds

open Tactile.Lib.Matching Tactile.Lib.Panics
open Tactile.Search.Fuzzy (Text Unicode MatchMode FuzzyMatch)
open Tactile.Search.Engine Tactile.Search.Spots
open scoped List

section Bonus

variable (u : Unicode)

/-- The last position at which a bonus can be looked up. After a lowercase letter or
digit the character at the position is looked up too. -/
def reach (raw : Text) : ℕ :=
  if raw.getLast?.any (fun c => isWordChar c && u.isLowercase c) then raw.length - 1
  else raw.length

def bonusOf (chars : Text) (i : ℕ) : ℤ :=
  if i = 0 then 8
  else if !(chars[i - 1]?).any isWordChar then 8
  else if (chars[i - 1]?).any u.isLowercase && (chars[i]?).any u.isUppercase then 6
  else 0

theorem length_pred_le_reach (raw : Text) : raw.length - 1 ≤ reach u raw := by
  rw [reach]
  split
  · exact le_refl _
  · exact Nat.sub_le _ _

theorem reach_le (raw : Text) : reach u raw ≤ raw.length := by
  rw [reach]
  split
  · exact Nat.sub_le _ _
  · exact le_refl _

/-- The position after the last character is in reach when the last character is not
looked up beside the next. -/
theorem le_reach_iff {raw : Text} {i : ℕ} {prev : Char}
    (hprev : raw[i - 1]? = some prev) :
    i ≤ reach u raw ↔ (isWordChar prev && u.isLowercase prev) = false ∨ i < raw.length := by
  obtain ⟨hlt, -⟩ := List.getElem?_eq_some_iff.mp hprev
  rw [reach, List.getLast?_eq_getElem?]
  rcases Nat.lt_or_ge i raw.length with hin | hend
  · refine ⟨fun _ => .inr hin, fun _ => ?_⟩
    split
    · omega
    · omega
  · have hlast : raw.length - 1 = i - 1 := by omega
    rw [hlast, hprev, Option.any_some]
    split
    next hword =>
      rw [hword]
      simp only [Bool.true_eq_false, false_or]
      omega
    next hword =>
      rw [Bool.not_eq_true] at hword
      rw [hword]
      simp only [true_or, iff_true]
      omega

theorem returns_boundaryBonus (raw : Text) (i : ℕ) :
    Returns (boundaryBonus u raw i) (i ≤ reach u raw) (Int32.ofInt (bonusOf u raw i)) := by
  rw [boundaryBonus, bonusOf]
  split
  next hzero => exact (returns_pure bonusBoundary).iff (by simp [hzero])
  next hi =>
    cases hprev : raw[i - 1]? with
    | none =>
        have hlen := List.getElem?_eq_none_iff.mp hprev
        have hreach := reach_le u raw
        refine ⟨fun h => by omega, fun _ => ⟨.index (i - 1) raw.length, ?_⟩⟩
        rw [index, hprev]
        rfl
    | some prev =>
        rw [index, hprev]
        refine Returns.iff ?_ (le_reach_iff u hprev).symm
        change Returns (if !isWordChar prev then pure bonusBoundary
          else if u.isLowercase prev then index raw i >>= fun c =>
            pure (if u.isUppercase c then bonusCamel else 0) else pure 0) _ _
        cases hword : isWordChar prev with
        | false =>
            simp only [Option.any_some, hword, Bool.not_false, if_true, Bool.false_and, true_or]
            exact returns_pure bonusBoundary
        | true =>
            cases hlower : u.isLowercase prev with
            | false =>
                simp only [Option.any_some, hword, hlower, Bool.not_true, if_false, Bool.false_and,
                  Bool.and_false, true_or, Bool.false_eq_true]
                exact returns_pure 0
            | true =>
                simp only [Option.any_some, hword, hlower, Bool.not_true, if_false, if_true,
                  Bool.true_and, Bool.and_true, false_or, Bool.false_eq_true, Bool.true_eq_false]
                cases hnext : raw[i]? with
                | none =>
                    have hlen := List.getElem?_eq_none_iff.mp hnext
                    refine ⟨fun h => by omega, fun _ => ⟨.index i raw.length, ?_⟩⟩
                    rw [index, hnext]
                    rfl
                | some c =>
                    have hlen := (List.getElem?_eq_some_iff.mp hnext).1
                    have hvalue : Int32.ofInt (if (some c).any u.isUppercase then 6 else 0) =
                        if u.isUppercase c then bonusCamel else 0 := by
                      rw [Option.any_some]
                      split
                      · rfl
                      · rfl
                    rw [hvalue]
                    refine ⟨fun _ => ?_, fun h => absurd hlen h⟩
                    rw [index, hnext]
                    rfl

end Bonus

section Loops

variable (u : Unicode) {p h : Text}

/-- A slice within bounds. -/
theorem slice_ok {α : Type} {l : List α} {start stop : ℕ} (hle : start ≤ stop)
    (hstop : stop ≤ l.length) : slice l start stop = .ok ((l.drop start).take (stop - start)) :=
  (returns_slice l start stop).1 ⟨hle, hstop⟩

theorem window_eq_iff (p h : Text) (start : ℕ) :
    (h.drop start).take (start + p.length - start) = p ↔ Stands p h start := by
  rw [Nat.add_sub_cancel_left, Stands, List.prefix_iff_eq_take, eq_comm]

/-- The match that a place is for the desktop app. -/
def Spot.desktopMatch (raw : Text) (s : Spot) : FuzzyMatch Int32 :=
  ⟨Int32.ofInt (s.score (bonusOf u raw)), s.positions⟩

theorem exactScore_eq (n : ℕ) (bonus : ℤ) :
    (scoreMatch + bonusConsecutive) * Int32.ofNat n + Int32.ofInt bonus + bonusBoundary =
      Int32.ofInt (18 * n + 8 + (bonus + 0)) := by
  have hsum : (18 * n + 8 + (bonus + 0) : ℤ) = 18 * n + bonus + 8 := by ring
  rw [hsum, Int32.ofInt_add, Int32.ofInt_add, Int32.ofInt_mul, Int32.ofInt_eq_ofNat]
  rfl

/-- The loop over the starts of a literal substring. -/
theorem returns_exactLoop (raw : Text) (starts : List ℕ)
    (hstarts : ∀ i ∈ starts, i + p.length ≤ h.length) :
    Returns (exactLoop u h raw p starts)
      (∀ i ∈ starts.find? fun i => decide (Stands p h i), i ≤ reach u raw)
      ((starts.find? fun i => decide (Stands p h i)).map fun i =>
        Spot.desktopMatch u raw ⟨18 * p.length + 8, List.range' i p.length, [i]⟩) := by
  induction starts with
  | nil => exact (returns_pure none).iff (by simp)
  | cons start starts ih =>
      have hstart := hstarts start List.mem_cons_self
      rw [exactLoop, slice_ok (Nat.le_add_right _ _) hstart]
      change Returns (if _ = p then _ else _) _ _
      rcases Decidable.em (Stands p h start) with hstands | hstands
      · have hfind : List.find? (fun i => decide (Stands p h i)) (start :: starts) = some start :=
          List.find?_cons_of_pos (decide_eq_true hstands)
        rw [if_pos ((window_eq_iff p h start).mpr hstands), hfind]
        have hbonus := (returns_boundaryBonus u raw start).map fun bonus =>
          some (⟨(scoreMatch + bonusConsecutive) * Int32.ofNat p.length + bonus + bonusBoundary,
            List.range' start p.length⟩ : FuzzyMatch Int32)
        rw [exactScore_eq] at hbonus
        exact hbonus.iff (by simp)
      · rw [if_neg fun heq => hstands ((window_eq_iff p h start).mp heq),
          List.find?_cons_of_neg (by simpa using hstands)]
        exact ih fun i hi => hstarts i (List.mem_cons_of_mem _ hi)

theorem isLower_iff (c : Char) : c.isLower = true ↔ 'a' ≤ c ∧ c ≤ 'z' := by
  change (decide ('a' ≤ c) && decide (c ≤ 'z')) = true ↔ _
  rw [Bool.and_eq_true, decide_eq_true_iff, decide_eq_true_iff]

theorem isDigit_iff (c : Char) : c.isDigit = true ↔ '0' ≤ c ∧ c ≤ '9' := by
  change (decide ('0' ≤ c) && decide (c ≤ '9')) = true ↔ _
  rw [Bool.and_eq_true, decide_eq_true_iff, decide_eq_true_iff]

theorem isUpper_iff (c : Char) : c.isUpper = true ↔ 'A' ≤ c ∧ c ≤ 'Z' := decide_eq_true_iff

theorem isWordChar_eq (c : Char) : isWordChar c = Fuzzy.isWordChar c := by
  rw [Bool.eq_iff_iff, Fuzzy.isWordChar]
  change (c.isUpper || c.isLower || c.isDigit) = true ↔ _
  simp only [Bool.or_eq_true, Bool.and_eq_true, decide_eq_true_iff, isUpper_iff, isLower_iff,
    isDigit_iff]
  rw [or_comm (a := 'A' ≤ c ∧ c ≤ 'Z')]

theorem beforeOk_eq {start : ℕ} (hstart : start ≤ h.length) :
    beforeOk h start = .ok (decide (start = 0) || !(h[start - 1]?).any Fuzzy.isWordChar) := by
  rw [beforeOk]
  split
  next hzero =>
    rw [decide_eq_true hzero]
    rfl
  next hzero =>
    have hlt : start - 1 < h.length := by omega
    rw [decide_eq_false hzero, index, List.getElem?_eq_getElem hlt, Bool.false_or, Option.any_some,
      ← isWordChar_eq]
    rfl

theorem afterOk_eq (stop : ℕ) : afterOk h stop = .ok !(h[stop]?).any Fuzzy.isWordChar := by
  rw [afterOk]
  split
  next hge =>
    rw [List.getElem?_eq_none hge]
    rfl
  next hlt =>
    rw [index, List.getElem?_eq_getElem (Nat.lt_of_not_le hlt), Option.any_some, ← isWordChar_eq]
    rfl

theorem wordScore_eq (n : ℕ) :
    (scoreMatch + bonusConsecutive) * Int32.ofNat n + bonusBoundary =
      Int32.ofInt (18 * n + 8 + 0) := by
  rw [add_zero, Int32.ofInt_add, Int32.ofInt_mul, Int32.ofInt_eq_ofNat]
  rfl

/-- The loop over the starts of a whole word. -/
theorem returns_wordLoop (starts : List ℕ)
    (hstarts : ∀ i ∈ starts, i + p.length ≤ h.length) (raw : Text) :
    Returns (wordLoop h p starts) True
      ((starts.find? fun i => decide (WordAt p h i)).map fun i =>
        Spot.desktopMatch u raw ⟨18 * p.length + 8, List.range' i p.length, []⟩) := by
  induction starts with
  | nil => exact returns_pure none
  | cons start starts ih =>
      have hstart := hstarts start List.mem_cons_self
      rw [wordLoop, slice_ok (Nat.le_add_right _ _) hstart]
      change Returns (if _ = p then _ else _) _ _
      rcases Decidable.em (Stands p h start) with hstands | hstands
      · rw [if_pos ((window_eq_iff p h start).mpr hstands), beforeOk_eq (by omega), afterOk_eq]
        change Returns (if (decide (start = 0) || !(h[start - 1]?).any Fuzzy.isWordChar) &&
          !(h[start + p.length]?).any Fuzzy.isWordChar then _ else _) _ _
        have hiff : ((decide (start = 0) || !(h[start - 1]?).any Fuzzy.isWordChar) &&
            !(h[start + p.length]?).any Fuzzy.isWordChar) = true ↔ WordAt p h start := by
          simp [WordAt, hstands]
        rcases Decidable.em (WordAt p h start) with hword | hword
        · have hfind : List.find? (fun i => decide (WordAt p h i)) (start :: starts) =
              some start := List.find?_cons_of_pos (decide_eq_true hword)
          rw [if_pos (hiff.mpr hword), hfind]
          rw [wordScore_eq]
          exact returns_pure _
        · rw [if_neg fun h => hword (hiff.mp h), List.find?_cons_of_neg (by simpa using hword)]
          exact ih fun i hi => hstarts i (List.mem_cons_of_mem _ hi)
      · rw [if_neg fun heq => hstands ((window_eq_iff p h start).mp heq),
          List.find?_cons_of_neg (by simpa using fun hword : WordAt p h start => hstands hword.1)]
        exact ih fun i hi => hstarts i (List.mem_cons_of_mem _ hi)

theorem scoreGap_desktop (z : ℤ) (found : ℕ) (prev : Option ℕ) (hprev : ∀ q ∈ prev, q < found) :
    scoreGap (Int32.ofInt z) found prev = Int32.ofInt (z + gap prev found) := by
  cases prev with
  | none => exact congrArg Int32.ofInt (add_zero z).symm
  | some q =>
      have hlt := hprev q rfl
      rw [scoreGap, gap]
      split
      · exact (Int32.ofInt_add z 8).symm
      · have hcast : ((found : ℤ) - q - 1) = ((found - q - 1 : ℕ) : ℤ) := by omega
        rw [hcast, ← sub_eq_add_neg, Int32.ofInt_sub, Int32.ofInt_eq_ofNat, penaltyGap,
          Int32.mul_one]

/-- The loop over the characters of the pattern looks up every place reached. -/
theorem returns_fuzzyLoop (raw p : Text) (cursor : ℕ) (prev : Option ℕ) (z : ℤ) (l : List ℕ)
    (hcursor : cursor ≤ h.length) (hprev : ∀ q ∈ prev, q < cursor) :
    Returns (fuzzyLoop u h raw p cursor prev ⟨Int32.ofInt z, l⟩)
      (∀ i ∈ reached p (h.drop cursor) cursor, i ≤ reach u raw)
      (if (reached p (h.drop cursor) cursor).length = p.length then
        some ⟨Int32.ofInt (z + spread prev (reached p (h.drop cursor) cursor) +
          ((reached p (h.drop cursor) cursor).map (bonusOf u raw)).sum),
          l ++ reached p (h.drop cursor) cursor⟩
      else none) := by
  induction p generalizing cursor prev z l with
  | nil =>
      simp only [fuzzyLoop, reached_nil, spread, List.length_nil, if_true, List.map_nil,
        List.sum_nil, add_zero, List.append_nil]
      exact (returns_pure _).iff (by simp)
  | cons c p ih =>
      have hrest : (h.drop cursor).take (h.length - cursor) = h.drop cursor :=
        List.take_of_length_le (by rw [List.length_drop])
      rw [fuzzyLoop, slice_ok hcursor (le_refl _), hrest, reached_cons]
      dsimp only [bind, Except.bind]
      cases hidx : (h.drop cursor).findIdx? (· == c) with
      | none => exact (returns_pure none).iff (by simp)
      | some k =>
          have hk := (List.getElem?_eq_some_iff.mp (findIdx_eq_some.mp hidx).1).1
          rw [List.length_drop] at hk
          have hbonus := returns_boundaryBonus u raw (cursor + k)
          have hnext := ih (cursor + k + 1) (some (cursor + k))
            (z + (10 + bonusOf u raw (cursor + k)) + gap prev (cursor + k)) (l ++ [cursor + k])
            (by omega) (fun q hq => by cases hq; omega)
          have hscore : scoreGap (Int32.ofInt z + (scoreMatch + Int32.ofInt
              (bonusOf u raw (cursor + k)))) (cursor + k) prev =
              Int32.ofInt (z + (10 + bonusOf u raw (cursor + k)) + gap prev (cursor + k)) := by
            rw [← scoreGap_desktop _ _ _ fun q hq => by have := hprev q hq; omega, Int32.ofInt_add,
              Int32.ofInt_add]
            rfl
          have hall := hbonus.bind (f := fun bonus => fuzzyLoop u h raw p (cursor + k + 1)
            (some (cursor + k)) ⟨scoreGap (Int32.ofInt z + (scoreMatch + bonus)) (cursor + k) prev,
              l ++ [cursor + k]⟩) (fun _ => by rw [hscore]; exact hnext)
          have hvalue : ∀ r : List ℕ,
              z + (10 + bonusOf u raw (cursor + k)) + gap prev (cursor + k) +
                spread (some (cursor + k)) r + (r.map (bonusOf u raw)).sum =
              z + spread prev ((cursor + k) :: r) +
                (((cursor + k) :: r).map (bonusOf u raw)).sum := by
            intro r
            rw [spread, List.map_cons, List.sum_cons]
            ring
          simp only [hvalue, List.append_assoc, List.singleton_append] at hall
          simp only [List.drop_drop, ← Nat.add_assoc, List.length_cons, Nat.succ_inj,
            List.forall_mem_cons]
          exact hall

end Loops

section Matchers

variable (u : Unicode) (caseSensitive : Bool) {p : Text}

/-- The positions at which a match of the pattern asks for a bonus. -/
def asked (mode : MatchMode) (p h : Text) : List ℕ :=
  if p = [] then []
  else match mode with
    | .word => []
    | .exact => (occurrence p h).toList
    | .fuzzy =>
      match occurrence p h with
      | some i => [i]
      | none => if p.length ≤ h.length then reached p h 0 else []

theorem range_starts {h : Text} (hle : p.length ≤ h.length) :
    ∀ i ∈ List.range (h.length - p.length + 1), i + p.length ≤ h.length := by
  intro i hi
  rw [List.mem_range] at hi
  omega

/-- What stands in a text stands at one of the starts. -/
theorem first_starts {P : ℕ → Prop} [DecidablePred P] {h : Text} (hp : p ≠ [])
    (hP : ∀ i, P i → Stands p h i) :
    first P (h.length - p.length + 1) = first P (h.length + 1) := by
  apply first_congr
  intro k
  constructor
  · rintro ⟨hk, hPk⟩
    exact ⟨by omega, hPk⟩
  · rintro ⟨hk, hPk⟩
    have := (hP k hPk).add_le hp
    exact ⟨by omega, hPk⟩

theorem first_long {P : ℕ → Prop} [DecidablePred P] {h : Text} (hp : p ≠ [])
    (hP : ∀ i, P i → Stands p h i) (hlong : p.length > h.length) :
    first P (h.length + 1) = none := by
  refine first_eq_none.mpr fun k hk hPk => ?_
  have := (hP k hPk).add_le hp
  omega

theorem returns_exactMatch (hp : p ≠ []) (text : Text) :
    Returns (exactMatch u p text caseSensitive)
      (∀ i ∈ occurrence p (toChars u text caseSensitive), i ≤ reach u text)
      ((exactSpot p (toChars u text caseSensitive)).map (Spot.desktopMatch u text)) := by
  rw [exactMatch, if_neg hp, exactSpot, occurrence]
  dsimp only
  split
  next hlong =>
    rw [first_long hp (fun _ h => h) hlong]
    exact (returns_pure none).iff (by simp)
  next hle =>
    have hloop := returns_exactLoop (p := p) u text _ (range_starts (Nat.le_of_not_lt hle))
    rw [← first_starts hp (fun _ h => h), Option.map_map]
    exact hloop

theorem returns_wordMatch (hp : p ≠ []) (text : Text) :
    Returns (wordMatch u p text caseSensitive) True
      ((wordSpot p (toChars u text caseSensitive)).map (Spot.desktopMatch u text)) := by
  rw [wordMatch, if_neg hp, wordSpot]
  dsimp only
  split
  next hlong =>
    rw [first_long hp (fun _ h => h.1) hlong]
    exact returns_pure none
  next hle =>
    have hloop := returns_wordLoop (p := p) u _ (range_starts (Nat.le_of_not_lt hle)) text
    rw [← first_starts hp (fun _ h => h.1), Option.map_map]
    exact hloop

theorem returns_fuzzyMatch (hp : p ≠ []) (text : Text) :
    Returns (fuzzyMatch u p text caseSensitive)
      (p.length ≤ (toChars u text caseSensitive).length →
        ∀ i ∈ reached p (toChars u text caseSensitive) 0, i ≤ reach u text)
      ((fuzzySpot p (toChars u text caseSensitive)).map (Spot.desktopMatch u text)) := by
  rw [fuzzyMatch, if_neg hp, fuzzySpot]
  dsimp only
  split
  next hlong =>
    rw [if_neg]
    · exact (returns_pure none).iff (by simp [Nat.not_le.mpr hlong])
    · intro hlen
      have hsub := ((length_reached_iff _ _ _).mp hlen).length_le
      omega
  next hle =>
    have hloop := returns_fuzzyLoop u text p 0 none 0 [] (Nat.zero_le
      (toChars u text caseSensitive).length) (fun _ hq => by cases hq)
    rw [List.drop_zero] at hloop
    have hvalue : (if (reached p (toChars u text caseSensitive) 0).length = p.length then
        some (⟨Int32.ofInt (0 + spread none (reached p (toChars u text caseSensitive) 0) +
          ((reached p (toChars u text caseSensitive) 0).map (bonusOf u text)).sum),
          [] ++ reached p (toChars u text caseSensitive) 0⟩ : FuzzyMatch Int32) else none) =
        Option.map (Spot.desktopMatch u text) (if
          (reached p (toChars u text caseSensitive) 0).length = p.length then some ⟨spread none (reached p (toChars u text caseSensitive) 0),
          reached p (toChars u text caseSensitive) 0, reached p (toChars u text caseSensitive) 0⟩
          else none) := by
      split
      · simp [Spot.desktopMatch, Spot.score]
      · rfl
    rw [hvalue] at hloop
    exact hloop.iff (by simp [Nat.le_of_not_lt hle])

/-- The matcher of the desktop app finds a term at its place, and panics when it asks for
a bonus out of reach. -/
theorem returns_matchTerm (mode : MatchMode) (term text : Text) :
    Returns (matchTerm u term text mode caseSensitive)
      (∀ i ∈ asked mode (toChars u term caseSensitive) (toChars u text caseSensitive),
        i ≤ reach u text)
      ((spot mode (toChars u term caseSensitive) (toChars u text caseSensitive)).map
        (Spot.desktopMatch u text)) := by
  generalize hh : toChars u text caseSensitive = h
  unfold matchTerm
  generalize toChars u term caseSensitive = p
  dsimp only
  unfold spot asked
  rcases Decidable.em (p = []) with hempty | hp
  · rw [if_pos hempty, if_pos hempty, hempty]
    have hnothing : some (Spot.desktopMatch u text ⟨0, [], []⟩) = some ⟨0, []⟩ := rfl
    rw [Option.map_some, hnothing]
    cases mode with
    | word => exact (returns_pure _).iff (by simp)
    | exact => exact (returns_pure _).iff (by simp)
    | fuzzy => exact (returns_pure _).iff (by simp)
  · rw [if_neg hp, if_neg hp]
    cases mode with
    | word => exact hh ▸ (returns_wordMatch u caseSensitive hp text).iff (by simp)
    | exact =>
        have hexact := returns_exactMatch u caseSensitive hp text
        rw [hh] at hexact
        exact hexact.iff (by simp)
    | fuzzy =>
        have hexact := returns_exactMatch u caseSensitive hp text
        have hfuzzy := returns_fuzzyMatch u caseSensitive hp text
        rw [hh] at hexact hfuzzy
        change Returns _ _ (((exactSpot p h).or (fuzzySpot p h)).map (Spot.desktopMatch u text))
        rw [exactSpot] at hexact ⊢
        cases hocc : occurrence p h with
        | none =>
            rw [hocc] at hexact
            refine hexact.bind_safe (by simp) (hfuzzy.iff ?_)
            dsimp only
            split
            next hle => exact ⟨fun h => h hle, fun h _ => h⟩
            next hgt => exact ⟨fun _ => by simp, fun _ hle => absurd hle hgt⟩
        | some i =>
            rw [hocc] at hexact
            refine Returns.iff (Returns.bind_ok hexact rfl) ?_
            simp

end Matchers

end Tactile.Search.Bounds

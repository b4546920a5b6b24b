import Tactile.Search.WebRows

/-!
When the two apps answer a search in an ASCII file alike: they tell capitals after
lowercase letters apart from other characters, they differ on positions that two terms
share, and they cut the lines around a hit in their own ways.
-/

namespace Tactile.Search.Agreement

open Tactile.Lib.Matching Tactile.Lib.Panics
open Tactile.Search.Fuzzy (Text Unicode MatchMode FuzzyMatch SearchResult FileResult)
open Tactile.Search.Engine Tactile.Search.Spots Tactile.Search.Bounds Tactile.Search.Rows
open Tactile.Search.Safety Tactile.Search.Lines Tactile.Search.Ascii Tactile.Search.WebRows
open scoped List

section Scores

/-- The integers that a 32-bit score can be. -/
def InInt32 (z : ℤ) : Prop := -2 ^ 31 ≤ z ∧ z < 2 ^ 31

instance (z : ℤ) : Decidable (InInt32 z) := inferInstanceAs (Decidable (_ ∧ _))

theorem inInt32_toInt (a : Int32) : InInt32 a.toInt := ⟨a.le_toInt, a.toInt_lt⟩

theorem toInt_ofInt_iff (z : ℤ) : (Int32.ofInt z).toInt = z ↔ InInt32 z := by
  constructor
  · intro heq
    rw [← heq]
    exact inInt32_toInt _
  · intro hin
    exact Int32.toInt_ofInt_of_le hin.1 hin.2

/-- A score of 32 bits is a larger score when it wraps the difference away. -/
theorem toInt_ofInt_eq_iff (z : ℤ) (k : ℕ) :
    (Int32.ofInt z).toInt = z + 6 * k ↔ InInt32 (z + 6 * k) ∧ 2 ^ 31 ∣ k := by
  constructor
  · intro heq
    have hin : InInt32 (z + 6 * k) := by
      rw [← heq]
      exact inInt32_toInt _
    have hdvd := Int.dvd_bmod_sub_self (x := z) (m := Int32.size)
    rw [← Int32.toInt_ofInt, heq, add_sub_cancel_left] at hdvd
    have hnat : 2 * 2 ^ 31 ∣ 2 * (3 * k) := by
      rw [← Nat.mul_assoc]
      exact_mod_cast hdvd
    have hthree := Nat.dvd_of_mul_dvd_mul_left (by decide) hnat
    exact ⟨hin, Nat.Coprime.dvd_of_dvd_mul_left (by decide) hthree⟩
  · rintro ⟨hin, j, rfl⟩
    have hwrap : z + 6 * ((2 ^ 31 * j : ℕ) : ℤ) = z + Int32.size * (3 * j) := by
      push_cast
      ring
    rw [← (toInt_ofInt_iff _).mpr hin, hwrap, Int32.toInt_ofInt, Int32.toInt_ofInt,
      Int.add_mul_bmod_self_left]

/-- A character that is no letter, after a lowercase letter. -/
def Camel (text : Text) (i : ℕ) : Prop :=
  i ≠ 0 ∧ (text[i - 1]?).any Char.isLower ∧ (text[i]?).any Char.isAlpha = false

instance (text : Text) : DecidablePred (Camel text) :=
  fun _ => inferInstanceAs (Decidable (_ ∧ _ ∧ _))

theorem isLower_eq (c : Char) : Fuzzy.isLower c = c.isLower := by
  rw [Bool.eq_iff_iff, Fuzzy.isLower, isLower_iff, Bool.and_eq_true, decide_eq_true_iff,
    decide_eq_true_iff]

theorem isWordChar_of_isLower {c : Char} (hc : c.isLower) : Fuzzy.isWordChar c := by
  rw [Fuzzy.isWordChar, ← Fuzzy.isLower, isLower_eq, hc]
  rfl

/-- The bonus of the web app is the larger one at a character that is no letter. -/
theorem boundaryBonus_eq (u : Unicode) {text : Text} (htext : Ascii text) (i : ℕ) :
    Fuzzy.boundaryBonus text i = bonusOf u text i + if Camel text i then 6 else 0 := by
  have hlower : ∀ j : ℕ, (text[j]?).any u.isLowercase = (text[j]?).any Char.isLower := by
    intro j
    cases hj : text[j]? with
    | none => rfl
    | some c => exact u.isLowercase_ascii c (htext c (List.mem_of_getElem? hj))
  have hupper : ∀ j : ℕ, (text[j]?).any u.isUppercase = (text[j]?).any Char.isUpper := by
    intro j
    cases hj : text[j]? with
    | none => rfl
    | some c => exact u.isUppercase_ascii c (htext c (List.mem_of_getElem? hj))
  have heq : Fuzzy.isLower = Char.isLower := funext isLower_eq
  have hword : isWordChar = Fuzzy.isWordChar := funext isWordChar_eq
  rw [Fuzzy.boundaryBonus, bonusOf, hlower, hupper, heq, hword]
  split
  next hzero => simp [hzero, Camel, Fuzzy.bonusBoundary]
  next hi =>
    split
    next hword =>
      have hprev : (text[i - 1]?).any Char.isLower = false := by
        cases hc : text[i - 1]? with
        | none => rfl
        | some c =>
            rw [hc, Option.any_some, Bool.not_eq_true'] at hword
            rw [Option.any_some, ← Bool.not_eq_true]
            intro hlow
            rw [isWordChar_of_isLower hlow] at hword
            cases hword
      simp [hprev, Camel, Fuzzy.bonusBoundary]
    next hword =>
      cases hprev : (text[i - 1]?).any Char.isLower with
      | false => simp [hprev, Camel]
      | true =>
          cases hc : text[i]? with
          | none => simp [hi, hc, hprev, Camel, Fuzzy.bonusCamel]
          | some c =>
              have hcamel : Camel text i ↔ (c.isUpper || c.isLower) = false := by
                have halpha : c.isAlpha = (c.isUpper || c.isLower) := rfl
                rw [Camel, hprev, hc, Option.any_some, halpha]
                simp [hi]
              simp only [hcamel, Option.any_some, Fuzzy.bonusCamel]
              have hboth : ¬ (c.isLower ∧ c.isUpper) := by
                rw [isLower_iff, isUpper_iff]
                rintro ⟨hlow, hhigh⟩
                exact absurd (Char.le_trans hlow.1 hhigh.2) (by decide)
              rcases Bool.eq_false_or_eq_true c.isLower with hl | hl
              · have hu : c.isUpper = false := by
                  rw [← Bool.not_eq_true]
                  exact fun hu => hboth ⟨hl, hu⟩
                simp [hl, hu]
              · rcases Bool.eq_false_or_eq_true c.isUpper with hu | hu
                · simp [hl, hu]
                · simp [hl, hu]

/-- How many bonuses the web app gives at characters that are no letters. -/
def camels (text : Text) (ss : List Spot) : ℕ :=
  (ss.flatMap Spot.bonuses).countP fun i => decide (Camel text i)

theorem sum_boundaryBonus (u : Unicode) {text : Text} (htext : Ascii text) (l : List ℕ) :
    (l.map (Fuzzy.boundaryBonus text)).sum =
      (l.map (bonusOf u text)).sum + 6 * (l.countP fun i => decide (Camel text i) : ℕ) := by
  induction l with
  | nil => rfl
  | cons i l ih =>
      rw [List.map_cons, List.sum_cons, ih, boundaryBonus_eq u htext, List.map_cons, List.sum_cons,
        List.countP_cons]
      split
      next hcamel =>
        rw [if_pos (by simpa using hcamel)]
        push_cast
        ring
      next hcamel =>
        rw [if_neg (by simpa using hcamel)]
        push_cast
        ring

theorem scores_web (u : Unicode) {text : Text} (htext : Ascii text) (ss : List Spot) :
    scores (Fuzzy.boundaryBonus text) ss = scores (bonusOf u text) ss + 6 * camels text ss := by
  induction ss with
  | nil => rfl
  | cons s ss ih =>
      rw [scores_cons, scores_cons, ih, Spot.score, Spot.score, sum_boundaryBonus u htext, camels,
        camels, List.flatMap_cons, List.countP_append]
      push_cast
      ring

/-- The scores are alike when the web app's is one of 32 bits, and gives no bonus at a
character that is no letter. -/
theorem score_iff (u : Unicode) {text : Text} (htext : Ascii text) (ss : List Spot) :
    (matchOf u text ss).score.toInt = (webMatchOf text ss).score ↔
      InInt32 (scores (Fuzzy.boundaryBonus text) ss) ∧ 2 ^ 31 ∣ camels text ss := by
  rw [matchOf, webMatchOf, scores_web u htext]
  exact toInt_ofInt_eq_iff _ _

end Scores

section Ranges

/-- Ranges as the web app has them. -/
def exportedRange (r : UInt32 × UInt32) : ℕ × ℕ := (r.1.toNat, r.2.toNat)

/-- The offset of a position in an ASCII text is the position itself. -/
theorem getD_charToUtf16 {text : Text} (htext : Ascii text) (n : UInt32) {i : ℕ}
    (hi : i ≤ text.length) : (charToUtf16 text n).getD i 0 = n + UInt32.ofNat i := by
  induction text generalizing n i with
  | nil =>
      cases Nat.le_zero.mp hi
      exact (UInt32.add_zero n).symm
  | cons c text ih =>
      cases i with
      | zero => exact (UInt32.add_zero n).symm
      | succ i =>
          rw [Ascii, List.forall_mem_cons] at htext
          have hone : lenUtf16 c = 1 := if_pos (by omega)
          rw [charToUtf16, List.getD_cons_succ, ih htext.2 (n + lenUtf16 c) (by simpa using hi),
            hone, UInt32.add_assoc, Nat.add_comm i 1, UInt32.ofNat_add]
          rfl

theorem exported_offsetAt {text : Text} (htext : Ascii text) {r : ℕ × ℕ} (hr : r.1 < r.2)
    (hle : r.2 ≤ text.length) :
    exportedRange (offsetAt (charToUtf16 text 0) r) = (r.1 % 2 ^ 32, r.2 % 2 ^ 32) := by
  rw [exportedRange, offsetAt, getD_charToUtf16 htext 0 (by omega), getD_charToUtf16 htext 0 hle,
    UInt32.zero_add, UInt32.zero_add, UInt32.toNat_ofNat', UInt32.toNat_ofNat']

/-- The ranges of the two apps are alike when no index stands twice and all are offsets
of 32 bits. -/
theorem ranges_iff {text : Text} (htext : Ascii text) (indices : List ℕ)
    (hlt : ∀ x ∈ indices, x < text.length) :
    ((rangesOf indices.dedup.mergeSort).map (offsetAt (charToUtf16 text 0))).map exportedRange =
        Fuzzy.toHighlightRanges indices ↔
      indices.Nodup ∧ ∀ x ∈ indices, x + 1 < 2 ^ 32 := by
  have hmem : ∀ x, x ∈ indices.dedup.mergeSort ↔ x ∈ indices :=
    fun x => List.mem_mergeSort.trans List.mem_dedup
  have hin : ∀ r ∈ rangesOf indices.dedup.mergeSort, r.2 < text.length + 1 := by
    rw [rangesOf_within]
    intro x hx
    exact Nat.succ_lt_succ (hlt x ((hmem x).mp hx))
  have hexport : ((rangesOf indices.dedup.mergeSort).map (offsetAt (charToUtf16 text 0))).map
      exportedRange =
      (rangesOf indices.dedup.mergeSort).map fun r => (r.1 % 2 ^ 32, r.2 % 2 ^ 32) := by
    rw [List.map_map]
    refine List.map_congr_left fun r hr => ?_
    exact exported_offsetAt htext (rangesOf_lt _ r hr) (Nat.le_of_lt_succ (hin r hr))
  have hsmall : (∀ x ∈ indices, x + 1 < 2 ^ 32) →
      (rangesOf indices.dedup.mergeSort).map (fun r => (r.1 % 2 ^ 32, r.2 % 2 ^ 32)) =
        rangesOf indices.dedup.mergeSort := by
    intro hall
    have hwithin := (rangesOf_within indices.dedup.mergeSort (2 ^ 32)).mpr
      fun x hx => hall x ((hmem x).mp hx)
    refine (List.map_congr_left fun r hr => ?_).trans (List.map_id _)
    have h₂ := hwithin r hr
    have h₁ := rangesOf_lt _ r hr
    rw [Nat.mod_eq_of_lt h₂, Nat.mod_eq_of_lt (h₁.trans h₂)]
    rfl
  rw [hexport, toHighlightRanges_eq]
  constructor
  · intro heq
    have hall : ∀ x ∈ indices, x + 1 < 2 ^ 32 := by
      intro x hx
      refine (rangesOf_within indices.mergeSort (2 ^ 32)).mp (fun r hr => ?_) x
        (List.mem_mergeSort.mpr hx)
      rw [← heq] at hr
      obtain ⟨r', -, rfl⟩ := List.mem_map.mp hr
      exact Nat.mod_lt _ (by decide)
    rw [hsmall hall] at heq
    have hsum := sum_rangesOf indices.dedup.mergeSort
    rw [heq, sum_rangesOf, List.length_mergeSort, List.length_mergeSort] at hsum
    refine ⟨?_, hall⟩
    rw [← List.dedup_eq_self]
    exact (List.dedup_sublist indices).eq_of_length hsum.symm
  · rintro ⟨hnodup, hall⟩
    rw [hsmall hall, hnodup.dedup]

end Ranges

section Rows

/-- A row as the web app has it. -/
def exported (row : SearchResult Int32 UInt32) : SearchResult ℤ ℕ :=
  ⟨row.path, row.kind, row.line, row.preview, row.score.toInt, row.highlights.map exportedRange⟩

/-- An answer as the web app has it. -/
def exportedFile (file : FileResult Int32 UInt32) : FileResult ℤ ℕ :=
  ⟨file.results.map exported, file.score.toInt⟩

/-- The matches in a text rank alike: no bonus place is a character that is no letter after
a lowercase letter (or so many are that 32 bits wrap), no position is found twice, and
the score and the offsets fit 32 bits. -/
structure Level (text : Text) (shift : ℕ) (ss : List Spot) : Prop where
  camels : 2 ^ 31 ∣ camels text ss
  once : (positions ss).Nodup
  score : InInt32 (scores (Fuzzy.boundaryBonus text) ss)
  offsets : ∀ x ∈ positions ss, x + shift + 1 < 2 ^ 32

variable {js rs : Unicode} {mode : MatchMode} {caseSensitive : Bool} {terms : List Text}

/-- The rows of a file name are alike when its matches rank alike. -/
theorem nameRow_iff {path : Text} {ss : List Spot} (hname : Ascii (Fuzzy.baseName path))
    (hss : spotsOf rs mode caseSensitive terms (Fuzzy.baseName path) = some ss) :
    exported (nameRow rs path (Fuzzy.baseName path) ss) = webNameRow path ss ↔
      Level (Fuzzy.baseName path) 0 ss := by
  have hscore := score_iff rs hname ss
  have hranges := ranges_iff hname (positions ss) (spotsOf_lt hname hss)
  rw [exported, nameRow, webNameRow, SearchResult.mk.injEq]
  simp only [true_and]
  rw [hscore, hranges]
  constructor
  · rintro ⟨⟨hin, hcamels⟩, honce, hoffsets⟩
    exact ⟨hcamels, honce, hin, hoffsets⟩
  · intro hlevel
    exact ⟨⟨hlevel.score, hlevel.camels⟩, hlevel.once, hlevel.offsets⟩

theorem ascii_joinLines {lines : List Text} (hlines : ∀ line ∈ lines, Ascii line) :
    Ascii (joinLines lines) := by
  rw [joinLines]
  induction lines with
  | nil => exact fun _ hc => by cases hc
  | cons line rest ih =>
      rw [List.forall_mem_cons] at hlines
      cases rest with
      | nil =>
          rw [List.intercalate_singleton]
          exact hlines.1
      | cons next rest =>
          rw [List.intercalate_cons_cons, ascii_append, ascii_append]
          have hnewline : Ascii ['\n'] := by simp [Ascii]
          exact ⟨⟨hlines.1, hnewline⟩, ih hlines.2⟩

/-- The rows of a hit in lines that stand in the same window are alike when its matches
rank alike. -/
theorem row_iff {path : Text} {lines lines' : List Text} {i : ℕ} {ss : List Spot} {line : Text}
    (hascii : ∀ l ∈ lines, Ascii l) (hline : lines[i]? = some line)
    (hline' : lines'[i]? = some line) (hwindow : window lines' i = window lines i)
    (hoffset : offset lines' i = offset lines i) (hlt : ∀ x ∈ positions ss, x < line.length) :
    exported (hitRow rs path lines' (i, ss)) = webRow path lines (i, ss) ↔
      Level line (offset lines i) ss := by
  have hscore := score_iff rs (hascii line (List.mem_of_getElem? hline)) ss
  have hcontext : Ascii (joinLines (window lines i)) :=
    ascii_joinLines fun l hl => hascii l (List.mem_of_mem_drop (List.mem_of_mem_take hl))
  have hranges := ranges_iff hcontext ((positions ss).map fun x => x + offset lines i)
    (by
      rw [List.forall_mem_map]
      intro x hx
      rw [add_offset_lt_iff hline]
      have := hlt x hx
      omega)
  have hget : lines'.getD i [] = line := by
    rw [List.getD_eq_getElem?_getD, hline', Option.getD_some]
  have hget' : lines.getD i [] = line := by
    rw [List.getD_eq_getElem?_getD, hline, Option.getD_some]
  rw [webRow_eq, exported, hitRow, desktopRow, SearchResult.mk.injEq]
  dsimp only
  rw [hwindow, hoffset, hget, hget']
  simp only [true_and]
  rw [hscore]
  change _ ∧ List.map exportedRange (List.map _ (rangesOf (((positions ss).map
    fun x => x + offset lines i).dedup.mergeSort))) = _ ↔ _
  rw [hranges, List.forall_mem_map, List.nodup_map_iff (add_left_injective _)]
  constructor
  · rintro ⟨⟨hin, hcamels⟩, honce, hoffsets⟩
    exact ⟨hcamels, honce, hin, hoffsets⟩
  · intro hlevel
    exact ⟨⟨hlevel.score, hlevel.camels⟩, hlevel.once, hlevel.offsets⟩

theorem lineSpots_lt {line : Text} {ss : List Spot} (hline : Ascii line)
    (hss : lineSpots js mode caseSensitive terms line = some ss) :
    ∀ x ∈ positions ss, x < line.length := by
  rw [lineSpots] at hss
  split at hss
  next => cases hss
  next => exact spotsOf_lt hline hss

/-- Both apps read the line and the lines next to it alike. -/
def KeptAround (parts : List Text) (i : ℕ) : Prop :=
  ∀ j, i ≤ j + 1 → j ≤ i + 1 → Kept parts j

/-- The rows of hits in two lines of the content are alike when they are one hit, both
apps read the lines around it alike, and its matches rank alike. -/
theorem hitRow_iff {path content : Text} (hcontent : Ascii content)
    (hterms : ∀ t ∈ terms, Ascii t) {hit hit' : ℕ × List Spot} {line line' : Text}
    (hline : (content.splitOn '\n')[hit.1]? = some line)
    (hline' : (linesOf content)[hit'.1]? = some line')
    (hss : lineSpots js mode caseSensitive terms line = some hit.2)
    (hss' : lineSpots rs mode caseSensitive terms line' = some hit'.2) :
    exported (hitRow rs path (linesOf content) hit') = webRow path (content.splitOn '\n') hit ↔
      hit' = hit ∧ KeptAround (content.splitOn '\n') hit.1 ∧
        Level line (offset (content.splitOn '\n') hit.1) hit.2 := by
  obtain ⟨i, ss⟩ := hit
  obtain ⟨i', ss'⟩ := hit'
  have hall : ∀ l ∈ content.splitOn '\n', Ascii l := fun l hl => ascii_splitOn hcontent hl
  have hascii := hall line (List.mem_of_getElem? hline)
  have hlt := lineSpots_lt hascii hss
  rw [linesOf_eq] at hline' ⊢
  have hrow (hkept : KeptAround (content.splitOn '\n') i) :
      exported (hitRow rs path (endings (content.splitOn '\n')) (i, ss)) =
        webRow path (content.splitOn '\n') (i, ss) ↔
          Level line (offset (content.splitOn '\n') i) ss := by
    obtain ⟨hwindow, hoffset⟩ := window_congr hline fun j hij hji =>
      (kept_iff _ j).mp (hkept j hij hji)
    have hown := (kept_iff _ i).mp (hkept i (by omega) (by omega))
    exact row_iff hall hline (hown.trans hline) hwindow hoffset hlt
  constructor
  · intro heq
    have hnumber := congrArg SearchResult.line heq
    have hpreview := congrArg SearchResult.preview heq
    rw [webRow_eq] at hnumber hpreview
    have hi : i' = i := Nat.succ.inj (Option.some.inj hnumber)
    subst hi
    have hkept := (joinLines_window_iff hline hline').mp hpreview.symm
    have hown := (kept_iff _ i').mp (hkept i' (by omega) (by omega))
    rw [hown, hline] at hline'
    cases hline'
    rw [lineSpots_tables (v := js) caseSensitive mode hterms hascii, hss] at hss'
    cases hss'
    exact ⟨rfl, hkept, (hrow hkept).mp heq⟩
  · rintro ⟨heq, hkept, hlevel⟩
    rw [heq]
    exact (hrow hkept).mpr hlevel

end Rows

section Files

variable (u : Unicode) (mode : MatchMode) (caseSensitive : Bool)

/-- The first lines that all terms match, as the web app reads the lines. -/
def hits (content : Text) (terms : List Text) : List (ℕ × List Spot) :=
  firstHits (lineSpots u mode caseSensitive terms) Fuzzy.maxMatchesPerFile 0 (content.splitOn '\n')

/-- The matches of a hit rank alike, in lines that both apps read alike. -/
def HitAlike (parts : List Text) (hit : ℕ × List Spot) : Prop :=
  KeptAround parts hit.1 ∧ Level (parts.getD hit.1 []) (offset parts hit.1) hit.2

/-- The score of a file: its name's, the best line's and a count of the lines. -/
def total (path content : Text) (terms : List Text) : ℤ :=
  ((spotsOf u mode caseSensitive terms (Fuzzy.baseName path)).map fun ss =>
      scores (Fuzzy.boundaryBonus (Fuzzy.baseName path)) ss + 100).getD 0 +
    (hits u mode caseSensitive content terms).foldl (fun best hit => max best (scores
      (Fuzzy.boundaryBonus ((content.splitOn '\n').getD hit.1 [])) hit.2)) 0 +
    (hits u mode caseSensitive content terms).length * 3

/-- The matches in the name and in the lines rank alike, and the score of the file fits
32 bits. -/
structure Alike (path content : Text) (terms : List Text) : Prop where
  name : ∀ ss ∈ spotsOf u mode caseSensitive terms (Fuzzy.baseName path),
    Level (Fuzzy.baseName path) 0 ss
  lines : ∀ hit ∈ hits u mode caseSensitive content terms, HitAlike (content.splitOn '\n') hit
  total : InInt32 (total u mode caseSensitive path content terms)

variable (js rs : Unicode) (path : Text) {terms : List Text} {content : Text}

theorem fst_lineRows : (lineRows rs mode caseSensitive path content terms).1 =
    (firstHits (lineSpots rs mode caseSensitive terms) maxMatchesPerFile 0
      (linesOf content)).map (hitRow rs path (linesOf content)) := List.nil_append _

theorem fst_webLineRows : (webLineRows js mode caseSensitive path content terms).1 =
    (hits js mode caseSensitive content terms).map (webRow path (content.splitOn '\n')) :=
  List.nil_append _

theorem mem_hits {hit : ℕ × List Spot} (hhit : hit ∈ hits js mode caseSensitive content terms) :
    ∃ line, (content.splitOn '\n')[hit.1]? = some line ∧
      (content.splitOn '\n').getD hit.1 [] = line ∧
      lineSpots js mode caseSensitive terms line = some hit.2 := by
  obtain ⟨k, ss⟩ := hit
  obtain ⟨j, line, rfl, hline, hss⟩ := mem_firstHits _ hhit
  rw [Nat.zero_add]
  refine ⟨line, hline, ?_, hss⟩
  rw [List.getD_eq_getElem?_getD, hline, Option.getD_some]

/-- The hits of the desktop app are those of the web app, when both read their lines
alike. -/
theorem firstHits_linesOf (hcontent : Ascii content) (hterms : ∀ t ∈ terms, Ascii t)
    (hkept : ∀ hit ∈ hits js mode caseSensitive content terms,
      Kept (content.splitOn '\n') hit.1) :
    firstHits (lineSpots rs mode caseSensitive terms) maxMatchesPerFile 0 (linesOf content) =
      hits js mode caseSensitive content terms := by
  have hsame : ∀ l ∈ linesOf content, lineSpots rs mode caseSensitive terms l =
      lineSpots js mode caseSensitive terms l :=
    fun l hl => lineSpots_tables caseSensitive mode hterms (ascii_linesOf hcontent hl)
  rw [firstHits_congr _ _ hsame, linesOf_eq]
  refine firstHits_endings _ rfl _ (fun line hline => ?_) _ _ fun k ss hhit => ?_
  · exact lineSpots_stripReturn (ascii_splitOn hcontent hline)
  · have hown := hkept _ hhit
    rw [Nat.zero_add] at hown
    exact (kept_iff _ k).mp hown

/-- The lines' rows are alike when all hits are. -/
theorem rows_iff (hcontent : Ascii content) (hterms : ∀ t ∈ terms, Ascii t) :
    (lineRows rs mode caseSensitive path content terms).1.map exported =
        (webLineRows js mode caseSensitive path content terms).1 ↔
      ∀ hit ∈ hits js mode caseSensitive content terms, HitAlike (content.splitOn '\n') hit := by
  rw [fst_lineRows, fst_webLineRows, List.map_map]
  constructor
  · intro heq hit hhit
    obtain ⟨line, hline, hget, hss⟩ := mem_hits mode caseSensitive js hhit
    have hmem := List.mem_map_of_mem (f := webRow path (content.splitOn '\n')) hhit
    rw [← heq] at hmem
    obtain ⟨⟨k, ss'⟩, hhit', hrow⟩ := List.mem_map.mp hmem
    obtain ⟨j, line', rfl, hline', hss'⟩ := mem_firstHits _ hhit'
    rw [Nat.zero_add] at hrow
    rw [HitAlike, hget]
    exact ((hitRow_iff hcontent hterms hline hline' hss hss').mp hrow).2
  · intro hall
    rw [firstHits_linesOf mode caseSensitive js rs hcontent hterms fun hit hhit =>
      (hall hit hhit).1 hit.1 (by omega) (by omega)]
    refine List.map_congr_left fun hit hhit => ?_
    obtain ⟨line, hline, hget, hss⟩ := mem_hits mode caseSensitive js hhit
    obtain ⟨hkept, hlevel⟩ := hall hit hhit
    have hascii := ascii_splitOn hcontent (List.mem_of_getElem? hline)
    have hline' : (linesOf content)[hit.1]? = some line := by
      rw [linesOf_eq, (kept_iff _ _).mp (hkept hit.1 (by omega) (by omega)), hline]
    have hss' : lineSpots rs mode caseSensitive terms line = some hit.2 := by
      rw [lineSpots_tables (v := js) caseSensitive mode hterms hascii, hss]
    rw [hget] at hlevel
    exact (hitRow_iff hcontent hterms hline hline' hss hss').mpr ⟨rfl, hkept, hlevel⟩

theorem line_lt_hits (l : List (ℕ × List Spot))
    (hsorted : l.Pairwise fun hit hit' => hit.1 < hit'.1) (row : ℕ × List Spot → SearchResult ℤ ℕ)
    (hrow : ∀ hit, (row hit).line = some (hit.1 + 1)) :
    (l.map row).Pairwise fun a b => ∃ m n, a.line = some m ∧ b.line = some n ∧ m < n := by
  rw [List.pairwise_map]
  exact hsorted.imp fun hlt => ⟨_, _, hrow _, hrow _, Nat.succ_lt_succ hlt⟩

/-- Rows in the order of their lines are alike when they are alike in the order of their
scores. -/
theorem mergeSort_rows_iff :
    ((lineRows rs mode caseSensitive path content terms).1.mergeSort fun a b =>
        decide (b.score ≤ a.score)).map exported =
      ((webLineRows js mode caseSensitive path content terms).1.mergeSort fun a b =>
        decide (b.score - a.score ≤ 0)) ↔
    (lineRows rs mode caseSensitive path content terms).1.map exported =
      (webLineRows js mode caseSensitive path content terms).1 := by
  have hsort : ∀ rows : List (SearchResult Int32 UInt32),
      (rows.mergeSort fun a b => decide (b.score ≤ a.score)).map exported =
        (rows.map exported).mergeSort fun a b => decide (b.score - a.score ≤ 0) := by
    refine fun rows => List.map_mergeSort fun a _ b _ => ?_
    exact decide_eq_decide.mpr (Int32.le_iff_toInt_le.trans sub_nonpos.symm)
  rw [hsort]
  constructor
  · intro heq
    have hperm := (List.mergeSort_perm _ _).symm.trans ((List.Perm.of_eq heq).trans
      (List.mergeSort_perm _ _))
    rw [fst_lineRows, fst_webLineRows, List.map_map] at hperm ⊢
    refine List.Perm.eq_of_pairwise ?_ (line_lt_hits _ (pairwise_firstHits ..) _ fun _ => rfl)
      (line_lt_hits _ (pairwise_firstHits ..) _ fun _ => rfl) hperm
    rintro a b - - ⟨m, n, hm, hn, hlt⟩ ⟨n', m', hn', hm', hlt'⟩
    rw [hm] at hm'
    rw [hn] at hn'
    cases hm'
    cases hn'
    omega
  · intro heq
    rw [heq]

theorem toInt_max (a b : Int32) : (max a b).toInt = max a.toInt b.toInt := by
  change (if a ≤ b then b else a).toInt = _
  split
  next hle => exact (max_eq_right (Int32.le_iff_toInt_le.mp hle)).symm
  next hnot =>
    have hlt := mt Int32.le_iff_toInt_le.mpr hnot
    exact (max_eq_left (le_of_not_ge hlt)).symm

theorem toInt_foldl_max (rows : List (SearchResult Int32 UInt32)) (best : Int32) :
    (rows.foldl (fun best row => max best row.score) best).toInt =
      (rows.map exported).foldl (fun best row => max best row.score) best.toInt := by
  induction rows generalizing best with
  | nil => rfl
  | cons row rows ih =>
      rw [List.map_cons, List.foldl_cons, List.foldl_cons, ih, toInt_max]
      rfl

/-- The best scores are alike when the rows are. -/
theorem best_eq (hrows : (lineRows rs mode caseSensitive path content terms).1.map exported =
    (webLineRows js mode caseSensitive path content terms).1) :
    (lineRows rs mode caseSensitive path content terms).2.toInt =
      (webLineRows js mode caseSensitive path content terms).2 := by
  have hdesktop : (lineRows rs mode caseSensitive path content terms).2 =
      (lineRows rs mode caseSensitive path content terms).1.foldl
        (fun best row => max best row.score) 0 := by
    rw [fst_lineRows, List.foldl_map]
    rfl
  have hweb : (webLineRows js mode caseSensitive path content terms).2 =
      (webLineRows js mode caseSensitive path content terms).1.foldl
        (fun best row => max best row.score) 0 := by
    rw [fst_webLineRows, List.foldl_map]
    rfl
  rw [hdesktop, hweb, toInt_foldl_max, hrows]
  rfl

theorem total_eq : total js mode caseSensitive path content terms =
    ((spotsOf js mode caseSensitive terms (Fuzzy.baseName path)).map fun ss =>
      (webMatchOf (Fuzzy.baseName path) ss).score + 100).getD 0 +
    (webLineRows js mode caseSensitive path content terms).2 +
    (webLineRows js mode caseSensitive path content terms).1.length * 3 := by
  rw [fst_webLineRows, List.length_map]
  rfl

theorem ofInt_sum (x : ℤ) (best : Int32) (n : ℕ) :
    Int32.ofInt x + best + Int32.ofNat n * 3 = Int32.ofInt (x + best.toInt + n * 3) := by
  rw [Int32.ofInt_add, Int32.ofInt_add, Int32.ofInt_toInt, Int32.ofInt_mul, Int32.ofInt_eq_ofNat]
  rfl

/-- The rows of the name are alike when its matches rank alike. -/
theorem nameRows_iff (terms : List Text) (hname : Ascii (Fuzzy.baseName path)) :
    ((spotsOf rs mode caseSensitive terms (Fuzzy.baseName path)).toList.map
        (nameRow rs path (Fuzzy.baseName path))).map exported =
      (spotsOf rs mode caseSensitive terms (Fuzzy.baseName path)).toList.map (webNameRow path) ↔
    ∀ ss ∈ spotsOf rs mode caseSensitive terms (Fuzzy.baseName path),
      Level (Fuzzy.baseName path) 0 ss := by
  cases hnamed : spotsOf rs mode caseSensitive terms (Fuzzy.baseName path) with
  | none => simp
  | some ss =>
      rw [Option.toList_some, List.map_singleton, List.map_singleton, List.map_singleton,
        List.singleton_inj, nameRow_iff hname hnamed]
      simp

/-- The scores of the files are alike when the rows are and the sum fits 32 bits. -/
theorem score_sum_iff (hname : Ascii (Fuzzy.baseName path))
    (hnames : ∀ ss ∈ spotsOf js mode caseSensitive terms (Fuzzy.baseName path),
      Level (Fuzzy.baseName path) 0 ss)
    (hrows : (lineRows rs mode caseSensitive path content terms).1.map exported =
      (webLineRows js mode caseSensitive path content terms).1) :
    ((((spotsOf js mode caseSensitive terms (Fuzzy.baseName path)).map fun ss =>
        (matchOf rs (Fuzzy.baseName path) ss).score + 100).getD 0) +
        (lineRows rs mode caseSensitive path content terms).2 +
        Int32.ofNat (lineRows rs mode caseSensitive path content terms).1.length * 3).toInt =
      total js mode caseSensitive path content terms ↔
    InInt32 (total js mode caseSensitive path content terms) := by
  have hnameScore : (((spotsOf js mode caseSensitive terms (Fuzzy.baseName path)).map fun ss =>
      (matchOf rs (Fuzzy.baseName path) ss).score + 100).getD 0) =
      Int32.ofInt (((spotsOf js mode caseSensitive terms (Fuzzy.baseName path)).map fun ss =>
        (webMatchOf (Fuzzy.baseName path) ss).score + 100).getD 0) := by
    cases hnamed : spotsOf js mode caseSensitive terms (Fuzzy.baseName path) with
    | none => rfl
    | some ss =>
        have hlevel := hnames ss hnamed
        have hscore := (score_iff rs hname ss).mpr ⟨hlevel.score, hlevel.camels⟩
        simp only [Option.map_some, Option.getD_some]
        rw [Int32.ofInt_add, ← hscore, Int32.ofInt_toInt]
        rfl
  have hlength := congrArg List.length hrows
  rw [List.length_map] at hlength
  rw [hnameScore, ofInt_sum, best_eq mode caseSensitive js rs path hrows, hlength, total_eq]
  exact toInt_ofInt_iff _

theorem alike_iff (hname : Ascii (Fuzzy.baseName path)) (hcontent : Ascii content)
    (hterms : ∀ t ∈ terms, Ascii t) :
    Alike js mode caseSensitive path content terms ↔
      ((spotsOf js mode caseSensitive terms (Fuzzy.baseName path)).toList.map
          (nameRow rs path (Fuzzy.baseName path))).map exported =
        (spotsOf js mode caseSensitive terms (Fuzzy.baseName path)).toList.map (webNameRow path) ∧
      (lineRows rs mode caseSensitive path content terms).1.map exported =
        (webLineRows js mode caseSensitive path content terms).1 ∧
      InInt32 (total js mode caseSensitive path content terms) := by
  have hnames := nameRows_iff mode caseSensitive rs path terms hname
  rw [spotsOf_tables (v := js) caseSensitive mode hterms hname] at hnames
  rw [hnames, rows_iff mode caseSensitive js rs path hcontent hterms]
  exact ⟨fun h => ⟨h.name, h.lines, h.total⟩, fun h => ⟨h.1, h.2.1, h.2.2⟩⟩

/-- Files that both apps have an answer for. -/
theorem exportedFile_iff (hname : Ascii (Fuzzy.baseName path)) (hcontent : Ascii content)
    (hterms : ∀ t ∈ terms, Ascii t) (named : Option (List Spot))
    (hnamed : spotsOf js mode caseSensitive terms (Fuzzy.baseName path) = named) :
    exportedFile ⟨named.toList.map (nameRow rs path (Fuzzy.baseName path)) ++
        (lineRows rs mode caseSensitive path content terms).1.mergeSort fun a b =>
          decide (b.score ≤ a.score),
        ((named.map fun ss => (matchOf rs (Fuzzy.baseName path) ss).score + 100).getD 0) +
          (lineRows rs mode caseSensitive path content terms).2 +
          Int32.ofNat ((lineRows rs mode caseSensitive path content terms).1.mergeSort fun a b =>
            decide (b.score ≤ a.score)).length * 3⟩ =
      ⟨named.toList.map (webNameRow path) ++
        (webLineRows js mode caseSensitive path content terms).1.mergeSort fun a b =>
          decide (b.score - a.score ≤ 0),
        ((named.map fun ss => (webMatchOf (Fuzzy.baseName path) ss).score + 100).getD 0) +
          (webLineRows js mode caseSensitive path content terms).2 +
          ((webLineRows js mode caseSensitive path content terms).1.mergeSort fun a b =>
            decide (b.score - a.score ≤ 0)).length * 3⟩ ↔
    Alike js mode caseSensitive path content terms := by
  subst hnamed
  have hnames := nameRows_iff mode caseSensitive rs path terms hname
  rw [spotsOf_tables (v := js) caseSensitive mode hterms hname] at hnames
  rw [alike_iff mode caseSensitive js rs path hname hcontent hterms, exportedFile,
    FileResult.mk.injEq, List.map_append, List.length_mergeSort, List.length_mergeSort, ← total_eq]
  constructor
  · rintro ⟨hresults, hscore⟩
    obtain ⟨hnameRows, hsorted⟩ := List.append_inj hresults (by simp only [List.length_map])
    have hrows := (mergeSort_rows_iff mode caseSensitive js rs path).mp hsorted
    have hsum := score_sum_iff mode caseSensitive js rs path hname (hnames.mp hnameRows) hrows
    exact ⟨hnameRows, hrows, hsum.mp hscore⟩
  · rintro ⟨hnameRows, hrows, htotal⟩
    have hsum := score_sum_iff mode caseSensitive js rs path hname (hnames.mp hnameRows) hrows
    refine ⟨?_, hsum.mpr htotal⟩
    rw [hnameRows, (mergeSort_rows_iff mode caseSensitive js rs path).mpr hrows]

/-- Files without an answer match nowhere. -/
theorem alike_of_nothing (hcontent : Ascii content)
    (hnamed : spotsOf js mode caseSensitive terms (Fuzzy.baseName path) = none)
    (hnothing : spotsOf js mode caseSensitive terms content = none ∨
      (webLineRows js mode caseSensitive path content terms).1 = []) :
    Alike js mode caseSensitive path content terms := by
  have hhits : hits js mode caseSensitive content terms = [] := by
    rcases hnothing with hnone | hempty
    · apply List.eq_nil_iff_forall_not_mem.mpr
      intro hit hhit
      obtain ⟨line, hline, -, hss⟩ := mem_hits mode caseSensitive js hhit
      have hfound := spotsOf_content hcontent (List.mem_of_getElem? hline) (by rw [hss]; rfl)
      rw [hnone] at hfound
      cases hfound
    · rw [fst_webLineRows] at hempty
      exact List.map_eq_nil_iff.mp hempty
  refine ⟨?_, ?_, ?_⟩
  · rw [hnamed]
    exact fun _ hss => nomatch hss
  · rw [hhits]
    exact fun _ hhit => nomatch hhit
  · rw [total, hnamed, hhits]
    change InInt32 0
    decide

/-- Both apps give the same answer when the matches rank alike. -/
theorem fileResult_iff (hname : Ascii (Fuzzy.baseName path)) (hcontent : Ascii content)
    (hterms : ∀ t ∈ terms, Ascii t) :
    (fileResult rs mode caseSensitive path (Fuzzy.baseName path) content terms).map exportedFile =
        webFileResult js mode caseSensitive path content terms ↔
      Alike js mode caseSensitive path content terms := by
  have hrows := fun h : Alike js mode caseSensitive path content terms =>
    ((alike_iff mode caseSensitive js rs path hname hcontent hterms).mp h).2.1
  rw [fileResult, webFileResult]
  dsimp only
  rw [spotsOf_tables (v := js) caseSensitive mode hterms hname,
    spotsOf_tables (v := js) caseSensitive mode hterms hcontent]
  split
  next hdesktop =>
    split
    next hweb =>
      rw [Bool.and_eq_true, Option.isNone_iff_eq_none, Bool.or_eq_true, Bool.not_eq_true',
        Option.isSome_eq_false_iff, Option.isNone_iff_eq_none, List.isEmpty_iff] at hweb
      exact iff_of_true rfl (alike_of_nothing mode caseSensitive js path hcontent hweb.1 hweb.2)
    next hweb =>
      refine iff_of_false (fun h => by cases h) fun halike => hweb ?_
      rw [← hrows halike, List.isEmpty_map]
      exact hdesktop
  next hdesktop =>
    split
    next hweb =>
      refine iff_of_false (fun h => by cases h) fun halike => hdesktop ?_
      rw [← hrows halike, List.isEmpty_map] at hweb
      exact hweb
    next =>
      rw [Option.map_some, Option.some.injEq]
      exact exportedFile_iff mode caseSensitive js rs path hname hcontent hterms _ rfl

/-- The search of the web app and that of the desktop app answer alike on an ASCII file just
when the matches rank alike. -/
theorem searchFile_agree_iff (js rs : Unicode) (mode : MatchMode) (caseSensitive : Bool)
    (path content : Text) (terms : List Text) (hname : Ascii (Fuzzy.baseName path))
    (hcontent : Ascii content) (hterms : ∀ t ∈ terms, Ascii t) :
    (searchFile rs mode caseSensitive path (Fuzzy.baseName path) content terms).map
        (Option.map exportedFile) =
      .ok (Fuzzy.searchFile js mode caseSensitive path content terms) ↔
    Alike js mode caseSensitive path content terms := by
  rw [searchFile_ok hname hcontent, searchFile_eq js mode caseSensitive hterms hname hcontent,
    Except.map, Except.ok.injEq]
  exact fileResult_iff mode caseSensitive js rs path hname hcontent hterms

theorem searchFile_agree_todo :
    (searchFile dottedTables .fuzzy false "a/b.md".toList (Fuzzy.baseName "a/b.md".toList)
        "to do".toList ["td".toList]).map (Option.map exportedFile) =
      .ok (Fuzzy.searchFile dottedTables .fuzzy false "a/b.md".toList "to do".toList
        ["td".toList]) := by
  refine (searchFile_agree_iff dottedTables dottedTables .fuzzy false "a/b.md".toList
    "to do".toList ["td".toList] (by decide) (by decide) (by decide)).mpr ⟨?_, ?_, by decide⟩
  · intro ss hss
    have hnone : spotsOf dottedTables .fuzzy false ["td".toList]
        (Fuzzy.baseName "a/b.md".toList) = none := by rfl
    rw [hnone] at hss
    cases hss
  · have hhits : hits dottedTables .fuzzy false "to do".toList ["td".toList] =
        [(0, [⟨18, [0, 3], [0, 3]⟩])] := by rfl
    rw [hhits, List.forall_mem_singleton]
    refine ⟨fun j _ hj line hline => ?_, by decide, by decide, by decide, by decide⟩
    cases j with
    | zero =>
        cases hline
        exact List.cons_ne_nil _ _
    | succ j =>
        have hone : j = 0 := by
          dsimp only at hj
          omega
        rw [hone] at hline
        cases hline

/-- The preview of the last line keeps the newline after it in one app only. -/
theorem searchFile_disagree :
    ¬ ∀ (js rs : Unicode) (mode : MatchMode) (caseSensitive : Bool) (path content : Text)
      (terms : List Text), Ascii (Fuzzy.baseName path) → Ascii content →
      (∀ t ∈ terms, Ascii t) →
      (searchFile rs mode caseSensitive path (Fuzzy.baseName path) content terms).map
          (Option.map exportedFile) =
        .ok (Fuzzy.searchFile js mode caseSensitive path content terms) := by
  intro h
  have hname : Ascii (Fuzzy.baseName "a/Notes.md".toList) := by decide
  have hcontent : Ascii "todo\n".toList := by decide
  have hterms : ∀ t ∈ ["todo".toList], Ascii t := by decide
  have heq := h dottedTables dottedTables .exact true "a/Notes.md".toList "todo\n".toList
    ["todo".toList] hname hcontent hterms
  rw [searchFile_ok hname hcontent, searchFile_eq _ _ _ hterms hname hcontent, Except.map,
    Except.ok.injEq, fileResult_iff .exact true _ _ _ hname hcontent hterms] at heq
  have hhit : (0, [⟨80, [0, 1, 2, 3], [0]⟩]) ∈
      hits dottedTables .exact true "todo\n".toList ["todo".toList] := List.mem_singleton.mpr rfl
  obtain ⟨hkept, -⟩ := heq.lines _ hhit
  exact hkept 1 (by decide) (by decide) [] rfl rfl

end Files

end Tactile.Search.Agreement

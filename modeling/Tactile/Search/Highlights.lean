import Mathlib.Data.List.Perm.Subperm
import Mathlib.Data.List.Sort
import Tactile.Lib.CodeUnits
import Tactile.Search.Rows

/-!
The ranges that the web app highlights and the HTML it shows for them: what is left of
the HTML without its tags, and which of it is marked.
-/

namespace Tactile.Search.Highlights

open Tactile.Lib.CodeUnits
open Tactile.Search.Fuzzy (toHighlightRanges rangesLoop)
open Tactile.Search.Rows
open scoped List

section Html

def replaceAll (c : Char) (replacement s : JsString) : JsString :=
  s.flatMap fun u => if u = unit c then replacement else [u]

def escapeHtml (text : JsString) : JsString :=
  replaceAll '"' (js "&quot;".toList) (replaceAll '>' (js "&gt;".toList)
    (replaceAll '<' (js "&lt;".toList) (replaceAll '&' (js "&amp;".toList) text)))

/-- `String.prototype.slice` between two positions. -/
def slice (text : JsString) (start stop : ℕ) : JsString := (text.drop start).take (stop - start)

def openTag (markClass : JsString) : JsString :=
  js "<mark class=\"".toList ++ markClass ++ js "\">".toList

def closeTag : JsString := js "</mark>".toList

/-- The loop over the ranges, with the HTML so far. -/
def highlightLoop (text markClass : JsString) : List (ℕ × ℕ) → ℕ → JsString → JsString
  | [], cursor, out => out ++ escapeHtml (text.drop cursor)
  | (start, stop) :: ranges, cursor, out =>
    highlightLoop text markClass ranges stop (out ++ escapeHtml (slice text cursor start) ++
      (openTag markClass ++ escapeHtml (slice text start stop) ++ closeTag))

def applyHighlights (text : JsString) (ranges : List (ℕ × ℕ)) (markClass : JsString) : JsString :=
  if ranges.isEmpty then escapeHtml text else highlightLoop text markClass ranges 0 []

/-- A piece of HTML: a tag, after which text is marked or not, or a unit of text. -/
inductive Piece
  | tag (marked : Bool)
  | text (u : UInt16)

def entities : List (JsString × UInt16) :=
  [(js "&amp;".toList, unit '&'), (js "&lt;".toList, unit '<'), (js "&gt;".toList, unit '>'),
    (js "&quot;".toList, unit '"')]

/-- The first piece of HTML, and how long it is. -/
def piece (markClass : JsString) (u : UInt16) (rest : JsString) : Piece × ℕ :=
  if openTag markClass <+: u :: rest then (.tag true, (openTag markClass).length)
  else if closeTag <+: u :: rest then (.tag false, closeTag.length)
  else
    match entities.find? fun e => decide (e.1 <+: u :: rest) with
    | some e => (.text e.2, e.1.length)
    | none => (.text u, 1)

/-- The text that HTML shows, without its tags and with its entities decoded, and whether
each unit of it is marked. -/
def shown (markClass : JsString) : Bool → JsString → List (UInt16 × Bool)
  | _, [] => []
  | marked, u :: rest =>
    match piece markClass u rest with
    | (.tag marked', n) => shown markClass marked' (rest.drop (n - 1))
    | (.text c, n) => (c, marked) :: shown markClass marked (rest.drop (n - 1))
termination_by _ html => html.length

/-- A text with the units at some positions marked. -/
def marking (P : ℕ → Prop) [DecidablePred P] (text : JsString) (start : ℕ) :
    List (UInt16 × Bool) :=
  (text.zipIdx start).map fun p => (p.1, decide (P p.2))

/-- The ranges are in order, do not touch, and cover the indices. -/
structure Covers (indices : List ℕ) (ranges : List (ℕ × ℕ)) : Prop where
  proper : ∀ r ∈ ranges, r.1 < r.2
  apart : ranges.Pairwise fun r r' => r.2 < r'.1
  covered : ∀ i, (∃ r ∈ ranges, r.1 ≤ i ∧ i < r.2) ↔ i ∈ indices

end Html

section Escape

variable (markClass : JsString) {marked : Bool}

def escapeUnit (u : UInt16) : JsString :=
  if u = unit '&' then js "&amp;".toList
  else if u = unit '<' then js "&lt;".toList
  else if u = unit '>' then js "&gt;".toList
  else if u = unit '"' then js "&quot;".toList
  else [u]

theorem escapeHtml_eq (text : JsString) : escapeHtml text = text.flatMap escapeUnit := by
  simp only [escapeHtml, replaceAll, List.flatMap_assoc]
  apply List.flatMap_congr
  intro u _
  rw [escapeUnit]
  split
  next => decide
  next =>
    rw [List.flatMap_singleton]
    split
    next => decide
    next =>
      rw [List.flatMap_singleton]
      split
      next => decide
      next => rw [List.flatMap_singleton]

theorem shown_text {u c : UInt16} {n : ℕ} {rest : JsString}
    (h : piece markClass u rest = (.text c, n)) :
    shown markClass marked (u :: rest) = (c, marked) :: shown markClass marked (rest.drop (n - 1)) := by
  rw [shown, h]

theorem shown_tag {u : UInt16} {n : ℕ} {rest : JsString} {marked' : Bool}
    (h : piece markClass u rest = (.tag marked', n)) :
    shown markClass marked (u :: rest) = shown markClass marked' (rest.drop (n - 1)) := by
  rw [shown, h]

theorem openTag_cons : ∃ rest, openTag markClass = unit '<' :: unit 'm' :: rest :=
  ⟨_, rfl⟩

theorem not_openTag {u : UInt16} {rest : JsString} (hne : u ≠ unit '<') :
    ¬openTag markClass <+: u :: rest := by
  intro htag
  obtain ⟨tail, heq⟩ := openTag_cons markClass
  rw [heq] at htag
  exact hne (List.cons_prefix_cons.mp htag).1.symm

theorem not_closeTag {u : UInt16} {rest : JsString} (hne : u ≠ unit '<') :
    ¬closeTag <+: u :: rest := fun htag => hne (List.cons_prefix_cons.mp htag).1.symm

/-- An entity is shown as its unit. -/
theorem shown_entity (name : JsString) {c : UInt16} (hentity : (unit '&' :: name, c) ∈ entities)
    (rest : JsString) :
    shown markClass marked (unit '&' :: name ++ rest) =
      (c, marked) :: shown markClass marked rest := by
  have hdiffer : entities.Pairwise fun e e' => ∃ i, i < e.1.length ∧ i < e'.1.length ∧
      e.1[i]? ≠ e'.1[i]? := by
    decide
  have hfind : (entities.find? fun e => decide (e.1 <+: unit '&' :: name ++ rest)) =
      some (unit '&' :: name, c) := by
    obtain ⟨pre, post, hsplit⟩ := List.append_of_mem hentity
    rw [hsplit] at hdiffer ⊢
    have hbefore : (pre.find? fun e => decide (e.1 <+: unit '&' :: name ++ rest)) = none := by
      rw [List.find?_eq_none]
      intro e he
      obtain ⟨i, hi, hi', hne⟩ := (List.pairwise_append.mp hdiffer).2.2 e he _ List.mem_cons_self
      simp only [decide_eq_true_eq]
      rintro ⟨tail, htail⟩
      have hat := congrArg (·[i]?) htail
      dsimp only at hat hi'
      rw [List.getElem?_append_left hi, List.getElem?_append_left hi'] at hat
      exact hne hat
    rw [List.find?_append, hbefore, Option.none_or, List.find?_cons_of_pos (by simp)]
  have hpiece : piece markClass (unit '&') (name ++ rest) = (.text c, name.length + 1) := by
    rw [piece, if_neg (not_openTag markClass (by decide)), if_neg (not_closeTag (by decide)),
      ← List.cons_append, hfind]
    rfl
  rw [List.cons_append, shown_text markClass hpiece, Nat.add_sub_cancel, List.drop_left]

/-- An escaped unit is shown as the unit. -/
theorem shown_escapeUnit (u : UInt16) (rest : JsString) :
    shown markClass marked (escapeUnit u ++ rest) = (u, marked) :: shown markClass marked rest := by
  rw [escapeUnit]
  split
  next heq =>
    rw [heq]
    exact shown_entity markClass (js "amp;".toList) (by decide) rest
  next hamp =>
    split
    next heq =>
      rw [heq]
      exact shown_entity markClass (js "lt;".toList) (by decide) rest
    next hlt =>
      split
      next heq =>
        rw [heq]
        exact shown_entity markClass (js "gt;".toList) (by decide) rest
      next =>
        split
        next heq =>
          rw [heq]
          exact shown_entity markClass (js "quot;".toList) (by decide) rest
        next =>
          have hnone : (entities.find? fun e => decide (e.1 <+: u :: rest)) = none := by
            have hfirst : ∀ e ∈ entities, e.1.head? = some (unit '&') := by decide
            rw [List.find?_eq_none]
            intro e he
            simp only [decide_eq_true_eq]
            rintro ⟨tail, htail⟩
            have hhead := congrArg List.head? htail
            rw [List.head?_append, hfirst e he] at hhead
            exact hamp (Option.some.inj hhead).symm
          have hpiece : piece markClass u rest = (.text u, 1) := by
            rw [piece, if_neg (not_openTag markClass hlt), if_neg (not_closeTag hlt), hnone]
          exact shown_text markClass hpiece

theorem shown_escapeHtml (text rest : JsString) :
    shown markClass marked (escapeHtml text ++ rest) =
      text.map (fun u => (u, marked)) ++ shown markClass marked rest := by
  rw [escapeHtml_eq]
  induction text with
  | nil => rfl
  | cons u text ih =>
      rw [List.flatMap_cons, List.append_assoc, shown_escapeUnit, ih]
      rfl

theorem shown_openTag (rest : JsString) :
    shown markClass marked (openTag markClass ++ rest) = shown markClass true rest := by
  obtain ⟨tail, heq⟩ := openTag_cons markClass
  have hpiece : piece markClass (unit '<') (unit 'm' :: tail ++ rest) =
      (.tag true, (openTag markClass).length) := by
    rw [piece, if_pos]
    rw [heq]
    exact List.prefix_append _ rest
  rw [heq]
  change shown markClass marked (unit '<' :: (unit 'm' :: tail ++ rest)) = _
  rw [shown_tag markClass hpiece, heq, List.length_cons, Nat.add_sub_cancel, List.drop_left]

theorem shown_closeTag (rest : JsString) :
    shown markClass marked (closeTag ++ rest) = shown markClass false rest := by
  have hopen : ¬openTag markClass <+: unit '<' :: (js "/mark>".toList ++ rest) := by
    intro htag
    obtain ⟨tail, heq⟩ := openTag_cons markClass
    rw [heq] at htag
    have hsecond := (List.cons_prefix_cons.mp htag).2
    exact absurd (List.cons_prefix_cons.mp hsecond).1 (by decide)
  have hpiece : piece markClass (unit '<') (js "/mark>".toList ++ rest) =
      (.tag false, closeTag.length) := by
    rw [piece, if_neg hopen, if_pos]
    exact List.prefix_append closeTag rest
  change shown markClass marked (unit '<' :: (js "/mark>".toList ++ rest)) = _
  rw [shown_tag markClass hpiece]
  have hdrop : (js "/mark>".toList ++ rest).drop (js "/mark>".toList).length = rest :=
    List.drop_left
  exact congrArg (shown markClass false) hdrop

end Escape

section Marks

variable {text : JsString} {P Q : ℕ → Prop} [DecidablePred P] [DecidablePred Q]

theorem marking_append (s t : JsString) (start : ℕ) :
    marking P (s ++ t) start = marking P s start ++ marking P t (start + s.length) := by
  rw [marking, List.zipIdx_append, List.map_append]
  rfl

theorem marking_congr {start : ℕ} (h : ∀ i, start ≤ i → i < start + text.length → (P i ↔ Q i)) :
    marking P text start = marking Q text start := by
  apply List.map_congr_left
  rintro ⟨u, i⟩ hmem
  obtain ⟨hle, hlt, -⟩ := List.mem_zipIdx hmem
  simp only [h i hle hlt]

/-- A text that is marked throughout, or not at all. -/
theorem map_eq_marking {b : Bool} {start : ℕ}
    (h : ∀ i, start ≤ i → i < start + text.length → (P i ↔ b = true)) :
    text.map (fun u => (u, b)) = marking P text start := by
  calc text.map (fun u => (u, b))
      = ((text.zipIdx start).map Prod.fst).map fun u => (u, b) := by rw [List.zipIdx_map_fst]
    _ = (text.zipIdx start).map fun p => (p.1, b) := List.map_map ..
    _ = marking P text start := by
        apply List.map_congr_left
        rintro ⟨u, i⟩ hmem
        obtain ⟨hle, hlt, -⟩ := List.mem_zipIdx hmem
        simp only [h i hle hlt, Bool.decide_eq_true]

/-- The position is in a range. -/
def In (ranges : List (ℕ × ℕ)) (i : ℕ) : Prop := ∃ r ∈ ranges, r.1 ≤ i ∧ i < r.2

instance (ranges : List (ℕ × ℕ)) : DecidablePred (In ranges) :=
  fun i => inferInstanceAs (Decidable (∃ r ∈ ranges, r.1 ≤ i ∧ i < r.2))

theorem in_cons {r : ℕ × ℕ} {ranges : List (ℕ × ℕ)} {i : ℕ} :
    In (r :: ranges) i ↔ (r.1 ≤ i ∧ i < r.2) ∨ In ranges i := by
  simp only [In, List.mem_cons, exists_eq_or_imp]

theorem length_slice {start stop : ℕ} (hstop : stop ≤ text.length) :
    (slice text start stop).length = stop - start := by
  rw [slice, List.length_take, List.length_drop]
  omega

theorem drop_eq_slice_append {start stop : ℕ} (hle : start ≤ stop) :
    text.drop start = slice text start stop ++ text.drop stop := by
  conv_lhs => rw [← List.take_append_drop (stop - start) (text.drop start)]
  rw [slice, List.drop_drop, Nat.add_sub_cancel' hle]

variable (markClass : JsString)

/-- The loop writes out the rest of the text with what is in the ranges marked. -/
theorem shown_highlightLoop (ranges : List (ℕ × ℕ)) (cursor : ℕ) (out : JsString)
    (hproper : ∀ r ∈ ranges, r.1 < r.2) (hapart : ranges.Pairwise fun r r' => r.2 < r'.1)
    (hwithin : ∀ r ∈ ranges, r.2 ≤ text.length) (hcursor : ∀ r ∈ ranges, cursor ≤ r.1) :
    ∃ html, highlightLoop text markClass ranges cursor out = out ++ html ∧
      shown markClass false html = marking (In ranges) (text.drop cursor) cursor := by
  induction ranges generalizing cursor out with
  | nil =>
      refine ⟨_, rfl, ?_⟩
      rw [← List.append_nil (escapeHtml _), shown_escapeHtml, shown, List.append_nil]
      exact map_eq_marking fun i _ _ => by simp [In]
  | cons r ranges ih =>
      obtain ⟨start, stop⟩ := r
      rw [List.forall_mem_cons] at hproper hwithin hcursor
      rw [List.pairwise_cons] at hapart
      have hlt : start < stop := hproper.1
      have hle : cursor ≤ start := hcursor.1
      have hstop : stop ≤ text.length := hwithin.1
      have hlater : ∀ i, i < stop → ¬In ranges i := by
        rintro i hi ⟨r, hr, hri, -⟩
        have := hapart.1 r hr
        omega
      obtain ⟨html, hloop, hshown⟩ := ih stop (out ++ escapeHtml (slice text cursor start) ++
        (openTag markClass ++ escapeHtml (slice text start stop) ++ closeTag)) hproper.2 hapart.2
        hwithin.2 fun r hr => (hapart.1 r hr).le
      refine ⟨_, by rw [highlightLoop, hloop, List.append_assoc, List.append_assoc], ?_⟩
      have hbefore : (slice text cursor start).map (fun u => (u, false)) =
          marking (In ((start, stop) :: ranges)) (slice text cursor start) cursor := by
        apply map_eq_marking
        intro i _ hi
        rw [length_slice (hlt.le.trans hstop)] at hi
        rw [in_cons]
        have := hlater i (by omega)
        simp only [this, or_false, Bool.false_eq_true, iff_false]
        omega
      have hinside : (slice text start stop).map (fun u => (u, true)) =
          marking (In ((start, stop) :: ranges)) (slice text start stop) start := by
        apply map_eq_marking
        intro i hi hi'
        rw [length_slice hstop] at hi'
        rw [in_cons]
        simp only [iff_true]
        exact .inl ⟨hi, by omega⟩
      have hafter : marking (In ranges) (text.drop stop) stop =
          marking (In ((start, stop) :: ranges)) (text.drop stop) stop := by
        apply marking_congr
        intro i hi _
        rw [in_cons]
        refine ⟨.inr, fun h => h.resolve_left ?_⟩
        omega
      rw [shown_escapeHtml, List.append_assoc, List.append_assoc, shown_openTag, shown_escapeHtml,
        shown_closeTag, hshown, hbefore, hinside, hafter, drop_eq_slice_append hle,
        drop_eq_slice_append hlt.le, marking_append, marking_append,
        length_slice (hlt.le.trans hstop), length_slice hstop, Nat.add_sub_cancel' hle,
        Nat.add_sub_cancel' hlt.le]

theorem shown_applyHighlights {ranges : List (ℕ × ℕ)} (hproper : ∀ r ∈ ranges, r.1 < r.2)
    (hapart : ranges.Pairwise fun r r' => r.2 < r'.1) (hwithin : ∀ r ∈ ranges, r.2 ≤ text.length) :
    shown markClass false (applyHighlights text ranges markClass) = marking (In ranges) text 0 := by
  rw [applyHighlights]
  split
  next hnone =>
    rw [List.isEmpty_iff.mp hnone, ← List.append_nil (escapeHtml _), shown_escapeHtml, shown,
      List.append_nil]
    exact map_eq_marking fun i _ _ => by simp [In]
  next =>
    obtain ⟨html, hloop, hshown⟩ := shown_highlightLoop markClass ranges 0 [] hproper hapart hwithin
      fun _ _ => Nat.zero_le _
    rw [hloop]
    exact hshown

end Marks

section Ranges

variable {rest : List ℕ} {start stop : ℕ}

theorem start_le_rangesLoop (hlt : start < stop) (hstop : ∀ i ∈ rest, stop ≤ i)
    (hrest : rest.Pairwise (· < ·)) : ∀ r ∈ rangesLoop rest start stop, start ≤ r.1 := by
  induction rest generalizing start stop with
  | nil => simp [rangesLoop]
  | cons idx rest ih =>
      rw [List.forall_mem_cons] at hstop
      rw [List.pairwise_cons] at hrest
      have hnext : ∀ i ∈ rest, idx + 1 ≤ i := fun i hi => hrest.1 i hi
      rw [rangesLoop]
      split
      next heq => exact ih (by omega) hnext hrest.2
      next =>
        rw [List.forall_mem_cons]
        refine ⟨le_refl start, fun r hr => ?_⟩
        have := ih (Nat.lt_succ_self idx) hnext hrest.2 r hr
        omega

/-- The ranges of indices in strict order do not touch. -/
theorem pairwise_rangesLoop (hlt : start < stop) (hstop : ∀ i ∈ rest, stop ≤ i)
    (hrest : rest.Pairwise (· < ·)) :
    (rangesLoop rest start stop).Pairwise fun r r' => r.2 < r'.1 := by
  induction rest generalizing start stop with
  | nil => exact List.pairwise_singleton _ _
  | cons idx rest ih =>
      rw [List.forall_mem_cons] at hstop
      rw [List.pairwise_cons] at hrest
      have hnext : ∀ i ∈ rest, idx + 1 ≤ i := fun i hi => hrest.1 i hi
      rw [rangesLoop]
      split
      next heq => exact ih (by omega) hnext hrest.2
      next hne =>
        refine List.pairwise_cons.mpr ⟨fun r hr => ?_, ih (Nat.lt_succ_self idx) hnext hrest.2⟩
        have := start_le_rangesLoop (Nat.lt_succ_self idx) hnext hrest.2 r hr
        dsimp only
        omega

theorem pairwise_rangesOf {l : List ℕ} (h : l.Pairwise (· < ·)) :
    (rangesOf l).Pairwise fun r r' => r.2 < r'.1 := by
  cases l with
  | nil => exact List.Pairwise.nil
  | cons i rest =>
      rw [List.pairwise_cons] at h
      exact pairwise_rangesLoop (Nat.lt_succ_self i) h.1 h.2

variable (indices : List ℕ)

theorem in_toHighlightRanges (i : ℕ) : In (toHighlightRanges indices) i ↔ i ∈ indices := by
  have hmem : i ∈ (rangesOf indices.mergeSort).flatMap span ↔ In (toHighlightRanges indices) i := by
    rw [toHighlightRanges_eq, List.mem_flatMap]
    simp only [mem_span, In]
  rw [← hmem, flatMap_span, List.mem_mergeSort]

/-- The ranges are as they should be when no index is given twice. -/
theorem covers_iff : Covers indices (toHighlightRanges indices) ↔ indices.Nodup := by
  have hsorted : indices.mergeSort.Pairwise (· ≤ ·) := List.pairwise_mergeSort' _ _
  have hperm : indices.mergeSort.Perm indices := List.mergeSort_perm _ _
  constructor
  · intro h
    have hnodup : ((toHighlightRanges indices).flatMap span).Nodup := by
      refine List.nodup_flatMap.mpr ⟨fun r _ => List.nodup_range', h.apart.imp fun hlt => ?_⟩
      intro i hi hi'
      have := (mem_span.mp hi).2
      have := (mem_span.mp hi').1
      omega
    rw [toHighlightRanges_eq, flatMap_span] at hnodup
    exact hperm.nodup_iff.mp hnodup
  · intro h
    have hstrict : indices.mergeSort.Pairwise (· < ·) :=
      (hsorted.and (hperm.nodup_iff.mpr h)).imp fun h => lt_of_le_of_ne h.1 h.2
    refine ⟨?_, ?_, in_toHighlightRanges indices⟩
    · rw [toHighlightRanges_eq]
      exact rangesOf_lt _
    · rw [toHighlightRanges_eq]
      exact pairwise_rangesOf hstrict

end Ranges

/-- The ranges are as they should be, and their HTML shows the text with exactly the
characters at the indices marked. -/
def Highlighted (text : JsString) (indices : List ℕ) (markClass : JsString) : Prop :=
  Covers indices (toHighlightRanges indices) ∧
    shown markClass false (applyHighlights text (toHighlightRanges indices) markClass) =
      marking (· ∈ indices) text 0

/-- Highlighting keeps the text when no index is given twice. -/
theorem highlighted_iff (text : JsString) (indices : List ℕ) (markClass : JsString)
    (hrange : ∀ i ∈ indices, i < text.length) :
    Highlighted text indices markClass ↔ indices.Nodup := by
  rw [Highlighted, covers_iff]
  refine and_iff_left_of_imp fun hnodup => ?_
  have hcovers := (covers_iff indices).mpr hnodup
  have hwithin : ∀ r ∈ toHighlightRanges indices, r.2 ≤ text.length := by
    intro r hr
    rw [toHighlightRanges_eq] at hr
    have hlt := (rangesOf_within indices.mergeSort (text.length + 1)).mpr
      (fun i hi => Nat.succ_lt_succ (hrange i (List.mem_mergeSort.mp hi))) r hr
    exact Nat.le_of_lt_succ hlt
  rw [shown_applyHighlights markClass hcovers.proper hcovers.apart hwithin]
  exact marking_congr fun i _ _ => in_toHighlightRanges indices i

/-- The letter of a name that two terms find. -/
theorem highlighted_letter : Highlighted (js ['a', 'b']) [1, 0] (js ['m']) :=
  (highlighted_iff (js ['a', 'b']) [1, 0] (js ['m']) (by decide)).mpr (by decide)

/-- Two terms that find the same letter make it appear twice. -/
theorem repeated_doubles : (∀ i ∈ [0, 0], i < (js ['a', 'b']).length) ∧
    ¬Highlighted (js ['a', 'b']) [0, 0] (js ['m']) := by
  refine ⟨by decide, fun h => ?_⟩
  have hranges : toHighlightRanges [0, 0] = [(0, 1), (0, 1)] := by
    rw [toHighlightRanges_eq, List.mergeSort_of_pairwise (by decide)]
    rfl
  have hapart := h.1.apart
  rw [hranges] at hapart
  exact absurd hapart (by decide)

end Tactile.Search.Highlights

import Tactile.Notes.Markup

/-!
Wikilinks: the rule that reads them, the text that is written of one, and which of them are
read again as they were.
-/

namespace Tactile.Notes.Wikilink

open Tactile.Lib.CodeUnits Tactile.Lib.Matching
open Tactile.Lib.Split (cut_inj)
open Tactile.Search.Highlights (slice)
open Tactile.Notes.Markup
open scoped List

def opening : JsString := js "[[".toList

def closing : JsString := js "]]".toList

def newline : UInt16 := unit '\n'

/-- The text between the brackets at a position. -/
def innerAt (src : JsString) (start : ℕ) : Option JsString :=
  if src[start]? ≠ some (unit '[') ∨ src[start + 1]? ≠ some (unit '[') then none
  else (indexOf closing src (start + 2)).map (slice src (start + 2))

def pipeIn (inner : JsString) : Option ℕ := inner.findIdx? (· == unit '|')

def targetOf (inner : JsString) : JsString :=
  match pipeIn inner with
  | none => trim inner
  | some pipe => trim (slice inner 0 pipe)

def aliasOf (inner : JsString) : JsString :=
  match pipeIn inner with
  | none => []
  | some pipe => trim (inner.drop (pipe + 1))

def labelOf (inner : JsString) : JsString :=
  if aliasOf inner = [] then targetOf inner else aliasOf inner

def wikilinkHtml (target label : JsString) : JsString :=
  js "<span data-wikilink data-target=\"".toList ++ esc target ++ js "\">".toList ++ esc label ++
    js "</span>".toList

def wikilinkRule (state : StateInline) (silent : Bool) : Bool × StateInline :=
  match innerAt state.src state.pos with
  | none => (false, state)
  | some inner =>
    if inner = [] ∨ newline ∈ inner then (false, state)
    else if targetOf inner = [] then (false, state)
    else
      (true, { state with
        pos := state.pos + 2 + inner.length + 2
        tokens :=
          if silent then state.tokens
          else state.tokens ++ [wikilinkHtml (targetOf inner) (labelOf inner)] })

def serialize (target label : JsString) : JsString :=
  opening ++ target ++ (if label ≠ [] ∧ label ≠ target then unit '|' :: label else []) ++ closing

/-- A wikilink that is written is read as it was, to the end of what is written. -/
def Survives (target label : JsString) : Prop :=
  wikilinkRule ⟨serialize target label, 0, []⟩ false =
    (true, ⟨serialize target label, (serialize target label).length, [wikilinkHtml target label]⟩)

section Reading

theorem wikilinkHtml_inj {target label target' label' : JsString}
    (h : wikilinkHtml target label = wikilinkHtml target' label') :
    target = target' ∧ label = label' := by
  have htag : js "\">".toList = unit '"' :: js ">".toList := rfl
  simp only [wikilinkHtml, List.append_assoc, List.append_cancel_left_eq, htag, List.cons_append]
    at h
  obtain ⟨htarget, hrest⟩ := cut_inj (quote_notMem_esc target) (quote_notMem_esc target') h
  have hlabel := List.append_cancel_right (List.append_cancel_left hrest)
  exact ⟨esc_inj htarget, esc_inj hlabel⟩

theorem drop_eq_opening {src : JsString} {start : ℕ} :
    (src[start]? = some (unit '[') ∧ src[start + 1]? = some (unit '[')) ↔
      src.drop start = opening ++ src.drop (start + 2) := by
  constructor
  · rintro ⟨hfirst, hsecond⟩
    obtain ⟨hlt, hfirst⟩ := List.getElem?_eq_some_iff.mp hfirst
    obtain ⟨hlt', hsecond⟩ := List.getElem?_eq_some_iff.mp hsecond
    rw [List.drop_eq_getElem_cons hlt, List.drop_eq_getElem_cons hlt', hfirst, hsecond]
    rfl
  · intro h
    have hget : ∀ i, src[start + i]? = (opening ++ src.drop (start + 2))[i]? := by
      intro i
      rw [← h, List.getElem?_drop]
    exact ⟨hget 0, hget 1⟩

/-- The brackets at a position are closed by the first ones after them. -/
theorem innerAt_eq_some {src inner : JsString} {start : ℕ} :
    innerAt src start = some inner ↔
      ∃ rest, src.drop start = opening ++ inner ++ closing ++ rest ∧
        ¬ closing <:+: inner ++ [unit ']'] := by
  rw [innerAt]
  split
  next h =>
    rw [← not_and_or, drop_eq_opening] at h
    constructor
    · intro hnone
      cases hnone
    · rintro ⟨rest, hsrc, -⟩
      refine absurd ?_ h
      rw [← List.drop_drop, hsrc]
      rfl
  next h =>
    rw [← not_and_or, not_not, drop_eq_opening] at h
    have hclosing : closing ≠ [] := by decide
    rw [indexOf, Option.map_map, Option.map_eq_some_iff]
    constructor
    · rintro ⟨k, hk, rfl⟩
      obtain ⟨a, rest, ht, rfl, hnot⟩ := (occurrence_eq_some hclosing).mp hk
      have hinner : slice src (start + 2) (start + 2 + a.length) = a := by
        rw [slice, Nat.add_sub_cancel_left, ht, List.append_assoc, List.take_left]
      refine ⟨rest, ?_, ?_⟩
      · rw [Function.comp_apply, hinner, h, ht]
        simp only [List.append_assoc]
      · rw [Function.comp_apply, hinner]
        exact hnot
    · rintro ⟨rest, hsrc, hnot⟩
      rw [h, List.append_assoc, List.append_assoc, ← List.append_assoc inner] at hsrc
      have ht := List.append_cancel_left hsrc
      refine ⟨inner.length, (occurrence_eq_some hclosing).mpr ⟨inner, rest, ht, rfl, hnot⟩, ?_⟩
      rw [Function.comp_apply, slice, Nat.add_sub_cancel_left, ht, List.append_assoc, List.take_left]

theorem pipeIn_eq_none {inner : JsString} (h : unit '|' ∉ inner) : pipeIn inner = none := by
  rw [pipeIn, List.findIdx?_eq_none_iff]
  intro u hu
  exact beq_false_of_ne fun heq => h (heq ▸ hu)

theorem pipeIn_append {a : JsString} (b : JsString) (h : unit '|' ∉ a) :
    pipeIn (a ++ unit '|' :: b) = some a.length := by
  rw [pipeIn, findIdx_eq_some]
  constructor
  · rw [List.getElem?_append_right (le_refl _), Nat.sub_self]
    rfl
  · intro j hj hpipe
    rw [List.getElem?_append_left hj] at hpipe
    exact h (List.mem_of_getElem? hpipe)

/-- A link is accepted with the text between its brackets, and read to the end of these. -/
theorem wikilinkRule_eq_true {src : JsString} {start : ℕ} {tokens : List JsString}
    {after : StateInline} :
    wikilinkRule ⟨src, start, tokens⟩ false = (true, after) ↔
      ∃ inner, innerAt src start = some inner ∧ newline ∉ inner ∧ targetOf inner ≠ [] ∧
        after = ⟨src, start + 2 + inner.length + 2,
          tokens ++ [wikilinkHtml (targetOf inner) (labelOf inner)]⟩ := by
  rw [wikilinkRule]
  cases hinner : innerAt src start with
  | none => simp
  | some inner =>
      have hnil : targetOf [] = [] := rfl
      constructor
      · intro h
        dsimp only at h
        split at h
        next => cases h
        next hbad =>
          split at h
          next => cases h
          next htarget =>
            exact ⟨inner, rfl, fun hmem => hbad (.inr hmem), htarget, (Prod.mk.inj h).2.symm⟩
      · rintro ⟨_, heq, hnewline, htarget, rfl⟩
        cases heq
        have hinner : inner ≠ [] := by
          rintro rfl
          exact htarget hnil
        simp [hinner, hnewline, htarget]

end Reading

section Parts

variable {inner a : JsString}

theorem targetOf_plain (h : unit '|' ∉ inner) : targetOf inner = trim inner := by
  rw [targetOf, pipeIn_eq_none h]

theorem aliasOf_plain (h : unit '|' ∉ inner) : aliasOf inner = [] := by
  rw [aliasOf, pipeIn_eq_none h]

theorem targetOf_piped (b : JsString) (h : unit '|' ∉ a) :
    targetOf (a ++ unit '|' :: b) = trim a := by
  simp only [targetOf, pipeIn_append b h, slice, List.drop_zero, Nat.sub_zero, List.take_left]

theorem aliasOf_piped (b : JsString) (h : unit '|' ∉ a) :
    aliasOf (a ++ unit '|' :: b) = trim b := by
  simp only [aliasOf, pipeIn_append b h, List.drop_append, List.drop_eq_nil_of_le (Nat.le_succ _),
    Nat.add_sub_cancel_left, List.drop_one, List.tail_cons, List.nil_append]

def beforePipe (inner : JsString) : JsString := inner.takeWhile (· != unit '|')

def afterPipe (inner : JsString) : JsString := (inner.dropWhile (· != unit '|')).tail

/-- The part of a link's text that is its label. -/
def shownPart (inner : JsString) : JsString :=
  if (afterPipe inner).all isSpace then beforePipe inner else afterPipe inner

theorem pipe_parts (b : JsString) (h : unit '|' ∉ a) :
    beforePipe (a ++ unit '|' :: b) = a ∧ afterPipe (a ++ unit '|' :: b) = b := by
  have hall : ∀ u ∈ a, (u != unit '|') = true :=
    fun u hu => bne_iff_ne.mpr fun heq => h (heq ▸ hu)
  constructor
  · rw [beforePipe, List.takeWhile_append_of_pos hall, List.takeWhile_cons_of_neg (by simp),
      List.append_nil]
  · rw [afterPipe, List.dropWhile_append_of_pos hall, List.dropWhile_cons_of_neg (by simp),
      List.tail_cons]

theorem plain_parts (h : unit '|' ∉ inner) : beforePipe inner = inner ∧ afterPipe inner = [] := by
  have hall : ∀ u ∈ inner, (u != unit '|') = true :=
    fun u hu => bne_iff_ne.mpr fun heq => h (heq ▸ hu)
  refine ⟨List.takeWhile_eq_self_iff.mpr hall, ?_⟩
  rw [afterPipe, List.dropWhile_eq_nil_iff.mpr hall]
  rfl

theorem targetOf_eq (inner : JsString) : targetOf inner = trim (beforePipe inner) := by
  by_cases hpipe : unit '|' ∈ inner
  · obtain ⟨a, b, rfl, ha⟩ := List.eq_append_cons_of_mem hpipe
    rw [targetOf_piped b ha, (pipe_parts b ha).1]
  · rw [targetOf_plain hpipe, (plain_parts hpipe).1]

theorem aliasOf_eq (inner : JsString) : aliasOf inner = trim (afterPipe inner) := by
  by_cases hpipe : unit '|' ∈ inner
  · obtain ⟨a, b, rfl, ha⟩ := List.eq_append_cons_of_mem hpipe
    rw [aliasOf_piped b ha, (pipe_parts b ha).2]
  · rw [aliasOf_plain hpipe, (plain_parts hpipe).2]
    rfl

theorem labelOf_eq (inner : JsString) : labelOf inner = trim (shownPart inner) := by
  rw [labelOf, aliasOf_eq, targetOf_eq, shownPart]
  by_cases hblank : ∀ u ∈ afterPipe inner, isSpace u = true
  · rw [if_pos (trim_eq_nil.mpr hblank), if_pos (List.all_eq_true.mpr hblank)]
  · rw [if_neg (mt trim_eq_nil.mp hblank), if_neg (mt List.all_eq_true.mp hblank)]

end Parts

section Writing

def written (target label : JsString) : JsString :=
  target ++ if label ≠ [] ∧ label ≠ target then unit '|' :: label else []

variable {target label inner w : JsString}

theorem serialize_eq (target label : JsString) :
    serialize target label = opening ++ written target label ++ closing := by
  rw [serialize, written, ← List.append_assoc opening]

theorem written_same (target : JsString) : written target target = target := by
  rw [written, if_neg (fun h => h.2 rfl), List.append_nil]

theorem written_piped (hlabel : label ≠ []) (hne : label ≠ target) :
    written target label = target ++ unit '|' :: label := by
  rw [written, if_pos ⟨hlabel, hne⟩]

theorem parts_written (hpipe : unit '|' ∉ target) (htarget : trim target = target)
    (htrim : trim label = label) (hlabel : label ≠ []) :
    targetOf (written target label) = target ∧ labelOf (written target label) = label := by
  rcases eq_or_ne label target with rfl | hne
  · rw [written_same, labelOf, targetOf_plain hpipe, aliasOf_plain hpipe, if_pos rfl]
    exact ⟨htarget, htarget⟩
  · rw [written_piped hlabel hne, labelOf, targetOf_piped _ hpipe, aliasOf_piped _ hpipe, htrim,
      if_neg hlabel]
    exact ⟨htarget, rfl⟩

/-- The last bracket of a text is a closing one with a bracket before it. -/
theorem closing_occurs_concat (h : ¬ closing <:+: w) :
    closing <:+: w ++ [unit ']'] ↔ w.getLast? = some (unit ']') := by
  have hcut : closing = [unit ']'] ++ [unit ']'] := rfl
  rw [List.infix_concat_iff, or_iff_left h, List.suffix_concat_iff, or_iff_right (by decide)]
  constructor
  · rintro ⟨t, ht, hsuffix⟩
    rw [hcut] at ht
    obtain rfl : [unit ']'] = t := List.append_cancel_right ht
    obtain ⟨pre, rfl⟩ := hsuffix
    exact List.getLast?_concat
  · intro hlast
    obtain ⟨pre, rfl⟩ := List.getLast?_eq_some_iff.mp hlast
    exact ⟨[unit ']'], hcut, pre, rfl⟩

/-- A link is read again exactly if the brackets after it are the first ones. -/
theorem survives_iff_closed (hpipe : unit '|' ∉ target) (htarget : trim target = target)
    (htrim : trim label = label) (hne : target ≠ []) (hlabel : label ≠ [])
    (hnewline : newline ∉ written target label) :
    Survives target label ↔ ¬ closing <:+: written target label ++ [unit ']'] := by
  obtain ⟨htarget', hlabel'⟩ := parts_written hpipe htarget htrim hlabel
  have hlength : (serialize target label).length = 0 + 2 + (written target label).length + 2 := by
    simp only [serialize_eq, List.length_append]
    have hopening : opening.length = 2 := rfl
    have hclosing : closing.length = 2 := rfl
    omega
  rw [Survives, wikilinkRule_eq_true]
  constructor
  · rintro ⟨inner, hinner, -, -, hafter⟩
    obtain ⟨rest, hsrc, hclosed⟩ := innerAt_eq_some.mp hinner
    have hpos : (serialize target label).length = 0 + 2 + inner.length + 2 :=
      congrArg StateInline.pos hafter
    rw [List.drop_zero, serialize_eq, List.append_assoc, List.append_assoc, List.append_assoc] at hsrc
    have hwritten := (List.append_inj (List.append_cancel_left hsrc) (by omega)).1
    rw [hwritten]
    exact hclosed
  · intro hclosed
    refine ⟨written target label, innerAt_eq_some.mpr ⟨[], ?_, hclosed⟩, hnewline, ?_, ?_⟩
    · rw [List.drop_zero, serialize_eq, List.append_nil]
    · rw [htarget']
      exact hne
    · rw [htarget', hlabel', hlength]
      rfl

end Writing

section Survival

variable {inner : JsString}

theorem trim_targetOf (inner : JsString) : trim (targetOf inner) = targetOf inner := by
  rw [targetOf]
  split
  next => exact trim_trim _
  next => exact trim_trim _

theorem trim_labelOf (inner : JsString) : trim (labelOf inner) = labelOf inner := by
  rw [labelOf_eq, trim_trim]

theorem labelOf_ne_nil (h : targetOf inner ≠ []) : labelOf inner ≠ [] := by
  rw [labelOf]
  split
  next => exact h
  next halias => exact halias

theorem parts_within (inner : JsString) :
    targetOf inner <:+: inner ∧ labelOf inner <:+: inner ∧ unit '|' ∉ targetOf inner := by
  by_cases hpipe : unit '|' ∈ inner
  · obtain ⟨a, b, rfl, ha⟩ := List.eq_append_cons_of_mem hpipe
    have htarget : targetOf (a ++ unit '|' :: b) <:+: a ++ unit '|' :: b := by
      rw [targetOf_piped b ha]
      exact (trim_within a).trans (List.prefix_append a _).isInfix
    refine ⟨htarget, ?_, ?_⟩
    · rw [labelOf]
      split
      next => exact htarget
      next =>
        rw [aliasOf_piped b ha]
        exact (trim_within b).trans (List.suffix_append_of_suffix (List.suffix_cons _ b)).isInfix
    · rw [targetOf_piped b ha]
      exact fun hmem => ha ((trim_within a).subset hmem)
  · have htarget : targetOf inner <:+: inner := by
      rw [targetOf_plain hpipe]
      exact trim_within inner
    refine ⟨htarget, ?_, fun hmem => hpipe (htarget.subset hmem)⟩
    rw [labelOf, if_pos (aliasOf_plain hpipe)]
    exact htarget

/-- The text between the brackets of a link. -/
def between (src : JsString) (start : ℕ) : JsString := (innerAt src start).getD []

/-- A text whose last character, but for white space, is a closing bracket. -/
def EndsInBracket (part : JsString) : Prop :=
  ∃ body blanks, part = body ++ unit ']' :: blanks ∧ ∀ u ∈ blanks, isSpace u = true

theorem endsInBracket_iff (part : JsString) :
    EndsInBracket part ↔ (trim part).getLast? = some (unit ']') := by
  constructor
  · rintro ⟨body, blanks, rfl, hblanks⟩
    have htrim : trim (body ++ unit ']' :: blanks) = trim (body ++ [unit ']']) := by
      have h : trim ([] ++ (body ++ [unit ']']) ++ blanks) = trim (body ++ [unit ']']) :=
        trim_around (fun _ hu => absurd hu List.not_mem_nil) hblanks
      rwa [List.nil_append, List.append_assoc, List.singleton_append] at h
    rw [htrim, trim_concat body (by decide)]
    exact List.getLast?_concat
  · intro hlast
    obtain ⟨body, hbody⟩ := List.getLast?_eq_some_iff.mp hlast
    obtain ⟨pre, post, -, hpost, hpart⟩ := exists_trim part
    refine ⟨pre ++ body, post, ?_, hpost⟩
    rw [hpart, hbody]
    simp only [List.append_assoc, List.singleton_append]

/-- A link survives exactly if no closing bracket ends the part of it that is its label. -/
theorem wikilink_survives_iff (src : JsString) (start : ℕ) (tokens : List JsString)
    (target label : JsString) (after : StateInline)
    (haccept : wikilinkRule ⟨src, start, tokens⟩ false = (true, after))
    (htoken : after.tokens = tokens ++ [wikilinkHtml target label]) :
    Survives target label ↔ ¬ EndsInBracket (shownPart (between src start)) := by
  obtain ⟨inner, hinner, hnewline, hne, rfl⟩ := wikilinkRule_eq_true.mp haccept
  have hhtml := List.append_cancel_left htoken
  obtain ⟨rfl, rfl⟩ := wikilinkHtml_inj (List.cons.inj hhtml).1
  obtain ⟨htarget, hlabel, hpipe⟩ := parts_within inner
  obtain ⟨rest, -, hclosed⟩ := innerAt_eq_some.mp hinner
  have hlabelne := labelOf_ne_nil hne
  have hinnerclosed : ¬ closing <:+: inner :=
    fun h => hclosed (h.trans (List.prefix_append inner _).isInfix)
  have hbetween : between src start = inner := by rw [between, hinner, Option.getD_some]
  have hwritten : newline ∉ written (targetOf inner) (labelOf inner) ∧
      ¬ closing <:+: written (targetOf inner) (labelOf inner) ∧
      (written (targetOf inner) (labelOf inner)).getLast? = (labelOf inner).getLast? := by
    rcases eq_or_ne (labelOf inner) (targetOf inner) with hsame | hdiffers
    · rw [hsame, written_same]
      exact ⟨fun h => hnewline (htarget.subset h), fun h => hinnerclosed (h.trans htarget), rfl⟩
    · rw [written_piped hlabelne hdiffers]
      refine ⟨fun h => ?_, fun h => ?_, ?_⟩
      · rcases List.mem_append.mp h with h | h
        · exact hnewline (htarget.subset h)
        · rcases List.mem_cons.mp h with h | h
          · exact absurd h (by decide)
          · exact hnewline (hlabel.subset h)
      · rcases occurs_append_cons (by decide) h with h | h
        · exact hinnerclosed (h.trans htarget)
        · exact hinnerclosed (h.trans hlabel)
      · rw [List.getLast?_append, List.getLast?_cons_of_ne_nil hlabelne,
          List.getLast?_eq_some_getLast hlabelne]
        rfl
  rw [survives_iff_closed hpipe (trim_targetOf inner) (trim_labelOf inner) hne hlabelne hwritten.1,
    closing_occurs_concat hwritten.2.1, hwritten.2.2, hbetween, endsInBracket_iff, labelOf_eq]

theorem alias_survives_iff :
    Survives (js "Plan".toList) (js "the plan".toList) ↔
      ¬ EndsInBracket (shownPart (between (js "see [[ Plan |the plan]].".toList) 4)) :=
  wikilink_survives_iff (js "see [[ Plan |the plan]].".toList) 4 [] (js "Plan".toList)
    (js "the plan".toList) ⟨js "see [[ Plan |the plan]].".toList, 23,
      [wikilinkHtml (js "Plan".toList) (js "the plan".toList)]⟩ (by decide +kernel) rfl

/-- A link whose label ends with a bracket, and a blank after it, is cut short. -/
theorem bracket_lost : ¬ ∀ (src : JsString) (start : ℕ) (tokens : List JsString)
    (target label : JsString) (after : StateInline),
    wikilinkRule ⟨src, start, tokens⟩ false = (true, after) →
    after.tokens = tokens ++ [wikilinkHtml target label] → Survives target label := by
  intro h
  have hsurvives := h (js "[[a] ]]".toList) 0 [] (js "a]".toList) (js "a]".toList)
    ⟨js "[[a] ]]".toList, 7, [wikilinkHtml (js "a]".toList) (js "a]".toList)]⟩ (by decide +kernel) rfl
  rw [Survives] at hsurvives
  have hpos := congrArg (fun result => result.2.pos) hsurvives
  exact absurd hpos (by decide +kernel)

end Survival

end Tactile.Notes.Wikilink

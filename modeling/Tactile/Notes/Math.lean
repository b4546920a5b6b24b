import Tactile.Notes.Markup

/-!
Formulas: the rules that read them, the text that is written of one, and that it is read
again as it was.
-/

namespace Tactile.Notes.Math

open Tactile.Lib.CodeUnits Tactile.Lib.Matching
open Tactile.Lib.Split
open Tactile.Search.Highlights (slice)
open Tactile.Notes.Markup
open scoped List

def dollar : UInt16 := unit '$'

def newline : UInt16 := unit '\n'

section Inline

/-- What may not stand inside next to a dollar sign. -/
def isBlank (u : UInt16) : Bool := u == unit ' ' || u == unit '\t' || u == newline

def isDigit (u : UInt16) : Bool := unit '0' ≤ u && u ≤ unit '9'

/-- The loop for the closing dollar sign, after a unit: how far it is. -/
def closingFrom : UInt16 → JsString → Option ℕ
  | _, [] => none
  | prev, ch :: rest =>
    if ch = dollar ∧ prev ≠ unit '\\' then if isBlank prev then none else some 0
    else if ch = newline then none
    else (closingFrom ch rest).map (· + 1)

def inlineHtml (latex : JsString) : JsString :=
  js "<span data-type=\"inline-math\" data-latex=\"".toList ++ esc latex ++ js "\"></span>".toList

def inlineMath (state : StateInline) (silent : Bool) : Bool × StateInline :=
  let src := state.src
  let start := state.pos
  if src[start]? ≠ some dollar then (false, state)
  else if src[start + 1]? = some dollar then (false, state)
  else if (src[start + 1]?.map isBlank).getD false then (false, state)
  else
    match closingFrom dollar (src.drop (start + 1)) with
    | none => (false, state)
    | some n =>
      let pos := start + 1 + n
      if (src[pos + 1]?.map isDigit).getD false then (false, state)
      else
        let latex := slice src (start + 1) pos
        if latex = [] then (false, state)
        else
          (true, { state with
            pos := pos + 1
            tokens := if silent then state.tokens else state.tokens ++ [inlineHtml latex] })

def serializeInline (latex : JsString) : JsString := dollar :: latex ++ [dollar]

theorem closingFrom_eq_some {prev : UInt16} {s : JsString} {n : ℕ} :
    closingFrom prev s = some n →
      ∃ body rest, s = body ++ dollar :: rest ∧ body.length = n ∧
        ∀ rest', closingFrom prev (body ++ dollar :: rest') = some n := by
  induction s generalizing prev n with
  | nil => exact fun h => absurd h (by simp [closingFrom])
  | cons ch s ih =>
      intro h
      rw [closingFrom] at h
      split at h
      next hclose =>
        split at h
        next => cases h
        next hblank =>
          cases h
          refine ⟨[], s, congrArg (· :: s) hclose.1, rfl, fun rest' => ?_⟩
          rw [List.nil_append, closingFrom, if_pos ⟨rfl, hclose.2⟩, if_neg hblank]
      next hopen =>
        split at h
        next => cases h
        next hline =>
          obtain ⟨m, hm, rfl⟩ := Option.map_eq_some_iff.mp h
          obtain ⟨body, rest, rfl, rfl, hany⟩ := ih hm
          refine ⟨ch :: body, rest, rfl, rfl, fun rest' => ?_⟩
          rw [List.cons_append, closingFrom, if_neg hopen, if_neg hline, hany rest']
          rfl

theorem inlineHtml_inj {latex latex' : JsString} (h : inlineHtml latex = inlineHtml latex') :
    latex = latex' := by
  simp only [inlineHtml, List.append_assoc] at h
  exact esc_inj (List.append_cancel_right (List.append_cancel_left h))

/-- The text of a formula that is read, whatever comes after it. -/
def Closes (latex : JsString) : Prop :=
  ∃ u l, latex = u :: l ∧ u ≠ dollar ∧ isBlank u = false ∧
    ∀ rest, closingFrom dollar (latex ++ dollar :: rest) = some latex.length

theorem inlineMath_accepts {src : JsString} {start : ℕ} {tokens : List JsString}
    {after : StateInline} (h : inlineMath ⟨src, start, tokens⟩ false = (true, after)) :
    ∃ latex, Closes latex ∧ after.tokens = tokens ++ [inlineHtml latex] := by
  rw [inlineMath] at h
  dsimp only at h
  split at h
  next => cases h
  next hopen =>
  split at h
  next => cases h
  next hblock =>
  split at h
  next => cases h
  next hblank =>
  cases hclose : closingFrom dollar (src.drop (start + 1)) with
  | none =>
      rw [hclose] at h
      cases h
  | some n =>
      rw [hclose] at h
      dsimp only at h
      split at h
      next => cases h
      next hdigit =>
      split at h
      next => cases h
      next hempty =>
        obtain ⟨body, rest, hsrc, rfl, hany⟩ := closingFrom_eq_some hclose
        have hlatex : slice src (start + 1) (start + 1 + body.length) = body := by
          rw [slice, Nat.add_sub_cancel_left, hsrc, List.take_left]
        rw [hlatex] at h hempty
        obtain ⟨u, l, rfl⟩ := List.exists_cons_of_ne_nil hempty
        have hu : src[start + 1]? = some u := by
          rw [← List.head?_drop, hsrc]
          rfl
        rw [hu] at hblock hblank
        exact ⟨u :: l, ⟨u, l, rfl, fun heq => hblock (congrArg some heq),
          by simpa using hblank, hany⟩, congrArg StateInline.tokens (Prod.mk.inj h).2.symm⟩

theorem inlineMath_written {latex : JsString} (h : Closes latex) :
    inlineMath ⟨serializeInline latex, 0, []⟩ false =
      (true, ⟨serializeInline latex, (serializeInline latex).length, [inlineHtml latex]⟩) := by
  obtain ⟨u, l, hlatex, hu, hblank, hany⟩ := h
  have hfirst : (serializeInline latex)[0 + 1]? = some u := by
    rw [hlatex]
    rfl
  have hdrop : (serializeInline latex).drop (0 + 1) = latex ++ dollar :: [] := rfl
  have hend : (serializeInline latex)[0 + 1 + latex.length + 1]? = none := by
    rw [List.getElem?_eq_none_iff, serializeInline]
    simp only [List.length_append, List.length_cons, List.length_nil]
    omega
  have hslice : slice (serializeInline latex) (0 + 1) (0 + 1 + latex.length) = latex := by
    rw [slice, Nat.add_sub_cancel_left, hdrop, List.take_left]
  have hlength : 0 + 1 + latex.length + 1 = (serializeInline latex).length := by
    rw [serializeInline]
    simp only [List.length_append, List.length_cons, List.length_nil]
    omega
  rw [inlineMath]
  dsimp only
  rw [if_neg (fun h => h rfl), hfirst, if_neg (fun heq => hu (Option.some.inj heq)),
    if_neg (by simp [hblank]), hdrop, hany []]
  dsimp only
  rw [hend, if_neg (by simp), hslice, if_neg (by simp [hlatex]), hlength]
  rfl

/-- A formula in a line is read as it was, to the end of what is written of it. -/
theorem inlineMath_survives {src : JsString} {start : ℕ} {tokens : List JsString}
    {latex : JsString} {after : StateInline}
    (haccept : inlineMath ⟨src, start, tokens⟩ false = (true, after))
    (htoken : after.tokens = tokens ++ [inlineHtml latex]) :
    inlineMath ⟨serializeInline latex, 0, []⟩ false =
      (true, ⟨serializeInline latex, (serializeInline latex).length, [inlineHtml latex]⟩) := by
  obtain ⟨latex', hcloses, htokens⟩ := inlineMath_accepts haccept
  rw [htokens] at htoken
  obtain rfl := inlineHtml_inj (List.cons.inj (List.append_cancel_left htoken)).1
  exact inlineMath_written hcloses

end Inline

section Block

/-- A token of the block parser, with the lines it is made of. -/
structure BlockToken where
  content : JsString
  map : ℕ × ℕ
  deriving DecidableEq

/-- A document that is read: where its lines start and end, and how far they are indented. -/
structure StateBlock where
  src : JsString
  bMarks : List ℕ
  eMarks : List ℕ
  tShift : List ℕ
  lineMax : ℕ
  line : ℕ
  tokens : List BlockToken
  deriving DecidableEq

def fence : JsString := js "$$".toList

namespace StateBlock

def start (state : StateBlock) (line : ℕ) : ℕ := state.bMarks.getD line 0 + state.tShift.getD line 0

def stop (state : StateBlock) (line : ℕ) : ℕ := state.eMarks.getD line 0

def lineText (state : StateBlock) (line : ℕ) : JsString :=
  slice state.src (state.start line) (state.stop line)

def lineTexts (state : StateBlock) (first last : ℕ) : List JsString :=
  (List.range' first (last - first)).map state.lineText

end StateBlock

/-- The first fence of a line, when nothing but white space comes after it. -/
def closingIn (text : JsString) : Option ℕ :=
  (indexOf fence text 0).filter fun k => trim (text.drop (k + 2)) = []

/-- The loop over the lines for the closing fence: the parts before it. -/
def untilClosing : List JsString → Option (List JsString)
  | [] => none
  | text :: rest =>
    match closingIn text with
    | some k => some [text.take k]
    | none => (untilClosing rest).map (text :: ·)

/-- The lines of a formula that starts with a line, without the fences. -/
def parts (first : JsString) (rest : List JsString) : Option (List JsString) :=
  match closingIn first with
  | some k => some [first.take k]
  | none => (untilClosing rest).map (first :: ·)

def blockHtml (latex : JsString) : JsString :=
  js "<div data-type=\"block-math\" data-latex=\"".toList ++ esc latex ++ js "\"></div>\n".toList

def blockMath (state : StateBlock) (startLine endLine : ℕ) (silent : Bool) : Bool × StateBlock :=
  let start := state.start startLine
  if slice state.src start (start + 2) ≠ fence then (false, state)
  else
    let first := slice state.src (start + 2) (state.stop startLine)
    match parts first (state.lineTexts (startLine + 1) endLine) with
    | none => (false, state)
    | some parts =>
      if silent then (true, state)
      else
        let lastLine := startLine + (parts.length - 1)
        let latex := List.intercalate [newline] parts
        (true, { state with
          line := lastLine + 1
          tokens := state.tokens ++ [⟨blockHtml (trim latex), (startLine, lastLine + 1)⟩] })

def serializeBlock (latex : JsString) : JsString := fence ++ newline :: latex ++ newline :: fence

/-- What the block parser takes for indentation. -/
def isIndent (u : UInt16) : Bool := u == unit ' ' || u == unit '\t'

/-- The lines of a source; a last one that is empty but for indentation is none. -/
def sourceLines (src : JsString) : List JsString :=
  let lines := src.splitOn newline
  if (lines.getLast?.map fun line => line.all isIndent).getD true then lines.dropLast else lines

/-- The marks of the lines of a source at the top level. -/
structure Marks (state : StateBlock) (src : JsString) : Prop where
  source : state.src = src
  lineMax : state.lineMax = (sourceLines src).length
  starts : ∀ i < state.lineMax, state.start i ≤ state.stop i
  text : ∀ i < state.lineMax,
    some (state.lineText i) = ((sourceLines src)[i]?).map (List.dropWhile isIndent)
  ends : ∀ i < state.lineMax, ∀ u ∈ src[state.stop i]?, u = newline

section Closing

variable {text a : JsString} {k : ℕ}

theorem fence_ne_nil : fence ≠ [] := by decide

theorem closingIn_eq_some :
    closingIn text = some k ↔
      ∃ a blanks, text = a ++ fence ++ blanks ∧ a.length = k ∧ ¬ fence <:+: a ++ [dollar] ∧
        ∀ u ∈ blanks, isSpace u = true := by
  have hindex : indexOf fence text 0 = occurrence fence text := by
    rw [indexOf, List.drop_zero]
    cases occurrence fence text with
    | none => rfl
    | some k => exact congrArg some (Nat.zero_add k)
  rw [closingIn, hindex, Option.filter_eq_some_iff, occurrence_eq_some fence_ne_nil,
    decide_eq_true_eq, trim_eq_nil]
  constructor
  · rintro ⟨⟨a, blanks, rfl, rfl, hfirst⟩, hblanks⟩
    rw [List.append_assoc, List.drop_append] at hblanks
    refine ⟨a, blanks, rfl, rfl, hfirst, fun u hu => hblanks u ?_⟩
    exact List.mem_append_right _ (by simpa [fence, js] using hu)
  · rintro ⟨a, blanks, rfl, rfl, hfirst, hblanks⟩
    refine ⟨⟨a, blanks, rfl, rfl, hfirst⟩, ?_⟩
    rw [List.append_assoc, List.drop_append, List.drop_eq_nil_of_le (Nat.le_add_right _ _),
      Nat.add_sub_cancel_left]
    exact hblanks

theorem closingIn_eq_none (h : ¬ fence <:+: text) : closingIn text = none := by
  rw [Option.eq_none_iff_forall_ne_some]
  intro k hk
  obtain ⟨a, blanks, rfl, -⟩ := closingIn_eq_some.mp hk
  exact h (List.infix_append a fence blanks)

theorem fence_occurs_blank {x : JsString} (hx : ∀ u ∈ x, isSpace u = true) (h : fence <:+: x ++ a) :
    fence <:+: a := by
  induction x with
  | nil => exact h
  | cons u x ih =>
      rw [List.cons_append, List.infix_cons_iff] at h
      rcases h with h | h
      · obtain ⟨rest, hrest⟩ := h
        have hu : u = dollar := (List.cons.inj hrest).1.symm
        have hspace := hx u List.mem_cons_self
        rw [hu] at hspace
        exact absurd hspace (by decide)
      · exact ih (fun v hv => hx v (List.mem_cons_of_mem u hv)) h

/-- White space around a line closes nothing in it. -/
theorem closingIn_around {x y : JsString} (hx : ∀ u ∈ x, isSpace u = true)
    (hy : ∀ u ∈ y, isSpace u = true) (h : closingIn (x ++ text ++ y) = none) :
    closingIn text = none := by
  rw [Option.eq_none_iff_forall_ne_some]
  intro k hk
  obtain ⟨a, blanks, rfl, rfl, hfirst, hblanks⟩ := closingIn_eq_some.mp hk
  have hsome : closingIn (x ++ (a ++ fence ++ blanks) ++ y) = some (x ++ a).length := by
    refine closingIn_eq_some.mpr ⟨x ++ a, blanks ++ y, ?_, rfl, fun hoccurs => hfirst ?_, ?_⟩
    · simp only [List.append_assoc]
    · rw [List.append_assoc] at hoccurs
      exact fence_occurs_blank hx hoccurs
    · exact fun u hu => (List.mem_append.mp hu).elim (hblanks u) (hy u)
  rw [h] at hsome
  cases hsome

theorem untilClosing_eq_some {texts ps : List JsString} :
    untilClosing texts = some ps ↔
      ∃ mid last k more, texts = mid ++ last :: more ∧ (∀ m ∈ mid, closingIn m = none) ∧
        closingIn last = some k ∧ ps = mid ++ [last.take k] := by
  induction texts generalizing ps with
  | nil =>
      constructor
      · intro h
        cases h
      · rintro ⟨mid, last, k, more, h, -⟩
        simp at h
  | cons text texts ih =>
      rw [untilClosing]
      cases hclose : closingIn text with
      | some k =>
          constructor
          · intro h
            cases h
            exact ⟨[], text, k, texts, rfl, fun _ hm => absurd hm List.not_mem_nil, hclose, rfl⟩
          · rintro ⟨mid, last, k', more, htexts, hmid, hlast, rfl⟩
            cases mid with
            | nil =>
                obtain ⟨rfl, rfl⟩ := List.cons.inj htexts
                rw [hclose] at hlast
                cases hlast
                rfl
            | cons m mid =>
                obtain ⟨rfl, -⟩ := List.cons.inj htexts
                have hnone := hmid text List.mem_cons_self
                rw [hclose] at hnone
                cases hnone
      | none =>
          constructor
          · intro h
            obtain ⟨ps', hps, rfl⟩ := Option.map_eq_some_iff.mp h
            obtain ⟨mid, last, k, more, rfl, hmid, hlast, rfl⟩ := ih.mp hps
            exact ⟨text :: mid, last, k, more, rfl, List.forall_mem_cons.mpr ⟨hclose, hmid⟩, hlast, rfl⟩
          · rintro ⟨mid, last, k, more, htexts, hmid, hlast, rfl⟩
            cases mid with
            | nil =>
                obtain ⟨rfl, -⟩ := List.cons.inj htexts
                rw [hclose] at hlast
                cases hlast
            | cons m mid =>
                obtain ⟨rfl, rfl⟩ := List.cons.inj htexts
                exact Option.map_eq_some_iff.mpr ⟨mid ++ [last.take k], ih.mpr ⟨mid, last, k, more, rfl,
                  (List.forall_mem_cons.mp hmid).2, hlast, rfl⟩, rfl⟩

theorem parts_eq (first : JsString) (rest : List JsString) :
    parts first rest = untilClosing (first :: rest) := rfl

end Closing

section Bodies

/-- The lines of a formula: none closes it, and those after the first one are not indented. -/
structure Body (lines : List JsString) : Prop where
  nonempty : lines ≠ []
  flat : ∀ p ∈ lines, newline ∉ p
  unclosed : ∀ p ∈ lines, closingIn p = none
  unindented : ∀ p ∈ lines.tail, p.dropWhile isIndent = p

theorem isSpace_of_isIndent {u : UInt16} (h : isIndent u = true) : isSpace u = true := by
  rcases (Bool.or_eq_true _ _).mp h with h | h
  · rw [beq_iff_eq.mp h]
    decide
  · rw [beq_iff_eq.mp h]
    decide

theorem unindented_of_append {q y : JsString}
    (h : (q ++ y).dropWhile isIndent = q ++ y) : q.dropWhile isIndent = q := by
  cases q with
  | nil => rfl
  | cons u q =>
      by_cases hu : isIndent u = true
      · rw [List.cons_append, List.dropWhile_cons_of_pos hu] at h
        have hle := List.length_dropWhile_le isIndent (q ++ y)
        rw [h, List.length_cons] at hle
        omega
      · exact List.dropWhile_cons_of_neg hu

/-- Trimming the text of a formula leaves lines that close nothing, without indentation. -/
theorem Body.trimmed {lines : List JsString} (h : Body lines) {q : JsString}
    (hq : q ∈ (trim (List.intercalate [newline] lines)).splitOn newline) :
    newline ∉ q ∧ closingIn q = none ∧ q.dropWhile isIndent = q := by
  obtain ⟨pre, post, hpre, hpost, hraw⟩ := exists_trim (List.intercalate [newline] lines)
  obtain ⟨a, b, htrim, ha, hb⟩ := around_of_mem_splitOn hq
  have hflat := notMem_of_mem_splitOn hq
  have hsplit := List.splitOn_intercalate newline h.flat h.nonempty
  obtain ⟨A, x, hleft, hx, hxline, hA, haA⟩ : ∃ A x, pre ++ a = A ++ x ∧
      (∀ u ∈ x, isSpace u = true) ∧ newline ∉ x ∧ (A = [] ∨ ∃ A', A = A' ++ [newline]) ∧
      (a ≠ [] → A ≠ [] ∧ x = []) := by
    rcases ha with rfl | ⟨a', rfl⟩
    · obtain ⟨A, x, hcut, hline, hA⟩ := exists_lastPart pre newline
      refine ⟨A, x, by rw [List.append_nil, hcut], fun u hu => hpre u ?_, hline, hA,
        fun h => absurd rfl h⟩
      rw [hcut]
      exact List.mem_append_right A hu
    · refine ⟨pre ++ (a' ++ [newline]), [], (List.append_nil _).symm, fun _ hu => absurd hu List.not_mem_nil,
        List.not_mem_nil, .inr ⟨pre ++ a', (List.append_assoc ..).symm⟩, fun _ => ⟨by simp, rfl⟩⟩
  obtain ⟨y, B, hright, hy, hyline, hB⟩ : ∃ y B, b ++ post = y ++ B ∧
      (∀ u ∈ y, isSpace u = true) ∧ newline ∉ y ∧ (B = [] ∨ ∃ B', B = newline :: B') := by
    rcases hb with rfl | ⟨b', rfl⟩
    · obtain ⟨y, B, hcut, hline, hB⟩ := exists_firstPart post newline
      refine ⟨y, B, by rw [List.nil_append, hcut], fun u hu => hpost u ?_, hline, hB⟩
      rw [hcut]
      exact List.mem_append_left B hu
    · exact ⟨[], newline :: b' ++ post, rfl, fun _ hu => absurd hu List.not_mem_nil, List.not_mem_nil,
        .inr ⟨b' ++ post, rfl⟩⟩
  have haround : List.intercalate [newline] lines = A ++ (x ++ q ++ y) ++ B := by
    calc
      List.intercalate [newline] lines = pre ++ a ++ q ++ (b ++ post) := by
        rw [hraw, htrim]
        simp only [List.append_assoc]
      _ = A ++ (x ++ q ++ y) ++ B := by
        rw [hleft, hright]
        simp only [List.append_assoc]
  have hline : newline ∉ x ++ q ++ y := by
    simp only [List.mem_append, not_or]
    exact ⟨⟨hxline, hflat⟩, hyline⟩
  obtain ⟨hmem, htail⟩ := mem_splitOn_around hline hA hB
  rw [← haround, hsplit] at hmem htail
  refine ⟨hflat, closingIn_around hx hy (h.unclosed _ hmem), ?_⟩
  rcases List.eq_nil_or_concat a with rfl | ⟨a', u, rfl⟩
  · cases q with
    | nil => rfl
    | cons u q =>
        refine List.dropWhile_cons_of_neg fun hindent => ?_
        have hhead : u ∈ (trim (List.intercalate [newline] lines)).head? := by
          rw [htrim]
          rfl
        have hspace := not_isSpace_head_trim _ hhead
        rw [isSpace_of_isIndent hindent] at hspace
        cases hspace
  · obtain ⟨hAne, rfl⟩ := haA (by simp)
    exact unindented_of_append (h.unindented _ (htail hAne))

end Bodies

section Reading

variable {state : StateBlock} {src : JsString}

theorem sourceLines_subset (src : JsString) {line : JsString} (h : line ∈ sourceLines src) :
    line ∈ src.splitOn newline := by
  rw [sourceLines] at h
  split at h
  next => exact List.dropLast_subset _ h
  next => exact h

theorem Marks.lineText_flat (h : Marks state src) {i : ℕ} (hi : i < state.lineMax) :
    newline ∉ state.lineText i ∧
      (state.lineText i).dropWhile isIndent = state.lineText i := by
  obtain ⟨line, hline, htext⟩ := Option.map_eq_some_iff.mp (h.text i hi).symm
  rw [← htext]
  refine ⟨fun hmem => ?_, List.dropWhile_idempotent isIndent line⟩
  exact notMem_of_mem_splitOn (sourceLines_subset src (List.mem_of_getElem? hline))
    ((List.dropWhile_sublist isIndent).subset hmem)

theorem Marks.mem_lineTexts (h : Marks state src) {first last : ℕ} (hlast : last ≤ state.lineMax)
    {text : JsString} (htext : text ∈ state.lineTexts first last) :
    newline ∉ text ∧ text.dropWhile isIndent = text := by
  obtain ⟨i, hi, rfl⟩ := List.mem_map.mp htext
  rw [List.mem_range'_1] at hi
  exact h.lineText_flat (by omega)

theorem Marks.fenced (h : Marks state src) {i : ℕ} (hi : i < state.lineMax)
    (hfence : slice state.src (state.start i) (state.start i + 2) = fence) :
    state.lineText i = fence ++ slice state.src (state.start i + 2) (state.stop i) := by
  rw [slice, Nat.add_sub_cancel_left] at hfence
  have hcut : state.src.drop (state.start i) = fence ++ state.src.drop (state.start i + 2) := by
    rw [← hfence, ← List.drop_drop, List.take_append_drop]
  have hle := h.starts i hi
  have hlong : state.start i + 2 ≤ state.stop i := by
    by_contra hshort
    have hstop : src[state.stop i]? = some dollar := by
      rw [← h.source, ← Nat.add_sub_cancel' hle, ← List.getElem?_drop, hcut]
      have hoffset : state.stop i - state.start i = 0 ∨ state.stop i - state.start i = 1 := by omega
      rcases hoffset with hoffset | hoffset
      · rw [hoffset]
        rfl
      · rw [hoffset]
        rfl
    exact absurd (h.ends i hi dollar hstop) (by decide)
  have hlen : fence.length = 2 := rfl
  rw [StateBlock.lineText, slice, slice, hcut, List.take_append, List.take_of_length_le (by omega),
    hlen, Nat.sub_sub]

/-- What is read up to a closing fence is the text of a formula. -/
theorem body_of_parts {first : JsString} {texts ps : List JsString} (hfirst : newline ∉ first)
    (htexts : ∀ text ∈ texts, newline ∉ text ∧ text.dropWhile isIndent = text)
    (h : parts first texts = some ps) : Body ps := by
  rw [parts_eq] at h
  obtain ⟨mid, last, k, more, hcut, hmid, hlast, rfl⟩ := untilClosing_eq_some.mp h
  obtain ⟨a, blanks, hline, rfl, hopen, -⟩ := closingIn_eq_some.mp hlast
  have htake : last.take a.length = a := by
    rw [hline, List.append_assoc, List.take_left]
  have hflat : ∀ text ∈ first :: texts, newline ∉ text :=
    List.forall_mem_cons.mpr ⟨hfirst, fun text htext => (htexts text htext).1⟩
  rw [htake]
  refine ⟨by simp, fun p hp => ?_, fun p hp => ?_, fun p hp => ?_⟩
  · rcases List.mem_append.mp hp with hp | hp
    · exact hflat p (hcut ▸ List.mem_append_left _ hp)
    · rw [List.mem_singleton.mp hp]
      intro hmem
      refine hflat last (hcut ▸ List.mem_append_right _ List.mem_cons_self) ?_
      rw [hline]
      exact List.mem_append_left _ (List.mem_append_left _ hmem)
  · rcases List.mem_append.mp hp with hp | hp
    · exact hmid p hp
    · rw [List.mem_singleton.mp hp]
      exact closingIn_eq_none fun hoccurs => hopen (hoccurs.trans (List.prefix_append a _).isInfix)
  · cases mid with
    | nil => cases hp
    | cons m mid =>
        obtain ⟨-, rfl⟩ := List.cons.inj hcut
        rcases List.mem_append.mp hp with hp | hp
        · exact (htexts p (List.mem_append_left _ hp)).2
        · rw [List.mem_singleton.mp hp]
          have hstable := (htexts last (List.mem_append_right _ List.mem_cons_self)).2
          rw [hline, List.append_assoc] at hstable
          exact unindented_of_append hstable

theorem blockHtml_inj {latex latex' : JsString} (h : blockHtml latex = blockHtml latex') :
    latex = latex' := by
  simp only [blockHtml, List.append_assoc] at h
  exact esc_inj (List.append_cancel_right (List.append_cancel_left h))

theorem blockMath_accepts {startLine endLine : ℕ} {after : StateBlock} (hmarks : Marks state src)
    (hstart : startLine < endLine) (hend : endLine ≤ state.lineMax)
    (h : blockMath state startLine endLine false = (true, after)) :
    ∃ lines map, Body lines ∧ after.tokens =
      state.tokens ++ [⟨blockHtml (trim (List.intercalate [newline] lines)), map⟩] := by
  rw [blockMath] at h
  dsimp only at h
  split at h
  next => cases h
  next hfence =>
    have hline := hmarks.fenced (by omega) (not_not.mp hfence)
    have hflat := (hmarks.lineText_flat (i := startLine) (by omega)).1
    cases hparts : parts (slice state.src (state.start startLine + 2) (state.stop startLine))
        (state.lineTexts (startLine + 1) endLine) with
    | none =>
        rw [hparts] at h
        cases h
    | some lines =>
        rw [hparts] at h
        refine ⟨lines, _, body_of_parts ?_ (fun text htext => hmarks.mem_lineTexts hend htext) hparts,
          congrArg StateBlock.tokens (Prod.mk.inj h).2.symm⟩
        rw [hline] at hflat
        exact fun hmem => hflat (List.mem_append_right fence hmem)

end Reading

section Writing

variable {state : StateBlock} {latex : JsString}

theorem splitOn_between {a b : JsString} (ha : newline ∉ a) (hb : newline ∉ b) (s : JsString) :
    (a ++ newline :: s ++ newline :: b).splitOn newline = a :: s.splitOn newline ++ [b] := by
  rw [List.append_assoc, List.cons_append, List.splitOn_append_cons_self,
    List.splitOn_append_cons_self, List.splitOn_eq_singleton ha, List.splitOn_eq_singleton hb]
  rfl

theorem sourceLines_serializeBlock (latex : JsString) :
    sourceLines (serializeBlock latex) = fence :: latex.splitOn newline ++ [fence] := by
  have hflat : newline ∉ fence := by decide
  have hblank : fence.all isIndent = false := by decide
  have hlast : (fence :: latex.splitOn newline ++ [fence]).getLast? = some fence :=
    List.getLast?_concat
  rw [sourceLines, serializeBlock, splitOn_between hflat hflat, hlast, Option.map_some, Option.getD_some, hblank, if_neg Bool.false_ne_true]

/-- The lines that are read of a formula that was written. -/
theorem Marks.written_lines (h : Marks state (serializeBlock latex))
    (hlines : ∀ q ∈ latex.splitOn newline, q.dropWhile isIndent = q) :
    state.lineMax = (latex.splitOn newline).length + 2 ∧ state.lineText 0 = fence ∧
      state.lineTexts 1 state.lineMax = latex.splitOn newline ++ [fence] := by
  have hfence : fence.dropWhile isIndent = fence := by decide
  have hmax := h.lineMax
  have htext := h.text
  rw [sourceLines_serializeBlock] at hmax htext
  rw [List.length_append, List.length_cons, List.length_singleton] at hmax
  refine ⟨hmax, ?_, ?_⟩
  · have hfirst := Option.some.inj (htext 0 (by omega))
    rw [hfirst, hfence]
  · apply List.ext_getElem?
    intro i
    rw [StateBlock.lineTexts, List.getElem?_map, hmax]
    by_cases hi : i < (latex.splitOn newline).length + 1
    · rw [List.getElem?_range' (by omega), Option.map_some, Nat.one_mul, htext _ (by omega),
        List.cons_append, Nat.add_comm 1 i, List.getElem?_cons_succ]
      cases hline : (latex.splitOn newline ++ [fence])[i]? with
      | none => rfl
      | some line =>
          rcases List.mem_append.mp (List.mem_of_getElem? hline) with hmem | hmem
          · exact congrArg some (hlines line hmem)
          · rw [List.mem_singleton.mp hmem]
            exact congrArg some hfence
    · rw [List.getElem?_eq_none (by rw [List.length_range']; omega),
        List.getElem?_eq_none (by rw [List.length_append, List.length_singleton]; omega)]
      rfl

/-- The text of a formula is read again as it was, to the last line. -/
theorem blockMath_written (hmarks : Marks state (serializeBlock latex)) (htrim : trim latex = latex)
    (hlines : ∀ q ∈ latex.splitOn newline, closingIn q = none ∧ q.dropWhile isIndent = q) :
    blockMath state 0 state.lineMax false =
      (true, { state with
        line := state.lineMax
        tokens := state.tokens ++ [⟨blockHtml latex, (0, state.lineMax)⟩] }) := by
  obtain ⟨hmax, hfirst, htexts⟩ := hmarks.written_lines fun q hq => (hlines q hq).2
  have hlen : fence.length = 2 := rfl
  have hfence : slice state.src (state.start 0) (state.start 0 + 2) = fence := by
    rw [StateBlock.lineText, slice] at hfirst
    have hlong := congrArg List.length hfirst
    rw [List.length_take, hlen] at hlong
    rw [slice, Nat.add_sub_cancel_left, ← Nat.min_eq_left (show 2 ≤ state.stop 0 - state.start 0 by omega),
      ← List.take_take, hfirst]
    rfl
  have hempty : slice state.src (state.start 0 + 2) (state.stop 0) = [] := by
    have hcut := hmarks.fenced (i := 0) (by omega) hfence
    rw [hfirst] at hcut
    exact List.self_eq_append_right.mp hcut
  have hparts : parts [] (latex.splitOn newline ++ [fence]) =
      some ([] :: latex.splitOn newline ++ [[]]) := by
    rw [parts_eq]
    refine untilClosing_eq_some.mpr ⟨[] :: latex.splitOn newline, fence, 0, [], rfl, ?_, by decide, rfl⟩
    exact List.forall_mem_cons.mpr ⟨by decide, fun q hq => (hlines q hq).1⟩
  have hjoined : List.intercalate [newline] ([] :: latex.splitOn newline ++ [[]]) =
      [newline] ++ latex ++ [newline] := by
    have hsplit := splitOn_between (a := []) (b := []) List.not_mem_nil List.not_mem_nil latex
    rw [← hsplit, List.intercalate_splitOn]
    rfl
  have hspace : ∀ u ∈ [newline], isSpace u = true := List.forall_mem_singleton.mpr (by decide)
  rw [blockMath]
  dsimp only
  rw [hfence, if_neg (fun h => h rfl), hempty, Nat.zero_add, htexts, hparts]
  dsimp only
  have hcount : 0 + (([] :: latex.splitOn newline ++ [[]]).length - 1) + 1 = state.lineMax := by
    rw [hmax, List.length_append, List.length_cons, List.length_singleton]
    omega
  rw [if_neg Bool.false_ne_true, hjoined, trim_around hspace hspace, htrim, hcount]

end Writing

end Block

/-- Formulas are read again as they were, to the end of what is written of them: those in a
line, and those on lines of their own at the top level. -/
theorem math_survives :
    (∀ (src : JsString) (start : ℕ) (tokens : List JsString) (latex : JsString)
        (after : StateInline),
      inlineMath ⟨src, start, tokens⟩ false = (true, after) →
      after.tokens = tokens ++ [inlineHtml latex] →
      inlineMath ⟨serializeInline latex, 0, []⟩ false =
        (true, ⟨serializeInline latex, (serializeInline latex).length, [inlineHtml latex]⟩)) ∧
    ∀ (src : JsString) (state again after : StateBlock) (startLine endLine : ℕ) (map : ℕ × ℕ)
        (latex : JsString), Marks state src → startLine < endLine → endLine ≤ state.lineMax →
      blockMath state startLine endLine false = (true, after) →
      after.tokens = state.tokens ++ [⟨blockHtml latex, map⟩] →
      Marks again (serializeBlock latex) →
      blockMath again 0 again.lineMax false =
        (true, { again with
          line := again.lineMax
          tokens := again.tokens ++ [⟨blockHtml latex, (0, again.lineMax)⟩] }) := by
  refine ⟨fun _ _ _ _ _ haccept htoken => inlineMath_survives haccept htoken, ?_⟩
  intro src state again after startLine endLine map latex hmarks hstart hend haccept htoken hagain
  obtain ⟨lines, map', hbody, htokens⟩ := blockMath_accepts hmarks hstart hend haccept
  rw [htokens] at htoken
  have hcontent := congrArg BlockToken.content (List.cons.inj (List.append_cancel_left htoken)).1
  obtain rfl := blockHtml_inj hcontent
  exact blockMath_written hagain (trim_trim _) fun q hq => (hbody.trimmed hq).2

section Sample

/-- A formula over two lines, the second one indented. -/
def sumState : StateBlock :=
  ⟨js "$$ x\n  + y $$".toList, [0, 5], [4, 13], [0, 2], 2, 0, []⟩

def sumAgain : StateBlock :=
  ⟨js "$$\nx\n+ y\n$$".toList, [0, 3, 5, 9], [2, 4, 8, 11], [0, 0, 0, 0], 4, 0, []⟩

theorem eq_newline_of_getD {o : Option UInt16} (h : o.getD newline = newline) :
    ∀ u ∈ o, u = newline := by
  intro u hu
  rw [Option.mem_def.mp hu] at h
  exact h

theorem sumState_marks : Marks sumState (js "$$ x\n  + y $$".toList) :=
  have hends : ∀ i < sumState.lineMax,
      sumState.src[sumState.stop i]?.getD newline = newline := by decide +kernel
  ⟨rfl, by decide, by decide +kernel, by decide +kernel,
    fun i hi => eq_newline_of_getD (hends i hi)⟩

theorem sumAgain_marks : Marks sumAgain (serializeBlock (js "x\n+ y".toList)) :=
  have hends : ∀ i < sumAgain.lineMax,
      (serializeBlock (js "x\n+ y".toList))[sumAgain.stop i]?.getD newline = newline := by
    decide +kernel
  ⟨rfl, by decide, by decide +kernel, by decide +kernel,
    fun i hi => eq_newline_of_getD (hends i hi)⟩

theorem math_survives_sum :
    inlineMath ⟨serializeInline (js "a\\$b".toList), 0, []⟩ false =
        (true, ⟨js "$a\\$b$".toList, 6, [inlineHtml (js "a\\$b".toList)]⟩) ∧
      blockMath sumAgain 0 4 false =
        (true, { sumAgain with
          line := 4
          tokens := [⟨blockHtml (js "x\n+ y".toList), (0, 4)⟩] }) :=
  ⟨math_survives.1 (js "is $a\\$b$.".toList) 3 [] (js "a\\$b".toList)
      ⟨js "is $a\\$b$.".toList, 9, [inlineHtml (js "a\\$b".toList)]⟩ (by decide +kernel) rfl,
    math_survives.2 (js "$$ x\n  + y $$".toList) sumState sumAgain
      { sumState with
        line := 2
        tokens := [⟨blockHtml (js "x\n+ y".toList), (0, 2)⟩] } 0 2 (0, 2) (js "x\n+ y".toList)
      sumState_marks (by decide) (le_refl 2) (by decide +kernel) rfl sumAgain_marks⟩

end Sample

end Tactile.Notes.Math

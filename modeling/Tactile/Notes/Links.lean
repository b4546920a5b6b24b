import Tactile.Lib.Regex
import Tactile.Notes.Wikilink

/-!
The links that are extracted from a note's text, against those that the editor's rule
finds in it.
-/

namespace Tactile.Notes.Links

open Tactile.Lib.CodeUnits Tactile.Lib.Matching Tactile.Lib.Regex
open Tactile.Lib.Split (cut_inj)
open Tactile.Search.Highlights (slice)
open Tactile.Notes.Markup Tactile.Notes.Wikilink
open scoped List

section Extracting

def isBracket (u : UInt16) : Bool := u == unit '[' || u == unit ']'

def isName (u : UInt16) : Bool := !isBracket u && u != unit '|' && u != newline

def isPlain (u : UInt16) : Bool := !isBracket u && u != newline

def wikiPattern : Pattern UInt16 :=
  .seq (.literal opening)
    (.seq (.group (.some isName))
      (.seq (.maybe (.seq (.literal [unit '|']) (.many isPlain))) (.literal closing)))

def isHref (u : UInt16) : Bool := u != unit ')' && !isSpace u

def mdPattern : Pattern UInt16 :=
  .seq (.literal [unit '['])
    (.seq (.many isPlain)
      (.seq (.literal (js "](".toList)) (.seq (.group (.some isHref)) (.literal [unit ')']))))

def groupOf (w : Way UInt16) : JsString := ((w.groups.head?).bind id).getD []

def wikiTargets (content : JsString) : List JsString :=
  (allMatches wikiPattern content).map fun w => trim (groupOf w)

/-- Without an angle bracket at the start, and without one at the end. -/
def dropAngles (href : JsString) : JsString :=
  let opened := if href.head? = some (unit '<') then href.tail else href
  if opened.getLast? = some (unit '>') then opened.dropLast else opened

def before (c : Char) (s : JsString) : JsString := s.takeWhile (· != unit c)

def upperAscii (u : UInt16) : UInt16 := if unit 'a' ≤ u ∧ u ≤ unit 'z' then u - 32 else u

/-- `/^https?:/i` -/
def isHttp (href : JsString) : Bool :=
  (js "HTTP:".toList).isPrefixOf (href.map upperAscii) ||
    (js "HTTPS:".toList).isPrefixOf (href.map upperAscii)

def markdownExtension : JsString := js ".md".toList

def mdTargets (lower : JsString → JsString) (content : JsString) : List JsString :=
  (allMatches mdPattern content).filterMap fun w =>
    let href := before '?' (before '#' (dropAngles (groupOf w)))
    if markdownExtension.isSuffixOf (lower href) && !isHttp href then some (trim href) else none

def extractNoteLinks (lower : JsString → JsString) (content : JsString) : List JsString :=
  wikiTargets content ++ mdTargets lower content

end Extracting

section Scanning

/-- The text of a link that the rule accepts at a position, and where it goes on. -/
def accepted (src : JsString) (pos : ℕ) : Option (JsString × ℕ) :=
  match wikilinkRule ⟨src, pos, []⟩ false with
  | (true, after) => some (between src pos, after.pos)
  | (false, _) => none

/-- The texts of the links that are found from left to right. -/
def scanLinks (src : JsString) : List JsString := scan (accepted src) src.length 0

def bracketless (inner : JsString) : Bool := inner.all fun u => !isBracket u

/-- The scan that passes over a link with a bracket between its delimiters. -/
def scanPlain (src : JsString) : List JsString :=
  scan (fun pos => (accepted src pos).filter fun found => bracketless found.1) src.length 0

end Scanning

section Matching

variable {inner taken rest s : JsString} {groups : List (Option JsString)}

/-- The text of a link that the expression takes: without brackets and line feeds, and with
a name before any pipe. -/
structure IsWiki (inner : JsString) : Prop where
  plain : ∀ u ∈ inner, isPlain u = true
  named : beforePipe inner ≠ []

theorem isName_iff {u : UInt16} : isName u = true ↔ isPlain u = true ∧ (u != unit '|') = true := by
  rw [isName, isPlain, Bool.and_eq_true, Bool.and_eq_true, Bool.and_eq_true, and_right_comm]

theorem beforePipe_append {name : JsString} (hname : ∀ u ∈ name, isName u = true)
    (post : JsString) (hpost : post = [] ∨ ∃ aliased, post = unit '|' :: aliased) :
    beforePipe (name ++ post) = name := by
  have hall : ∀ u ∈ name, (u != unit '|') = true := fun u hu => (isName_iff.mp (hname u hu)).2
  rw [beforePipe, List.takeWhile_append_of_pos hall]
  rcases hpost with rfl | ⟨aliased, rfl⟩
  · rw [List.takeWhile_nil, List.append_nil]
  · rw [List.takeWhile_cons_of_neg (by simp), List.append_nil]

theorem reads_wiki :
    Reads wikiPattern taken rest groups ↔
      ∃ inner, IsWiki inner ∧ taken = opening ++ inner ++ closing ∧
        groups = [some (beforePipe inner)] := by
  constructor
  · rintro ⟨t, u, g, h, hopen, ⟨name, v, g', h', ⟨inside, hname, rfl⟩, ⟨post, w, g'', h'', hpost, hclose,
      rfl, rfl⟩, rfl, rfl⟩, rfl, rfl⟩
    obtain ⟨rfl, rfl⟩ := reads_literal.mp hopen
    obtain ⟨rfl, rfl⟩ := reads_literal.mp hclose
    obtain ⟨hne, hnames, rfl⟩ := reads_some.mp hname
    have hpost' : (post = [] ∨ ∃ aliased, post = unit '|' :: aliased) ∧
        (∀ u ∈ post, isPlain u = true) ∧ g'' = [] := by
      rcases hpost with ⟨t, u, g, h, hpipe, ⟨haliased, rfl⟩, rfl, rfl⟩ | ⟨rfl, rfl⟩
      · obtain ⟨rfl, rfl⟩ := reads_literal.mp hpipe
        exact ⟨.inr ⟨u, rfl⟩, List.forall_mem_cons.mpr ⟨by decide, haliased⟩, rfl⟩
      · exact ⟨.inl rfl, fun _ hu => absurd hu List.not_mem_nil, rfl⟩
    obtain ⟨hpipe, hplain, rfl⟩ := hpost'
    have hbefore := beforePipe_append hnames post hpipe
    refine ⟨name ++ post, ⟨fun u hu => ?_, by rwa [hbefore]⟩, ?_, by rw [hbefore]; rfl⟩
    · exact (List.mem_append.mp hu).elim (fun h => (isName_iff.mp (hnames u h)).1) (hplain u)
    · simp only [List.append_assoc]
  · rintro ⟨inner, ⟨hplain, hnamed⟩, rfl, rfl⟩
    obtain ⟨post, hinner⟩ : beforePipe inner <+: inner := List.takeWhile_prefix _
    have hnames : ∀ u ∈ beforePipe inner, isName u = true := by
      intro u hu
      have hpipe : (u != unit '|') = true :=
        List.mem_takeWhile_imp (p := fun v => v != unit '|') hu
      exact isName_iff.mpr ⟨hplain u ((List.takeWhile_prefix _).subset hu), hpipe⟩
    have hpost : Reads (.maybe (.seq (.literal [unit '|']) (.many isPlain))) post (closing ++ rest)
        [] := by
      cases post with
      | nil => exact .inr ⟨rfl, rfl⟩
      | cons u aliased =>
          have hu : u = unit '|' := by
            have hstop := congrArg beforePipe hinner
            by_contra hne
            rw [beforePipe, List.takeWhile_append_of_pos fun v hv => (isName_iff.mp (hnames v hv)).2,
              List.takeWhile_cons_of_pos (p := fun v => v != unit '|') (bne_iff_ne.mpr hne)] at hstop
            have hlen := congrArg List.length hstop
            rw [List.length_append, List.length_cons] at hlen
            omega
          refine .inl ⟨[u], aliased, [], [], reads_literal.mpr ⟨congrArg (fun v => [v]) hu, rfl⟩,
            ⟨fun v hv => hplain v ?_, rfl⟩, rfl, rfl⟩
          rw [← hinner]
          exact List.mem_append_right _ (List.mem_cons_of_mem u hv)
    refine ⟨opening, beforePipe inner ++ (post ++ closing), [], [some (beforePipe inner)],
      reads_literal.mpr ⟨rfl, rfl⟩, ⟨beforePipe inner, post ++ closing, [some (beforePipe inner)], [],
        ⟨[], reads_some.mpr ⟨hnamed, hnames, rfl⟩, rfl⟩, ⟨post, closing, [], [], hpost,
          reads_literal.mpr ⟨rfl, rfl⟩, rfl, rfl⟩, rfl, rfl⟩, ?_, rfl⟩
    rw [List.append_assoc, ← List.append_assoc (beforePipe inner), hinner]

theorem progressive_wiki : Progressive wikiPattern := by
  intro taken rest groups hreads
  obtain ⟨inner, -, rfl, -⟩ := reads_wiki.mp hreads
  simp [opening, js]

theorem IsWiki.bracket_notMem (h : IsWiki inner) : unit ']' ∉ inner := by
  intro hmem
  have hplain := h.plain _ hmem
  exact absurd hplain (by decide)

theorem IsWiki.newline_notMem (h : IsWiki inner) : newline ∉ inner := by
  intro hmem
  have hplain := h.plain _ hmem
  exact absurd hplain (by decide)

theorem matchHere_wiki {w : Way UInt16} :
    matchHere wikiPattern s = some w ↔
      ∃ inner rest, IsWiki inner ∧ s = opening ++ inner ++ closing ++ rest ∧
        w = ⟨opening ++ inner ++ closing, rest, [some (beforePipe inner)]⟩ := by
  constructor
  · intro h
    obtain ⟨hreads, hs⟩ := matchHere_reads h
    obtain ⟨inner, hwiki, htaken, hgroups⟩ := reads_wiki.mp hreads
    obtain ⟨taken, rest, groups⟩ := w
    obtain rfl : taken = opening ++ inner ++ closing := htaken
    obtain rfl : groups = [some (beforePipe inner)] := hgroups
    exact ⟨inner, rest, hwiki, hs, rfl⟩
  · rintro ⟨inner, rest, hwiki, rfl, rfl⟩
    refine matchHere_eq_some (reads_wiki.mpr ⟨inner, hwiki, rfl, rfl⟩) ?_
    intro taken' rest' groups' hs hreads
    obtain ⟨inner', hwiki', rfl, rfl⟩ := reads_wiki.mp hreads
    have hclosing : closing = [unit ']', unit ']'] := rfl
    simp only [List.append_assoc, List.append_cancel_left_eq, hclosing, List.cons_append] at hs
    obtain ⟨rfl, -⟩ := cut_inj hwiki.bracket_notMem hwiki'.bracket_notMem hs
    exact ⟨rfl, rfl⟩

/-- The editor's rule takes such a text for one between brackets. -/
theorem IsWiki.innerAt (h : IsWiki inner) {src : JsString} {pos : ℕ}
    (hsrc : src.drop pos = opening ++ inner ++ closing ++ rest) : innerAt src pos = some inner := by
  refine innerAt_eq_some.mpr ⟨rest, hsrc, fun hoccurs => ?_⟩
  have hnone : ¬ closing <:+: inner := fun hoccurs =>
    h.bracket_notMem (hoccurs.subset (show unit ']' ∈ closing by decide))
  rw [closing_occurs_concat hnone] at hoccurs
  exact h.bracket_notMem (List.mem_of_getLast? hoccurs)

end Matching

section Agreement

variable {src inner : JsString} {pos next : ℕ}

theorem accepted_eq_some :
    accepted src pos = some (inner, next) ↔
      innerAt src pos = some inner ∧ newline ∉ inner ∧ targetOf inner ≠ [] ∧
        next = pos + 2 + inner.length + 2 := by
  rw [accepted]
  cases hrule : wikilinkRule ⟨src, pos, []⟩ false with
  | mk ok after =>
      cases ok with
      | false =>
          constructor
          · intro h
            cases h
          · rintro ⟨hinner, hnewline, htarget, rfl⟩
            have haccept : wikilinkRule ⟨src, pos, []⟩ false = (true, _) :=
              wikilinkRule_eq_true.mpr ⟨inner, hinner, hnewline, htarget, rfl⟩
            rw [hrule] at haccept
            cases haccept
      | true =>
          obtain ⟨inner', hinner, hnewline, htarget, rfl⟩ := wikilinkRule_eq_true.mp hrule
          have hbetween : between src pos = inner' := by rw [between, hinner, Option.getD_some]
          rw [hbetween]
          constructor
          · intro h
            cases h
            exact ⟨hinner, hnewline, htarget, rfl⟩
          · rintro ⟨hinner', -, -, rfl⟩
            rw [hinner] at hinner'
            cases hinner'
            rfl

theorem advances_accepted (src : JsString) : Advances (accepted src) src.length := by
  intro pos inner next h
  obtain ⟨hinner, -, -, rfl⟩ := accepted_eq_some.mp h
  obtain ⟨rest, hsrc, -⟩ := innerAt_eq_some.mp hinner
  have hlen := congrArg List.length hsrc
  have hopening : opening.length = 2 := rfl
  simp only [List.length_drop, List.length_append] at hlen
  exact ⟨by omega, by omega⟩

def plainRule (src : JsString) (pos : ℕ) : Option (JsString × ℕ) :=
  (accepted src pos).filter fun found => bracketless found.1

theorem advances_plainRule (src : JsString) : Advances (plainRule src) src.length :=
  fun pos inner next h => advances_accepted src pos inner next (Option.filter_eq_some_iff.mp h).1

/-- A link without brackets, of which the target is not blank, is one for the expression. -/
theorem isWiki_of_plainRule (h : plainRule src pos = some (inner, next)) :
    IsWiki inner ∧ innerAt src pos = some inner := by
  obtain ⟨haccept, hplain⟩ := Option.filter_eq_some_iff.mp h
  obtain ⟨hinner, hnewline, htarget, -⟩ := accepted_eq_some.mp haccept
  refine ⟨⟨fun u hu => ?_, fun hempty => htarget ?_⟩, hinner⟩
  · rw [isPlain, List.all_eq_true.mp hplain u hu, Bool.true_and]
    exact bne_iff_ne.mpr fun heq => hnewline (heq ▸ hu)
  · rw [targetOf_eq, hempty]
    rfl

/-- Inside of a text without brackets no link starts. -/
theorem accepted_inside {rest : JsString} (hwiki : IsWiki inner)
    (hsrc : src.drop pos = opening ++ inner ++ closing ++ rest) {q : ℕ} (hq : pos < q)
    (hlast : q < pos + 2 + inner.length + 2) : accepted src q = none := by
  have hbrackets : ∀ i : ℕ, ¬ (inner ++ closing)[i]? = some (unit '[') := by
    intro i hi
    rcases List.mem_append.mp (List.mem_of_getElem? hi) with hmem | hmem
    · exact absurd (hwiki.plain _ hmem) (by decide)
    · exact absurd hmem (by decide)
  have hget : ∀ i : ℕ, i < inner.length + 2 → src[pos + 2 + i]? ≠ some (unit '[') := by
    intro i hi
    have hlen : i < (inner ++ closing).length := by
      rw [List.length_append]
      exact hi
    rw [Nat.add_assoc, ← List.getElem?_drop, hsrc, List.append_assoc opening,
      List.append_assoc, List.getElem?_append_right (by simp [opening, js]),
      show 2 + i - opening.length = i from Nat.add_sub_cancel_left 2 i,
      List.getElem?_append_left hlen]
    exact hbrackets i
  rw [Option.eq_none_iff_forall_ne_some]
  rintro ⟨inner', next⟩ h
  obtain ⟨rest', hsrc', -⟩ := innerAt_eq_some.mp (accepted_eq_some.mp h).1
  have hfirst : src[q]? = some (unit '[') := by
    rw [← Nat.add_zero q, ← List.getElem?_drop, hsrc']
    rfl
  have hsecond : src[q + 1]? = some (unit '[') := by
    rw [← List.getElem?_drop, hsrc']
    rfl
  by_cases hnext : q = pos + 1
  · rw [hnext] at hsecond
    exact hget 0 (by omega) hsecond
  · obtain ⟨i, rfl⟩ := Nat.exists_eq_add_of_le (show pos + 2 ≤ q by omega)
    exact hget i (by omega) hfirst

/-- The targets that the expression finds, apart from empty ones, are those of the links that
the scan finds. -/
theorem wikiTargets_from (src : JsString) (pos : ℕ) :
    (wikiTargets (src.drop pos)).filter (fun target => !target.isEmpty) =
      (scan (plainRule src) src.length pos).map targetOf := by
  induction hleft : src.length - pos using Nat.strongRecOn generalizing pos with
  | _ left ih =>
      by_cases hlt : pos < src.length
      · obtain ⟨c, s, hs⟩ : ∃ c s, src.drop pos = c :: s := ⟨_, _, List.drop_eq_getElem_cons hlt⟩
        have htail : s = src.drop (pos + 1) := by
          rw [← List.drop_drop, hs]
          rfl
        rw [hs, wikiTargets, allMatches_cons progressive_wiki, ← hs]
        cases hmatch : matchHere wikiPattern (src.drop pos) with
        | none =>
            have hnone : plainRule src pos = none := by
              rw [Option.eq_none_iff_forall_ne_some]
              rintro ⟨inner, next⟩ h
              obtain ⟨hwiki, hinner⟩ := isWiki_of_plainRule h
              obtain ⟨rest, hsrc, -⟩ := innerAt_eq_some.mp hinner
              rw [matchHere_wiki.mpr ⟨inner, rest, hwiki, hsrc, rfl⟩] at hmatch
              cases hmatch
            rw [scan_of_none (advances_plainRule src) hnone, htail]
            exact ih _ (by omega) (pos + 1) rfl
        | some w =>
            obtain ⟨inner, rest, hwiki, hsrc, rfl⟩ := matchHere_wiki.mp hmatch
            have hinner := hwiki.innerAt hsrc
            have hrest : src.drop (pos + 2 + inner.length + 2) = rest := by
              have hlen : pos + 2 + inner.length + 2 = pos + (opening ++ inner ++ closing).length := by
                have hopening : opening.length = 2 := rfl
                have hclosing : closing.length = 2 := rfl
                rw [List.length_append, List.length_append]
                omega
              rw [hlen, ← List.drop_drop, hsrc, List.drop_left]
            have hnext := ih _ (by omega) (pos + 2 + inner.length + 2) rfl
            rw [hrest] at hnext
            have hgroup : trim (groupOf ⟨opening ++ inner ++ closing, rest,
                [some (beforePipe inner)]⟩) = targetOf inner := (targetOf_eq inner).symm
            dsimp only
            rw [List.map_cons, hgroup]
            by_cases htarget : targetOf inner = []
            · have hnone : ∀ q, pos ≤ q → q < pos + 2 + inner.length + 2 → plainRule src q = none := by
                intro q hle hlt
                rw [plainRule]
                rcases Nat.eq_or_lt_of_le hle with rfl | hinside
                · cases haccepted : accepted src pos with
                  | none => rfl
                  | some found =>
                      obtain ⟨hinner', -, hne, -⟩ := accepted_eq_some.mp haccepted
                      rw [hinner] at hinner'
                      cases hinner'
                      exact absurd htarget hne
                · rw [accepted_inside hwiki hsrc hinside hlt]
                  rfl
              rw [List.filter_cons_of_neg (by simp [htarget]),
                scan_skip (advances_plainRule src) (by omega) hnone]
              exact hnext
            · have hfound : plainRule src pos = some (inner, pos + 2 + inner.length + 2) := by
                refine Option.filter_eq_some_iff.mpr
                  ⟨accepted_eq_some.mpr ⟨hinner, hwiki.newline_notMem, htarget, rfl⟩, ?_⟩
                exact List.all_eq_true.mpr fun u hu =>
                  ((Bool.and_eq_true _ _).mp (hwiki.plain u hu)).1
              rw [List.filter_cons_of_pos (by simp [htarget]),
                scan_of_some (advances_plainRule src) hfound, List.map_cons]
              exact congrArg (targetOf inner :: ·) hnext
      · rw [List.drop_eq_nil_of_le (by omega), scan, scanFrom_beyond (advances_plainRule src) _ (by omega)]
        rfl

/-- The targets that are extracted of a text, apart from empty ones, are those of the links
that are found in it when links with brackets are passed over; where there are none of these,
they are those of all links that are found. -/
theorem wikiTargets_scan (src : JsString) :
    (wikiTargets src).filter (fun target => !target.isEmpty) = (scanPlain src).map targetOf ∧
      ((∀ inner ∈ scanLinks src, bracketless inner = true) →
        (wikiTargets src).filter (fun target => !target.isEmpty) = (scanLinks src).map targetOf) := by
  have hplain : (wikiTargets src).filter (fun target => !target.isEmpty) =
      (scanPlain src).map targetOf := wikiTargets_from src 0
  refine ⟨hplain, fun h => ?_⟩
  rw [hplain]
  exact congrArg (List.map targetOf) (scanFrom_filter bracketless h)

theorem wikiTargets_line :
    (wikiTargets (js "[[a]], [[ b |c]]".toList)).filter (fun target => !target.isEmpty) =
      (scanLinks (js "[[a]], [[ b |c]]".toList)).map targetOf :=
  (wikiTargets_scan (js "[[a]], [[ b |c]]".toList)).2 (by decide +kernel)

/-- Of three opening brackets the rule takes the first two, the expression the last two. -/
theorem wikiTargets_differ : ¬ ∀ src : JsString, newline ∉ src →
    wikiTargets src = (scanLinks src).map targetOf := by
  intro h
  exact absurd (h (js "[[[a]]".toList) (by decide)) (by decide +kernel)

end Agreement

end Tactile.Notes.Links

import Mathlib.Data.List.Infix
import Mathlib.Data.List.Forall2

/-!
Scanners that cut and split texts at a separator, texts that are made of tags, and the replacement of
references by what they stand for.
-/

namespace Tactile.Lib.Markup

section Marks

variable {α : Type}

/-- What is before the first of a mark that neither part has. -/
theorem append_cons_inj {c : α} {a b x y : List α} (ha : c ∉ a) (hb : c ∉ b)
    (h : a ++ c :: x = b ++ c :: y) : a = b ∧ x = y := by
  induction a generalizing b with
  | nil =>
      cases b with
      | nil => exact ⟨rfl, (List.cons.inj h).2⟩
      | cons d b => exact absurd (List.mem_cons.mpr (.inl (List.cons.inj h).1)) hb
  | cons d a ih =>
      cases b with
      | nil => exact absurd (List.mem_cons.mpr (.inl (List.cons.inj h).1.symm)) ha
      | cons e b =>
          rw [List.cons_append, List.cons_append, List.cons.injEq] at h
          obtain ⟨rfl, htail⟩ := h
          obtain ⟨rfl, rfl⟩ := ih (fun hmem => ha (List.mem_cons_of_mem d hmem))
            (fun hmem => hb (List.mem_cons_of_mem d hmem)) htail
          exact ⟨rfl, rfl⟩

/-- What starts with an element starts behind the others. -/
theorem infix_append {c : α} {lead sep : List α} (h : c ∉ lead) (s : List α) :
    c :: sep <:+: lead ++ s ↔ c :: sep <:+: s := by
  induction lead with
  | nil => rfl
  | cons d lead ih =>
      have hne : ¬ c :: sep <+: d :: (lead ++ s) := by
        intro hpre
        exact h (List.mem_cons.mpr (.inl (List.cons_prefix_cons.mp hpre).1))
      rw [List.cons_append, List.infix_cons_iff, or_iff_right hne]
      exact ih fun hmem => h (List.mem_cons_of_mem _ hmem)

end Marks

section Scanners

variable {α : Type} [DecidableEq α] {sep s part : List α}

/-- The parts before and behind the first place at which a separator stands. -/
def cut (sep : List α) : List α → Option (List α × List α)
  | [] => if sep = [] then some ([], []) else none
  | c :: s =>
    if sep <+: c :: s then some ([], (c :: s).drop sep.length)
    else (cut sep s).map fun parts => (c :: parts.1, parts.2)

/-- The parts between the places at which a separator stands, from the left. -/
def splitFrom (sep : List α) : ℕ → List α → List α → List (List α)
  | _, part, [] => [part]
  | skip + 1, part, _ :: s => splitFrom sep skip part s
  | 0, part, c :: s =>
    if sep <+: c :: s then part :: splitFrom sep (sep.length - 1) [] s
    else splitFrom sep 0 (part ++ [c]) s

def split (sep s : List α) : List (List α) := splitFrom sep 0 [] s

theorem splitFrom_skip (u s : List α) : splitFrom sep u.length part (u ++ s) = splitFrom sep 0 part s := by
  induction u with
  | nil => rfl
  | cons c u ih => exact ih

theorem splitFrom_eq (hsep : sep ≠ []) (part s : List α) :
    splitFrom sep 0 part s =
      match cut sep s with
      | none => [part ++ s]
      | some parts => (part ++ parts.1) :: split sep parts.2 := by
  induction s generalizing part with
  | nil =>
      rw [splitFrom, cut, if_neg hsep, List.append_nil]
  | cons c s ih =>
      rw [splitFrom, cut]
      split
      next hstands =>
        obtain ⟨rest, hrest⟩ := hstands
        cases sep with
        | nil => exact absurd rfl hsep
        | cons d sep =>
            rw [List.cons_append, List.cons.injEq] at hrest
            obtain ⟨rfl, rfl⟩ := hrest
            rw [List.length_cons, Nat.add_sub_cancel, splitFrom_skip, List.drop_succ_cons, List.drop_left]
            simp [split]
      next =>
        rw [ih]
        cases cut sep s with
        | none => simp
        | some parts => simp

theorem split_of_cut (hsep : sep ≠ []) {before after : List α} (h : cut sep s = some (before, after)) :
    split sep s = before :: split sep after := by
  rw [split, splitFrom_eq hsep, h]
  rfl

theorem split_of_none (hsep : sep ≠ []) (h : cut sep s = none) : split sep s = [s] := by
  rw [split, splitFrom_eq hsep, h]
  rfl

theorem cut_of_prefix {c : α} (rest : List α) : cut (c :: sep) (c :: sep ++ rest) = some ([], rest) := by
  rw [List.cons_append, cut, if_pos ⟨rest, rfl⟩, List.length_cons, List.drop_succ_cons, List.drop_left]

/-- A separator does not start where its first element is not. -/
theorem cut_append {c : α} {lead : List α} (h : c ∉ lead) (s : List α) :
    cut (c :: sep) (lead ++ s) = (cut (c :: sep) s).map fun parts => (lead ++ parts.1, parts.2) := by
  induction lead with
  | nil => simp
  | cons d lead ih =>
      have hne : ¬ c :: sep <+: d :: (lead ++ s) := by
        intro hpre
        exact h (List.mem_cons.mpr (.inl (List.cons_prefix_cons.mp hpre).1))
      rw [List.cons_append, cut, if_neg hne, ih fun hmem => h (List.mem_cons_of_mem _ hmem), Option.map_map]
      rfl

end Scanners

section Pieces

/-- A tag, with the text up to the next one. -/
structure Piece where
  tag : List Char
  text : List Char
  plainTag : '<' ∉ tag ∧ '>' ∉ tag
  plainText : '<' ∉ text

def opening (tag : List Char) : List Char := '<' :: (tag ++ ['>'])

def closing (tag : List Char) : List Char := opening ('/' :: tag)

def Piece.shown (p : Piece) : List Char := '<' :: (p.tag ++ '>' :: p.text)

def render (pieces : List Piece) : List Char := pieces.flatMap Piece.shown

variable {tag lead value : List Char} {pieces pre post : List Piece} {p q : Piece}

theorem render_cons (p : Piece) (pieces : List Piece) : render (p :: pieces) = p.shown ++ render pieces := rfl

theorem render_append (pre post : List Piece) : render (pre ++ post) = render pre ++ render post :=
  List.flatMap_append

theorem shown_eq (p : Piece) : p.shown = opening p.tag ++ p.text := by
  rw [opening, Piece.shown, List.cons_append, List.append_assoc, List.singleton_append]

theorem opening_prefix_iff (htag : '>' ∉ tag) (s : List Char) : opening tag <+: p.shown ++ s ↔ p.tag = tag := by
  constructor
  · rintro ⟨rest, h⟩
    have hinner : tag ++ '>' :: rest = p.tag ++ '>' :: (p.text ++ s) := by
      simpa [opening, Piece.shown] using h
    exact (append_cons_inj htag p.plainTag.2 hinner).1.symm
  · rintro rfl
    rw [shown_eq, List.append_assoc]
    exact List.prefix_append _ _

/-- A tag is not found in a piece that has another one. -/
theorem cut_shown (htag : '>' ∉ tag) (hp : p.tag ≠ tag) (s : List Char) :
    cut (opening tag) (p.shown ++ s) =
      (cut (opening tag) s).map fun parts => (p.shown ++ parts.1, parts.2) := by
  have hne : ¬ opening tag <+: p.shown ++ s := mt (opening_prefix_iff htag s).mp hp
  rw [Piece.shown, List.cons_append] at hne
  have hbody : '<' ∉ p.tag ++ '>' :: p.text := by
    simpa using ⟨p.plainTag.1, p.plainText⟩
  have hcut : cut (opening tag) ((p.tag ++ '>' :: p.text) ++ s) =
      (cut (opening tag) s).map fun parts => ((p.tag ++ '>' :: p.text) ++ parts.1, parts.2) :=
    cut_append hbody s
  rw [Piece.shown, List.cons_append, cut, if_neg hne, hcut, Option.map_map]
  rfl

theorem cut_pieces (htag : '>' ∉ tag) (hpre : ∀ r ∈ pre, r.tag ≠ tag) (s : List Char) :
    cut (opening tag) (render pre ++ s) =
      (cut (opening tag) s).map fun parts => (render pre ++ parts.1, parts.2) := by
  induction pre with
  | nil => simp [render]
  | cons r pre ih =>
      rw [render_cons, List.append_assoc, cut_shown htag (hpre r List.mem_cons_self),
        ih fun q hq => hpre q (List.mem_cons_of_mem r hq), Option.map_map]
      simp [Function.comp_def]

/-- A tag is found at the first piece that has it. -/
theorem cut_render (htag : '>' ∉ tag) (hlead : '<' ∉ lead) (hpre : ∀ r ∈ pre, r.tag ≠ tag) (hp : p.tag = tag) :
    cut (opening tag) (lead ++ render (pre ++ p :: post)) =
      some (lead ++ render pre, p.text ++ render post) := by
  have hhere : cut (opening tag) (p.shown ++ render post) = some ([], p.text ++ render post) := by
    rw [shown_eq, hp, List.append_assoc]
    exact cut_of_prefix _
  rw [opening, cut_append hlead, ← opening, render_append, render_cons, cut_pieces htag hpre, hhere]
  simp

theorem cut_render_none (htag : '>' ∉ tag) (hlead : '<' ∉ lead) (hpieces : ∀ r ∈ pieces, r.tag ≠ tag) :
    cut (opening tag) (lead ++ render pieces) = none := by
  have hcut := cut_pieces htag hpieces []
  rw [List.append_nil, cut, if_neg (by simp [opening])] at hcut
  rw [opening, cut_append hlead, ← opening, hcut]
  rfl

/-- The parts of a text between the pieces that have a tag. -/
theorem split_render (htag : '>' ∉ tag) (hlead : '<' ∉ lead) (hpre : ∀ r ∈ pre, r.tag ≠ tag)
    {groups : List (Piece × List Piece)} (hgroups : ∀ g ∈ groups, g.1.tag = tag ∧ ∀ r ∈ g.2, r.tag ≠ tag) :
    split (opening tag) (lead ++ render (pre ++ groups.flatMap fun g => g.1 :: g.2)) =
      (lead ++ render pre) :: groups.map fun g => g.1.text ++ render g.2 := by
  have hsep : opening tag ≠ [] := by simp [opening]
  induction groups generalizing lead pre with
  | nil =>
      rw [List.flatMap_nil, List.append_nil, split_of_none hsep (cut_render_none htag hlead hpre)]
      rfl
  | cons g groups ih =>
      obtain ⟨hg, hrest⟩ := hgroups g List.mem_cons_self
      have hcut : cut (opening tag)
          (lead ++ render (pre ++ g.1 :: (g.2 ++ groups.flatMap fun g => g.1 :: g.2))) = _ :=
        cut_render htag hlead hpre hg
      rw [List.flatMap_cons, List.cons_append, split_of_cut hsep hcut,
        ih g.1.plainText hrest fun g' hg' => hgroups g' (List.mem_cons_of_mem g hg'), List.map_cons]

/-- The first element with the tag holds nothing but a text. -/
def Leaf (pieces : List Piece) (tag value : List Char) : Prop :=
  ∃ pre p q post, pieces = pre ++ p :: q :: post ∧ (∀ r ∈ pre, r.tag ≠ tag) ∧ p.tag = tag ∧
    p.text = value ∧ q.tag = '/' :: tag

/-- An element that holds nothing but a text. -/
def Mentions (pieces : List Piece) (tag value : List Char) : Prop :=
  ∃ pre p q post, pieces = pre ++ p :: q :: post ∧ p.tag = tag ∧ p.text = value ∧ q.tag = '/' :: tag

/-- What begins with an angle bracket stands where a piece begins. -/
theorem infix_render {w : List Char} (hlead : '<' ∉ lead) :
    '<' :: w <:+: lead ++ render pieces ↔ ∃ pre post, pieces = pre ++ post ∧ '<' :: w <+: render post := by
  rw [infix_append hlead]
  induction pieces with
  | nil =>
      constructor
      · intro h
        have hnil := List.infix_nil.mp h
        cases hnil
      · rintro ⟨pre, post, hnil, h⟩
        obtain ⟨rfl, rfl⟩ := List.append_eq_nil_iff.mp hnil.symm
        exact h.isInfix
  | cons p pieces ih =>
      have hbody : '<' ∉ p.tag ++ '>' :: p.text := by
        simpa using ⟨p.plainTag.1, p.plainText⟩
      rw [render_cons, Piece.shown, List.cons_append, List.infix_cons_iff, infix_append hbody, ih]
      constructor
      · rintro (hhere | ⟨pre, post, rfl, h⟩)
        · exact ⟨[], p :: pieces, rfl, hhere⟩
        · exact ⟨p :: pre, post, rfl, h⟩
      · rintro ⟨pre, post, heq, h⟩
        cases pre with
        | nil =>
            obtain rfl : p :: pieces = post := heq
            exact .inl h
        | cons r pre => exact .inr ⟨pre, post, (List.cons.inj heq).2, h⟩

theorem opening_infix_iff (htag : '>' ∉ tag) (hlead : '<' ∉ lead) :
    opening tag <:+: lead ++ render pieces ↔ ∃ p ∈ pieces, p.tag = tag := by
  rw [opening, infix_render hlead]
  constructor
  · rintro ⟨pre, post, rfl, h⟩
    cases post with
    | nil => cases List.prefix_nil.mp h
    | cons p post =>
        exact ⟨p, List.mem_append_right pre List.mem_cons_self, (opening_prefix_iff htag (render post)).mp h⟩
  · rintro ⟨p, hp, htagged⟩
    obtain ⟨pre, post, rfl⟩ := List.append_of_mem hp
    exact ⟨pre, p :: post, rfl, (opening_prefix_iff htag (render post)).mpr htagged⟩

theorem mentions_iff (htag : '>' ∉ tag) (hvalue : '<' ∉ value) (hlead : '<' ∉ lead) :
    opening tag ++ value ++ closing tag <:+: lead ++ render pieces ↔ Mentions pieces tag value := by
  have hclosing : '>' ∉ '/' :: tag := by simpa using htag
  rw [opening, List.cons_append, List.cons_append, infix_render hlead]
  constructor
  · rintro ⟨pre, post, rfl, h⟩
    cases post with
    | nil => cases List.prefix_nil.mp h
    | cons p post =>
        obtain ⟨rest, h⟩ := h
        have hinner : tag ++ '>' :: (value ++ '<' :: ('/' :: tag ++ '>' :: rest)) =
            p.tag ++ '>' :: (p.text ++ render post) := by
          simpa [closing, opening, render_cons, Piece.shown] using h
        obtain ⟨hp, hinner⟩ := append_cons_inj htag p.plainTag.2 hinner
        cases post with
        | nil =>
            have hmem : '<' ∈ p.text ++ render [] := hinner ▸ List.mem_append_right _ List.mem_cons_self
            rw [render, List.flatMap_nil, List.append_nil] at hmem
            exact absurd hmem p.plainText
        | cons q post =>
            have hnext : value ++ '<' :: ('/' :: tag ++ '>' :: rest) =
                p.text ++ '<' :: (q.tag ++ '>' :: (q.text ++ render post)) := by
              simpa [render_cons, Piece.shown] using hinner
            obtain ⟨htext, hnext⟩ := append_cons_inj hvalue p.plainText hnext
            obtain ⟨hq, -⟩ := append_cons_inj hclosing q.plainTag.2 hnext
            exact ⟨pre, p, q, post, rfl, hp.symm, htext.symm, hq.symm⟩
  · rintro ⟨pre, p, q, post, rfl, hp, rfl, hq⟩
    refine ⟨pre, p :: q :: post, rfl, q.text ++ render post, ?_⟩
    simp [render_cons, shown_eq, hp, hq, closing, opening]

end Pieces

section References

variable {α : Type} [DecidableEq α] {pairs : List (List α × List α)}

/-- Replaces the references of a text, from the left, by what they stand for. -/
def replaceFrom (pairs : List (List α × List α)) : ℕ → List α → List α
  | _, [] => []
  | skip + 1, _ :: s => replaceFrom pairs skip s
  | 0, c :: s =>
    match pairs.find? fun p => p.1.isPrefixOf (c :: s) with
    | some p => p.2 ++ replaceFrom pairs (p.1.length - 1) s
    | none => c :: replaceFrom pairs 0 s

def replace (pairs : List (List α × List α)) (s : List α) : List α := replaceFrom pairs 0 s

/-- No reference begins another one, and none is empty. -/
def PrefixFree (pairs : List (List α × List α)) : Prop :=
  ∀ p ∈ pairs, p.1 ≠ [] ∧ ∀ q ∈ pairs, p.1 <+: q.1 → p = q

/-- How a text is written: as a reference, or as an element at which no reference begins. -/
def WrittenAs (pairs : List (List α × List α)) (plain written : List α) : Prop :=
  (written, plain) ∈ pairs ∨ ∃ c, written = [c] ∧ plain = [c] ∧ ∀ p ∈ pairs, p.1.head? ≠ some c

theorem replaceFrom_skip (u s : List α) : replaceFrom pairs u.length (u ++ s) = replaceFrom pairs 0 s := by
  induction u with
  | nil => rfl
  | cons c u ih => exact ih

theorem replace_reference (hfree : PrefixFree pairs) {p : List α × List α} (hp : p ∈ pairs) (s : List α) :
    replace pairs (p.1 ++ s) = p.2 ++ replace pairs s := by
  obtain ⟨hne, -⟩ := hfree p hp
  obtain ⟨c, u, hu⟩ := List.exists_cons_of_ne_nil hne
  have hfind : (pairs.find? fun q => q.1.isPrefixOf (p.1 ++ s)) = some p := by
    cases hfind : pairs.find? fun q => q.1.isPrefixOf (p.1 ++ s) with
    | none =>
        have hnot := List.find?_eq_none.mp hfind p hp
        exact absurd (List.isPrefixOf_iff_prefix.mpr (List.prefix_append _ _)) hnot
    | some q =>
        have hq := List.mem_of_find?_eq_some hfind
        have hcheck := List.find?_some hfind
        have hpre : q.1 <+: p.1 ++ s := List.isPrefixOf_iff_prefix.mp hcheck
        rcases List.prefix_or_prefix_of_prefix hpre (List.prefix_append p.1 s) with hle | hle
        · rw [(hfree q hq).2 p hp hle]
        · rw [(hfree p hp).2 q hq hle]
  rw [hu, List.cons_append] at hfind ⊢
  rw [replace, replaceFrom, hfind]
  dsimp only
  rw [hu, List.length_cons, Nat.add_sub_cancel, replaceFrom_skip]
  rfl

theorem replace_cons {c : α} (hplain : ∀ p ∈ pairs, p.1.head? ≠ some c) (hne : ∀ p ∈ pairs, p.1 ≠ [])
    (s : List α) : replace pairs (c :: s) = c :: replace pairs s := by
  have hfind : (pairs.find? fun q => q.1.isPrefixOf (c :: s)) = none := by
    refine List.find?_eq_none.mpr fun p hp hpre => ?_
    obtain ⟨d, u, hu⟩ := List.exists_cons_of_ne_nil (hne p hp)
    have hcons := List.isPrefixOf_iff_prefix.mp hpre
    rw [hu] at hcons
    refine hplain p hp ?_
    rw [hu, (List.cons_prefix_cons.mp hcons).1]
    rfl
  rw [replace, replaceFrom, hfind]
  rfl

/-- A text that is written with references is read back. -/
theorem replace_written (hfree : PrefixFree pairs) {plain written : List (List α)}
    (h : List.Forall₂ (WrittenAs pairs) plain written) : replace pairs written.flatten = plain.flatten := by
  induction h with
  | nil => rfl
  | cons hpart _ ih =>
      rw [List.flatten_cons, List.flatten_cons, ← ih]
      rcases hpart with hmem | ⟨c, rfl, rfl, hplain⟩
      · exact replace_reference hfree hmem _
      · exact replace_cons hplain (fun p hp => (hfree p hp).1) _

end References

end Tactile.Lib.Markup

import Tactile.Lib.Markup
import Tactile.Relay.S3Recovery
import Tactile.Relay.ClientIP

/-!
The listing of a bucket: the pages of XML that the service answers with, read without an XML parser, and
the index that a relay builds of them.
-/

namespace Tactile.Relay.S3Listing

open Tactile.Lib.Markup
open Tactile.Relay.S3Store Tactile.Relay.S3Recovery Tactile.Relay.Ranges
open Tactile.Relay.ClientIP (isSpace)

section Calls

structure Object where
  key : List Char
  size : ℤ
  deriving DecidableEq

/-- `fmt.Sscanf` with the verb `%d`. -/
def scanInt (s : List Char) : Option ℤ :=
  let token := s.dropWhile isSpace
  let unsigned := match token with
    | '+' :: digits | '-' :: digits => digits
    | digits => digits
  parseInt (token.take (token.length - unsigned.length) ++ unsigned.takeWhile Char.isDigit)

def xmlField (s tag : List Char) : List Char :=
  match cut (opening tag) s with
  | none => []
  | some (before, _) =>
    match cut (closing tag) (s.drop before.length) with
    | none => []
    | some (upto, _) => upto.drop (opening tag).length

def xmlEsc : List (List Char × List Char) :=
  [("&lt;".toList, ['<']), ("&gt;".toList, ['>']), ("&amp;".toList, ['&']), ("&quot;".toList, ['"']),
    ("&apos;".toList, ['\''])]

def xmlUnescape (s : List Char) : List Char := replace xmlEsc s

def contentsTag : List Char := "Contents".toList

def keyTag : List Char := "Key".toList

def sizeTag : List Char := "Size".toList

def truncatedTag : List Char := "IsTruncated".toList

def tokenTag : List Char := "NextContinuationToken".toList

/-- The object of a part of the page, where it has one. -/
def listItem (seg : List Char) : Option (List Char × ℤ) :=
  if ¬ opening keyTag <:+: seg then none
  else (scanInt (xmlField seg sizeTag)).map fun size => (xmlUnescape (xmlField seg keyTag), size)

/-- The keys with the sizes of a page, and the token of the next one. -/
def parseListResult (body : List Char) : List (List Char × ℤ) × List Char :=
  let items := (split (opening contentsTag) body).filterMap listItem
  if opening truncatedTag ++ "true".toList ++ closing truncatedTag <:+: body then
    let next := xmlField body tokenTag
    let next := if next = [] then (items.getLast?.map Prod.fst).getD [] else next
    (items, xmlUnescape next)
  else (items, [])

def trimPrefix (pre s : List Char) : List Char := if pre <+: s then s.drop pre.length else s

/-- Lists the objects below a prefix, at most `fuel` pages of them. A request has a prefix and a token, and
its answer is the body of the response, where it is served. -/
def listObjects (cfgPrefix : List Char) (fetch : List Char → List Char → Option (List Char))
    (below : List Char) : ℕ → List Char → Option (List Object)
  | 0, _ => none
  | fuel + 1, token =>
    match fetch (cfgPrefix ++ below) token with
    | none => none
    | some body =>
      let result := parseListResult body
      let objects := result.1.map fun item => ⟨trimPrefix cfgPrefix item.1, item.2⟩
      if result.2 = [] then some objects
      else (listObjects cfgPrefix fetch below fuel result.2).map fun rest => objects ++ rest

/-- Builds the backend by listing the bucket. -/
def newS3 (cfgPrefix : List Char) (fetch : List Char → List Char → Option (List Char)) (maxPayload : ℤ)
    (fuel : ℕ) : Option S3 :=
  (listObjects cfgPrefix fetch [] fuel []).map fun objs =>
    load maxPayload (objs.map fun o => (String.ofList o.key, o.size))

end Calls

section Scanning

theorem isSpace_digit {c : Char} (h : c.isDigit = true) : isSpace c = false := by
  obtain ⟨hlow, hhigh⟩ := Tactile.Lib.Text.digit_bounds h
  rw [isSpace, decide_eq_false_iff_not]
  simp only [List.mem_cons, List.not_mem_nil, or_false]
  omega

theorem takeWhile_digits {digits : List Char} (h : ∀ c ∈ digits, c.isDigit = true) :
    digits.takeWhile Char.isDigit = digits := by
  rw [← List.append_nil digits, List.takeWhile_append_of_pos h]
  rfl

/-- Digits, with a sign or without one, are scanned as a whole. -/
theorem scanInt_digits {c : Char} {digits : List Char} (h : ∀ d ∈ c :: digits, d.isDigit = true) :
    scanInt (c :: digits) = parseInt (c :: digits) := by
  have hc := h c List.mem_cons_self
  have hplus : c ≠ '+' := by
    rintro rfl
    cases hc
  have hminus : c ≠ '-' := by
    rintro rfl
    cases hc
  have hunsigned : (match c :: digits with
      | '+' :: digits | '-' :: digits => digits
      | digits => digits) = c :: digits := by
    split
    next heq => exact absurd (List.cons.inj heq).1 hplus
    next heq => exact absurd (List.cons.inj heq).1 hminus
    next => rfl
  rw [scanInt, List.dropWhile_cons_of_neg (by simp [isSpace_digit hc]), hunsigned, Nat.sub_self,
    List.take_zero, List.nil_append, takeWhile_digits h]

theorem scanInt_minus {digits : List Char} (h : ∀ d ∈ digits, d.isDigit = true) :
    scanInt ('-' :: digits) = parseInt ('-' :: digits) := by
  have hspace : isSpace '-' = false := by decide
  rw [scanInt, List.dropWhile_cons_of_neg (by simp [hspace])]
  change parseInt (('-' :: digits).take (digits.length + 1 - digits.length) ++
    digits.takeWhile Char.isDigit) = _
  rw [Nat.add_sub_cancel_left, takeWhile_digits h]
  rfl

theorem scanInt_toString (e : Int64) : scanInt (toString e.toInt).toList = some e.toInt := by
  rw [← parseInt_toString e]
  cases he : e.toInt with
  | ofNat n =>
      have htext : (toString (Int.ofNat n)).toList = Nat.toDigits 10 n := Nat.toList_repr
      obtain ⟨c, digits, hdigits⟩ := List.exists_cons_of_ne_nil (Nat.toDigits_ne_nil (n := n) (b := 10))
      rw [htext, hdigits]
      refine scanInt_digits fun d hd => isDigit_of_mem_toDigits (n := n) ?_
      rw [hdigits]
      exact hd
  | negSucc n =>
      have htext : (toString (Int.negSucc n)).toList = '-' :: Nat.toDigits 10 (n + 1) :=
        Tactile.Lib.Text.decimal_negSucc n
      rw [htext]
      exact scanInt_minus fun d hd => isDigit_of_mem_toDigits hd

theorem prefixFree_xmlEsc : PrefixFree xmlEsc := by
  unfold PrefixFree
  decide

/-- How a text is written in XML. -/
def Written (text written : List Char) : Prop :=
  ∃ parts, List.Forall₂ (WrittenAs xmlEsc) (text.map fun c => [c]) parts ∧ written = parts.flatten

theorem xmlUnescape_written {text written : List Char} (h : Written text written) :
    xmlUnescape written = text := by
  obtain ⟨parts, hparts, rfl⟩ := h
  rw [xmlUnescape, replace_written prefixFree_xmlEsc hparts, ← List.flatMap_def]
  simp

/-- A text that needs no references is written as it is. -/
theorem written_plain {text : List Char} (h : '&' ∉ text) : Written text text := by
  have hflat : text = (text.map fun c => [c]).flatten := by
    rw [← List.flatMap_def]
    simp
  refine ⟨text.map fun c => [c], ?_, hflat⟩
  refine List.forall₂_same.mpr fun part hpart => .inr ?_
  obtain ⟨c, hc, rfl⟩ := List.mem_map.mp hpart
  refine ⟨c, rfl, rfl, fun p hp hhead => h ?_⟩
  have hstart : ∀ p ∈ xmlEsc, p.1.head? = some '&' := by decide
  rw [hstart p hp, Option.some.injEq] at hhead
  rw [hhead]
  exact hc

theorem written_eq_nil {text : List Char} (h : Written text []) : text = [] :=
  (xmlUnescape_written h).symm

/-- The field of an element that holds nothing but a text. -/
theorem xmlField_leaf {lead tag value : List Char} {pieces : List Piece} (htag : '>' ∉ tag)
    (hlead : '<' ∉ lead) (h : Leaf pieces tag value) : xmlField (lead ++ render pieces) tag = value := by
  obtain ⟨pre, p, q, post, rfl, hpre, hp, rfl, hq⟩ := h
  have hclosing : '>' ∉ '/' :: tag := by simpa using htag
  have hne : p.tag ≠ '/' :: tag := by
    intro heq
    have hlength := congrArg List.length (hp.symm.trans heq)
    rw [List.length_cons] at hlength
    omega
  have hdrop : (lead ++ render (pre ++ p :: q :: post)).drop (lead ++ render pre).length =
      [] ++ render ([p] ++ q :: post) := by
    rw [render_append, ← List.append_assoc, List.drop_left]
    rfl
  have hcut : cut (opening ('/' :: tag)) ([] ++ render ([p] ++ q :: post)) = _ :=
    cut_render hclosing (by simp) (by simpa using hne) hq
  rw [xmlField, cut_render htag hlead hpre hp]
  dsimp only
  rw [hdrop, closing, hcut]
  dsimp only
  rw [List.nil_append, render_cons, shown_eq, hp, List.append_assoc, List.drop_left]
  simp [render]

end Scanning

section Pages

/-- The elements of an object: its key and its size, among others. -/
def ShowsItem (group : Piece × List Piece) (item : List Char × Int64) : Prop :=
  group.1.tag = contentsTag ∧ (∀ r ∈ group.2, r.tag ≠ contentsTag) ∧
    (∃ written, Written item.1 written ∧ Leaf group.2 keyTag written) ∧
    Leaf group.2 sizeTag (toString item.2.toInt).toList

/-- A page: its objects in order, and the token of the next page where there is one. -/
structure Shows (body : List Char) (items : List (List Char × Int64)) (next : Option (List Char)) : Prop where
  exists_pieces : ∃ lead head groups,
    body = lead ++ render (head ++ groups.flatMap fun g => g.1 :: g.2) ∧ '<' ∉ lead ∧
    (∀ r ∈ head, r.tag ≠ contentsTag ∧ r.tag ≠ keyTag) ∧ List.Forall₂ ShowsItem groups items ∧
    match next with
    | none => ¬ Mentions (head ++ groups.flatMap fun g => g.1 :: g.2) truncatedTag "true".toList
    | some token => token ≠ [] ∧
      Mentions (head ++ groups.flatMap fun g => g.1 :: g.2) truncatedTag "true".toList ∧
      ∃ written, Written token written ∧ Leaf (head ++ groups.flatMap fun g => g.1 :: g.2) tokenTag written

/-- An item as it is read. -/
def readItem (item : List Char × Int64) : List Char × ℤ := (item.1, item.2.toInt)

theorem listItem_shows {group : Piece × List Piece} {item : List Char × Int64} (h : ShowsItem group item) :
    listItem (group.1.text ++ render group.2) = some (readItem item) := by
  obtain ⟨-, -, ⟨written, hwritten, hkey⟩, hsize⟩ := h
  have hmention : opening keyTag <:+: group.1.text ++ render group.2 := by
    obtain ⟨pre, p, q, post, hgroup, -, hp, -⟩ := hkey
    refine (opening_infix_iff (by decide) group.1.plainText).mpr ⟨p, ?_, hp⟩
    rw [hgroup]
    exact List.mem_append_right pre List.mem_cons_self
  rw [listItem, if_neg (not_not.mpr hmention), xmlField_leaf (by decide) group.1.plainText hsize,
    xmlField_leaf (by decide) group.1.plainText hkey, scanInt_toString, xmlUnescape_written hwritten]
  rfl

theorem filterMap_shows {groups : List (Piece × List Piece)} {items : List (List Char × Int64)}
    (h : List.Forall₂ ShowsItem groups items) :
    (groups.map fun g => g.1.text ++ render g.2).filterMap listItem = items.map readItem := by
  induction h with
  | nil => rfl
  | cons hitem _ ih =>
      rw [List.map_cons, List.filterMap_cons_some (listItem_shows hitem), ih]
      rfl

theorem tags_of_shows {groups : List (Piece × List Piece)} {items : List (List Char × Int64)}
    (h : List.Forall₂ ShowsItem groups items) :
    ∀ g ∈ groups, g.1.tag = contentsTag ∧ ∀ r ∈ g.2, r.tag ≠ contentsTag := by
  induction h with
  | nil => simp
  | cons hitem _ ih =>
      intro g hg
      rcases List.mem_cons.mp hg with rfl | hg
      · exact ⟨hitem.1, hitem.2.1⟩
      · exact ih g hg

/-- A page is read as it was shown. -/
theorem parseListResult_shows {body : List Char} {items : List (List Char × Int64)} {next : Option (List Char)}
    (h : Shows body items next) : parseListResult body = (items.map readItem, next.getD []) := by
  obtain ⟨lead, head, groups, rfl, hlead, hhead, hgroups, hnext⟩ := h.exists_pieces
  have hfirst : listItem (lead ++ render head) = none := by
    rw [listItem, if_pos]
    rintro hmention
    obtain ⟨r, hr, hkey⟩ := (opening_infix_iff (by decide) hlead).mp hmention
    exact (hhead r hr).2 hkey
  have hsplit := split_render (by decide) hlead (fun r hr => (hhead r hr).1) (tags_of_shows hgroups)
  have hitems : (split (opening contentsTag)
      (lead ++ render (head ++ groups.flatMap fun g => g.1 :: g.2))).filterMap listItem =
        items.map readItem := by
    rw [hsplit, List.filterMap_cons_none hfirst, filterMap_shows hgroups]
  rw [parseListResult, hitems]
  cases next with
  | none =>
      rw [if_neg (mt (mentions_iff (by decide) (by decide) hlead).mp hnext)]
      rfl
  | some token =>
      obtain ⟨htoken, htruncated, written, hwritten, hleaf⟩ := hnext
      have hne : written ≠ [] := by
        rintro rfl
        exact htoken (written_eq_nil hwritten)
      rw [if_pos ((mentions_iff (by decide) (by decide) hlead).mpr htruncated),
        xmlField_leaf (by decide) hlead hleaf]
      dsimp only
      rw [if_neg hne, xmlUnescape_written hwritten]
      rfl

/-- The pages of a listing from a token on, each with the token of the next one. -/
inductive Pages (fetch : List Char → Option (List Char)) : List Char → List (List Char × Int64) → Prop
  | last {token body : List Char} {items : List (List Char × Int64)} : fetch token = some body →
      Shows body items none → Pages fetch token items
  | more {token next body : List Char} {items rest : List (List Char × Int64)} : fetch token = some body →
      Shows body items (some next) → Pages fetch next rest → Pages fetch token (items ++ rest)

/-- The object that an item is listed as. -/
def objectOf (cfgPrefix : List Char) (item : List Char × Int64) : Object :=
  ⟨trimPrefix cfgPrefix item.1, item.2.toInt⟩

theorem next_ne_nil {body next : List Char} {items : List (List Char × Int64)} (h : Shows body items (some next)) :
    next ≠ [] := by
  obtain ⟨_, _, _, -, -, -, -, hnext, -⟩ := h.exists_pieces
  exact hnext

/-- All the pages are read, in order. -/
theorem listObjects_pages {cfgPrefix below token : List Char} {fetch : List Char → List Char → Option (List Char)}
    {items : List (List Char × Int64)} (h : Pages (fetch (cfgPrefix ++ below)) token items) :
    ∃ n, ∀ fuel ≥ n, listObjects cfgPrefix fetch below fuel token = some (items.map (objectOf cfgPrefix)) := by
  induction h with
  | last hfetch hshows =>
      refine ⟨1, fun fuel hfuel => ?_⟩
      obtain ⟨fuel, rfl⟩ := Nat.exists_eq_add_of_le' hfuel
      rw [listObjects, hfetch]
      dsimp only
      rw [parseListResult_shows hshows, Option.getD_none, if_pos rfl, List.map_map]
      rfl
  | more hfetch hshows _ ih =>
      obtain ⟨n, hn⟩ := ih
      refine ⟨n + 1, fun fuel hfuel => ?_⟩
      obtain ⟨fuel, rfl⟩ := Nat.exists_eq_add_of_le' (le_trans (Nat.le_add_left 1 n) hfuel)
      rw [listObjects, hfetch]
      dsimp only
      rw [parseListResult_shows hshows, Option.getD_some, if_neg (next_ne_nil hshows),
        hn fuel (by omega), Option.map_some, List.map_append, List.map_map]
      rfl

theorem trimPrefix_append (pre s : List Char) : trimPrefix pre (pre ++ s) = s := by
  rw [trimPrefix, if_pos (List.prefix_append _ _), List.drop_left]

/-- However the service cuts the listing of a bucket into pages, and whatever else the pages say, a relay
that starts has the index of the objects in the bucket. -/
theorem newS3_pages {cfgPrefix : List Char} {fetch : List Char → List Char → Option (List Char)} {maxPayload : ℤ}
    {objs : List (String × Int64)}
    (h : Pages (fetch cfgPrefix) [] (objs.map fun o => (cfgPrefix ++ o.1.toList, o.2))) :
    ∃ n, ∀ fuel ≥ n,
      newS3 cfgPrefix fetch maxPayload fuel = some (load maxPayload (objs.map fun o => (o.1, o.2.toInt))) := by
  rw [← List.append_nil cfgPrefix] at h
  obtain ⟨n, hn⟩ := listObjects_pages h
  refine ⟨n, fun fuel hfuel => ?_⟩
  rw [newS3, hn fuel hfuel, Option.map_some, List.map_map, List.map_map]
  simp [Function.comp_def, objectOf, trimPrefix_append]

end Pages

section Sample

def pageHead : List Piece :=
  [⟨"ListBucketResult".toList, [], by decide, by decide⟩,
    ⟨truncatedTag, "true".toList, by decide, by decide⟩,
    ⟨'/' :: truncatedTag, [], by decide, by decide⟩,
    ⟨tokenTag, "t1".toList, by decide, by decide⟩,
    ⟨'/' :: tokenTag, [], by decide, by decide⟩]

def contentsPiece : Piece := ⟨contentsTag, [], by decide, by decide⟩

def firstFields : List Piece :=
  [⟨keyTag, "b/x".toList, by decide, by decide⟩, ⟨'/' :: keyTag, [], by decide, by decide⟩,
    ⟨sizeTag, "3".toList, by decide, by decide⟩, ⟨'/' :: sizeTag, [], by decide, by decide⟩]

def secondFields : List Piece :=
  [⟨sizeTag, "0".toList, by decide, by decide⟩, ⟨'/' :: sizeTag, [], by decide, by decide⟩,
    ⟨keyTag, "b/y".toList, by decide, by decide⟩, ⟨'/' :: keyTag, [], by decide, by decide⟩]

/-- A bucket of two objects, whose listing has two pages. -/
def twoPages (token : List Char) : Option (List Char) :=
  if token = [] then some (render (pageHead ++ contentsPiece :: firstFields))
  else if token = "t1".toList then some (render (contentsPiece :: secondFields))
  else none

theorem shows_first : Shows (render (pageHead ++ contentsPiece :: firstFields)) [("b/x".toList, 3)]
    (some "t1".toList) where
  exists_pieces := by
    refine ⟨[], pageHead, [(contentsPiece, firstFields)], rfl, by decide, by decide, ?_, by decide, ?_, ?_⟩
    · refine .cons ⟨rfl, by decide, ⟨_, written_plain (by decide), ?_⟩, ?_⟩ .nil
      · exact ⟨[], _, _, _, rfl, by simp, rfl, rfl, rfl⟩
      · exact ⟨firstFields.take 2, _, _, _, rfl, by decide, rfl, rfl, rfl⟩
    · exact ⟨pageHead.take 1, _, _, _, rfl, rfl, rfl, rfl⟩
    · exact ⟨_, written_plain (by decide), pageHead.take 3, _, _, _, rfl, by decide, rfl, rfl, rfl⟩

theorem shows_second : Shows (render (contentsPiece :: secondFields)) [("b/y".toList, 0)] none where
  exists_pieces := by
    refine ⟨[], [], [(contentsPiece, secondFields)], rfl, by decide, by simp, ?_, ?_⟩
    · refine .cons ⟨rfl, by decide, ⟨_, written_plain (by decide), ?_⟩, ?_⟩ .nil
      · exact ⟨secondFields.take 2, _, _, _, rfl, by decide, rfl, rfl, rfl⟩
      · exact ⟨[], _, _, _, rfl, by simp, rfl, rfl, rfl⟩
    · rintro ⟨pre, p, q, post, hpieces, hp, -⟩
      have hnone : ∀ r ∈ contentsPiece :: secondFields, r.tag ≠ truncatedTag := by decide
      refine hnone p ?_ hp
      change contentsPiece :: (secondFields ++ []) = _ at hpieces
      rw [List.append_nil] at hpieces
      rw [hpieces]
      exact List.mem_append_right pre List.mem_cons_self

theorem newS3_pages_two : ∃ n, ∀ fuel ≥ n,
    newS3 "b/".toList (fun _ => twoPages) 10 fuel = some (load 10 [("x", 3), ("y", 0)]) := by
  have hsecond : twoPages "t1".toList = some (render (contentsPiece :: secondFields)) := by
    rw [twoPages, if_neg (by decide), if_pos rfl]
  have hfirst : twoPages [] = some (render (pageHead ++ contentsPiece :: firstFields)) := rfl
  have hpages := Pages.more hfirst shows_first (Pages.last hsecond shows_second)
  exact @newS3_pages "b/".toList (fun _ => twoPages) 10 [("x", 3), ("y", 0)] hpages

end Sample

end Tactile.Relay.S3Listing

import Tactile.Lib.CodeUnits
import Tactile.Lib.Fresh
import Tactile.Lib.Matching
import Tactile.Notes.Saving

/-!
The names of untitled notes and of copies, and which of them no name in the directory equals
in another case.
-/

namespace Tactile.Notes.Naming

open Tactile.Lib.Program Tactile.Lib.Script Tactile.Lib.FiniteMap Tactile.Lib.Regex
open Tactile.Lib.CodeUnits (unit isSpace)
open Tactile.Lib.Fresh
open Tactile.Lib.Text (isDigit_of_mem_digits digit_bounds)
open Tactile.Lib.Matching (first first_eq_some first_eq_none occurrence)
open Tactile.Storage.Paths Tactile.Storage.Idb Tactile.Storage.Opfs Tactile.Storage.Backend
open Tactile.Notes.Saving

/-- How the runtime ignores case: in texts, and in the characters that an expression with the
flag `i` compares. -/
structure CaseRules where
  lower : Text → Text
  canon : Char → Char
  lower_ascii : ∀ s, (∀ c ∈ s, c.toNat < 128) → lower s = s.map Char.toLower
  canon_ascii : ∀ c, c.toNat < 128 → canon c = c.toUpper
  canon_other : ∀ c, 128 ≤ c.toNat → 128 ≤ (canon c).toNat

variable (rules : CaseRules)

section Numbers

/-- The number of digits; beyond 2 ^ 53 the source rounds it. -/
def parseInt (digits : Text) : ℕ := Nat.ofDigitChars 10 digits 0

def groupOf (w : Way Char) : Text := ((w.groups.head?).bind id).getD []

/-- The dot of an expression, which takes one code unit. -/
def isAny (c : Char) : Bool := c.toNat < 65536 && isDot c

def CaseRules.same (c d : Char) : Bool := rules.canon d == rules.canon c

/-- A text that stands in an expression as it is, so that its dots are any characters. -/
def CaseRules.unescaped (s : Text) : Pattern Char :=
  .chars (s.map fun c => if c = '.' then isAny else rules.same c)

def CaseRules.escaped (s : Text) : Pattern Char := .chars (s.map rules.same)

end Numbers

section Untitled

def untitledName : Text := "Untitled".toList

def markdownExtension : Text := ".md".toList

def numberPattern (pre extension : Text) : Pattern Char :=
  .seq (rules.unescaped pre)
    (.seq (.maybe (.seq (rules.escaped [' ']) (.group (.some Char.isDigit))))
      (.seq (rules.unescaped extension) .final))

/-- The number of a match; a name without one counts as zero. -/
def numberOf (w : Way Char) : ℕ := if groupOf w = [] then 0 else parseInt (groupOf w)

def untitledItems (files : List Text) (pre extension : Text) : List Text :=
  files.filter fun name =>
    (rules.lower pre).isPrefixOf (rules.lower name) &&
      (extension == [] || (rules.lower extension).isSuffixOf (rules.lower name))

def maxNumber (items : List Text) (pre extension : Text) : ℕ :=
  ((items.filterMap (matchHere (numberPattern rules pre extension))).map numberOf).foldl max 0

/-- The name with a number; the first name has none. -/
def numbered (pre extension : Text) (i : ℕ) : Text :=
  if i = 0 then pre ++ extension else pre ++ ' ' :: Nat.toDigits 10 i ++ extension

def getNextUntitledName (files : List Text) (pre extension : Text) : Text :=
  let items := untitledItems rules files pre extension
  let most := maxNumber rules items pre extension
  match first (fun i => numbered pre extension i ∉ items) (most + 2) with
  | some i => numbered pre extension i
  | none => pre ++ ' ' :: Nat.toDigits 10 (most + 1) ++ extension

end Untitled

section Copies

def isWhite (c : Char) : Bool := c.toNat < 65536 && isSpace (unit c)

/-- ` (1)` and the like at the end of a name. -/
def copySuffix : Pattern Char :=
  .seq (.char isWhite)
    (.seq (.literal ['(']) (.seq (.some Char.isDigit) (.seq (.literal [')']) .final)))

def dropCopySuffix (s : Text) : Text :=
  match search copySuffix s with
  | some (pre, w) => pre ++ w.rest
  | none => s

/-- The name that copies of a note have before their number. -/
def stemOf (path : Text) : Text :=
  let fileName := ((path.splitOn '/').getLast?).getD []
  dropCopySuffix (((fileName.splitOn '.').head?).getD [])

def extensionOf (path : Text) : Text := ((path.splitOn '.').getLast?).getD []

def dirOf (path : Text) : Text :=
  let dir := ['/'].intercalate (path.splitOn '/').dropLast
  if dir = [] then ['/'] else dir

def copyPattern (name ext : Text) : Pattern Char :=
  .seq (rules.escaped (name ++ [' ', '(']))
    (.seq (.group (.some Char.isDigit)) (.seq (rules.escaped (')' :: '.' :: ext)) .final))

def usedIndexes (files : List Text) (name ext : Text) : List ℕ :=
  (files.filterMap (matchHere (copyPattern rules name ext))).map fun w => parseInt (groupOf w)

def copyName (name ext : Text) (index : ℕ) : Text :=
  name ++ [' ', '('] ++ (Nat.toDigits 10 index ++ ')' :: '.' :: ext)

end Copies

section Generating

def createdName (files : List Text) : Text :=
  getNextUntitledName rules files untitledName markdownExtension

def duplicateName (files : List Text) (path : Text) : Text :=
  let name := stemOf path
  let ext := extensionOf path
  let used := usedIndexes rules files name ext
  copyName name ext (freeFrom (· ∈ used) used.length 1)

end Generating

section Matching

variable {rules} {s pre extension name ext taken rest : Text} {groups : List (Option Text)}

theorem reads_escaped :
    Reads (rules.escaped s) taken rest groups ↔
      taken.map rules.canon = s.map rules.canon ∧ groups = [] := by
  have hsame : ∀ c d, rules.same c d = true ↔ rules.canon c = rules.canon d :=
    fun c d => beq_iff_eq.trans eq_comm
  rw [CaseRules.escaped, reads_chars, List.forall₂_map_left_iff]
  simp only [hsame]
  rw [← List.forall₂_map_left_iff (f := rules.canon) (R := fun c d => c = rules.canon d),
    ← List.forall₂_map_right_iff (f := rules.canon) (R := fun c d => c = d), List.forall₂_eq_eq_eq,
    eq_comm (a := s.map rules.canon)]

theorem reads_unescaped_length (h : Reads (rules.unescaped s) taken rest groups) :
    taken.length = s.length ∧ groups = [] := by
  obtain ⟨hall, rfl⟩ := reads_chars.mp h
  have hlen := hall.length_eq
  rw [List.length_map] at hlen
  exact ⟨hlen.symm, rfl⟩

theorem reads_unescaped_self : Reads (rules.unescaped s) s rest [] := by
  refine reads_chars.mpr ⟨List.forall₂_map_left_iff.mpr (List.forall₂_same.mpr fun c _ => ?_), rfl⟩
  split
  next h =>
    rw [h]
    decide
  next => exact beq_self_eq_true _

theorem reads_numberPattern (h : Reads (numberPattern rules pre extension) taken rest groups) :
    rest = [] ∧ ∃ a mid b, taken = a ++ mid ++ b ∧ a.length = pre.length ∧
      b.length = extension.length ∧
      (mid = [] ∧ groups = [none] ∨
        ∃ c digits, mid = c :: digits ∧ digits ≠ [] ∧ groups = [some digits]) := by
  obtain ⟨a, u, g, k, hpre, ⟨mid, v, g', k', hmid, ⟨b, w, g'', k'', hext, ⟨rfl, rfl, rfl⟩, rfl, rfl⟩,
    rfl, rfl⟩, rfl, rfl⟩ := h
  obtain ⟨ha, rfl⟩ := reads_unescaped_length hpre
  obtain ⟨hb, rfl⟩ := reads_unescaped_length hext
  refine ⟨rfl, a, mid, b, by simp, ha, hb, ?_⟩
  rcases hmid with ⟨blank, digits, g, k, hblank, ⟨inner, hdigits, rfl⟩, rfl, rfl⟩ | ⟨rfl, rfl⟩
  · obtain ⟨hcanon, rfl⟩ := reads_escaped.mp hblank
    obtain ⟨hne, -, rfl⟩ := reads_some.mp hdigits
    have hlen := congrArg List.length hcanon
    rw [List.length_map, List.length_map] at hlen
    obtain ⟨c, rfl⟩ := List.length_eq_one_iff.mp hlen
    exact .inr ⟨c, digits, rfl, hne, rfl⟩
  · exact .inl ⟨rfl, rfl⟩

theorem digits_ne_nil (i : ℕ) : Nat.toDigits 10 i ≠ [] := Nat.toDigits_ne_nil

theorem numbered_reads (i : ℕ) :
    ∃ groups, Reads (numberPattern rules pre extension) (numbered pre extension i) [] groups := by
  rw [numbered]
  split
  next =>
    exact ⟨_, pre, extension, [], _, reads_unescaped_self, ⟨[], extension, [none], [],
      .inr ⟨rfl, rfl⟩, ⟨extension, [], [], [], reads_unescaped_self, ⟨rfl, rfl, rfl⟩, by simp, rfl⟩,
      rfl, rfl⟩, rfl, rfl⟩
  next =>
    have hdigits : Reads (.some Char.isDigit) (Nat.toDigits 10 i) (extension ++ []) [] :=
      reads_some.mpr ⟨digits_ne_nil i, fun _ => isDigit_of_mem_digits, rfl⟩
    refine ⟨_, pre, ' ' :: Nat.toDigits 10 i ++ extension, [], _, reads_unescaped_self,
      ⟨' ' :: Nat.toDigits 10 i, extension, [some (Nat.toDigits 10 i)], [], .inl ⟨[' '],
        Nat.toDigits 10 i, [], [some (Nat.toDigits 10 i)], reads_escaped.mpr ⟨rfl, rfl⟩,
        ⟨[], hdigits, rfl⟩, rfl, rfl⟩, ⟨extension, [], [], [], reads_unescaped_self,
        ⟨rfl, rfl, rfl⟩, by simp, rfl⟩, rfl, rfl⟩, by simp, rfl⟩

/-- Texts in three parts of which the outer ones have equal lengths. -/
theorem middle_inj {a b c a' b' c' : Text} (h : a ++ b ++ c = a' ++ b' ++ c')
    (ha : a.length = a'.length) (hc : c.length = c'.length) : a = a' ∧ b = b' ∧ c = c' := by
  obtain ⟨hab, rfl⟩ := List.append_inj' h hc
  obtain ⟨rfl, rfl⟩ := List.append_inj hab ha
  exact ⟨rfl, rfl, rfl⟩

theorem matchHere_numbered (i : ℕ) :
    ∃ w, matchHere (numberPattern rules pre extension) (numbered pre extension i) = some w ∧
      numberOf w = i := by
  obtain ⟨groups, hself⟩ := @numbered_reads rules pre extension i
  cases hmatch : matchHere (numberPattern rules pre extension) (numbered pre extension i) with
  | none =>
      exact absurd hself (matchHere_eq_none.mp hmatch _ [] groups (List.append_nil _).symm)
  | some w =>
      refine ⟨w, rfl, ?_⟩
      obtain ⟨hreads, hname⟩ := matchHere_reads hmatch
      obtain ⟨hrest, a, mid, b, htaken, ha, hb, hmid⟩ := reads_numberPattern hreads
      rw [hrest, List.append_nil, htaken, numbered] at hname
      split at hname
      next hi =>
        obtain ⟨-, rfl, -⟩ := middle_inj (b := []) (by rwa [List.append_nil]) ha.symm hb.symm
        rcases hmid with ⟨-, hgroups⟩ | ⟨c, digits, hcons, -, -⟩
        · rw [numberOf, groupOf, hgroups, hi]
          rfl
        · cases hcons
      next hi =>
        obtain ⟨-, rfl, -⟩ := middle_inj hname ha.symm hb.symm
        rcases hmid with ⟨hnil, -⟩ | ⟨c, digits, hcons, hne, hgroups⟩
        · cases hnil
        · obtain ⟨-, rfl⟩ := List.cons.inj hcons
          have hgroup : groupOf w = Nat.toDigits 10 i := by rw [groupOf, hgroups]; rfl
          rw [numberOf, hgroup, if_neg hne, parseInt, Nat.ofDigitChars_ten_toDigits]

theorem reads_copyPattern :
    Reads (copyPattern rules name ext) taken rest groups ↔
      rest = [] ∧ ∃ a digits b, taken = a ++ digits ++ b ∧
        a.map rules.canon = (name ++ [' ', '(']).map rules.canon ∧
        b.map rules.canon = (')' :: '.' :: ext).map rules.canon ∧
        digits ≠ [] ∧ (∀ c ∈ digits, c.isDigit = true) ∧ groups = [some digits] := by
  constructor
  · rintro ⟨a, u, g, k, hfront, ⟨digits, v, g', k', ⟨inner, hdigits, rfl⟩, ⟨b, w, g'', k'', hback,
      ⟨rfl, rfl, rfl⟩, rfl, rfl⟩, rfl, rfl⟩, rfl, rfl⟩
    obtain ⟨ha, rfl⟩ := reads_escaped.mp hfront
    obtain ⟨hb, rfl⟩ := reads_escaped.mp hback
    obtain ⟨hne, hall, rfl⟩ := reads_some.mp hdigits
    exact ⟨rfl, a, digits, b, by simp, ha, hb, hne, hall, rfl⟩
  · rintro ⟨rfl, a, digits, b, rfl, ha, hb, hne, hall, rfl⟩
    exact ⟨a, digits ++ b, [], [some digits], reads_escaped.mpr ⟨ha, rfl⟩, ⟨digits, b, [some digits],
      [], ⟨[], reads_some.mpr ⟨hne, hall, rfl⟩, rfl⟩, ⟨b, [], [], [], reads_escaped.mpr ⟨hb, rfl⟩,
        ⟨rfl, rfl, rfl⟩, by simp, rfl⟩, rfl, rfl⟩, by simp, rfl⟩

/-- A name that is, in any case, that of a copy with a number. -/
def IsCopy (rules : CaseRules) (name ext : Text) (k : ℕ) (file : Text) : Prop :=
  ∃ digits, digits ≠ [] ∧ (∀ c ∈ digits, c.isDigit = true) ∧ parseInt digits = k ∧
    file.map rules.canon = (name ++ [' ', '('] ++ (digits ++ ')' :: '.' :: ext)).map rules.canon

theorem toUpper_digit {c : Char} (hc : c.toNat < 128) (h : c.toUpper.isDigit = true) :
    c.toUpper = c := by
  have hall : ∀ n < 128, (Char.ofNat n).toUpper.isDigit = true →
      (Char.ofNat n).toUpper = Char.ofNat n := by decide +kernel
  have hchar := hall c.toNat hc
  rw [Char.ofNat_toNat] at hchar
  exact hchar h

theorem canon_digit {c d : Char} (hd : d.isDigit = true) (h : rules.canon c = rules.canon d) :
    c = d := by
  have hdsmall : d.toNat < 128 := lt_of_le_of_lt (digit_bounds hd).2 (by decide)
  have hdsame : ∀ d : Char, d.isDigit = true → d.toUpper = d := by
    intro d hd
    have hnot : ¬ ('a'.val ≤ d.val ∧ d.val ≤ 'z'.val) := by
      intro hlower
      have hle : d.val ≤ 57 := ((Bool.and_eq_true _ _).mp hd).2 |> of_decide_eq_true
      exact absurd (UInt32.le_trans hlower.1 hle) (by decide)
    exact dif_neg hnot
  rw [rules.canon_ascii d hdsmall, hdsame d hd] at h
  have hcsmall : c.toNat < 128 := by
    by_contra hlarge
    have hother := rules.canon_other c (not_lt.mp hlarge)
    rw [h] at hother
    omega
  rw [rules.canon_ascii c hcsmall] at h
  rw [← h, toUpper_digit hcsmall (h ▸ hd)]

theorem map_canon_digits {l digits : Text} (hdigits : ∀ c ∈ digits, c.isDigit = true)
    (h : l.map rules.canon = digits.map rules.canon) : l = digits := by
  induction digits generalizing l with
  | nil => exact List.map_eq_nil_iff.mp h
  | cons d digits ih =>
      obtain ⟨c, l, rfl, hc, hl⟩ := List.map_eq_cons_iff.mp h
      obtain ⟨hd, hdigits⟩ := List.forall_mem_cons.mp hdigits
      rw [canon_digit hd hc, ih hdigits hl]

theorem mem_usedIndexes {files : List Text} {k : ℕ} :
    k ∈ usedIndexes rules files name ext ↔ ∃ file ∈ files, IsCopy rules name ext k file := by
  rw [usedIndexes, List.mem_map]
  constructor
  · rintro ⟨w, hw, rfl⟩
    obtain ⟨file, hfile, hmatch⟩ := List.mem_filterMap.mp hw
    obtain ⟨hreads, hname⟩ := matchHere_reads hmatch
    obtain ⟨hrest, a, digits, b, htaken, ha, hb, hne, hall, hgroups⟩ := reads_copyPattern.mp hreads
    refine ⟨file, hfile, digits, hne, hall, ?_, ?_⟩
    · rw [groupOf, hgroups]
      rfl
    · rw [List.map_append] at ha
      rw [hname, hrest, htaken, List.append_nil]
      simp only [List.map_append, List.append_assoc] at hb ⊢
      rw [hb, ha, List.append_assoc]
  · rintro ⟨file, hfile, digits, hne, hall, rfl, hname⟩
    obtain ⟨a, u, rfl, ha, hu⟩ := List.map_eq_append_iff.mp (hname.trans (List.map_append ..))
    obtain ⟨m, b, rfl, hm, hb⟩ := List.map_eq_append_iff.mp (hu.trans (List.map_append ..))
    obtain rfl := map_canon_digits hall hm
    have hself : Reads (copyPattern rules name ext) (a ++ (m ++ b)) [] [some m] :=
      reads_copyPattern.mpr ⟨rfl, a, m, b, (List.append_assoc ..).symm, ha, hb, hne, hall, rfl⟩
    have hlena := congrArg List.length ha
    have hlenb := congrArg List.length hb
    rw [List.length_map, List.length_map] at hlena hlenb
    have hmatch : matchHere (copyPattern rules name ext) (a ++ (m ++ b)) =
        some ⟨a ++ (m ++ b), [], [some m]⟩ := by
      have hsome := matchHere_eq_some hself fun taken' rest' groups' hsplit hreads => ?_
      · rwa [List.append_nil] at hsome
      · obtain ⟨rfl, a', m', b', rfl, ha', hb', -, -, rfl⟩ := reads_copyPattern.mp hreads
        have hlena' := congrArg List.length ha'
        have hlenb' := congrArg List.length hb'
        rw [List.length_map, List.length_map] at hlena' hlenb'
        rw [List.append_nil, List.append_nil, ← List.append_assoc] at hsplit
        obtain ⟨rfl, rfl, rfl⟩ := middle_inj hsplit (by omega) (by omega)
        exact ⟨List.append_assoc .., rfl⟩
    exact ⟨_, List.mem_filterMap.mpr ⟨_, hfile, hmatch⟩, rfl⟩

/-- The number of a copy is the least one that no copy in the listing has. -/
theorem duplicateName_least (files : List Text) (path : Text) :
    ∃ k, 1 ≤ k ∧ duplicateName rules files path = copyName (stemOf path) (extensionOf path) k ∧
      (¬ ∃ file ∈ files, IsCopy rules (stemOf path) (extensionOf path) k file) ∧
      ∀ j, 1 ≤ j → j < k → ∃ file ∈ files, IsCopy rules (stemOf path) (extensionOf path) j file := by
  let used := usedIndexes rules files (stemOf path) (extensionOf path)
  have hfree : ∃ i, 1 ≤ i ∧ i ≤ 1 + used.length ∧ ¬ i ∈ used :=
    exists_free (fun i j h => h) used 1
  obtain ⟨hstart, hnone, hbefore⟩ := freeFrom_least hfree
  refine ⟨_, hstart, rfl, fun h => hnone (mem_usedIndexes.mpr h), fun j hj hlt => ?_⟩
  exact mem_usedIndexes.mp (hbefore j hj hlt)

/-- A copy's name is, in any case, that of a copy with its number. -/
theorem isCopy_copyName (k : ℕ) {file : Text}
    (h : file.map rules.canon = (copyName name ext k).map rules.canon) :
    IsCopy rules name ext k file :=
  ⟨Nat.toDigits 10 k, digits_ne_nil k, fun _ => isDigit_of_mem_digits,
    Nat.ofDigitChars_ten_toDigits, h⟩

end Matching

section Untitled

variable {rules} {files : List Text} {pre extension : Text}

theorem numbered_ascii (hpre : ∀ c ∈ pre, c.toNat < 128) (hext : ∀ c ∈ extension, c.toNat < 128)
    (i : ℕ) : ∀ c ∈ numbered pre extension i, c.toNat < 128 := by
  have hdigits : ∀ c ∈ ' ' :: Nat.toDigits 10 i, c.toNat < 128 :=
    List.forall_mem_cons.mpr ⟨by decide, fun c hc =>
      lt_of_le_of_lt (digit_bounds (isDigit_of_mem_digits hc)).2 (by decide)⟩
  intro c hc
  rw [numbered] at hc
  split at hc
  next => exact (List.mem_append.mp hc).elim (hpre c) (hext c)
  next =>
    rcases List.mem_append.mp hc with hc | hc
    · exact (List.mem_append.mp hc).elim (hpre c) (hdigits c)
    · exact hext c hc

theorem mem_untitledItems (hpre : ∀ c ∈ pre, c.toNat < 128)
    (hext : ∀ c ∈ extension, c.toNat < 128) (i : ℕ) :
    numbered pre extension i ∈ untitledItems rules files pre extension ↔
      numbered pre extension i ∈ files := by
  have hshape : ∃ mid, numbered pre extension i = pre ++ mid ++ extension := by
    rw [numbered]
    split
    next => exact ⟨[], by rw [List.append_nil]⟩
    next => exact ⟨' ' :: Nat.toDigits 10 i, rfl⟩
  obtain ⟨mid, hmid⟩ := hshape
  have hlower := rules.lower_ascii _ (@numbered_ascii pre extension hpre hext i)
  have hbegins : rules.lower pre <+: rules.lower (numbered pre extension i) := by
    rw [hlower, rules.lower_ascii pre hpre, hmid, List.append_assoc, List.map_append]
    exact List.prefix_append ..
  have hends : rules.lower extension <:+ rules.lower (numbered pre extension i) := by
    rw [hlower, rules.lower_ascii extension hext, hmid, List.map_append]
    exact List.suffix_append ..
  rw [untitledItems, List.mem_filter, and_iff_left_iff_imp]
  intro _
  simp [hbegins, hends]

theorem le_maxNumber {items : List Text} {name : Text} {w : Way Char} (hname : name ∈ items)
    (hw : matchHere (numberPattern rules pre extension) name = some w) :
    numberOf w ≤ maxNumber rules items pre extension := by
  have hfold : ∀ (l : List ℕ) (most : ℕ), most ≤ l.foldl max most ∧ ∀ n ∈ l, n ≤ l.foldl max most := by
    intro l
    induction l with
    | nil => exact fun most => ⟨le_refl _, fun n hn => absurd hn List.not_mem_nil⟩
    | cons m l ih =>
        intro most
        obtain ⟨hmost, hall⟩ := ih (max most m)
        refine ⟨(le_max_left _ _).trans hmost, List.forall_mem_cons.mpr ⟨?_, hall⟩⟩
        exact (le_max_right _ _).trans hmost
  exact (hfold _ 0).2 _ (List.mem_map.mpr ⟨w, List.mem_filterMap.mpr ⟨name, hname, hw⟩, rfl⟩)

/-- The name that is generated has the least number with which it is not in the listing. -/
theorem getNextUntitledName_least (hpre : ∀ c ∈ pre, c.toNat < 128)
    (hext : ∀ c ∈ extension, c.toNat < 128) :
    ∃ i, getNextUntitledName rules files pre extension = numbered pre extension i ∧
      numbered pre extension i ∉ files ∧ ∀ j < i, numbered pre extension j ∈ files := by
  have hmem := @mem_untitledItems rules files pre extension hpre hext
  rw [getNextUntitledName]
  split
  next i hfirst =>
    obtain ⟨-, hfree, hbefore⟩ := first_eq_some.mp hfirst
    refine ⟨i, rfl, fun h => hfree ((hmem i).mpr h), fun j hj => (hmem j).mp ?_⟩
    exact not_not.mp (hbefore j hj)
  next hnone =>
    -- the number after the greatest one would have been found
    have hlast := first_eq_none.mp hnone _ (Nat.lt_succ_self _)
    obtain ⟨w, hw, hnumber⟩ := @matchHere_numbered rules pre extension
      (maxNumber rules (untitledItems rules files pre extension) pre extension + 1)
    have hle := le_maxNumber (not_not.mp hlast) hw
    rw [hnumber] at hle
    exact absurd hle (Nat.not_succ_le_self _)

end Untitled

section Case

/-- No name of the listing equals a name in lower case. -/
def Differs (files : List Text) (name : Text) : Prop :=
  ∀ file ∈ files, rules.lower file ≠ rules.lower name

/-- A name of the listing that equals a numbered name in lower case has a number that is
taken, or one above a number that is free. -/
def Accounted (files : List Text) (name : ℕ → Text) (taken : ℕ → Prop) (start : ℕ) : Prop :=
  ∀ k, start ≤ k → (∃ file ∈ files, rules.lower file = rules.lower (name k)) →
    taken k ∨ ∃ j, start ≤ j ∧ j < k ∧ ¬ taken j

variable {rules}

theorem differs_iff_accounted {files : List Text} {name : ℕ → Text} {taken : ℕ → Prop}
    {start k : ℕ} (hstart : start ≤ k) (hfree : ¬ taken k)
    (hbefore : ∀ j, start ≤ j → j < k → taken j) :
    Differs rules files (name k) ↔ Accounted rules files name taken start := by
  constructor
  · intro hdiffers i hi hfile
    rcases Nat.lt_trichotomy i k with hlt | rfl | hlt
    · exact .inl (hbefore i hi hlt)
    · obtain ⟨file, hfile, hlower⟩ := hfile
      exact absurd hlower (hdiffers file hfile)
    · exact .inr ⟨k, hstart, hlt, hfree⟩
  · intro haccounted file hfile hlower
    rcases haccounted k hstart ⟨file, hfile, hlower⟩ with htaken | ⟨j, hj, hlt, hnot⟩
    · exact hfree htaken
    · exact hnot (hbefore j hj hlt)

theorem untitledName_ascii : ∀ c ∈ untitledName, c.toNat < 128 := by
  have hall : untitledName.all (fun c => c.toNat < 128) = true := by decide
  exact fun c hc => of_decide_eq_true (List.all_eq_true.mp hall c hc)

theorem markdownExtension_ascii : ∀ c ∈ markdownExtension, c.toNat < 128 := by
  have hall : markdownExtension.all (fun c => c.toNat < 128) = true := by decide
  exact fun c hc => of_decide_eq_true (List.all_eq_true.mp hall c hc)

/-- The name of a new note is not in the listing, and that of a copy is there in no case, as
expressions compare it. In lower case each differs from all names of the listing exactly when
those that equal a numbered name are accounted for. -/
theorem new_names_differ_iff (rules : CaseRules) (files : List Text) (path : Text) :
    createdName rules files ∉ files ∧
      (∀ file ∈ files,
        file.map rules.canon ≠ (duplicateName rules files path).map rules.canon) ∧
      (Differs rules files (createdName rules files) ↔
        Accounted rules files (numbered untitledName markdownExtension)
          (fun i => numbered untitledName markdownExtension i ∈ files) 0) ∧
      (Differs rules files (duplicateName rules files path) ↔
        Accounted rules files (copyName (stemOf path) (extensionOf path))
          (fun k => ∃ file ∈ files, IsCopy rules (stemOf path) (extensionOf path) k file) 1) := by
  obtain ⟨i, hcreated, hfree, hbefore⟩ := @getNextUntitledName_least rules files untitledName
    markdownExtension untitledName_ascii markdownExtension_ascii
  obtain ⟨k, hk, hduplicate, hnone, hsmaller⟩ := @duplicateName_least rules files path
  rw [createdName, hcreated, hduplicate]
  refine ⟨hfree, fun file hfile hcanon => hnone ⟨file, hfile, isCopy_copyName k hcanon⟩, ?_, ?_⟩
  · apply differs_iff_accounted (Nat.zero_le i) hfree
    exact fun j _ hj => hbefore j hj
  · exact differs_iff_accounted hk hnone hsmaller

/-- Case among the letters of ASCII. -/
def asciiRules : CaseRules where
  lower s := s.map Char.toLower
  canon := Char.toUpper
  lower_ascii _ _ := rfl
  canon_ascii _ _ := rfl
  canon_other := by
    intro c hc
    have hlarge : ¬ ('a'.val ≤ c.val ∧ c.val ≤ 'z'.val) := by
      rintro ⟨-, hle⟩
      have hnat := UInt32.le_iff_toNat_le.mp hle
      exact absurd (hc.trans hnat) (by decide)
    have hsame : c.toUpper = c := dif_neg hlarge
    rwa [hsame]

theorem untitled_in_another_case :
    ¬ ∀ files : List Text, Differs asciiRules files (createdName asciiRules files) := by
  intro h
  have hdiffers := h ["untitled.md".toList] "untitled.md".toList (List.mem_singleton_self _)
  have hcreated : createdName asciiRules ["untitled.md".toList] = "Untitled.md".toList := by
    decide +kernel
  rw [hcreated] at hdiffers
  exact hdiffers (by decide)

end Case

end Tactile.Notes.Naming

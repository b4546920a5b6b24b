import Mathlib.Data.List.DropRight
import Mathlib.Data.List.Forall2
import Tactile.Notes.Creating

/-!
Importing attachments: the names under which files are stored, and what is stored.
-/

namespace Tactile.Notes.Attachments

open Tactile.Lib.Program Tactile.Lib.Script Tactile.Lib.FiniteMap Tactile.Lib.Fresh
open Tactile.Storage.Paths Tactile.Storage.Idb Tactile.Storage.Opfs Tactile.Storage.Backend
open Tactile.Notes.Saving (given)
open Tactile.Notes.Naming (isWhite digits_ne_nil)
open Tactile.Lib.Text (isDigit_of_mem_digits digit_bounds digits_inj)
open Tactile.Notes.Creating (Keeps)

def attachmentsDir : Text := "attachments".toList

structure File where
  name : Text
  bytes : List UInt8
  type : Text

structure ImportedAttachment where
  src : Text
  name : Text
  mime : Text
  deriving DecidableEq

inductive ImportError
  | failed (e : Failure)
  | outOfFuel

section Names

def isForbidden (c : Char) : Bool := "/\\?%*:|\"<>".toList.contains c

/-- Each run of white space as one blank; the flag says that one was just written. -/
def collapse : Bool → Text → Text
  | _, [] => []
  | after, c :: s =>
    if isWhite c then if after then collapse true s else ' ' :: collapse true s
    else c :: collapse false s

def trim (s : Text) : Text := (s.dropWhile isWhite).rdropWhile isWhite

def isLeading (c : Char) : Bool := isWhite c || c == '.'

def sanitizeName (name : Text) : Text :=
  let clean := trim (collapse false (name.map fun c => if isForbidden c then ' ' else c))
  let clean := trim (clean.dropWhile isLeading)
  if clean = [] then "attachment".toList else clean

def lastIndexOfDot (s : Text) : ℤ := (s.length : ℤ) - 1 - (s.reverse.idxOf '.' : ℤ)

/-- What comes before the last dot, unless that is nothing. -/
def stemOf (name : Text) : Text :=
  if 0 < lastIndexOfDot name then name.take (lastIndexOfDot name).toNat else name

def extOf (name : Text) : Text :=
  if 0 < lastIndexOfDot name then name.drop (lastIndexOfDot name).toNat else []

/-- The names that are tried: the name itself, and then it with numbers. -/
def candidate (name : Text) (i : ℕ) : Text :=
  if i = 0 then name else stemOf name ++ [' ', '('] ++ Nat.toDigits 10 i ++ [')'] ++ extOf name

end Names

abbrev AttachmentM (α : Type) : Type := StorageM ImportError (Option Text) α

def uniqueFrom (dir name : Text) : ℕ → ℕ → AttachmentM Text
  | 0, _ => throw .outOfFuel
  | n + 1, i => do
    let taken ← ask ImportError.failed (.exists (dir ++ '/' :: candidate name i))
    if taken then uniqueFrom dir name n (i + 1) else pure (candidate name i)

def uniqueName (fuel : ℕ) (dir name : Text) : AttachmentM Text := uniqueFrom dir name fuel 0

/-- The name that a file has, or the one for files without a name. -/
def File.givenName (file : File) : Text :=
  if file.name = [] then "attachment".toList else file.name

def importFile (fuel : ℕ) (dir : Text) (file : File) : AttachmentM ImportedAttachment := do
  let name ← uniqueName fuel dir (sanitizeName file.givenName)
  ask ImportError.failed (.writeFile (dir ++ '/' :: name) file.bytes)
  pure ⟨attachmentsDir ++ '/' :: name, name, file.type⟩

def importFiles (fuel : ℕ) (dir : Text) : List File → AttachmentM (List ImportedAttachment)
  | [] => pure []
  | file :: files => do
    let imported ← importFile fuel dir file
    let rest ← importFiles fuel dir files
    pure (imported :: rest)

/-- The memory is the collection that is open. -/
def importAttachments (fuel : ℕ) (files : List File) : AttachmentM (List ImportedAttachment) := do
  match given (← Method.read) with
  | none => pure []
  | some collection => do
    let dir := collection ++ '/' :: attachmentsDir
    ask ImportError.failed (.mkdir dir true)
    importFiles fuel dir files

section Sanitizing

/-- The control characters of Unicode. -/
def IsControl (c : Char) : Prop := c.toNat ≤ 0x1F ∨ 0x7F ≤ c.toNat ∧ c.toNat ≤ 0x9F

instance (c : Char) : Decidable (IsControl c) := inferInstanceAs (Decidable (_ ∨ _))

variable {c : Char} {s name : Text} {p : Char → Bool}

theorem mem_dropWhile_of_not (hc : p c = false) : c ∈ s.dropWhile p ↔ c ∈ s := by
  constructor
  · exact fun h => (List.dropWhile_suffix p).subset h
  · intro h
    rw [← List.takeWhile_append_dropWhile (p := p) (l := s)] at h
    refine (List.mem_append.mp h).resolve_left fun htaken => ?_
    rw [List.mem_takeWhile_imp htaken] at hc
    cases hc

theorem mem_trim_of_not (hc : isWhite c = false) : c ∈ trim s ↔ c ∈ s := by
  rw [trim, List.rdropWhile, List.mem_reverse, mem_dropWhile_of_not hc, List.mem_reverse,
    mem_dropWhile_of_not hc]

theorem mem_of_mem_trim (h : c ∈ trim s) : c ∈ s :=
  (List.dropWhile_suffix isWhite).subset ((List.rdropWhile_prefix isWhite _).subset h)

theorem mem_collapse {after : Bool} (h : c ∈ collapse after s) :
    c = ' ' ∨ c ∈ s ∧ isWhite c = false := by
  induction s generalizing after with
  | nil => cases h
  | cons d s ih =>
      have hrest : ∀ {after : Bool}, c ∈ collapse after s → c = ' ' ∨ c ∈ d :: s ∧ isWhite c = false :=
        fun h => (ih h).imp id fun h => ⟨List.mem_cons_of_mem d h.1, h.2⟩
      rw [collapse] at h
      split_ifs at h with hd hafter
      · exact hrest h
      · exact (List.mem_cons.mp h).elim .inl hrest
      · rcases List.mem_cons.mp h with rfl | h
        · exact .inr ⟨List.mem_cons_self, Bool.eq_false_of_not_eq_true hd⟩
        · exact hrest h

theorem mem_collapse_of_not {after : Bool} (hc : isWhite c = false) :
    c ∈ collapse after s ↔ c ∈ s := by
  have hblank : c ≠ ' ' := by
    rintro rfl
    exact absurd hc (by decide)
  constructor
  · exact fun h => ((mem_collapse h).resolve_left hblank).1
  · intro h
    induction s generalizing after with
    | nil => cases h
    | cons d s ih =>
        rw [collapse]
        rcases List.mem_cons.mp h with rfl | h
        · rw [if_neg (by simp [hc])]
          exact List.mem_cons_self
        · split_ifs
          · exact ih h
          · exact List.mem_cons_of_mem _ (ih h)
          · exact List.mem_cons_of_mem _ (ih h)

theorem mem_blanked (h : isForbidden c = false) (hblank : c ≠ ' ') :
    c ∈ name.map (fun c => if isForbidden c then ' ' else c) ↔ c ∈ name := by
  rw [List.mem_map]
  constructor
  · rintro ⟨d, hd, heq⟩
    split at heq
    next => exact absurd heq.symm hblank
    next => exact heq ▸ hd
  · intro hmem
    exact ⟨c, hmem, by rw [if_neg (by simp [h])]⟩

/-- What is left of a name before an empty one is replaced. -/
def cleaned (name : Text) : Text :=
  trim ((trim (collapse false (name.map fun c => if isForbidden c then ' ' else c))).dropWhile
    isLeading)

theorem sanitizeName_eq (name : Text) :
    sanitizeName name = if cleaned name = [] then "attachment".toList else cleaned name := rfl

theorem mem_cleaned (h : c ∈ cleaned name) :
    c = ' ' ∨ c ∈ name ∧ isForbidden c = false ∧ isWhite c = false := by
  have hcollapsed := mem_of_mem_trim ((List.dropWhile_suffix isLeading).subset (mem_of_mem_trim h))
  refine or_iff_not_imp_left.mpr fun hblank => ?_
  obtain ⟨hmem, hwhite⟩ := (mem_collapse hcollapsed).resolve_left hblank
  have hallowed : isForbidden c = false := by
    obtain ⟨d, -, heq⟩ := List.mem_map.mp hmem
    split at heq
    next => exact absurd heq.symm hblank
    next hd => exact heq ▸ Bool.eq_false_of_not_eq_true hd
  exact ⟨(mem_blanked hallowed hblank).mp hmem, hallowed, hwhite⟩

theorem mem_cleaned_of_not (hforbidden : isForbidden c = false) (hleading : isLeading c = false) :
    c ∈ cleaned name ↔ c ∈ name := by
  have hwhite : isWhite c = false := ((Bool.or_eq_false_iff).mp hleading).1
  have hblank : c ≠ ' ' := by
    rintro rfl
    exact absurd hwhite (by decide)
  rw [cleaned, mem_trim_of_not hwhite, mem_dropWhile_of_not hleading, mem_trim_of_not hwhite,
    mem_collapse_of_not hwhite, mem_blanked hforbidden hblank]

theorem head_cleaned (h : c ∈ (cleaned name).head?) : c ≠ '.' := by
  have hhead : ∀ {s : Text}, c ∈ (trim (s.dropWhile isLeading)).head? → isLeading c = false := by
    intro s h
    have hfirst : ∀ d ∈ (s.dropWhile isLeading).head?, isLeading d = false := by
      intro d hd
      have hnot := List.head?_dropWhile_not isLeading s
      rw [Option.mem_def.mp hd] at hnot
      simpa using hnot
    cases hs : s.dropWhile isLeading with
    | nil =>
        rw [hs] at h
        cases h
    | cons d rest =>
        have hd := hfirst d (by rw [hs]; rfl)
        have hwhite : isWhite d = false := ((Bool.or_eq_false_iff).mp hd).1
        rw [hs, trim, List.dropWhile_cons_of_neg (by simp [hwhite])] at h
        obtain ⟨post, hpost⟩ := List.rdropWhile_prefix isWhite (d :: rest)
        cases hkept : (d :: rest).rdropWhile isWhite with
        | nil =>
            rw [hkept] at h
            cases h
        | cons e kept =>
            rw [hkept] at h hpost
            obtain rfl : e = c := Option.some.inj h
            obtain rfl : e = d := (List.cons.inj hpost).1
            exact hd
  rintro rfl
  exact absurd (hhead h) (by decide)

/-- What the name of a stored file is like. -/
structure Boring (s : Text) : Prop where
  isName : IsName s
  notHidden : s.head? ≠ some '.'
  noBackslash : '\\' ∉ s

theorem not_isForbidden_of_isControl (h : IsControl c) : isForbidden c = false := by
  have hnone : "/\\?%*:|\"<>".toList.all (fun d => decide (¬ IsControl d)) = true := by decide
  refine Bool.eq_false_of_not_eq_true fun hmem => ?_
  exact of_decide_eq_true (List.all_eq_true.mp hnone c (List.contains_iff_mem.mp hmem)) h

theorem isLeading_of_isControl (h : IsControl c) : isLeading c = isWhite c := by
  have hdot : (c == '.') = false := by
    refine beq_false_of_ne ?_
    rintro rfl
    exact absurd h (by decide)
  rw [isLeading, hdot, Bool.or_false]

theorem control_sanitizeName (h : IsControl c) :
    c ∈ sanitizeName name ↔ c ∈ name ∧ isWhite c = false := by
  have hblank : c ≠ ' ' := by
    rintro rfl
    exact absurd h (by decide)
  have hcleaned : c ∈ cleaned name ↔ c ∈ name ∧ isWhite c = false := by
    constructor
    · intro hmem
      obtain ⟨hname, -, hwhite⟩ := (mem_cleaned hmem).resolve_left hblank
      exact ⟨hname, hwhite⟩
    · rintro ⟨hname, hwhite⟩
      exact (mem_cleaned_of_not (not_isForbidden_of_isControl h)
        ((isLeading_of_isControl h).trans hwhite)).mpr hname
  rw [sanitizeName_eq, ← hcleaned]
  split
  next hempty =>
    have hplain : "attachment".toList.all (fun d => decide (¬ IsControl d)) = true := by decide
    rw [hempty]
    constructor
    · exact fun hmem => absurd h (of_decide_eq_true (List.all_eq_true.mp hplain c hmem))
    · exact fun hmem => absurd hmem List.not_mem_nil
  next => exact Iff.rfl

theorem boring_of {s : Text} (hne : s ≠ []) (hhead : s.head? ≠ some '.') (hslash : '/' ∉ s)
    (hback : '\\' ∉ s) : Boring s where
  isName := by
    refine ⟨hne, ?_, ?_, hslash⟩
    · rintro rfl
      exact hhead rfl
    · rintro rfl
      exact hhead rfl
  notHidden := hhead
  noBackslash := hback

theorem boring_sanitizeName (name : Text) : Boring (sanitizeName name) := by
  rw [sanitizeName_eq]
  split
  next => exact boring_of (by decide) (by decide) (by decide) (by decide)
  next hne =>
    have hforbidden : ∀ d, isForbidden d = true → d ∉ cleaned name := by
      intro d hd hmem
      rcases mem_cleaned hmem with rfl | ⟨-, hallowed, -⟩
      · exact absurd hd (by decide)
      · rw [hd] at hallowed
        cases hallowed
    refine boring_of hne ?_ (hforbidden '/' (by decide)) (hforbidden '\\' (by decide))
    exact fun h => head_cleaned (Option.mem_def.mpr h) rfl

end Sanitizing

section Candidates

variable {c : Char} {name : Text} {i j : ℕ}

theorem stem_append_ext (name : Text) : stemOf name ++ extOf name = name := by
  rw [stemOf, extOf]
  split
  next => exact List.take_append_drop ..
  next => exact List.append_nil name

theorem stemOf_ne_nil (h : name ≠ []) : stemOf name ≠ [] := by
  rw [stemOf]
  split
  next hdot =>
    intro hnil
    rcases List.take_eq_nil_iff.mp hnil with hzero | hname
    · omega
    · exact h hname
  next => exact h

/-- A name with a number is the name with the number in it. -/
theorem candidate_perm (name : Text) (hi : i ≠ 0) :
    (candidate name i).Perm (name ++ ([' ', '('] ++ Nat.toDigits 10 i ++ [')'])) := by
  have hsplit := stem_append_ext name
  rw [candidate, if_neg hi]
  calc stemOf name ++ [' ', '('] ++ Nat.toDigits 10 i ++ [')'] ++ extOf name
      = stemOf name ++ (([' ', '('] ++ Nat.toDigits 10 i ++ [')']) ++ extOf name) := by
        simp only [List.append_assoc]
    _ |>.Perm (stemOf name ++ (extOf name ++ ([' ', '('] ++ Nat.toDigits 10 i ++ [')']))) :=
        List.Perm.append_left _ List.perm_append_comm
    _ = name ++ ([' ', '('] ++ Nat.toDigits 10 i ++ [')']) := by rw [← List.append_assoc, hsplit]

theorem length_candidate (name : Text) (hi : i ≠ 0) :
    (candidate name i).length = name.length + ((Nat.toDigits 10 i).length + 3) := by
  rw [(candidate_perm name hi).length_eq]
  simp only [List.length_append, List.length_cons, List.length_nil]
  omega

theorem candidate_inj (name : Text) (i j : ℕ) (h : candidate name i = candidate name j) : i = j := by
  have hlen := congrArg List.length h
  by_cases hi : i = 0
  · by_cases hj : j = 0
    · rw [hi, hj]
    · rw [length_candidate name hj, candidate, if_pos hi] at hlen
      omega
  · by_cases hj : j = 0
    · rw [length_candidate name hi, candidate, if_pos hj] at hlen
      omega
    · rw [candidate, candidate, if_neg hi, if_neg hj] at h
      exact digits_inj
        (List.append_cancel_left (List.append_cancel_right (List.append_cancel_right h)))

theorem mem_candidate : c ∈ candidate name i ↔
    c ∈ name ∨ i ≠ 0 ∧ (c = ' ' ∨ c = '(' ∨ c ∈ Nat.toDigits 10 i ∨ c = ')') := by
  by_cases hi : i = 0
  · simp [candidate, hi]
  · rw [(candidate_perm name hi).mem_iff]
    simp [hi]

theorem not_isControl_digit (h : c.isDigit = true) : ¬ IsControl c := by
  obtain ⟨hge, hle⟩ := digit_bounds h
  rw [IsControl]
  omega

theorem control_candidate (h : IsControl c) : c ∈ candidate name i ↔ c ∈ name := by
  rw [mem_candidate, or_iff_left]
  rintro ⟨-, rfl | rfl | hdigit | rfl⟩
  · exact absurd h (by decide)
  · exact absurd h (by decide)
  · exact not_isControl_digit (isDigit_of_mem_digits hdigit) h
  · exact absurd h (by decide)

theorem boring_candidate (h : Boring name) (i : ℕ) : Boring (candidate name i) := by
  have hplain : ∀ c, c ∉ name → c ∉ [' ', '(', ')'] → c.isDigit = false → c ∉ candidate name i := by
    intro c hname hadded hdigit hmem
    rcases mem_candidate.mp hmem with hmem | ⟨-, rfl | rfl | hmem | rfl⟩
    · exact hname hmem
    · exact hadded (by simp)
    · exact hadded (by simp)
    · rw [isDigit_of_mem_digits hmem] at hdigit
      cases hdigit
    · exact hadded (by simp)
  have hne : candidate name i ≠ [] := by
    obtain ⟨d, rest, hname⟩ := List.exists_cons_of_ne_nil h.isName.nonempty
    exact List.ne_nil_of_mem (mem_candidate.mpr (.inl (hname ▸ List.mem_cons_self)))
  have hhead : (candidate name i).head? = name.head? := by
    obtain ⟨d, rest, hstem⟩ := List.exists_cons_of_ne_nil (stemOf_ne_nil h.isName.nonempty)
    have hname : name.head? = some d := by
      rw [← stem_append_ext name, hstem]
      rfl
    rw [candidate]
    split
    next => rfl
    next =>
      rw [hstem, hname]
      rfl
  refine boring_of hne (hhead ▸ h.notHidden) ?_ ?_
  · exact hplain '/' h.isName.noSlash (by decide) (by decide)
  · exact hplain '\\' h.noBackslash (by decide) (by decide)

end Candidates

section Runs

variable {codec : TextCodec} {clock : Clock} {t t' : Tree} {d : List Text} {dir name : Text}
variable {files : List File} {file : File} {fuel : ℕ} {mem : Option Text}

theorem uniqueFrom_free (hdir : pathSegments dir = .ok d) (hname : Boring name) {k : ℕ}
    (hfree : t.lookup (d ++ [candidate name k]) = none) {n i : ℕ} (hi : i ≤ k)
    (hbefore : ∀ j, i ≤ j → j < k → t.lookup (d ++ [candidate name j]) ≠ none) (hn : k < i + n) :
    Meets (Responds (respond codec clock)) (fun _ _ => True)
      (fun found mem' t' => found = candidate name k ∧ mem' = mem ∧ t' = t) (fun _ _ _ => False)
      (uniqueFrom dir name n i) mem t := by
  -- on the tries that are left: every name before the `k`th one is passed over
  induction n generalizing i with
  | zero => exact absurd hi (by omega)
  | succ n ih =>
      have hpath := pathSegments_name hdir (boring_candidate hname i).isName
      have hexists : respond codec clock (.exists (dir ++ '/' :: candidate name i)) t =
          (.ok ((t.lookup (d ++ [candidate name i])).isSome : Bool), t) := by
        rw [respond, reading_ok hpath, existsAt]
        simp
      rw [uniqueFrom, meets_bind]
      apply meets_ask_ok trivial hexists
      rcases Nat.eq_or_lt_of_le hi with rfl | hlt
      · rw [hfree]
        exact ⟨rfl, rfl, rfl⟩
      · have htaken := Option.isSome_iff_ne_none.mpr (hbefore i (le_refl i) hlt)
        rw [if_pos htaken]
        exact ih hlt (fun j hj => hbefore j (by omega)) (by omega)

/-- How a file is stored at a place where nothing was. -/
structure StoredAs (d : List Text) (t t' : Tree) (file : File) (imported : ImportedAttachment) :
    Prop where
  src : imported.src = attachmentsDir ++ '/' :: imported.name
  mime : imported.mime = file.type
  fresh : t.lookup (d ++ [imported.name]) = none
  stored : t'.lookup (d ++ [imported.name]) = some (.file file.bytes)
  named : ∃ i, imported.name = candidate (sanitizeName file.givenName) i
  boring : Boring imported.name

/-- What is imported of files: each is stored at a place of its own, in their order, and what
existed is as it was. -/
structure Stored (d : List Text) (t t' : Tree) (files : List File) (out : List ImportedAttachment) :
    Prop where
  each : List.Forall₂ (StoredAs d t t') files out
  distinct : (out.map ImportedAttachment.name).Nodup
  kept : Keeps t t'

theorem exists_candidate (t : Tree) (d : List Text) (name : Text) :
    ∃ k, t.lookup (d ++ [candidate name k]) = none ∧
      ∀ j < k, t.lookup (d ++ [candidate name j]) ≠ none := by
  have hused : ∀ s, s ∈ (t.children d).map Prod.fst ↔ t.lookup (d ++ [s]) ≠ none := by
    intro s
    rw [List.mem_map, Option.ne_none_iff_exists']
    constructor
    · rintro ⟨⟨name, node⟩, hmem, rfl⟩
      exact ⟨node, mem_children.mp hmem⟩
    · rintro ⟨node, hnode⟩
      exact ⟨(s, node), mem_children.mpr hnode, rfl⟩
  obtain ⟨k, -, hfree, hbefore⟩ := exists_least_free (candidate_inj name)
    ((t.children d).map Prod.fst) 0
  refine ⟨k, ?_, fun j hj => (hused _).mp (hbefore j (Nat.zero_le j) hj)⟩
  exact not_not.mp (mt (hused _).mpr hfree)

theorem keeps_insert {l : List Text} (node : Node) (hfree : t.lookup l = none) :
    Keeps t (t.insert l node) := by
  intro p stored hstored
  rw [lookup_insert_eq, if_neg]
  · exact hstored
  · rintro rfl
    rw [hfree] at hstored
    cases hstored

theorem importFile_stores (hdir : pathSegments dir = .ok d) (hisDir : t.isDir d) (file : File) :
    ∃ imported t' enough, (∀ fuel, enough ≤ fuel →
        Meets (Responds (respond codec clock)) (fun _ _ => True)
          (fun out mem' s => out = imported ∧ mem' = mem ∧ s = t') (fun _ _ _ => False)
          (importFile fuel dir file) mem t) ∧
      StoredAs d t t' file imported ∧ Keeps t t' ∧ t'.isDir d := by
  have hboring := boring_sanitizeName file.givenName
  obtain ⟨k, hfree, hbefore⟩ := exists_candidate t d (sanitizeName file.givenName)
  have hname := boring_candidate hboring k
  have hkept := keeps_insert (.file file.bytes) hfree
  refine ⟨⟨attachmentsDir ++ '/' :: candidate (sanitizeName file.givenName) k,
    candidate (sanitizeName file.givenName) k, file.type⟩,
    t.insert (d ++ [candidate (sanitizeName file.givenName) k]) (.file file.bytes), k + 1,
    fun fuel hfuel => ?_, ⟨rfl, rfl, hfree, ?_, ⟨k, rfl⟩, hname⟩, hkept, ?_⟩
  · rw [importFile, meets_bind, uniqueName]
    refine (uniqueFrom_free hdir hboring hfree (Nat.zero_le k) (fun j _ hj => hbefore j hj)
      (by omega)).imp (fun found mem₁ t₁ h => ?_) fun _ _ _ h => h
    obtain ⟨rfl, rfl, rfl⟩ := h
    have hpath := pathSegments_name hdir hname.isName
    have hwrite : respond codec clock
        (.writeFile (dir ++ '/' :: candidate (sanitizeName file.givenName) k) file.bytes) t₁ =
          (.ok (), t₁.insert (d ++ [candidate (sanitizeName file.givenName) k])
            (.file file.bytes)) := by
      rw [respond, writing_ok hpath, writeFileAt_eq_ok, List.dropLast_concat]
      refine ⟨hisDir, fun hdir' => ?_, rfl⟩
      rcases isDir_eq_true.mp hdir' with hnil | hstored
      · simp at hnil
      · rw [hfree] at hstored
        cases hstored
    rw [meets_bind]
    exact meets_ask_ok trivial hwrite ⟨rfl, rfl, rfl⟩
  · rw [lookup_insert_eq, if_pos rfl]
  · exact isDir_kept hisDir fun h => hkept d _ h

theorem exists_right_of_mem {α β : Type} {R : α → β → Prop} {as : List α} {bs : List β}
    (h : List.Forall₂ R as bs) {a : α} (ha : a ∈ as) : ∃ b ∈ bs, R a b := by
  induction h with
  | nil => cases ha
  | cons hab _ ih =>
      rcases List.mem_cons.mp ha with rfl | ha
      · exact ⟨_, List.mem_cons_self, hab⟩
      · obtain ⟨b, hb, hR⟩ := ih ha
        exact ⟨b, List.mem_cons_of_mem _ hb, hR⟩

theorem importFiles_stores (hdir : pathSegments dir = .ok d) (hisDir : t.isDir d)
    (files : List File) :
    ∃ out t' enough, (∀ fuel, enough ≤ fuel →
        Meets (Responds (respond codec clock)) (fun _ _ => True)
          (fun found mem' s => found = out ∧ mem' = mem ∧ s = t') (fun _ _ _ => False)
          (importFiles fuel dir files) mem t) ∧
      Stored d t t' files out := by
  induction files generalizing t with
  | nil => exact ⟨[], t, 0, fun _ _ => ⟨rfl, rfl, rfl⟩, .nil, List.nodup_nil, fun _ _ h => h⟩
  | cons file files ih =>
      obtain ⟨imported, t₁, enough, hfile, hstored, hkept, hisDir₁⟩ :=
        @importFile_stores codec clock t d dir mem hdir hisDir file
      obtain ⟨out, t', enough', hfiles, hrest⟩ := ih hisDir₁
      refine ⟨imported :: out, t', max enough enough', fun fuel hfuel => ?_, ?_, ?_, ?_⟩
      · rw [importFiles, meets_bind]
        refine (hfile fuel ((le_max_left _ _).trans hfuel)).imp (fun found mem₁ t₂ h => ?_)
          fun _ _ _ h => h
        obtain ⟨rfl, rfl, rfl⟩ := h
        rw [meets_bind]
        refine (hfiles fuel ((le_max_right _ _).trans hfuel)).imp (fun found' mem₂ t₃ h => ?_)
          fun _ _ _ h => h
        obtain ⟨rfl, rfl, rfl⟩ := h
        exact ⟨rfl, rfl, rfl⟩
      · refine .cons ⟨hstored.src, hstored.mime, hstored.fresh, ?_, hstored.named, hstored.boring⟩
          (hrest.each.imp fun file a ha => ⟨ha.src, ha.mime, ?_, ha.stored, ha.named, ha.boring⟩)
        · exact hrest.kept _ _ hstored.stored
        · by_contra hthere
          obtain ⟨node, hnode⟩ := Option.ne_none_iff_exists'.mp hthere
          have hlater := hkept _ _ hnode
          rw [ha.fresh] at hlater
          cases hlater
      · rw [List.map_cons, List.nodup_cons]
        refine ⟨fun hmem => ?_, hrest.distinct⟩
        obtain ⟨a, ha, hname⟩ := List.mem_map.mp hmem
        obtain ⟨file', -, hlater⟩ := exists_right_of_mem hrest.each.flip ha
        have hfresh := hlater.fresh
        rw [hname, hstored.stored] at hfresh
        cases hfresh
      · exact fun p node h => hrest.kept p node (hkept p node h)

theorem control_givenName (file : File) {c : Char} (h : IsControl c) :
    c ∈ file.givenName ↔ c ∈ file.name := by
  rw [File.givenName]
  split
  next hempty =>
    have hplain : "attachment".toList.all (fun d => decide (¬ IsControl d)) = true := by decide
    rw [hempty]
    constructor
    · exact fun hmem => absurd h (of_decide_eq_true (List.all_eq_true.mp hplain c hmem))
    · exact fun hmem => absurd hmem List.not_mem_nil
  next => exact Iff.rfl

/-- The control characters in the names of stored files are those of the files' names that
are not white space. -/
theorem no_control_iff {out : List ImportedAttachment} (h : Stored d t t' files out) :
    (∀ imported ∈ out, ∀ c ∈ imported.name, ¬ IsControl c) ↔
      ∀ file ∈ files, ∀ c ∈ file.name, IsControl c → isWhite c = true := by
  have hsame : ∀ {file : File} {imported : ImportedAttachment}, StoredAs d t t' file imported →
      ∀ c, IsControl c → (c ∈ imported.name ↔ c ∈ file.name ∧ isWhite c = false) := by
    intro file imported hstored c hc
    obtain ⟨i, hname⟩ := hstored.named
    rw [hname, control_candidate hc, control_sanitizeName hc, control_givenName file hc]
  constructor
  · intro hnone file hfile c hmem hc
    obtain ⟨imported, himported, hstored⟩ := exists_right_of_mem h.each hfile
    refine Bool.eq_true_of_not_eq_false fun hwhite => ?_
    exact hnone imported himported c ((hsame hstored c hc).mpr ⟨hmem, hwhite⟩) hc
  · intro hwhite imported himported c hmem hc
    obtain ⟨file, hfile, hstored⟩ := exists_right_of_mem h.each.flip himported
    obtain ⟨hname, hnot⟩ := (hsame hstored c hc).mp hmem
    rw [hwhite file hfile c hname hc] at hnot
    cases hnot

/-- An import into a collection in which no file stands in the place of the directory stores
every file at a place of its own. Its name has a control character exactly if the file's name
has one that is not white space. -/
theorem import_stores (clock : Clock) {collection : Text} {l : List Text}
    (hcollection : pathSegments collection = .ok l)
    (hfree : ∀ p ∈ (l ++ [attachmentsDir]).inits.tail, ∀ contents,
      t.lookup p ≠ some (.file contents)) (files : List File) :
    ∃ out t' enough, (∀ fuel, enough ≤ fuel →
        eval (respond codec clock) ((importAttachments fuel files).call (some collection)) t =
          ((.ok out, some collection), t')) ∧
      Stored (l ++ [attachmentsDir]) t t' files out ∧
      ((∀ imported ∈ out, ∀ c ∈ imported.name, ¬ IsControl c) ↔
        ∀ file ∈ files, ∀ c ∈ file.name, IsControl c → isWhite c = true) := by
  have hdir : pathSegments (collection ++ '/' :: attachmentsDir) = .ok (l ++ [attachmentsDir]) :=
    pathSegments_name hcollection (by decide)
  obtain ⟨t₁, hmade⟩ := makeDirs_ok_iff.mpr hfree
  have hmkdir : mkdirAt t (l ++ [attachmentsDir]) true = (.ok (), t₁) := by
    rw [mkdirAt, if_pos rfl, hmade]
  have hresponse : respond codec clock (.mkdir (collection ++ '/' :: attachmentsDir) true) t =
      (.ok (), t₁) := by
    rw [respond, writing_ok hdir, hmkdir]
  obtain ⟨out, t', enough, hrun, hstored⟩ := @importFiles_stores codec clock t₁ _ _
    (some collection) hdir (mkdirAt_isDir hmkdir) files
  obtain ⟨hkept, hsame⟩ := Creating.keeps_mkdir hresponse
  have hstored' : Stored (l ++ [attachmentsDir]) t t' files out := by
    refine ⟨hstored.each.imp fun file a ha => ?_, hstored.distinct,
      fun p node h => hstored.kept p node (hkept p node h)⟩
    exact ⟨ha.src, ha.mime, (hsame _ _ hdir).symm.trans ha.fresh, ha.stored, ha.named, ha.boring⟩
  refine ⟨out, t', enough, fun fuel hfuel => ?_, hstored', no_control_iff hstored'⟩
  have hgiven : given (some collection) = some collection := by
    cases collection with
    | nil => cases hcollection
    | cons c rest => rfl
  apply eval_of_meets (G := fun _ _ => True)
  rw [importAttachments, meets_bind, meets_read, hgiven]
  dsimp only
  rw [meets_bind]
  exact meets_ask_ok trivial hresponse (hrun fuel hfuel)

end Runs

section Samples

open Tactile.Storage.Restoring (utf8Codec)

def sampleFiles : List File :=
  [⟨"a.txt".toList, [104], "text/plain".toList⟩, ⟨"..a.txt".toList, [105], []⟩, ⟨[], [], []⟩]

def sampleClock : Clock := ⟨0, fun _ => none⟩

/-- Two files whose names become the same, and one without a name, in a collection that is
empty. -/
theorem import_stores_three :
    ∃ out t' enough, (∀ fuel, enough ≤ fuel →
        eval (respond utf8Codec sampleClock)
            ((importAttachments fuel sampleFiles).call (some ['/', 'c'])) ∅ =
          ((.ok out, some ['/', 'c']), t')) ∧
      Stored [['c'], attachmentsDir] ∅ t' sampleFiles out ∧
      ((∀ imported ∈ out, ∀ c ∈ imported.name, ¬ IsControl c) ↔
        ∀ file ∈ sampleFiles, ∀ c ∈ file.name, IsControl c → isWhite c = true) :=
  @import_stores utf8Codec ∅ sampleClock ['/', 'c'] [['c']] (by decide)
    (fun p _ contents h => by
      rw [AList.lookup_empty] at h
      cases h) sampleFiles

theorem control_character_kept :
    ¬ ∀ (files : List File) (out : List ImportedAttachment) (mem : Option Text) (t' : Tree),
      eval (respond utf8Codec sampleClock)
          ((importAttachments 1 files).call (some ['/', 'c'])) ∅ = ((.ok out, mem), t') →
        ∀ imported ∈ out, ∀ c ∈ imported.name, ¬ IsControl c := by
  intro h
  let file : File := ⟨['a', '\u001B'], [], []⟩
  have hname : (eval (respond utf8Codec sampleClock)
      ((importAttachments 1 [file]).call (some ['/', 'c'])) ∅).1.1.toOption.map
        (List.map ImportedAttachment.name) = some [file.name] := by decide +kernel
  cases hrun : eval (respond utf8Codec sampleClock)
      ((importAttachments 1 [file]).call (some ['/', 'c'])) ∅ with
  | mk outcome t' =>
      obtain ⟨result, mem⟩ := outcome
      rw [hrun] at hname
      cases result with
      | error e => cases hname
      | ok out =>
          obtain ⟨imported, rfl, himported⟩ := List.map_eq_singleton_iff.mp (Option.some.inj hname)
          refine h [file] _ mem t' hrun imported (List.mem_singleton_self _) '\u001B' ?_ (by decide)
          rw [himported]
          decide

end Samples

end Tactile.Notes.Attachments

import Tactile.Notes.Naming

/-!
Creating an untitled note and copying a note: what is written, and that nothing that exists
is overwritten.
-/

namespace Tactile.Notes.Creating

open Tactile.Lib.Program Tactile.Lib.Script Tactile.Lib.FiniteMap
open Tactile.Lib.Matching (occurrence occurrence_eq_some)
open Tactile.Lib.Regex (search_split)
open Tactile.Lib.Text (slash_notMem_toDigits)
open Tactile.Lib.Split (notMem_of_mem_splitOn mem_of_mem_splitOn)
open Tactile.Storage.Paths Tactile.Storage.Idb Tactile.Storage.Opfs Tactile.Storage.Backend
open Tactile.Notes.Saving (given)
open Tactile.Notes.Naming

inductive CreateError
  | failed (e : Failure)
  | nameConflict

def replaceFirst (old new s : Text) : Text :=
  match occurrence old s with
  | some k => s.take k ++ new ++ s.drop (k + old.length)
  | none => s

def whenMissing : CreateError → StorageM CreateError Unit (List Text)
  | .failed (.storage e) =>
    if e.code = .notFound then pure [] else throw (.failed (.storage e))
  -- an error that is not the storage's own says nothing about the directory
  | e => throw e

/-- The names in a directory; one that is missing has none. -/
def namesIn (dirPath : Text) : StorageM CreateError Unit (List Text) :=
  Method.orElse (do
    let entries ← ask CreateError.failed (.readDir dirPath)
    pure (entries.map DirEntry.name)) whenMissing

variable (rules : CaseRules)

/-- The name of a new note, which a caller may give. -/
def noteName (files : List Text) (name : Option Text) : Except CreateError Text :=
  match given name with
  | none => .ok (createdName rules files)
  | some name =>
    let name := if markdownExtension.isSuffixOf name then name else name ++ markdownExtension
    if files.any fun file => rules.lower file == rules.lower name then .error .nameConflict
    else .ok name

def createNote (dirPath : Text) (name : Option Text) : StorageM CreateError Unit Text := do
  let files ← namesIn dirPath
  let name ← Method.ofExcept id (noteName rules files name)
  let notePath := replaceFirst ['/', '/'] ['/'] (dirPath ++ '/' :: name)
  ask .failed (.mkdir dirPath true)
  ask .failed (.writeTextFile notePath "")
  pure notePath

def duplicateNote (path : Text) : StorageM Failure Unit Text := do
  let content ← ask id (.readTextFile path)
  let entries ← ask id (.readDir (dirOf path))
  let newName := duplicateName rules (entries.map DirEntry.name) path
  ask id (.writeTextFile (dirOf path ++ '/' :: newName) content)
  pure (dirOf path ++ '/' :: newName)

section Paths

variable {l m : List Text} {s path : Text}

theorem keepSegments_nil_between :
    keepSegments path (l ++ [] :: m) = keepSegments path (l ++ m) := by
  induction l with
  | nil => rw [List.nil_append, keepSegments, if_pos (.inl rfl), List.nil_append]
  | cons s l ih => rw [List.cons_append, List.cons_append, keepSegments, keepSegments, ih]

/-- One slash for the first two does not change where a path leads. -/
theorem pathSegments_replaceFirst (h : pathSegments s = .ok l) :
    pathSegments (replaceFirst ['/', '/'] ['/'] s) = .ok l := by
  rw [replaceFirst]
  split
  next k hk =>
    obtain ⟨a, b, hs, rfl, -⟩ := (occurrence_eq_some (List.cons_ne_nil _ _)).mp hk
    obtain ⟨-, hkept⟩ := pathSegments_eq_ok.mp h
    have hsplit : s = a ++ '/' :: '/' :: b := by rw [hs, List.append_assoc]; rfl
    have hshort : s.take a.length ++ ['/'] ++ s.drop (a.length + ['/', '/'].length) =
        a ++ '/' :: b := by
      rw [hsplit, List.take_left, ← List.drop_drop, List.drop_left, List.append_assoc]
      rfl
    rw [hshort]
    rw [hsplit, List.splitOn_append_cons_self, splitOn_cons_slash, keepSegments_nil_between,
      ← List.splitOn_append_cons_self] at hkept
    exact pathSegments_eq_ok.mpr ⟨by simp, keepSegments_congr _ hkept⟩
  next => exact h

theorem isName_of_long (hlong : 2 < s.length) (hslash : '/' ∉ s) : IsName s where
  nonempty := by
    rintro rfl
    exact absurd hlong (by decide)
  notDot := by
    rintro rfl
    exact absurd hlong (by decide)
  notDotDot := by
    rintro rfl
    exact absurd hlong (by decide)
  noSlash := hslash

theorem isName_numbered (i : ℕ) : IsName (numbered untitledName markdownExtension i) := by
  have hname : '/' ∉ untitledName := by decide
  have hext : '/' ∉ markdownExtension := by decide
  have hlen : untitledName.length = 8 := rfl
  rw [numbered]
  split
  next => exact isName_of_long (by decide) (by decide)
  next =>
    refine isName_of_long ?_ ?_
    · rw [List.length_append, List.length_append, hlen]
      omega
    · simp [hname, hext, slash_notMem_toDigits]

theorem slash_notMem_stemOf (path : Text) : '/' ∉ stemOf path := by
  intro h
  have hfile : '/' ∉ ((path.splitOn '/').getLast?).getD [] := by
    cases hlast : (path.splitOn '/').getLast? with
    | none => exact List.not_mem_nil
    | some part => exact notMem_of_mem_splitOn (List.mem_of_getLast? hlast)
  have hstem : '/' ∈ (((((path.splitOn '/').getLast?).getD []).splitOn '.').head?).getD [] := by
    rw [stemOf, dropCopySuffix] at h
    split at h
    next pre w hsearch =>
      rw [search_split hsearch]
      rcases List.mem_append.mp h with h | h
      · exact List.mem_append_left _ (List.mem_append_left _ h)
      · exact List.mem_append_right _ h
    next => exact h
  cases hhead : ((((path.splitOn '/').getLast?).getD []).splitOn '.').head? with
  | none =>
      rw [hhead] at hstem
      cases hstem
  | some part =>
      rw [hhead] at hstem
      exact hfile (mem_of_mem_splitOn (List.mem_of_head? hhead) hstem)

theorem isName_copyName {ext : Text} (hext : '/' ∉ ext) (k : ℕ) :
    IsName (copyName (stemOf path) ext k) := by
  rw [copyName]
  refine isName_of_long ?_ ?_
  · simp only [List.length_append, List.length_cons]
    omega
  · simp [slash_notMem_stemOf, slash_notMem_toDigits, hext]

end Paths

section Runs

variable {rules} {codec : TextCodec} {clock : Clock} {t t' : Tree} {l : List Text} {dirPath path : Text}

/-- What exists stays as it is. -/
def Keeps (t t' : Tree) : Prop := ∀ p node, t.lookup p = some node → t'.lookup p = some node

/-- All that lies in a directory is among the names. -/
def Lists (t : Tree) (dirPath : Text) (files : List Text) : Prop :=
  ∀ l name, pathSegments dirPath = .ok l → t.lookup (l ++ [name]) ≠ none → name ∈ files

theorem lists_children (hl : pathSegments dirPath = .ok l) :
    Lists t dirPath (((t.children l).map fun e => entryOf e.1 e.2).map DirEntry.name) := by
  intro l' name hl' hstored
  rw [hl] at hl'
  cases hl'
  obtain ⟨node, hnode⟩ := Option.ne_none_iff_exists'.mp hstored
  have hname : ∀ e : Text × Node, (entryOf e.1 e.2).name = e.1 := by
    rintro ⟨name, node⟩
    cases node <;> rfl
  rw [List.map_map]
  exact List.mem_map.mpr ⟨(name, node), mem_children.mpr hnode, hname _⟩

theorem lists_missing (hv : t.Valid) (hl : pathSegments dirPath = .ok l) (hdir : ¬ t.isDir l) :
    Lists t dirPath [] := by
  intro l' name hl' hstored
  rw [hl] at hl'
  cases hl'
  obtain ⟨node, hnode⟩ := Option.ne_none_iff_exists'.mp hstored
  have hparent := (hv _ _ hnode).2.2
  rw [List.dropLast_concat] at hparent
  exact absurd hparent hdir

/-- Where a directory cannot be read, nothing lies in it. -/
theorem lists_of_error {e : Failure} (hv : t.Valid)
    (h : reading t dirPath (readDirAt t) = (.error e, t')) : t' = t ∧ Lists t dirPath [] := by
  rw [reading] at h
  cases hl : pathSegments dirPath with
  | error error =>
      rw [hl] at h
      refine ⟨(Prod.mk.inj h).2.symm, fun l name hok => ?_⟩
      rw [hl] at hok
      cases hok
  | ok l =>
      rw [hl] at h
      obtain ⟨hread, rfl⟩ := Prod.mk.inj h
      refine ⟨rfl, lists_missing hv hl fun hdir => ?_⟩
      rw [readDirAt_eq_ok.mpr ⟨hdir, rfl⟩] at hread
      cases hread

theorem namesIn_lists (hv : t.Valid) :
    Meets (Responds (respond codec clock)) (fun _ _ => True)
      (fun files _ t' => t' = t ∧ Lists t dirPath files) (fun _ _ t' => t' = t)
      (namesIn dirPath) () t := by
  rw [namesIn, meets_orElse, meets_bind]
  apply meets_asked trivial
  · intro entries t' hread
    obtain ⟨l, hl, hentries, rfl⟩ := of_reading hread
    obtain ⟨-, rfl⟩ := readDirAt_eq_ok.mp hentries
    exact ⟨rfl, lists_children hl⟩
  · intro e t' hread
    obtain ⟨rfl, hnone⟩ := lists_of_error hv hread
    cases e with
    | dom e => exact rfl
    | storage e =>
        rw [whenMissing]
        split
        next => exact ⟨rfl, hnone⟩
        next => exact rfl

/-- A file that is written where nothing is leaves what exists as it is. -/
theorem keeps_write {contents : String} {out : Except Failure Unit} (hfree : t.lookup l = none)
    (hpath : pathSegments path = .ok l)
    (h : respond codec clock (.writeTextFile path contents) t = (out, t')) : Keeps t t' := by
  have hwrite : writeFileAt t l (codec.encode contents) = (out, t') := (writing_ok hpath _).symm.trans h
  cases out with
  | error e =>
      rw [writeFileAt_error hwrite]
      exact fun _ _ h => h
  | ok u =>
      obtain ⟨-, -, rfl⟩ := writeFileAt_eq_ok.mp hwrite
      intro p node hstored
      rw [lookup_insert_eq, if_neg]
      · exact hstored
      · rintro rfl
        rw [hfree] at hstored
        cases hstored

/-- Directories that are made leave what exists as it is, and nothing below the last one. -/
theorem keeps_mkdir {out : Except Failure Unit}
    (h : respond codec clock (.mkdir dirPath true) t = (out, t')) :
    Keeps t t' ∧ ∀ l name, pathSegments dirPath = .ok l →
      t'.lookup (l ++ [name]) = t.lookup (l ++ [name]) := by
  rw [respond, writing] at h
  cases hl : pathSegments dirPath with
  | error error =>
      rw [hl] at h
      obtain ⟨-, rfl⟩ := Prod.mk.inj h
      exact ⟨fun _ _ h => h, fun _ _ _ => rfl⟩
  | ok l =>
      rw [hl] at h
      have hmade : t' = (mkdirAt t l true).2 := (congrArg Prod.snd h).symm
      subst hmade
      constructor
      · intro p node hstored
        rw [mkdirAt, if_pos rfl]
        rcases lookup_makeDirs_or l.inits.tail t p with hsame | ⟨-, hnone, -⟩
        · rw [hsame, hstored]
        · rw [hnone] at hstored
          cases hstored
      · intro l' name hl'
        cases hl'
        refine lookup_mkdirAt_apart fun hbegins => ?_
        have hlen := hbegins.length_le
        rw [List.length_append, List.length_singleton] at hlen
        exact absurd hlen (Nat.not_succ_le_self _)

/-- An untitled note that is created overwrites nothing. -/
theorem createNote_keeps (hv : t.Valid) (dirPath : Text) :
    Meets (Responds (respond codec clock)) (fun _ _ => True) (fun _ _ t' => Keeps t t')
      (fun _ _ t' => Keeps t t') (createNote rules dirPath none) () t := by
  rw [createNote, meets_bind]
  refine (namesIn_lists hv).imp (fun files _ t₁ h => ?_) fun _ _ t₁ h p node hstored => h ▸ hstored
  obtain ⟨rfl, hlists⟩ := h
  obtain ⟨i, hname, hfree, -⟩ := @getNextUntitledName_least rules files untitledName
    markdownExtension untitledName_ascii markdownExtension_ascii
  have hcreated : noteName rules files none = .ok (createdName rules files) := rfl
  rw [hcreated, meets_bind, meets_ofExcept]
  refine ⟨fun name hok => ?_, nofun⟩
  cases hok
  rw [meets_bind]
  apply meets_asked (o := .mkdir dirPath true) trivial
  · intro _ t₂ hmkdir
    obtain ⟨l, hl, -⟩ := of_writing hmkdir
    obtain ⟨hkept, hsame⟩ := keeps_mkdir hmkdir
    have hpath : pathSegments (replaceFirst ['/', '/'] ['/'] (dirPath ++ '/' :: createdName rules files)) =
        .ok (l ++ [createdName rules files]) := by
      rw [createdName, hname]
      exact pathSegments_replaceFirst (pathSegments_name hl (isName_numbered i))
    -- the directories were made after the listing, but nothing in the last one
    have hnone : t₂.lookup (l ++ [createdName rules files]) = none := by
      rw [hsame l _ hl]
      by_contra hstored
      have hlisted := hlists l _ hl hstored
      rw [createdName, hname] at hlisted
      exact hfree hlisted
    have hwritten : ∀ out t₃, respond codec clock (.writeTextFile
        (replaceFirst ['/', '/'] ['/'] (dirPath ++ '/' :: createdName rules files)) "") t₂ =
          (out, t₃) → Keeps t₁ t₃ := by
      intro out t₃ hwrite p node hstored
      exact keeps_write hnone hpath hwrite p node (hkept p node hstored)
    rw [meets_bind]
    apply meets_asked (o := .writeTextFile _ "") trivial
    · exact fun _ t₃ hwrite => hwritten _ t₃ hwrite
    · exact fun _ t₃ hwrite => hwritten _ t₃ hwrite
  · exact fun _ t₂ hmkdir => (keeps_mkdir hmkdir).1

/-- A copy of a note with an extension overwrites nothing. -/
theorem duplicateNote_keeps (hext : '/' ∉ extensionOf path) :
    Meets (Responds (respond codec clock)) (fun _ _ => True) (fun _ _ t' => Keeps t t')
      (fun _ _ t' => Keeps t t') (duplicateNote rules path) () t := by
  rw [duplicateNote, meets_bind]
  have hread : ∀ {o : StorageOp} {out : StorageAns o} {t' : Tree} {dir : Text}
      {f : List Text → Except Failure (StorageVal o)}, respond codec clock o t = reading t dir f →
        respond codec clock o t = (out, t') → t' = t := by
    intro o out t' dir f hreading h
    rw [hreading] at h
    exact (congrArg Prod.snd h).symm.trans (reading_snd f)
  apply meets_asked trivial
  · intro content t₁ hcontent
    obtain rfl := hread rfl hcontent
    rw [meets_bind]
    apply meets_asked trivial
    · intro entries t₂ hentries
      obtain ⟨l, hl, hchildren, rfl⟩ := of_reading hentries
      obtain ⟨-, rfl⟩ := readDirAt_eq_ok.mp hchildren
      have hlists : Lists t₂ (dirOf path) _ := lists_children hl
      obtain ⟨k, hk, hname, hfree, -⟩ := @duplicateName_least rules
        (((t₂.children l).map fun e => entryOf e.1 e.2).map DirEntry.name) path
      dsimp only
      rw [hname, meets_bind]
      have hnone : t₂.lookup (l ++ [copyName (stemOf path) (extensionOf path) k]) = none := by
        by_contra hstored
        exact hfree ⟨_, hlists l _ hl hstored, isCopy_copyName k rfl⟩
      have hpath := pathSegments_name hl (@isName_copyName path _ hext k)
      apply meets_asked (o := .writeTextFile _ content) trivial
      · exact fun _ t₃ hwrite => keeps_write hnone hpath hwrite
      · exact fun _ t₃ hwrite => keeps_write hnone hpath hwrite
    · intro e t₂ hentries
      obtain rfl := hread rfl hentries
      exact fun _ _ h => h
  · intro e t₁ hcontent
    obtain rfl := hread rfl hcontent
    exact fun _ _ h => h

end Runs

end Tactile.Notes.Creating

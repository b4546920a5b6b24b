import Tactile.Storage.Opfs

/-!
What a storage backend offers to the code above it: each call of its interface
is one operation on a tree, and may fail without a change.
-/

namespace Tactile.Storage.Backend

open Tactile.Lib.Program Tactile.Lib.Script Tactile.Lib.FiniteMap
open Tactile.Storage.Paths Tactile.Storage.Idb Tactile.Storage.Opfs

/-- `TextEncoder` and `TextDecoder`. -/
structure TextCodec where
  encode : String → List UInt8
  decode : List UInt8 → String

/-- What a host says of the time: the clock, and when files were changed. -/
structure Clock where
  now : ℤ
  mtime : List Text → Option ℤ

structure FileStat where
  size : ℕ
  mtime : Option ℤ
  deriving DecidableEq

structure DirEntry where
  name : Text
  isDirectory : Bool
  isFile : Bool
  deriving DecidableEq

/-- The calls of a backend, and the clock. -/
inductive StorageOp
  | readDir (path : Text)
  | readTextFile (path : Text)
  | readFile (path : Text)
  | writeTextFile (path : Text) (contents : String)
  | writeFile (path : Text) (contents : List UInt8)
  | mkdir (path : Text) (recursive : Bool)
  | rename (fromPath toPath : Text)
  | remove (path : Text) (recursive : Bool)
  | stat (path : Text)
  | exists (path : Text)
  | now
  deriving DecidableEq

/-- What a call returns. -/
abbrev StorageVal : StorageOp → Type
  | .readDir _ => List DirEntry
  | .readTextFile _ => String
  | .readFile _ => List UInt8
  | .stat _ => FileStat
  | .exists _ => Bool
  | .now => ℤ
  | _ => Unit

abbrev StorageAns (o : StorageOp) : Type := Except Failure (StorageVal o)

section Trees

def refuse {α : Type} (message : String) (path : List Text) (code : ErrCode) : Except Failure α :=
  .error (.storage (storageError message (render path) code))

def entryOf (name : Text) : Node → DirEntry
  | .dir => ⟨name, true, false⟩
  | .file _ => ⟨name, false, true⟩

def readDirAt (t : Tree) (path : List Text) : Except Failure (List DirEntry) :=
  if t.isDir path then .ok ((t.children path).map fun e => entryOf e.1 e.2)
  else if (t.lookup path).isSome then refuse "Not a directory: " path .notDirectory
  else refuse "No such directory: " path .notFound

def readFileAt (t : Tree) (path : List Text) : Except Failure (List UInt8) :=
  match t.lookup path with
  | none => refuse "No such file: " path .notFound
  | some .dir => refuse "Is a directory: " path .isDirectory
  | some (.file contents) => .ok contents

def writeFileAt (t : Tree) (path : List Text) (contents : List UInt8) : Except Failure Unit × Tree :=
  if !t.isDir path.dropLast then (refuse "No such directory: " path.dropLast .notFound, t)
  else if t.isDir path then (refuse "Is a directory: " path .isDirectory, t)
  else (.ok (), t.insert path (.file contents))

/-- Makes directories one after another, those that exist aside. -/
def makeDirs : List (List Text) → Tree → Except Failure Unit × Tree
  | [], t => (.ok (), t)
  | path :: rest, t =>
    match t.lookup path with
    | some .dir => makeDirs rest t
    | some (.file _) => (refuse "File exists: " path .alreadyExists, t)
    | none => makeDirs rest (t.insert path .dir)

def mkdirAt (t : Tree) (path : List Text) (recursive : Bool) : Except Failure Unit × Tree :=
  if recursive then makeDirs path.inits.tail t
  else if path = [] then (.ok (), t)
  else if !t.isDir path.dropLast then (refuse "No such directory: " path.dropLast .notFound, t)
  else makeDirs [path] t

/-- What a rename to another place needs. -/
structure Moves (t : Tree) (src dst : List Text) : Prop where
  source : src ≠ []
  notInside : ¬ src <+: dst
  stored : t.lookup src ≠ none
  free : t.lookup dst = none
  target : dst ≠ []
  parent : t.isDir dst.dropLast

/-- Where a path lies after a rename. -/
def relocate (src dst path : List Text) : List Text :=
  if src <+: path then dst ++ path.drop src.length else path

def renameAt (t : Tree) (src dst : List Text) : Except Failure Unit × Tree :=
  if src = [] then (refuse "Cannot rename root" [] .invalidPath, t)
  else if src = dst then (.ok (), t)
  else if src <+: dst then (refuse "Cannot move a directory into itself" [] .invalidPath, t)
  else if (t.lookup src).isNone then (refuse "No such file: " src .notFound, t)
  else if (t.lookup dst).isSome ∨ dst = [] then (refuse "Destination exists: " dst .alreadyExists, t)
  else if !t.isDir dst.dropLast then (refuse "No such directory: " dst.dropLast .notFound, t)
  else (.ok (), ofPairs ((pairs t).map fun e => (relocate src dst e.1, e.2)))

def removeAt (t : Tree) (path : List Text) (recursive : Bool) : Except Failure Unit × Tree :=
  if path = [] then (refuse "Cannot remove root" [] .invalidPath, t)
  else if (t.lookup path).isNone then (refuse "No such file: " path .notFound, t)
  else if !recursive ∧ t.children path ≠ [] then (refuse "Directory is not empty: " path .notEmpty, t)
  else (.ok (), select t fun q _ => !path.isPrefixOf q)

def statAt (t : Tree) (path : List Text) : Except Failure ℕ :=
  if path = [] then .ok 0
  else
    match t.lookup path with
    | none => refuse "No such file: " path .notFound
    | some .dir => .ok 0
    | some (.file contents) => .ok contents.length

def existsAt (t : Tree) (path : List Text) : Bool := path = [] ∨ (t.lookup path).isSome

end Trees

section Serving

/-- A call that reads at a path. -/
def reading {α : Type} (t : Tree) (path : Text) (f : List Text → Except Failure α) :
    Except Failure α × Tree :=
  match pathSegments path with
  | .error e => (.error (.storage e), t)
  | .ok l => (f l, t)

/-- A call that writes at a path. -/
def writing {α : Type} (t : Tree) (path : Text) (f : List Text → Except Failure α × Tree) :
    Except Failure α × Tree :=
  match pathSegments path with
  | .error e => (.error (.storage e), t)
  | .ok l => f l

variable (codec : TextCodec) (clock : Clock)

def respond : (o : StorageOp) → Tree → StorageAns o × Tree
  | .readDir path, t => reading t path (readDirAt t)
  | .readTextFile path, t => reading t path fun l => (readFileAt t l).map codec.decode
  | .readFile path, t => reading t path (readFileAt t)
  | .writeTextFile path contents, t =>
      writing t path fun l => writeFileAt t l (codec.encode contents)
  | .writeFile path contents, t => writing t path fun l => writeFileAt t l contents
  | .mkdir path recursive, t => writing t path fun l => mkdirAt t l recursive
  | .rename fromPath toPath, t =>
      writing t fromPath fun src => writing t toPath fun dst => renameAt t src dst
  | .remove path recursive, t => writing t path fun l => removeAt t l recursive
  | .stat path, t => reading t path fun l => (statAt t l).map fun size => ⟨size, clock.mtime l⟩
  | .exists path, t => reading t path fun l => .ok (existsAt t l)
  | .now, t => (.ok clock.now, t)

/-- A call is served or fails. -/
inductive Serves : Answers StorageOp StorageAns Tree
  | served (t : Tree) (o : StorageOp) : Serves t o (respond codec clock o t).1 (respond codec clock o t).2
  | failed (t : Tree) (o : StorageOp) (e : Failure) : o ≠ .now → Serves t o (.error e) t

end Serving

/-- Methods of the code above a backend, with a memory and errors of their own. -/
abbrev StorageM (ε μ α : Type) : Type := Method StorageOp StorageAns ε μ α

/-- Awaits a call of the backend. -/
def ask {ε μ : Type} (wrap : Failure → ε) (o : StorageOp) : StorageM ε μ (StorageVal o) := do
  let answer ← Method.perform o
  Method.ofExcept wrap answer

section Outcomes

variable {t t' : Tree} {l : List Text} {path : Text} {α : Type}

theorem reading_ok (h : pathSegments path = .ok l) (f : List Text → Except Failure α) :
    reading t path f = (f l, t) := by
  simp only [reading, h]

theorem writing_ok (h : pathSegments path = .ok l) (f : List Text → Except Failure α × Tree) :
    writing t path f = f l := by
  simp only [writing, h]

@[simp] theorem reading_snd (f : List Text → Except Failure α) : (reading t path f).2 = t := by
  rw [reading]
  split <;> rfl

theorem of_reading {f : List Text → Except Failure α} {val : α}
    (h : reading t path f = (.ok val, t')) :
    ∃ l, pathSegments path = .ok l ∧ f l = .ok val ∧ t' = t := by
  rw [reading] at h
  cases hl : pathSegments path with
  | error e =>
      rw [hl] at h
      cases h
  | ok l =>
      rw [hl] at h
      exact ⟨l, rfl, (Prod.mk.inj h).1, (Prod.mk.inj h).2.symm⟩

theorem of_writing {f : List Text → Except Failure α × Tree} {val : α}
    (h : writing t path f = (.ok val, t')) :
    ∃ l, pathSegments path = .ok l ∧ f l = (.ok val, t') := by
  rw [writing] at h
  cases hl : pathSegments path with
  | error e =>
      rw [hl] at h
      cases h
  | ok l =>
      rw [hl] at h
      exact ⟨l, rfl, h⟩

theorem writing_error {f : List Text → Except Failure α × Tree} {e : Failure}
    (hf : ∀ l t', f l = (.error e, t') → t' = t) (h : writing t path f = (.error e, t')) :
    t' = t := by
  rw [writing] at h
  split at h
  next => exact (Prod.mk.inj h).2.symm
  next l hl => exact hf l t' h

theorem readFileAt_eq_ok {contents : List UInt8} :
    readFileAt t l = .ok contents ↔ t.lookup l = some (.file contents) := by
  rw [readFileAt]
  constructor
  · intro h
    split at h
    next => cases h
    next => cases h
    next hstored => rw [hstored, Except.ok.inj h]
  · intro h
    rw [h]

theorem readDirAt_eq_ok {entries : List DirEntry} :
    readDirAt t l = .ok entries ↔
      t.isDir l ∧ entries = (t.children l).map fun e => entryOf e.1 e.2 := by
  rw [readDirAt]
  constructor
  · intro h
    split at h
    next hdir => exact ⟨hdir, (Except.ok.inj h).symm⟩
    next =>
      split at h
      next => cases h
      next => cases h
  · rintro ⟨hdir, rfl⟩
    rw [if_pos hdir]

theorem writeFileAt_eq_ok {contents : List UInt8} :
    writeFileAt t l contents = (.ok (), t') ↔
      t.isDir l.dropLast ∧ ¬ t.isDir l ∧ t' = t.insert l (.file contents) := by
  rw [writeFileAt]
  constructor
  · intro h
    split at h
    next => cases h
    next hparent =>
      split at h
      next => cases h
      next hdir => exact ⟨by simpa using hparent, hdir, (Prod.mk.inj h).2.symm⟩
  · rintro ⟨hparent, hdir, rfl⟩
    rw [if_neg (by simp [hparent]), if_neg hdir]

theorem writeFileAt_error {contents : List UInt8} {e : Failure}
    (h : writeFileAt t l contents = (.error e, t')) : t' = t := by
  rw [writeFileAt] at h
  split_ifs at h
  · exact (Prod.mk.inj h).2.symm
  · exact (Prod.mk.inj h).2.symm
  · cases h

theorem removeAt_error {recursive : Bool} {e : Failure}
    (h : removeAt t l recursive = (.error e, t')) : t' = t := by
  rw [removeAt] at h
  split_ifs at h
  · exact (Prod.mk.inj h).2.symm
  · exact (Prod.mk.inj h).2.symm
  · exact (Prod.mk.inj h).2.symm
  · cases h

theorem removeAt_eq_ok {recursive : Bool} :
    removeAt t l recursive = (.ok (), t') ↔
      l ≠ [] ∧ (t.lookup l).isSome ∧ (recursive ∨ t.children l = []) ∧
        t' = select t fun q _ => !l.isPrefixOf q := by
  rw [removeAt]
  constructor
  · intro h
    split at h
    next => cases h
    next hroot =>
      split at h
      next => cases h
      next hsome =>
        split at h
        next => cases h
        next hfull =>
          refine ⟨hroot, by simpa [Option.isSome_iff_ne_none] using hsome, ?_,
            (Prod.mk.inj h).2.symm⟩
          by_contra hnone
          rw [not_or] at hnone
          exact hfull ⟨by simpa using hnone.1, hnone.2⟩
  · rintro ⟨hroot, hsome, hfull, rfl⟩
    rw [if_neg hroot, if_neg (by simpa [Option.isSome_iff_ne_none] using hsome), if_neg]
    rintro ⟨hrec, hchildren⟩
    rcases hfull with htrue | hnil
    · rw [htrue] at hrec
      cases hrec
    · exact hchildren hnil

theorem lookup_removed (t : Tree) (l p : List Text) :
    (select t fun q _ => !l.isPrefixOf q).lookup p = if l <+: p then none else t.lookup p := by
  rw [lookup_select]
  have hiff : l.isPrefixOf p = true ↔ l <+: p := List.isPrefixOf_iff_prefix
  split
  next hpre =>
    rw [hiff.mpr hpre]
    cases t.lookup p <;> rfl
  next hpre =>
    rw [Bool.eq_false_iff.mpr (mt hiff.mp hpre)]
    cases t.lookup p <;> rfl

/-- Directories that are there are made without a change. -/
theorem makeDirs_append {pre post : List (List Text)} (h : ∀ p ∈ pre, t.lookup p = some .dir) :
    makeDirs (pre ++ post) t = makeDirs post t := by
  induction pre with
  | nil => rfl
  | cons p pre ih =>
      rw [List.cons_append, makeDirs, h p List.mem_cons_self]
      exact ih fun q hq => h q (List.mem_cons_of_mem _ hq)

/-- Making the directories on the way to what is there changes nothing, and fails
where a file is there. -/
theorem mkdirAt_stored (hv : t.Valid) (hthere : t.isDir l ∨ t.lookup l ≠ none)
    (h : mkdirAt t l true = (.ok (), t')) : t' = t ∧ t.isDir l := by
  rcases List.eq_nil_or_concat l with rfl | ⟨dir, name, rfl⟩
  · exact ⟨(Prod.mk.inj h).2.symm, isDir_nil t⟩
  · rw [List.concat_eq_append] at hthere h ⊢
    obtain ⟨node, hstored⟩ : ∃ node, t.lookup (dir ++ [name]) = some node := by
      rcases hthere with hdir | hsome
      · exact ⟨.dir, (isDir_eq_true.mp hdir).resolve_left (by simp)⟩
      · exact Option.ne_none_iff_exists'.mp hsome
    have habove : ∀ p ∈ dir.inits.tail, t.lookup p = some .dir := by
      intro p hp
      have hpre : p <+: dir := (List.mem_inits p dir).mp (List.mem_of_mem_tail hp)
      have hne : p ≠ [] := by
        rintro rfl
        cases dir with
        | nil => simp at hp
        | cons s dir => simp at hp
      obtain ⟨rest, rfl⟩ := hpre
      rw [List.append_assoc] at hstored
      exact (isDir_eq_true.mp (isDir_of_stored hv (by simp) hstored)).resolve_left hne
    have hinits : (dir ++ [name]).inits.tail = dir.inits.tail ++ [dir ++ [name]] := by
      rw [List.inits_append]
      cases dir <;> simp
    rw [mkdirAt, if_pos rfl, hinits, makeDirs_append habove, makeDirs, hstored] at h
    cases node with
    | dir =>
        dsimp only at h
        rw [makeDirs] at h
        exact ⟨(Prod.mk.inj h).2.symm, isDir_eq_true.mpr (.inr hstored)⟩
    | file contents =>
        dsimp only at h
        cases h

theorem renameAt_eq_ok {src dst : List Text} (h : renameAt t src dst = (.ok (), t')) :
    src = dst ∧ t' = t ∨
      Moves t src dst ∧ t' = ofPairs ((pairs t).map fun e => (relocate src dst e.1, e.2)) := by
  rw [renameAt] at h
  split at h
  next => cases h
  next hsrc =>
    split at h
    next heq => exact .inl ⟨heq, (Prod.mk.inj h).2.symm⟩
    next =>
      split at h
      next => cases h
      next hinside =>
        split at h
        next => cases h
        next hstored =>
          split at h
          next => cases h
          next hfree =>
            split at h
            next => cases h
            next hparent =>
              refine .inr ⟨⟨hsrc, hinside, ?_, ?_, ?_, ?_⟩, (Prod.mk.inj h).2.symm⟩
              · simpa using hstored
              · simpa using (not_or.mp hfree).1
              · exact (not_or.mp hfree).2
              · simpa using hparent

/-- The same files, whatever the directories are. -/
def SameFiles (t t' : Tree) : Prop :=
  ∀ l contents, t'.lookup l = some (.file contents) ↔ t.lookup l = some (.file contents)

theorem SameFiles.refl (t : Tree) : SameFiles t t := fun _ _ => Iff.rfl

theorem SameFiles.trans {t'' : Tree} (h : SameFiles t t') (h' : SameFiles t' t'') :
    SameFiles t t'' :=
  fun l contents => (h' l contents).trans (h l contents)

theorem sameFiles_makeDirs (paths : List (List Text)) (t : Tree) :
    SameFiles t (makeDirs paths t).2 := by
  induction paths generalizing t with
  | nil => exact .refl t
  | cons p paths ih =>
      rw [makeDirs]
      split
      next => exact ih t
      next => exact .refl t
      next hnone =>
        refine SameFiles.trans (fun l contents => ?_) (ih _)
        rw [lookup_insert_eq]
        split
        next heq =>
          rw [heq, hnone]
          exact ⟨nofun, nofun⟩
        next => exact Iff.rfl

theorem sameFiles_mkdirAt (t : Tree) (l : List Text) (recursive : Bool) :
    SameFiles t (mkdirAt t l recursive).2 := by
  rw [mkdirAt]
  split
  next => exact sameFiles_makeDirs _ t
  next =>
    split
    next => exact .refl t
    next =>
      split
      next => exact .refl t
      next => exact sameFiles_makeDirs _ t

/-- Making directories puts directories where nothing was, and changes nothing else. -/
theorem lookup_makeDirs_or (paths : List (List Text)) (t : Tree) (p : List Text) :
    (makeDirs paths t).2.lookup p = t.lookup p ∨
      p ∈ paths ∧ t.lookup p = none ∧ (makeDirs paths t).2.lookup p = some .dir := by
  induction paths generalizing t with
  | nil => exact .inl rfl
  | cons q paths ih =>
      rw [makeDirs]
      cases hstored : t.lookup q with
      | none =>
          have hrest := ih (t.insert q .dir)
          rw [lookup_insert_eq] at hrest
          by_cases hp : p = q
          · subst hp
            rw [if_pos rfl] at hrest
            refine .inr ⟨List.mem_cons_self, hstored, ?_⟩
            exact hrest.elim id fun h => h.2.2
          · rw [if_neg hp] at hrest
            exact hrest.imp id fun h => ⟨List.mem_cons_of_mem q h.1, h.2⟩
      | some node =>
          cases node with
          | dir => exact (ih t).imp id fun h => ⟨List.mem_cons_of_mem q h.1, h.2⟩
          | file contents => exact .inl rfl

theorem lookup_mkdirAt_apart {p : List Text} (h : ¬ p <+: l) :
    (mkdirAt t l true).2.lookup p = t.lookup p := by
  rw [mkdirAt, if_pos rfl]
  refine (lookup_makeDirs_or _ t p).resolve_right fun hmade => h ?_
  exact (List.mem_inits p l).mp (List.mem_of_mem_tail hmade.1)

theorem mem_inits_tail {l : List Text} (h : l ≠ []) : l ∈ l.inits.tail := by
  cases l with
  | nil => exact absurd rfl h
  | cons s l => simp

theorem inits_below (dir : List Text) (s : Text) (rest : List Text) :
    (s :: rest).inits.tail.map (dir ++ ·) =
      (dir ++ [s]) :: rest.inits.tail.map ((dir ++ [s]) ++ ·) := by
  cases rest <;> simp [Function.comp_def]

theorem lookup_makeDirs {paths : List (List Text)} (h : makeDirs paths t = (.ok (), t'))
    (p : List Text) : t'.lookup p = if p ∈ paths then some .dir else t.lookup p := by
  induction paths generalizing t with
  | nil =>
      cases h
      rfl
  | cons q paths ih =>
      rw [makeDirs] at h
      cases hstored : t.lookup q with
      | none =>
          rw [hstored] at h
          rw [ih h, lookup_insert_eq]
          by_cases hp : p = q <;> simp [hp]
      | some node =>
          rw [hstored] at h
          cases node with
          | dir =>
              rw [ih h]
              by_cases hp : p = q
              · subst hp
                simp [hstored]
              · simp [hp]
          | file contents => cases h

/-- Directories can be made exactly where no file is in the way. -/
theorem makeDirs_ok_iff {paths : List (List Text)} :
    (∃ t', makeDirs paths t = (.ok (), t')) ↔
      ∀ p ∈ paths, ∀ contents, t.lookup p ≠ some (.file contents) := by
  constructor
  · rintro ⟨t', h⟩ p hp contents hstored
    have hsame := sameFiles_makeDirs paths t p contents
    rw [h, lookup_makeDirs h, if_pos hp] at hsame
    cases hsame.mpr hstored
  · intro h
    induction paths generalizing t with
    | nil => exact ⟨t, rfl⟩
    | cons q paths ih =>
        rw [makeDirs]
        cases hstored : t.lookup q with
        | none =>
            refine ih fun p hp contents => ?_
            rw [lookup_insert_eq]
            split
            next => exact nofun
            next => exact h p (List.mem_cons_of_mem q hp) contents
        | some node =>
            cases node with
            | dir => exact ih fun p hp => h p (List.mem_cons_of_mem q hp)
            | file contents => exact absurd hstored (h q List.mem_cons_self contents)

/-- A directory that is made is there. -/
theorem mkdirAt_isDir (h : mkdirAt t l true = (.ok (), t')) : t'.isDir l := by
  by_cases hroot : l = []
  · rw [hroot]
    exact isDir_nil t'
  · rw [mkdirAt, if_pos rfl] at h
    refine isDir_eq_true.mpr (.inr ?_)
    rw [lookup_makeDirs h, if_pos (mem_inits_tail hroot)]

/-- Making a directory that is there changes nothing. -/
theorem mkdirAt_of_isDir (hv : t.Valid) (h : t.isDir l) : mkdirAt t l true = (.ok (), t) := by
  have hfree : ∀ p ∈ l.inits.tail, ∀ contents, t.lookup p ≠ some (.file contents) := by
    intro p hp contents hstored
    obtain ⟨rest, rfl⟩ := (List.mem_inits p l).mp (List.mem_of_mem_tail hp)
    rcases isDir_eq_true.mp (isDir_above hv h) with rfl | hdir
    · exact (hv [] _ hstored).1 rfl
    · rw [hstored] at hdir
      cases hdir
  obtain ⟨t', hmade⟩ := makeDirs_ok_iff.mpr hfree
  have hmkdir : mkdirAt t l true = (.ok (), t') := by rw [mkdirAt, if_pos rfl, hmade]
  rw [hmkdir, (mkdirAt_stored hv (.inl h) hmkdir).1]

theorem renameAt_error {src dst : List Text} {e : Failure} (h : (renameAt t src dst).1 = .error e) :
    (renameAt t src dst).2 = t := by
  rw [renameAt] at h ⊢
  split_ifs at h ⊢
  all_goals rfl

end Outcomes

section Valid

variable {t : Tree} {l src dst : List Text}

theorem isDir_kept {t' : Tree} {p : List Text} (h : t.isDir p)
    (hkeep : t.lookup p = some .dir → t'.lookup p = some .dir) : t'.isDir p :=
  isDir_eq_true.mpr ((isDir_eq_true.mp h).imp id hkeep)

theorem valid_writeFileAt (hv : t.Valid) (hl : Names l) (contents : List UInt8) :
    (writeFileAt t l contents).2.Valid := by
  rw [writeFileAt]
  split
  next => exact hv
  next hparent =>
    split
    next => exact hv
    next hdir =>
      refine valid_insert hv hl ?_ (by simpa using hparent) fun hstored => ?_
      · rintro rfl
        exact hdir (isDir_nil t)
      · exact absurd (isDir_eq_true.mpr (.inr hstored)) hdir

/-- Making the directories below one that is there, from the top down. -/
theorem valid_makeDirs {dir rest : List Text} (hv : t.Valid) (hdir : t.isDir dir)
    (hnames : Names (dir ++ rest)) : (makeDirs (rest.inits.tail.map (dir ++ ·)) t).2.Valid := by
  induction rest generalizing dir t with
  | nil => exact hv
  | cons s rest ih =>
      have hpaths : (s :: rest).inits.tail.map (dir ++ ·) =
          (dir ++ [s]) :: rest.inits.tail.map ((dir ++ [s]) ++ ·) := by
        cases rest <;> simp [Function.comp_def]
      have hnames' : Names ((dir ++ [s]) ++ rest) := by simpa using hnames
      rw [hpaths, makeDirs]
      cases hstored : t.lookup (dir ++ [s]) with
      | none =>
          have hplace : Names (dir ++ [s]) := fun n hn => hnames' n (List.mem_append_left _ hn)
          have hmade : Tree.Valid (t.insert (dir ++ [s]) .dir) :=
            valid_insert hv hplace (by simp) (by simpa using hdir) fun _ => rfl
          refine ih hmade (isDir_eq_true.mpr (.inr ?_)) hnames'
          rw [lookup_insert_eq, if_pos rfl]
      | some node =>
          cases node with
          | dir => exact ih hv (isDir_eq_true.mpr (.inr hstored)) hnames'
          | file contents => exact hv

theorem valid_mkdirAt (hv : t.Valid) (hl : Names l) (recursive : Bool) :
    (mkdirAt t l recursive).2.Valid := by
  rw [mkdirAt]
  split
  next =>
    have hmade : Tree.Valid (makeDirs (l.inits.tail.map ([] ++ ·)) t).2 :=
      valid_makeDirs hv (isDir_nil t) hl
    simpa using hmade
  next =>
    split
    next => exact hv
    next hroot =>
      split
      next => exact hv
      next hparent =>
        rcases List.eq_nil_or_concat l with rfl | ⟨dir, name, rfl⟩
        · exact absurd rfl hroot
        · rw [List.concat_eq_append] at hl hparent ⊢
          rw [List.dropLast_concat] at hparent
          have hmade : Tree.Valid (makeDirs ([name].inits.tail.map (dir ++ ·)) t).2 :=
            valid_makeDirs hv (by simpa using hparent) hl
          simpa using hmade

theorem valid_removed (hv : t.Valid) : Tree.Valid (select t fun q _ => !l.isPrefixOf q) := by
  intro p node hstored
  rw [lookup_removed] at hstored
  split at hstored
  next => cases hstored
  next hpre =>
    obtain ⟨hroot, hnames, hdir⟩ := hv p node hstored
    refine ⟨hroot, hnames, isDir_kept hdir fun hparent => ?_⟩
    rw [lookup_removed, if_neg fun hup => hpre (hup.trans (List.dropLast_prefix p))]
    exact hparent

theorem relocate_under (rest : List Text) : relocate src dst (src ++ rest) = dst ++ rest := by
  rw [relocate, if_pos (List.prefix_append src rest), List.drop_left]

theorem relocate_apart {p : List Text} (h : ¬ src <+: p) : relocate src dst p = p :=
  if_neg h

/-- Nothing lies below a free place. -/
theorem free_below (hv : t.Valid) (hfree : t.lookup l = none) (hroot : l ≠ []) (rest : List Text) :
    t.lookup (l ++ rest) = none := by
  cases hstored : t.lookup (l ++ rest) with
  | none => rfl
  | some node =>
      cases rest with
      | nil =>
          rw [List.append_nil, hfree] at hstored
          cases hstored
      | cons s rest =>
          have hdir := isDir_of_stored hv (List.cons_ne_nil s rest) hstored
          rw [(isDir_eq_true.mp hdir).resolve_left hroot] at hfree
          cases hfree

theorem Moves.relocate_inj (h : Moves t src dst) (hv : t.Valid) {p q : List Text} {m n : Node}
    (hp : t.lookup p = some m) (hq : t.lookup q = some n)
    (heq : relocate src dst p = relocate src dst q) : p = q := by
  have hfree : ∀ rest node, t.lookup (dst ++ rest) ≠ some node := by
    intro rest node hstored
    rw [free_below hv h.free h.target] at hstored
    cases hstored
  by_cases hps : src <+: p
  · obtain ⟨rest, rfl⟩ := hps
    rw [relocate_under] at heq
    by_cases hqs : src <+: q
    · obtain ⟨rest', rfl⟩ := hqs
      rw [relocate_under] at heq
      rw [List.append_cancel_left heq]
    · rw [relocate_apart hqs] at heq
      exact absurd (heq ▸ hq) (hfree rest n)
  · rw [relocate_apart hps] at heq
    by_cases hqs : src <+: q
    · obtain ⟨rest', rfl⟩ := hqs
      rw [relocate_under] at heq
      exact absurd (heq ▸ hp) (hfree rest' m)
    · rw [relocate_apart hqs] at heq
      exact heq

/-- After a rename each entry is where it is relocated to. -/
theorem Moves.lookup_renamed (h : Moves t src dst) (hv : t.Valid) (p : List Text) (node : Node) :
    (ofPairs ((pairs t).map fun e => (relocate src dst e.1, e.2))).lookup p = some node ↔
      ∃ q, t.lookup q = some node ∧ relocate src dst q = p := by
  have hmem : ∀ p node, (p, node) ∈ (pairs t).map (fun e => (relocate src dst e.1, e.2)) ↔
      ∃ q, t.lookup q = some node ∧ relocate src dst q = p := by
    intro p node
    rw [List.mem_map]
    constructor
    · rintro ⟨⟨q, node'⟩, hq, heq⟩
      obtain ⟨rfl, rfl⟩ := Prod.mk.inj heq
      exact ⟨q, mem_pairs.mp hq, rfl⟩
    · rintro ⟨q, hq, rfl⟩
      exact ⟨(q, node), mem_pairs.mpr hq, rfl⟩
  rw [lookup_ofPairs, hmem]
  intro k a a' ha ha'
  obtain ⟨q, hq, hqk⟩ := (hmem k a).mp ha
  obtain ⟨q', hq', hqk'⟩ := (hmem k a').mp ha'
  have hsame := h.relocate_inj hv hq hq' (hqk.trans hqk'.symm)
  rw [hsame, hq'] at hq
  exact (Option.some.inj hq).symm

/-- What was under the source is under the destination. -/
theorem Moves.lookup_moved (h : Moves t src dst) (hv : t.Valid) (rest : List Text) :
    (ofPairs ((pairs t).map fun e => (relocate src dst e.1, e.2))).lookup (dst ++ rest) =
      t.lookup (src ++ rest) := by
  ext node
  rw [h.lookup_renamed hv]
  constructor
  · rintro ⟨q, hq, heq⟩
    by_cases hsrc : src <+: q
    · obtain ⟨rest', rfl⟩ := hsrc
      rw [relocate_under] at heq
      rw [← List.append_cancel_left heq]
      exact hq
    · rw [relocate_apart hsrc] at heq
      rw [heq, free_below hv h.free h.target] at hq
      cases hq
  · intro hstored
    exact ⟨_, hstored, relocate_under rest⟩

/-- Nothing is left under the source. -/
theorem Moves.lookup_gone (h : Moves t src dst) (hv : t.Valid) {p : List Text} (hsrc : src <+: p)
    (hdst : ¬ dst <+: p) :
    (ofPairs ((pairs t).map fun e => (relocate src dst e.1, e.2))).lookup p = none := by
  rw [Option.eq_none_iff_forall_not_mem]
  intro node hnode
  obtain ⟨q, -, rfl⟩ := (h.lookup_renamed hv p node).mp hnode
  by_cases hq : src <+: q
  · obtain ⟨rest, rfl⟩ := hq
    rw [relocate_under] at hdst
    exact hdst (List.prefix_append dst rest)
  · rw [relocate_apart hq] at hsrc
    exact hq hsrc

/-- What is under neither stays. -/
theorem Moves.lookup_apart (h : Moves t src dst) (hv : t.Valid) {p : List Text} (hsrc : ¬ src <+: p)
    (hdst : ¬ dst <+: p) :
    (ofPairs ((pairs t).map fun e => (relocate src dst e.1, e.2))).lookup p = t.lookup p := by
  ext node
  rw [h.lookup_renamed hv]
  constructor
  · rintro ⟨q, hq, rfl⟩
    by_cases hqs : src <+: q
    · obtain ⟨rest, rfl⟩ := hqs
      rw [relocate_under] at hdst
      exact absurd (List.prefix_append dst rest) hdst
    · rw [relocate_apart hqs]
      exact hq
  · intro hstored
    exact ⟨p, hstored, relocate_apart hsrc⟩

theorem Moves.valid (h : Moves t src dst) (hv : t.Valid) (hdst : Names dst) :
    Tree.Valid (ofPairs ((pairs t).map fun e => (relocate src dst e.1, e.2))) := by
  have hkeep : ∀ p, ¬ src <+: p → t.isDir p →
      Tree.isDir (ofPairs ((pairs t).map fun e => (relocate src dst e.1, e.2))) p := by
    intro p hp hdir
    refine isDir_kept hdir fun hstored => ?_
    exact (h.lookup_renamed hv p .dir).mpr ⟨p, hstored, relocate_apart hp⟩
  intro p node hstored
  obtain ⟨q, hq, rfl⟩ := (h.lookup_renamed hv p node).mp hstored
  obtain ⟨hroot, hnames, hdir⟩ := hv q node hq
  by_cases hqs : src <+: q
  · obtain ⟨rest, rfl⟩ := hqs
    rw [relocate_under]
    refine ⟨fun hnil => h.target (List.append_eq_nil_iff.mp hnil).1, fun s hs => ?_, ?_⟩
    · rcases List.mem_append.mp hs with hs | hs
      · exact hdst s hs
      · exact hnames s (List.mem_append_right _ hs)
    · rcases List.eq_nil_or_concat rest with rfl | ⟨rest', s, rfl⟩
      · rw [List.append_nil]
        exact hkeep _ (fun hup => h.notInside (hup.trans (List.dropLast_prefix dst))) h.parent
      · rw [List.concat_eq_append, ← List.append_assoc, List.dropLast_concat] at hdir ⊢
        have habove := (isDir_eq_true.mp hdir).resolve_left fun hnil =>
          h.source (List.append_eq_nil_iff.mp hnil).1
        refine isDir_eq_true.mpr (.inr ((h.lookup_renamed hv _ _).mpr ⟨_, habove, ?_⟩))
        exact relocate_under rest'
  · rw [relocate_apart hqs]
    exact ⟨hroot, hnames, hkeep _ (fun hup => hqs (hup.trans (List.dropLast_prefix q))) hdir⟩

theorem valid_renameAt (hv : t.Valid) (hdst : Names dst) : (renameAt t src dst).2.Valid := by
  cases hrename : (renameAt t src dst).1 with
  | error e =>
      rw [renameAt_error hrename]
      exact hv
  | ok =>
      rcases renameAt_eq_ok (Prod.ext hrename rfl) with ⟨-, heq⟩ | ⟨hmoves, heq⟩
      · exact (congrArg Tree.Valid heq).mpr hv
      · exact (congrArg Tree.Valid heq).mpr (hmoves.valid hv hdst)

variable {codec : TextCodec} {clock : Clock}

theorem valid_reading {α : Type} {path : Text} (hv : t.Valid) (f : List Text → Except Failure α) :
    (reading t path f).2.Valid := by
  rw [reading_snd]
  exact hv

theorem valid_writing {α : Type} {path : Text} (hv : t.Valid)
    {f : List Text → Except Failure α × Tree} (hf : ∀ l, Names l → (f l).2.Valid) :
    (writing t path f).2.Valid := by
  rw [writing]
  cases hl : pathSegments path with
  | error e => exact hv
  | ok l => exact hf l (names_of_pathSegments hl)

/-- Every call keeps the tree valid. -/
theorem valid_respond (hv : t.Valid) (o : StorageOp) : (respond codec clock o t).2.Valid := by
  cases o with
  | readDir path => exact valid_reading hv _
  | readTextFile path => exact valid_reading hv _
  | readFile path => exact valid_reading hv _
  | writeTextFile path contents => exact valid_writing hv fun l hl => valid_writeFileAt hv hl _
  | writeFile path contents => exact valid_writing hv fun l hl => valid_writeFileAt hv hl _
  | mkdir path recursive => exact valid_writing hv fun l hl => valid_mkdirAt hv hl _
  | rename fromPath toPath =>
      exact valid_writing hv fun src _ => valid_writing hv fun dst hdst => valid_renameAt hv hdst
  | remove path recursive =>
      refine valid_writing hv fun l _ => ?_
      rw [removeAt]
      split_ifs
      · exact hv
      · exact hv
      · exact hv
      · exact valid_removed hv
  | stat path => exact valid_reading hv _
  | «exists» path => exact valid_reading hv _
  | now => exact hv

theorem valid_serves {o : StorageOp} {ans : StorageAns o} {t' : Tree}
    (h : Serves codec clock t o ans t') (hv : t.Valid) : t'.Valid := by
  cases h with
  | served => exact valid_respond hv o
  | failed => exact hv

/-- A run keeps the tree valid. -/
theorem valid_steps {α : Type} {p q : Prog StorageOp StorageAns α} {t' : Tree}
    (h : Steps (Serves codec clock) t p t' q) (hv : t.Valid) : t'.Valid := by
  induction h with
  | refl => exact hv
  | step hans _ ih => exact ih (valid_serves hans hv)

end Valid

section Rules

variable {codec : TextCodec} {clock : Clock} {ε μ : Type} {wrap : Failure → ε} {o : StorageOp}
variable {mem : μ} {t : Tree} {Q : StorageVal o → μ → Tree → Prop} {E : ε → μ → Tree → Prop}
variable {G : Tree → StorageOp → Prop}

/-- A call that is not failed is answered. -/
theorem served_ok {val : StorageVal o} {t' : Tree} (h : Serves codec clock t o (.ok val) t') :
    respond codec clock o t = (.ok val, t') := by
  generalize hans : (Except.ok val : StorageAns o) = ans at h
  cases h with
  | failed => cases hans
  | served => rfl

theorem serves_now {ans : StorageAns .now} {t' : Tree} (h : Serves codec clock t .now ans t') :
    ans = .ok clock.now := by
  cases h with
  | served => rfl
  | failed _ _ e hnow => exact absurd rfl hnow

theorem served_error {e : Failure} {t' : Tree} (h : Serves codec clock t o (.error e) t') :
    t' = t ∨ respond codec clock o t = (.error e, t') := by
  generalize (Except.error e : StorageAns o) = ans at h
  cases h with
  | failed => exact .inl rfl
  | served => exact .inr rfl

/-- A failing operation leaves the files as they are, but for a path that is made in part. -/
theorem error_same {e : Failure} {t' : Tree} (hmkdir : ∀ path recursive, o ≠ .mkdir path recursive)
    (h : Serves codec clock t o (.error e) t') : t' = t := by
  rcases served_error h with hsame | hs
  · exact hsame
  cases o with
  | readDir path => exact (congrArg Prod.snd hs).symm.trans (reading_snd _)
  | readTextFile path => exact (congrArg Prod.snd hs).symm.trans (reading_snd _)
  | readFile path => exact (congrArg Prod.snd hs).symm.trans (reading_snd _)
  | writeTextFile path contents => exact writing_error (fun l t' => writeFileAt_error) hs
  | writeFile path contents => exact writing_error (fun l t' => writeFileAt_error) hs
  | mkdir path recursive => exact absurd rfl (hmkdir path recursive)
  | rename fromPath toPath =>
      refine writing_error (fun src t₁ hsrc => writing_error (fun dst t₂ hdst => ?_) hsrc) hs
      have hfirst : (renameAt t src dst).1 = .error e := by rw [hdst]
      have hsame := renameAt_error hfirst
      rw [hdst] at hsame
      exact hsame
  | remove path recursive => exact writing_error (fun l t' => removeAt_error) hs
  | stat path => exact (congrArg Prod.snd hs).symm.trans (reading_snd _)
  | «exists» path => exact (congrArg Prod.snd hs).symm.trans (reading_snd _)
  | now => cases hs

theorem meets_asked {σ : Type} {R : Answers StorageOp StorageAns σ} {G : σ → StorageOp → Prop}
    {s : σ} {Q : StorageVal o → μ → σ → Prop} {E : ε → μ → σ → Prop} (hG : G s o)
    (hok : ∀ val s', R s o (.ok val) s' → Q val mem s')
    (herror : ∀ e s', R s o (.error e) s' → E (wrap e) mem s') :
    Meets R G Q E (ask wrap o) mem s := by
  rw [ask, meets_bind]
  refine ⟨hG, fun ans s' hans => ?_⟩
  cases ans with
  | ok val => exact hok val s' hans
  | error e => exact herror e s' hans

/-- A call that may fail: what it does when it is served. -/
theorem meets_ask (hG : G t o) (hserved : ∀ val t', respond codec clock o t = (.ok val, t') →
      Q val mem t')
    (hfailed : ∀ e t', t' = t ∨ respond codec clock o t = (.error e, t') → E (wrap e) mem t') :
    Meets (Serves codec clock) G Q E (ask wrap o) mem t := by
  refine meets_asked hG (fun val t' hans => ?_) fun e t' hans => ?_
  · exact hserved val t' (served_ok hans)
  · exact hfailed e t' (served_error hans)

/-- A call of a backend that never fails by itself. -/
theorem meets_ask_ok {val : StorageVal o} {t' : Tree} (hG : G t o)
    (hrespond : respond codec clock o t = (.ok val, t')) (hQ : Q val mem t') :
    Meets (Responds (respond codec clock)) G Q E (ask wrap o) mem t := by
  rw [ask, meets_bind]
  refine ⟨hG, fun ans t₁ hserves => ?_⟩
  have hans : respond codec clock o t = (ans, t₁) := hserves
  rw [hrespond] at hans
  cases hans
  exact hQ

theorem serves_of_responds {ans : StorageAns o} {t' : Tree}
    (h : Responds (respond codec clock) t o ans t') : Serves codec clock t o ans t' := by
  have hans : respond codec clock o t = (ans, t') := h
  have hserved : Serves codec clock t o _ _ := Serves.served t o
  rw [hans] at hserved
  exact hserved

theorem served_of_eval {codec : TextCodec} {clock : Clock} {α : Type} {p : Prog StorageOp StorageAns α}
    {t t' : Tree} {out : α} (h : eval (respond codec clock) p t = (out, t')) :
    Exec (Serves codec clock) t p out t' := by
  have hexec := exec_eval (respond codec clock) p t
  rw [h] at hexec
  exact Steps.mono (fun _ _ _ _ hans => serves_of_responds hans) hexec

end Rules

end Tactile.Storage.Backend

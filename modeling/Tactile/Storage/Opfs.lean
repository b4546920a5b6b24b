import Tactile.Storage.Idb

/-!
The backend on the browser's private file system: the operations of its handles
on a tree, and the renaming of a file or directory with them.
-/

namespace Tactile.Storage.Opfs

open Tactile.Lib.Program Tactile.Lib.Script Tactile.Lib.FiniteMap
open Tactile.Storage.Paths Tactile.Storage.Idb

inductive Node
  | dir
  | file (contents : List UInt8)
  deriving DecidableEq

/-- The files and directories below the root, by the names on the way to them. -/
abbrev Tree : Type := Dict (List Text) Node

def Tree.isDir (t : Tree) (path : List Text) : Bool := path = [] ∨ t.lookup path = some .dir

/-- Everything in the tree has names and is in a directory. -/
def Tree.Valid (t : Tree) : Prop :=
  ∀ path node, t.lookup path = some node → path ≠ [] ∧ Names path ∧ t.isDir path.dropLast

def Tree.children (t : Tree) (dir : List Text) : List (Text × Node) :=
  (pairs t).filterMap fun e =>
    match e.1.getLast? with
    | some name => if e.1.dropLast = dir then some (name, e.2) else none
    | none => none

section Valid

instance (t : Tree) : Decidable t.Valid :=
  decidable_of_iff (∀ e ∈ pairs t, e.1 ≠ [] ∧ Names e.1 ∧ t.isDir e.1.dropLast)
    ⟨fun h path node hstored => h (path, node) (mem_pairs.mpr hstored),
      fun h e he => h e.1 e.2 (mem_pairs.mp he)⟩

variable {t : Tree}

theorem isDir_nil (t : Tree) : t.isDir [] := by
  simp [Tree.isDir]

theorem isDir_eq_true {path : List Text} :
    t.isDir path = true ↔ path = [] ∨ t.lookup path = some .dir := by
  rw [Tree.isDir, decide_eq_true_eq]

theorem isDir_above (h : t.Valid) {l m : List Text} (hdir : t.isDir (l ++ m)) : t.isDir l := by
  induction m using List.reverseRecOn with
  | nil =>
      rw [List.append_nil] at hdir
      exact hdir
  | append_singleton m s ih =>
      rw [← List.append_assoc] at hdir
      refine ih ?_
      rcases isDir_eq_true.mp hdir with hroot | hstored
      · simp at hroot
      · have hparent := (h _ _ hstored).2.2
        rw [List.dropLast_concat] at hparent
        exact hparent

/-- Above an entry there are directories. -/
theorem isDir_of_stored (h : t.Valid) {l m : List Text} {node : Node} (hm : m ≠ [])
    (hstored : t.lookup (l ++ m) = some node) : t.isDir l := by
  have hparent := (h _ _ hstored).2.2
  rw [List.dropLast_append_of_ne_nil hm] at hparent
  exact isDir_above h hparent

theorem mem_children {dir : List Text} {name : Text} {node : Node} :
    (name, node) ∈ t.children dir ↔ t.lookup (dir ++ [name]) = some node := by
  rw [Tree.children, List.mem_filterMap]
  constructor
  · rintro ⟨⟨path, node'⟩, hmem, hsome⟩
    rcases List.eq_nil_or_concat path with rfl | ⟨dir', name', rfl⟩
    · cases hsome
    · rw [List.concat_eq_append] at hsome hmem
      dsimp only at hsome
      rw [List.getLast?_concat, List.dropLast_concat] at hsome
      dsimp only at hsome
      split at hsome
      next hdir =>
        cases hsome
        rw [← hdir]
        exact mem_pairs.mp hmem
      next => cases hsome
  · intro h
    refine ⟨(dir ++ [name], node), mem_pairs.mpr h, ?_⟩
    simp

theorem children_eq_nil {dir : List Text} :
    t.children dir = [] ↔ ∀ name, t.lookup (dir ++ [name]) = none := by
  rw [List.eq_nil_iff_forall_not_mem]
  constructor
  · intro h name
    cases hstored : t.lookup (dir ++ [name]) with
    | none => rfl
    | some node => exact absurd (mem_children.mpr hstored) (h _)
  · rintro h ⟨name, node⟩ hmem
    have hstored := mem_children.mp hmem
    rw [h name] at hstored
    cases hstored

/-- A new entry of a directory keeps the tree valid, and so does a new file in the
place of an old one. -/
theorem valid_insert (hv : t.Valid) {d : List Text} {node : Node} (hd : Names d) (hdroot : d ≠ [])
    (hparent : t.isDir d.dropLast) (hdir : t.lookup d = some .dir → node = .dir) :
    Tree.Valid (t.insert d node) := by
  have hkeep : ∀ l, t.isDir l → Tree.isDir (t.insert d node) l := by
    intro l hl
    rcases isDir_eq_true.mp hl with hroot | hstored
    · exact isDir_eq_true.mpr (.inl hroot)
    · refine isDir_eq_true.mpr (.inr ?_)
      rw [lookup_insert_eq]
      split
      next heq => rw [hdir (heq ▸ hstored)]
      next => exact hstored
  intro path node' hpath
  rw [lookup_insert_eq] at hpath
  split at hpath
  next heq =>
    subst heq
    exact ⟨hdroot, hd, hkeep _ hparent⟩
  next =>
    obtain ⟨hroot, hnames, hdir⟩ := hv path node' hpath
    exact ⟨hroot, hnames, hkeep _ hdir⟩

end Valid

/-- The calls of a handle's methods. A handle is the names on the way to it. -/
inductive OpfsOp
  | init
  | getDirectoryHandle (dir : List Text) (name : Text) (create : Bool)
  | getFileHandle (dir : List Text) (name : Text) (create : Bool)
  | arrayBuffer (file : List Text)
  | createWritable (file : List Text)
  | write (file : List Text) (data : List UInt8)
  | close (file : List Text) (data : List UInt8)
  | abort (file : List Text)
  | entries (dir : List Text)
  | removeEntry (dir : List Text) (name : Text) (recursive : Bool)
  | hasMove
  | move (file dst : List Text)
  deriving DecidableEq

abbrev OpfsVal : OpfsOp → Type
  | .arrayBuffer _ => List UInt8
  | .entries _ => List (Text × Node)
  | .hasMove => Bool
  | _ => Unit

abbrev OpfsAns (o : OpfsOp) : Type := Except Failure (OpfsVal o)

/-- A browser: whether handles have a `move`, and what it does to a tree. -/
structure Browser where
  move : Option (Tree → List Text → List Text → Except DomError Tree)

/-- What the browser answers when nothing fails. -/
def Browser.respond (b : Browser) : (o : OpfsOp) → Tree → OpfsAns o × Tree
  | .init, t => (.ok (), t)
  | .getDirectoryHandle dir name create, t =>
    if !t.isDir dir then (.error (.dom .notFound), t)
    else
      match t.lookup (dir ++ [name]) with
      | some .dir => (.ok (), t)
      | some (.file _) => (.error (.dom .typeMismatch), t)
      | none => if create then (.ok (), t.insert (dir ++ [name]) .dir) else (.error (.dom .notFound), t)
  | .getFileHandle dir name create, t =>
    if !t.isDir dir then (.error (.dom .notFound), t)
    else
      match t.lookup (dir ++ [name]) with
      | some (.file _) => (.ok (), t)
      | some .dir => (.error (.dom .typeMismatch), t)
      | none =>
        if create then (.ok (), t.insert (dir ++ [name]) (.file [])) else (.error (.dom .notFound), t)
  | .arrayBuffer file, t =>
    match t.lookup file with
    | some (.file contents) => (.ok contents, t)
    | some .dir => (.error (.dom .typeMismatch), t)
    | none => (.error (.dom .notFound), t)
  | .createWritable file, t =>
    match t.lookup file with
    | some (.file _) => (.ok (), t)
    | some .dir => (.error (.dom .typeMismatch), t)
    | none => (.error (.dom .notFound), t)
  | .write _ _, t => (.ok (), t)
  | .close file data, t =>
    match t.lookup file with
    | some (.file _) => (.ok (), t.insert file (.file data))
    | _ => (.error (.dom .notFound), t)
  | .abort _, t => (.ok (), t)
  | .entries dir, t =>
    if t.isDir dir then (.ok (t.children dir), t) else (.error (.dom .notFound), t)
  | .removeEntry dir name recursive, t =>
    let path := dir ++ [name]
    match t.lookup path with
    | none => (.error (.dom .notFound), t)
    | some _ =>
      if t.children path ≠ [] ∧ !recursive then (.error (.dom .invalidModification), t)
      else (.ok (), select t fun l _ => !path.isPrefixOf l)
  | .hasMove, t => (.ok b.move.isSome, t)
  | .move file dst, t =>
    match b.move with
    | none => (.error (.dom .other), t)
    | some move =>
      match move t file dst with
      | .ok t' => (.ok (), t')
      | .error e => (.error (.dom e), t)

def Serves (b : Browser) : Answers OpfsOp OpfsAns Tree := Responds b.respond

/-- Any step may also fail, with nothing changed. -/
inductive Faulty (b : Browser) : Answers OpfsOp OpfsAns Tree
  | served {t t' : Tree} {o : OpfsOp} {ans : OpfsAns o} : Serves b t o ans t' → Faulty b t o ans t'
  | rejected (t : Tree) (o : OpfsOp) (e : DomError) : o ≠ .hasMove → Faulty b t o (.error (.dom e)) t

abbrev OpfsM (α : Type) : Type := Method OpfsOp OpfsAns Failure Unit α

section Calls

/-- Awaits a call of the browser. -/
def ask (o : OpfsOp) : OpfsM (OpfsVal o) := do
  let answer ← Method.perform o
  Method.ofExcept id answer

def pathResult {α : Type} (x : Except StorageError α) : OpfsM α := Method.ofExcept .storage x

def getDirectoryHandle (dir : List Text) (name : Text) (create : Bool) : OpfsM (List Text) := do
  ask (.getDirectoryHandle dir name create)
  pure (dir ++ [name])

def getFileHandle (dir : List Text) (name : Text) (create : Bool) : OpfsM (List Text) := do
  ask (.getFileHandle dir name create)
  pure (dir ++ [name])

def toStorageError (error : Failure) (path : Text) : Failure :=
  match error with
  | .dom .notFound => .storage (storageError "No such file or directory: " path .notFound)
  | .dom .typeMismatch => .storage (storageError "Path type mismatch: " path .isDirectory)
  | .dom .noModificationAllowed =>
    .storage (storageError "File is locked by another tab: " path .locked)
  | .dom .quotaExceeded =>
    .storage (storageError "Storage quota exceeded while writing: " path .quota)
  | error => error

/-- Opens the directories on a way one after another. -/
def openDirs (normalized : Text) (segments : List Text) : OpfsM (List Text) :=
  segments.foldlM
    (fun dir segment =>
      (getDirectoryHandle dir segment false).orElse fun error =>
        throw (toStorageError error normalized))
    []

/-- Resolves all but the last segment to a directory handle. -/
def resolveParent (path : Text) : OpfsM (List Text × Text) := do
  let normalized ← pathResult (normalizePath path)
  let segments ← pathResult (pathSegments normalized)
  match segments.getLast? with
  | none => throw (.storage ⟨"Operation not allowed on root", .invalidPath⟩)
  | some name => do
    ask .init
    let dir ← openDirs normalized segments.dropLast
    pure (dir, name)

def resolveDir (path : Text) : OpfsM (List Text) := do
  let normalized ← pathResult (normalizePath path)
  ask .init
  let segments ← pathResult (pathSegments normalized)
  openDirs normalized segments

def resolveFile (path : Text) : OpfsM (List Text) := do
  let normalized ← pathResult (normalizePath path)
  let parent ← resolveParent normalized
  (getFileHandle parent.1 parent.2 false).orElse fun error => throw (toStorageError error normalized)

def readFile (path : Text) : OpfsM (List UInt8) := do
  let normalized ← pathResult (normalizePath path)
  let handle ← resolveFile normalized
  (ask (.arrayBuffer handle)).orElse fun error => throw (toStorageError error normalized)

/-- Writes through a stream that commits on close. -/
def writeStream (handle : List Text) (data : List UInt8) : OpfsM Unit := do
  ask (.createWritable handle)
  let written : OpfsM Unit := do
    ask (.write handle data)
    ask (.close handle data)
  written.orElse fun error => do
    (ask (.abort handle)).orElse fun _ => pure ()
    throw error

/-- Copies the entries of a directory, given how it copies a nested one. -/
def copyEntries (copyDir : List Text → List Text → OpfsM Unit) (src dst : List Text) :
    OpfsM Unit := do
  let children ← ask (.entries src)
  children.forM fun child => do
    match child.2 with
    | .dir => do
      let handle ← getDirectoryHandle dst child.1 true
      copyDir (src ++ [child.1]) handle
    | .file _ => do
      let data ← ask (.arrayBuffer (src ++ [child.1]))
      let out ← getFileHandle dst child.1 true
      writeStream out data

/-- Copies a directory. The stack admits `depth` nested calls. -/
def copyDirRecursive : ℕ → List Text → List Text → OpfsM Unit
  | 0 => copyEntries fun _ _ => throw (.dom .other)
  | depth + 1 => copyEntries (copyDirRecursive depth)

/-- Copies a directory, or the file that it is when there is no such directory. -/
def copyHandle (depth : ℕ) (fromPath toPath : Text) : OpfsM Unit :=
  let copyDir : OpfsM Unit := do
    let dir ← resolveDir fromPath
    let segments ← pathResult (pathSegments toPath)
    ask .init
    let dstDir ← segments.foldlM (fun dstDir segment => getDirectoryHandle dstDir segment true) []
    copyDirRecursive depth dir dstDir
  copyDir.orElse fun error =>
    match error with
    | .dom .notFound | .storage ⟨_, .notFound⟩ => do
      let data ← readFile fromPath
      let parent ← resolveParent toPath
      let handle ← getFileHandle parent.1 parent.2 true
      writeStream handle data
    | error => throw error

def removeInternal (path : Text) (recursive : Bool) : OpfsM Unit := do
  let parent ← resolveParent path
  (ask (.removeEntry parent.1 parent.2 recursive)).orElse fun error =>
    match error with
    | .dom .invalidModification =>
      throw (.storage (storageError "Directory is not empty: " path .notEmpty))
    | error => throw (toStorageError error path)

/-- The native move, where the browser has it and does not reject it. -/
def moveNatively (handle dst : List Text) : OpfsM Bool := do
  let native ← ask .hasMove
  if native then
    (do ask (.move handle dst); pure true : OpfsM Bool).orElse fun _ => pure false
  else pure false

/-- The part of a rename that runs with the source and the destination locked. -/
def renameLocked (depth : ℕ) (src dst : Text) : OpfsM Unit := do
  let srcDir ← resolveParent src
  let dstDir ← resolveParent dst
  -- the promise is returned without being awaited, so its rejection passes the catch blocks
  let handle ← getDirectoryHandle srcDir.1 srcDir.2 false
  let moved ← moveNatively handle (dstDir.1 ++ [dstDir.2])
  if moved then pure ()
  else do
    copyHandle depth src dst
    removeInternal src false

def rename (depth : ℕ) (fromPath toPath : Text) : OpfsM Unit := do
  let src ← pathResult (normalizePath fromPath)
  let dst ← pathResult (normalizePath toPath)
  if src = ['/'] then throw (.storage ⟨"Cannot rename root", .invalidPath⟩)
  else if dst = src then pure ()
  else if (src ++ ['/']) <+: dst then
    throw (.storage ⟨"Cannot move a directory into itself", .invalidPath⟩)
  else renameLocked depth src dst

end Calls

end Tactile.Storage.Opfs

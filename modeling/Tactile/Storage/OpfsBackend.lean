import Tactile.Lib.Layers
import Tactile.Storage.Opfs
import Tactile.Storage.Restoring

/-!
The backend on the browser's private file system as the tree that the code above a backend takes it
for: all of its calls but the rename.
-/

namespace Tactile.Storage.OpfsBackend

open Tactile.Lib.Program Tactile.Lib.Script Tactile.Lib.Layers Tactile.Lib.FiniteMap
open Tactile.Storage.Paths Tactile.Storage.Opfs
open Tactile.Storage.Idb (Failure DomError)
open Tactile.Storage.Backend hiding Serves ask
open Tactile.Storage.Restoring (utf8Codec)

section Calls

/-- What `getFile` tells of a file. -/
structure FileInfo where
  size : ℕ
  lastModified : ℤ

/-- The calls of a handle's methods, with `getFile` and the clock. -/
inductive HandleOp
  | opfs (o : OpfsOp)
  | getFile (file : List Text)
  | now

abbrev HandleAns : HandleOp → Type
  | .opfs o => OpfsAns o
  | .getFile _ => Except Failure FileInfo
  | .now => ℤ

/-- What the browser answers. Where there are faults any step may fail with nothing changed, but not
with the exception for what is missing. -/
inductive Serves (b : Browser) (faults : Prop) : Answers HandleOp HandleAns Tree
  | opfs {t t' : Tree} {o : OpfsOp} {ans : OpfsAns o} : b.respond o t = (ans, t') →
      Serves b faults t (.opfs o) ans t'
  | getFile {t : Tree} {file : List Text} {contents : List UInt8} (time : ℤ) :
      t.lookup file = some (.file contents) →
      Serves b faults t (.getFile file) (.ok ⟨contents.length, time⟩) t
  | noFile {t : Tree} {file : List Text} : (∀ contents, t.lookup file ≠ some (.file contents)) →
      Serves b faults t (.getFile file) (.error (.dom .notFound)) t
  | rejected (t : Tree) (o : OpfsOp) (e : DomError) : faults → e ≠ .notFound → o ≠ .hasMove →
      Serves b faults t (.opfs o) (.error (.dom e)) t
  | unreadable (t : Tree) (file : List Text) (e : DomError) : faults → e ≠ .notFound →
      Serves b faults t (.getFile file) (.error (.dom e)) t
  | now (t : Tree) (time : ℤ) : Serves b faults t .now time t

abbrev HandleM (α : Type) : Type := Method HandleOp HandleAns Failure Unit α

def ofOpfs {α : Type} (m : OpfsM α) : HandleM α := Method.interp (fun o => Prog.op (.opfs o)) m

def getFile (file : List Text) : HandleM FileInfo := do
  let answer ← Method.perform (.getFile file)
  Method.ofExcept id answer

def readDir (path : Text) : OpfsM (List DirEntry) := do
  let normalized ← pathResult (normalizePath path)
  let dir ← resolveDir normalized
  let entries ← ask (.entries dir)
  pure (entries.map fun e => entryOf e.1 e.2)

def readTextFile (path : Text) : HandleM String := do
  let normalized ← ofOpfs (pathResult (normalizePath path))
  let handle ← ofOpfs (resolveFile normalized)
  let _ ← (getFile handle).orElse fun error => throw (toStorageError error normalized)
  -- the promise of the text is returned without being awaited
  let bytes ← ofOpfs (ask (.arrayBuffer handle))
  pure (utf8Codec.decode bytes)

/-- The part of a write that runs with the path locked. -/
def writeLocked (normalized : Text) (contents : List UInt8) : OpfsM Unit := do
  let parent ← resolveParent normalized
  let written : OpfsM Unit := do
    let handle ← getFileHandle parent.1 parent.2 true
    writeStream handle contents
  written.orElse fun error => throw (toStorageError error normalized)

def writeBytes (path : Text) (contents : List UInt8) : OpfsM Unit := do
  let normalized ← pathResult (normalizePath path)
  writeLocked normalized contents

def mkdir (path : Text) (recursive : Bool) : OpfsM Unit := do
  let normalized ← pathResult (normalizePath path)
  if normalized = ['/'] then pure ()
  else do
    ask .init
    let segments ← pathResult (pathSegments normalized)
    if recursive then do
      let _ ← segments.foldlM (fun dir segment => getDirectoryHandle dir segment true) []
      pure ()
    else do
      let parent ← resolveParent normalized
      let _ ← (getDirectoryHandle parent.1 parent.2 true).orElse fun error =>
        throw (toStorageError error normalized)
      pure ()

def remove (path : Text) (recursive : Bool) : OpfsM Unit := do
  let normalized ← pathResult (normalizePath path)
  if normalized = ['/'] then throw (.storage ⟨"Cannot remove root", .invalidPath⟩)
  else removeInternal normalized recursive

/-- The part of `stat` for a path in a directory. -/
def statIn (normalized : Text) (parent : List Text × Text) : HandleM FileStat :=
  let asFile : HandleM FileStat := do
    let handle ← ofOpfs (getFileHandle parent.1 parent.2 false)
    let file ← getFile handle
    pure ⟨file.size, some file.lastModified⟩
  asFile.orElse fun _ => do
    let _ ← (ofOpfs (getDirectoryHandle parent.1 parent.2 false)).orElse fun error =>
      throw (toStorageError error normalized)
    pure ⟨0, none⟩

def stat (path : Text) : HandleM FileStat := do
  let normalized ← ofOpfs (pathResult (normalizePath path))
  if normalized = ['/'] then pure ⟨0, none⟩
  else do
    let parent ← ofOpfs (resolveParent normalized)
    statIn normalized parent

/-- The catch block of `exists`. -/
def absentOrThrow : Failure → HandleM Bool
  | .storage ⟨_, .notFound⟩ => pure false
  | error => throw error

def doesExist (path : Text) : HandleM Bool := do
  let normalized ← ofOpfs (pathResult (normalizePath path))
  if normalized = ['/'] then pure true
  else do
    let found : HandleM Bool := do
      let _ ← stat normalized
      pure true
    found.orElse absentOrThrow

/-- The method of each call. A rename copies at most `depth` nested directories. -/
def method (depth : ℕ) : (o : StorageOp) → HandleM (StorageVal o)
  | .readDir path => ofOpfs (readDir path)
  | .readTextFile path => readTextFile path
  | .readFile path => ofOpfs (Opfs.readFile path)
  | .writeTextFile path contents => ofOpfs (writeBytes path (utf8Codec.encode contents))
  | .writeFile path contents => ofOpfs (writeBytes path contents)
  | .mkdir path recursive => ofOpfs (mkdir path recursive)
  | .rename fromPath toPath => ofOpfs (Opfs.rename depth fromPath toPath)
  | .remove path recursive => ofOpfs (remove path recursive)
  | .stat path => stat path
  | .exists path => doesExist path
  | .now => Method.perform HandleOp.now

/-- What carries out the calls of a backend. -/
def calls (depth : ℕ) : Handler StorageOp StorageAns HandleOp HandleAns :=
  fun o => Prod.fst <$> (method depth o).call ()

end Calls

section Ends

variable {Op : Type} {Ans : Op → Type} {R : Answers Op Ans Tree} {α β : Type} {t : Tree}
variable {post : Except Failure α → Tree → Prop}

/-- How a method ends: its outcome and the tree. -/
def Ends (R : Answers Op Ans Tree) (post : Except Failure α → Tree → Prop)
    (m : Method Op Ans Failure Unit α) (t : Tree) : Prop :=
  Meets R (fun _ _ => True) (fun a _ t' => post (.ok a) t') (fun e _ t' => post (.error e) t') m () t

theorem ends_pure {a : α} (h : post (.ok a) t) :
    Ends R post (pure a : Method Op Ans Failure Unit α) t := h

theorem ends_throw {e : Failure} (h : post (.error e) t) :
    Ends R post (throw e : Method Op Ans Failure Unit α) t := h

theorem Ends.imp {m : Method Op Ans Failure Unit α} {post' : Except Failure α → Tree → Prop}
    (h : Ends R post m t) (himp : ∀ out t', post out t' → post' out t') : Ends R post' m t :=
  Meets.imp h (fun _ _ _ => himp _ _) fun _ _ _ => himp _ _

theorem ends_bind {m : Method Op Ans Failure Unit α} {f : α → Method Op Ans Failure Unit β}
    {post : Except Failure β → Tree → Prop}
    (h : Ends R (fun out t' => match out with
      | .ok a => Ends R post (f a) t'
      | .error e => post (.error e) t') m t) : Ends R post (m >>= f) t :=
  (meets_bind ..).mpr h

theorem ends_orElse {m : Method Op Ans Failure Unit α} {handler : Failure → Method Op Ans Failure Unit α}
    (h : Ends R (fun out t' => match out with
      | .ok a => post (.ok a) t'
      | .error e => Ends R post (handler e) t') m t) : Ends R post (m.orElse handler) t :=
  (meets_orElse ..).mpr h

/-- A handler that always throws an error of its own. -/
theorem ends_rethrow {m : Method Op Ans Failure Unit α} {handler : Failure → Method Op Ans Failure Unit α}
    (hthrow : ∀ e, ∃ e', handler e = throw e')
    (h : Ends R (fun out t' => match out with
      | .ok a => post (.ok a) t'
      | .error _ => ∀ e', post (.error e') t') m t) : Ends R post (m.orElse handler) t := by
  refine ends_orElse (h.imp fun out t' hout => ?_)
  cases out with
  | ok a => exact hout
  | error e =>
      obtain ⟨e', he'⟩ := hthrow e
      change Ends R post (handler e) t'
      rw [he']
      exact ends_throw (hout e')

theorem ends_path {ε : Type} {wrap : ε → Failure} {x : Except ε α} {f : α → Method Op Ans Failure Unit β}
    {post : Except Failure β → Tree → Prop} (hok : ∀ a, x = .ok a → Ends R post (f a) t)
    (herror : ∀ e, x = .error e → post (.error (wrap e)) t) :
    Ends R post (Method.ofExcept wrap x >>= f) t := by
  rw [Ends, meets_bind, meets_ofExcept]
  exact ⟨hok, herror⟩

end Ends

section Answering

variable {b : Browser} {faults : Prop} {t : Tree} {α : Type}

/-- What the browser answers to the calls of the handles. -/
def Answering (b : Browser) (faults : Prop) : Answers OpfsOp OpfsAns Tree := fun t o ans t' =>
  b.respond o t = (ans, t') ∨
    faults ∧ t' = t ∧ o ≠ .hasMove ∧ ∃ e, e ≠ .notFound ∧ ans = .error (.dom e)

theorem carries_opfs : Carries (fun o => Prog.op (HandleOp.opfs o)) (Answering b faults)
    (Serves b faults) (fun _ _ => True) (fun _ _ => True) (Eq : Tree → Tree → Prop) := by
  rintro t _ o rfl -
  refine ⟨trivial, fun ans t' hans => ?_⟩
  cases hans with
  | opfs hans => exact ⟨t', .inl hans, rfl⟩
  | rejected _ _ e hfaults he ho => exact ⟨_, .inr ⟨hfaults, rfl, ho, e, he, rfl⟩, rfl⟩

theorem ends_ofOpfs {m : OpfsM α} {post : Except Failure α → Tree → Prop}
    (h : Ends (Answering b faults) post m t) : Ends (Serves b faults) post (ofOpfs m) t := by
  refine (carries_opfs.meets h rfl).imp (fun a _ t' hend => ?_) fun e _ t' hend => ?_
  · obtain ⟨_, hpost, rfl⟩ := hend
    exact hpost
  · obtain ⟨_, hpost, rfl⟩ := hend
    exact hpost

theorem ofOpfs_path (x : Except StorageError α) : ofOpfs (pathResult x) = Method.ofExcept .storage x := by
  cases x <;> rfl

/-- A call of the browser is answered, or it fails with nothing changed. -/
theorem ends_ask {o : OpfsOp} {post : OpfsAns o → Tree → Prop}
    (hserved : post (b.respond o t).1 (b.respond o t).2)
    (hdom : faults → ∀ e, e ≠ .notFound → post (.error (.dom e)) t) :
    Ends (Answering b faults) post (ask o) t := by
  rw [ask, Ends, meets_bind]
  refine ⟨trivial, fun ans t' hans => ?_⟩
  have hpost : post ans t' := by
    rcases hans with hans | ⟨hfaults, rfl, -, e, he, rfl⟩
    · rw [hans] at hserved
      exact hserved
    · exact hdom hfaults e he
  cases ans with
  | ok a => exact hpost
  | error e => exact hpost

end Answering

section Resolving

variable {b : Browser} {faults : Prop} {t : Tree} {α : Type} {l : List Text}

/-- A file is on the way to a place, or at it. -/
def FileOn (t : Tree) (l : List Text) : Prop :=
  ∃ p contents, p <+: l ∧ t.lookup p = some (.file contents)

/-- The error of a call that says that something is missing. -/
def Absent (e : Failure) : Prop := ∃ message, e = .storage ⟨message, .notFound⟩

theorem absent_toStorageError {e : DomError} (path : Text) :
    Absent (toStorageError (.dom e) path) ↔ e = .notFound := by
  constructor
  · rintro ⟨message, h⟩
    cases e <;> first | rfl | cases h
  · rintro rfl
    exact ⟨_, rfl⟩

/-- Why a directory is not opened: nothing is on the way at some place, or a file is, or a step failed. -/
structure Unopened (faults : Prop) (t : Tree) (l : List Text) (e : Failure) : Prop where
  missing : Absent e → ¬ t.isDir l ∧ ¬ FileOn t l
  other : ¬ Absent e → faults ∨ FileOn t l

theorem not_isDir_of_fileOn (hv : t.Valid) (h : FileOn t l) : ¬ t.isDir l := by
  obtain ⟨p, contents, ⟨rest, rfl⟩, hp⟩ := h
  intro hdir
  rcases isDir_eq_true.mp (isDir_above hv hdir) with rfl | hstored
  · exact (hv _ _ hp).1 rfl
  · rw [hp] at hstored
    cases hstored

theorem Unopened.faulty {e : Failure} (h : Unopened faults t l e) (hv : t.Valid) : faults ∨ ¬ t.isDir l := by
  by_cases habsent : Absent e
  · exact .inr (h.missing habsent).1
  · exact (h.other habsent).imp_right (not_isDir_of_fileOn hv)

/-- Opening a directory in one that is there. -/
theorem ends_openDir {dir : List Text} {segment : Text} (hdir : t.isDir dir)
    {post : Except Failure (List Text) → Tree → Prop}
    (hok : t.lookup (dir ++ [segment]) = some .dir → post (.ok (dir ++ [segment])) t)
    (hfile : ∀ contents, t.lookup (dir ++ [segment]) = some (.file contents) →
      post (.error (.dom .typeMismatch)) t)
    (hnone : t.lookup (dir ++ [segment]) = none → post (.error (.dom .notFound)) t)
    (hdom : faults → ∀ e, e ≠ .notFound → post (.error (.dom e)) t) :
    Ends (Answering b faults) post (getDirectoryHandle dir segment false) t := by
  refine ends_bind (ends_ask (o := .getDirectoryHandle dir segment false) ?_ hdom)
  rw [Browser.respond, hdir]
  cases hstored : t.lookup (dir ++ [segment]) with
  | none => exact hnone hstored
  | some node =>
      cases node with
      | dir => exact hok hstored
      | file contents => exact hfile contents hstored

/-- Where nothing is in a directory, nothing is below. -/
theorem missing_below (hv : t.Valid) {pre post : List Text} {segment : Text} (hdir : t.isDir pre)
    (hnone : t.lookup (pre ++ [segment]) = none) :
    ¬ t.isDir (pre ++ segment :: post) ∧ ¬ FileOn t (pre ++ segment :: post) := by
  rw [List.append_cons]
  have hnot : ¬ t.isDir (pre ++ [segment]) := by
    rw [isDir_eq_true, hnone]
    simp
  refine ⟨fun hall => hnot (isDir_above hv hall), ?_⟩
  rintro ⟨p, contents, hpre, hp⟩
  rcases List.prefix_or_prefix_of_prefix hpre (List.prefix_append _ post) with hle | ⟨rest, rfl⟩
  · rcases List.prefix_concat_iff.mp hle with rfl | hle
    · rw [hnone] at hp
      cases hp
    · exact not_isDir_of_fileOn hv ⟨p, contents, hle, hp⟩ hdir
  · by_cases hrest : rest = []
    · rw [hrest, List.append_nil, hnone] at hp
      cases hp
    · exact hnot (isDir_of_stored hv hrest hp)

theorem ends_openDirs (hv : t.Valid) (normalized : Text) (segments : List Text) :
    Ends (Answering b faults) (fun out t' => t' = t ∧ match out with
      | .ok dir => dir = segments ∧ t.isDir segments
      | .error e => Unopened faults t segments e) (openDirs normalized segments) t := by
  refine Meets.imp (meets_foldlM _ (fun pre dir _ t' => t' = t ∧ dir = pre ∧ t.isDir pre) segments [] ()
    t ⟨rfl, rfl, isDir_nil t⟩ ?_) (fun _ _ _ hend => hend) fun e _ t' hend => hend
  rintro pre segment post rfl dir _ t' ⟨rfl, rfl, hdir⟩
  have hround : Ends (Answering b faults) (fun out t'' => t'' = t' ∧ match out with
      | .ok dir' => dir' = dir ++ [segment] ∧ t'.isDir (dir ++ [segment])
      | .error e => Unopened faults t' (dir ++ segment :: post) e)
      ((getDirectoryHandle dir segment false).orElse fun error =>
        throw (toStorageError error normalized)) t' := by
    refine ends_orElse (ends_openDir hdir (fun hstored => ?_) (fun contents hfile => ?_)
      (fun hnone => ?_) fun hfaults e he => ?_)
    · exact ⟨rfl, rfl, isDir_eq_true.mpr (.inr hstored)⟩
    · refine ends_throw ⟨rfl, fun habsent => ?_, fun _ => .inr ⟨dir ++ [segment], contents, ?_, hfile⟩⟩
      · cases (absent_toStorageError normalized).mp habsent
      · exact ⟨post, (List.append_cons dir segment post).symm⟩
    · refine ends_throw ⟨rfl, fun _ => missing_below hv hdir hnone, fun hpresent => ?_⟩
      exact absurd ((absent_toStorageError normalized).mpr rfl) hpresent
    · refine ends_throw ⟨rfl, fun habsent => ?_, fun _ => .inl hfaults⟩
      exact absurd ((absent_toStorageError normalized).mp habsent) he
  exact hround

theorem ends_init {post : Except Failure Unit → Tree → Prop} (hok : post (.ok ()) t)
    (hdom : faults → ∀ e, e ≠ .notFound → post (.error (.dom e)) t) :
    Ends (Answering b faults) post (ask .init) t := ends_ask (o := .init) hok hdom

theorem not_absent_dom (e : DomError) : ¬ Absent (.dom e) := by
  rintro ⟨message, h⟩
  cases h

theorem ends_resolveDir (hv : t.Valid) (hl : Names l) :
    Ends (Answering b faults) (fun out t' => t' = t ∧ match out with
      | .ok dir => dir = l ∧ t.isDir l
      | .error e => Unopened faults t l e) (resolveDir (render l)) t := by
  rw [resolveDir, normalizePath_render hl]
  refine ends_path (fun _ hnorm => ?_) fun _ he => by cases he
  cases hnorm
  refine ends_bind (ends_init ?_ fun hfaults e he => ?_)
  · rw [pathSegments_render hl]
    refine ends_path (fun _ hsegs => ?_) fun _ he => by cases he
    cases hsegs
    exact ends_openDirs hv _ l
  · exact ⟨rfl, fun habsent => absurd habsent (not_absent_dom e), fun _ => .inl hfaults⟩

theorem ends_resolveParent (hv : t.Valid) (hl : Names l) :
    Ends (Answering b faults) (fun out t' => t' = t ∧ match out with
      | .ok parent => l = parent.1 ++ [parent.2] ∧ t.isDir parent.1
      | .error e => l = [] ∧ ¬ Absent e ∨ l ≠ [] ∧ Unopened faults t l.dropLast e)
      (resolveParent (render l)) t := by
  rw [resolveParent, normalizePath_render hl]
  refine ends_path (fun _ hnorm => ?_) fun _ he => by cases he
  cases hnorm
  rw [pathSegments_render hl]
  refine ends_path (fun _ hsegs => ?_) fun _ he => by cases he
  cases hsegs
  rcases List.eq_nil_or_concat l with rfl | ⟨dir, name, rfl⟩
  · refine ends_throw ⟨rfl, .inl ⟨rfl, ?_⟩⟩
    rintro ⟨message, h⟩
    cases h
  · rw [List.concat_eq_append, List.getLast?_concat, List.dropLast_concat]
    refine ends_bind (ends_init ?_ fun hfaults e he => ?_)
    · refine ends_bind ((ends_openDirs hv _ dir).imp fun out t' hend => ?_)
      obtain ⟨rfl, hend⟩ := hend
      cases out with
      | ok dir' =>
          obtain ⟨rfl, hdir⟩ := hend
          exact ends_pure ⟨rfl, rfl, hdir⟩
      | error e => exact ⟨rfl, .inr ⟨by simp, hend⟩⟩
    · refine ⟨rfl, .inr ⟨by simp, fun habsent => absurd habsent (not_absent_dom e), fun _ => .inl hfaults⟩⟩

end Resolving

section Spec

/-- The call writes to a path. -/
def Writes : StorageOp → Text → Prop
  | .writeTextFile path _, path' | .writeFile path _, path' => path = path'
  | _, _ => False

/-- A call that succeeds is the tree's, and a call that the tree refuses fails. Where there are faults a call
may fail and has changed nothing, or made the first of the directories that it was to make, or an empty file
where there was none. To ask for a path below a file fails, though it does not exist. -/
inductive Backed (faults : Prop) : Answers StorageOp StorageAns Tree
  | served {t t' : Tree} {o : StorageOp} {val : StorageVal o} (clock : Clock) :
      respond utf8Codec clock o t = (.ok val, t') → Backed faults t o (.ok val) t'
  | refused {t t' : Tree} {o : StorageOp} {e : Failure} (clock : Clock) (e' : Failure) :
      respond utf8Codec clock o t = (.error e, t') → Backed faults t o (.error e') t'
  | rejected (t : Tree) (o : StorageOp) (e : Failure) : faults → Backed faults t o (.error e) t
  | partly {t t' : Tree} {path : Text} {made rest : List Text} (e : Failure) : faults →
      pathSegments path = .ok (made ++ rest) → mkdirAt t made true = (.ok (), t') →
      Backed faults t (.mkdir path true) (.error e) t'
  | begun {t : Tree} {o : StorageOp} {path : Text} {l : List Text} (e : Failure) : faults →
      Writes o path → pathSegments path = .ok l → l ≠ [] → t.isDir l.dropLast → t.lookup l = none →
      Backed faults t o (.error e) (t.insert l (.file []))
  | hidden {t : Tree} {path : Text} {l : List Text} (e : Failure) : pathSegments path = .ok l →
      FileOn t l.dropLast → Backed faults t (.exists path) (.error e) t

/-- The calls in which the backend and the tree agree. -/
def Plain : StorageOp → Prop
  | .rename .. => False
  | _ => True

variable {faults : Prop} {t t' : Tree} {o : StorageOp}

theorem valid_backed (hv : t.Valid) {ans : StorageAns o} (h : Backed faults t o ans t') : t'.Valid := by
  cases h with
  | served clock h =>
      have hvalid : (respond utf8Codec clock o t).2.Valid := valid_respond hv o
      rw [h] at hvalid
      exact hvalid
  | refused clock _ h =>
      have hvalid : (respond utf8Codec clock o t).2.Valid := valid_respond hv o
      rw [h] at hvalid
      exact hvalid
  | rejected | hidden => exact hv
  | partly _ _ hsegs hmade =>
      have hnames := (names_append.mp (names_of_pathSegments hsegs)).1
      have hvalid := valid_mkdirAt hv hnames true
      rw [hmade] at hvalid
      exact hvalid
  | begun _ _ _ hsegs hroot hparent hnone =>
      refine valid_insert hv (names_of_pathSegments hsegs) hroot hparent fun hdir => ?_
      rw [hnone] at hdir
      cases hdir

end Spec

section Reads

variable {b : Browser} {faults : Prop} {t : Tree} {path : Text} {l : List Text}

/-- A clock that no call asks. -/
def noClock : Clock := ⟨0, fun _ => none⟩

/-- A path is taken apart, or the call fails as in the tree. -/
theorem ends_normal {Op : Type} {Ans : Op → Type} {R : Answers Op Ans Tree} {α : Type}
    {f : Text → Method Op Ans Failure Unit α} {post : Except Failure α → Tree → Prop}
    (hok : ∀ l, Names l → pathSegments path = .ok l → Ends R post (f (render l)) t)
    (herror : ∀ e, pathSegments path = .error e → post (.error (.storage e)) t) :
    Ends R post (Method.ofExcept .storage (normalizePath path) >>= f) t := by
  refine ends_path (fun normalized hnorm => ?_) fun e he => herror e ?_
  · obtain ⟨l, hl, rfl⟩ := normalizePath_eq_ok hnorm
    exact hok l hl (pathSegments_of_normalizePath hl hnorm)
  · rw [pathSegments, he]
    rfl

theorem refused_reading {o : StorageOp} {f : List Text → StorageAns o} {e : StorageError}
    (hcall : respond utf8Codec noClock o t = reading t path f) (h : pathSegments path = .error e) :
    Backed faults t o (.error (.storage e)) t := by
  refine .refused noClock _ (e := .storage e) ?_
  rw [hcall, reading, h]

theorem refused_writing {o : StorageOp} {f : List Text → StorageAns o × Tree} {e : StorageError}
    (hcall : respond utf8Codec noClock o t = writing t path f) (h : pathSegments path = .error e) :
    Backed faults t o (.error (.storage e)) t := by
  refine .refused noClock _ (e := .storage e) ?_
  rw [hcall, writing, h]

theorem readDirAt_refuses (h : ¬ t.isDir l) : ∃ e, readDirAt t l = .error e := by
  rw [readDirAt, if_neg h]
  split
  next => exact ⟨_, rfl⟩
  next => exact ⟨_, rfl⟩

theorem readFileAt_refuses (h : ∀ contents, t.lookup l ≠ some (.file contents)) :
    ∃ e, readFileAt t l = .error e := by
  rw [readFileAt]
  split
  next => exact ⟨_, rfl⟩
  next => exact ⟨_, rfl⟩
  next contents hfile => exact absurd hfile (h contents)

theorem readDir_ends (hv : t.Valid) (path : Text) :
    Ends (Answering b faults) (Backed faults t (.readDir path)) (readDir path) t := by
  refine ends_normal (fun l hl hsegs => ?_) fun e he => refused_reading rfl he
  have hcall : respond utf8Codec noClock (.readDir path) t = (readDirAt t l, t) := by
    rw [respond, reading_ok hsegs]
  refine ends_bind ((ends_resolveDir hv hl).imp fun out t' hend => ?_)
  obtain ⟨rfl, hend⟩ := hend
  cases out with
  | ok dir =>
      obtain ⟨rfl, hdir⟩ := hend
      refine ends_bind (ends_ask (o := .entries dir) ?_ fun hfaults e he => .rejected _ _ _ hfaults)
      rw [Browser.respond, if_pos hdir]
      refine ends_pure (.served noClock ?_)
      rw [hcall, readDirAt_eq_ok.mpr ⟨hdir, rfl⟩]
  | error e =>
      rcases hend.faulty hv with hfaults | hdir
      · exact .rejected _ _ _ hfaults
      · obtain ⟨e', he'⟩ := readDirAt_refuses hdir
        exact .refused noClock _ (by rw [hcall, he'])

/-- Opening a file in a directory that is there. -/
theorem ends_openFile {dir : List Text} {name : Text} (hdir : t.isDir dir)
    {post : Except Failure (List Text) → Tree → Prop}
    (hok : ∀ contents, t.lookup (dir ++ [name]) = some (.file contents) → post (.ok (dir ++ [name])) t)
    (hisDir : t.lookup (dir ++ [name]) = some .dir → post (.error (.dom .typeMismatch)) t)
    (hnone : t.lookup (dir ++ [name]) = none → post (.error (.dom .notFound)) t)
    (hdom : faults → ∀ e, e ≠ .notFound → post (.error (.dom e)) t) :
    Ends (Answering b faults) post (getFileHandle dir name false) t := by
  refine ends_bind (ends_ask (o := .getFileHandle dir name false) ?_ hdom)
  rw [Browser.respond, hdir]
  cases hstored : t.lookup (dir ++ [name]) with
  | none => exact hnone hstored
  | some node =>
      cases node with
      | dir => exact hisDir hstored
      | file contents => exact hok contents hstored

theorem ends_resolveFile (hv : t.Valid) (hl : Names l) :
    Ends (Answering b faults) (fun out t' => t' = t ∧ match out with
      | .ok handle => handle = l ∧ ∃ contents, t.lookup l = some (.file contents)
      | .error _ => faults ∨ ∀ contents, t.lookup l ≠ some (.file contents)) (resolveFile (render l)) t := by
  rw [resolveFile, normalizePath_render hl]
  refine ends_path (fun _ hnorm => ?_) fun _ he => by cases he
  cases hnorm
  refine ends_bind ((ends_resolveParent hv hl).imp fun out t' hend => ?_)
  obtain ⟨rfl, hend⟩ := hend
  cases out with
  | ok parent =>
      obtain ⟨rfl, hdir⟩ := hend
      refine ends_orElse (ends_openFile hdir (fun contents hfile => ?_) (fun hisDir => ?_)
        (fun hnone => ?_) fun hfaults e he => ends_throw ⟨rfl, .inl hfaults⟩)
      · exact ⟨rfl, rfl, contents, hfile⟩
      · refine ends_throw ⟨rfl, .inr fun contents => ?_⟩
        rw [hisDir]
        simp
      · refine ends_throw ⟨rfl, .inr fun contents => ?_⟩
        rw [hnone]
        simp
  | error e =>
      refine ⟨rfl, ?_⟩
      rcases hend with ⟨rfl, -⟩ | ⟨hroot, hend⟩
      · exact .inr fun contents hfile => (hv _ _ hfile).1 rfl
      · refine (hend.faulty hv).imp_right fun hdir contents hfile => hdir (hv _ _ hfile).2.2

theorem readFile_ends (hv : t.Valid) (path : Text) :
    Ends (Answering b faults) (Backed faults t (.readFile path)) (Opfs.readFile path) t := by
  refine ends_normal (fun l hl hsegs => ?_) fun e he => refused_reading rfl he
  have hcall : respond utf8Codec noClock (.readFile path) t = (readFileAt t l, t) := by
    rw [respond, reading_ok hsegs]
  refine ends_bind ((ends_resolveFile hv hl).imp fun out t' hend => ?_)
  obtain ⟨rfl, hend⟩ := hend
  cases out with
  | ok handle =>
      obtain ⟨rfl, contents, hfile⟩ := hend
      refine ends_orElse (ends_ask (o := .arrayBuffer handle) ?_ fun hfaults e he =>
        ends_throw (.rejected _ _ _ hfaults))
      rw [Browser.respond, hfile]
      refine .served noClock ?_
      rw [hcall, readFileAt_eq_ok.mpr hfile]
  | error e =>
      rcases hend with hfaults | hnot
      · exact .rejected _ _ _ hfaults
      · obtain ⟨e', he'⟩ := readFileAt_refuses hnot
        exact .refused noClock _ (by rw [hcall, he'])

theorem ends_getFile {file : List Text} {post : Except Failure FileInfo → Tree → Prop}
    (hok : ∀ contents time, t.lookup file = some (.file contents) → post (.ok ⟨contents.length, time⟩) t)
    (hnone : (∀ contents, t.lookup file ≠ some (.file contents)) → post (.error (.dom .notFound)) t)
    (hdom : faults → ∀ e, e ≠ .notFound → post (.error (.dom e)) t) :
    Ends (Serves b faults) post (getFile file) t := by
  rw [getFile, Ends, meets_bind]
  refine ⟨trivial, fun ans t' hans => ?_⟩
  cases hans with
  | getFile time hfile => exact hok _ time hfile
  | noFile hnot => exact hnone hnot
  | unreadable _ _ e hfaults he => exact hdom hfaults e he

theorem readTextFile_ends (hv : t.Valid) (path : Text) :
    Ends (Serves b faults) (Backed faults t (.readTextFile path)) (readTextFile path) t := by
  have hrejected : faults → ∀ e, Backed faults t (.readTextFile path) (.error e) t :=
    fun hfaults e => .rejected _ _ _ hfaults
  rw [readTextFile, ofOpfs_path]
  refine ends_normal (fun l hl hsegs => ?_) fun e he =>
    refused_reading (f := fun l => (readFileAt t l).map utf8Codec.decode) rfl he
  have hcall : respond utf8Codec noClock (.readTextFile path) t =
      ((readFileAt t l).map utf8Codec.decode, t) := by
    rw [respond, reading_ok hsegs]
  refine ends_bind (ends_ofOpfs ((ends_resolveFile hv hl).imp fun out t' hend => ?_))
  obtain ⟨rfl, hend⟩ := hend
  cases out with
  | ok handle =>
      obtain ⟨rfl, contents, hfile⟩ := hend
      refine ends_bind (ends_orElse (ends_getFile (fun contents' time _ => ?_) (fun hnot => ?_)
        fun hfaults e he => ends_throw (hrejected hfaults _)))
      · refine ends_bind (ends_ofOpfs (ends_ask (o := .arrayBuffer handle) ?_ fun hfaults e he =>
          hrejected hfaults _))
        rw [Browser.respond, hfile]
        refine ends_pure (.served noClock ?_)
        rw [hcall, readFileAt_eq_ok.mpr hfile]
        rfl
      · exact absurd hfile (hnot contents)
  | error e =>
      rcases hend with hfaults | hnot
      · exact hrejected hfaults e
      · obtain ⟨e', he'⟩ := readFileAt_refuses hnot
        refine .refused (e := e') noClock e ?_
        rw [hcall, he']
        rfl

end Reads

section Writing

variable {b : Browser} {faults : Prop} {t : Tree} {path : Text} {l : List Text}

theorem writeFileAt_refuses {contents : List UInt8} (h : ¬ t.isDir l.dropLast ∨ t.isDir l) :
    ∃ e, writeFileAt t l contents = (.error e, t) := by
  rw [writeFileAt]
  by_cases hparent : t.isDir l.dropLast
  · rw [if_neg (by simp [hparent]), if_pos (h.resolve_left (not_not.mpr hparent))]
    exact ⟨_, rfl⟩
  · rw [if_pos (by simpa using hparent)]
    exact ⟨_, rfl⟩

/-- The stream of a file that is there commits on close. -/
theorem ends_writeStream {handle : List Text} {old contents : List UInt8}
    (hfile : t.lookup handle = some (.file old)) {post : Except Failure Unit → Tree → Prop}
    (hok : post (.ok ()) (t.insert handle (.file contents)))
    (herror : faults → ∀ e, post (.error e) t) :
    Ends (Answering b faults) post (writeStream handle contents) t := by
  have hopened : b.respond (.createWritable handle) t = (.ok (), t) := by
    rw [Browser.respond, hfile]
  have hclosed : b.respond (.close handle contents) t = (.ok (), t.insert handle (.file contents)) := by
    rw [Browser.respond, hfile]
  have habort : faults → ∀ e, Ends (Answering b faults) post
      (((ask (.abort handle) : OpfsM Unit).orElse fun _ => pure ()) >>= fun _ => throw e) t :=
    fun hfaults e => ends_bind (ends_orElse (ends_ask (o := .abort handle)
      (ends_throw (herror hfaults e)) fun _ _ _ => ends_pure (ends_throw (herror hfaults e))))
  refine ends_bind (ends_ask (o := .createWritable handle) ?_ fun hfaults e _ => herror hfaults _)
  rw [hopened]
  change Ends (Answering b faults) post _ t
  refine ends_orElse (ends_bind (ends_ask (o := .write handle contents) ?_ fun hfaults e _ =>
    habort hfaults _))
  change Ends (Answering b faults) _ _ t
  refine ends_ask (o := .close handle contents) ?_ fun hfaults e _ => habort hfaults _
  rw [hclosed]
  exact hok

/-- Opening a file with creation in a directory that is there. -/
theorem ends_createFile {dir : List Text} {name : Text} (hdir : t.isDir dir)
    {post : Except Failure (List Text) → Tree → Prop}
    (hfile : ∀ contents, t.lookup (dir ++ [name]) = some (.file contents) → post (.ok (dir ++ [name])) t)
    (hisDir : t.lookup (dir ++ [name]) = some .dir → post (.error (.dom .typeMismatch)) t)
    (hnone : t.lookup (dir ++ [name]) = none →
      post (.ok (dir ++ [name])) (t.insert (dir ++ [name]) (.file [])))
    (hdom : faults → ∀ e, e ≠ .notFound → post (.error (.dom e)) t) :
    Ends (Answering b faults) post (getFileHandle dir name true) t := by
  refine ends_bind (ends_ask (o := .getFileHandle dir name true) ?_ hdom)
  rw [Browser.respond, hdir]
  cases hstored : t.lookup (dir ++ [name]) with
  | none => exact hnone hstored
  | some node =>
      cases node with
      | dir => exact hisDir hstored
      | file contents => exact hfile contents hstored

theorem isDir_stored (h : t.lookup l = some .dir) : t.isDir l := isDir_eq_true.mpr (.inr h)

theorem not_isDir_stored {node : Option Node} (h : t.lookup l = node) (hnode : node ≠ some .dir)
    (hroot : l ≠ []) : ¬ t.isDir l := by
  rw [isDir_eq_true, h, not_or]
  exact ⟨hroot, hnode⟩

/-- A write is the tree's, or an empty file is left. -/
theorem ends_writeLocked (hv : t.Valid) (hl : Names l) {contents : List UInt8}
    {post : Except Failure Unit → Tree → Prop}
    (hok : ∀ t', writeFileAt t l contents = (.ok (), t') → post (.ok ()) t')
    (herror : ∀ e e', writeFileAt t l contents = (.error e, t) → post (.error e') t)
    (hfaulty : faults → ∀ e, post (.error e) t)
    (hbegun : faults → ∀ e, l ≠ [] → t.isDir l.dropLast → t.lookup l = none →
      post (.error e) (t.insert l (.file []))) :
    Ends (Answering b faults) post (writeLocked (render l) contents) t := by
  have hrefused : ∀ e', (¬ t.isDir l.dropLast ∨ t.isDir l) → post (.error e') t := by
    intro e' h
    obtain ⟨e, he⟩ := writeFileAt_refuses h
    exact herror e e' he
  refine ends_bind ((ends_resolveParent hv hl).imp fun out t' hend => ?_)
  obtain ⟨rfl, hend⟩ := hend
  cases out with
  | ok parent =>
      obtain ⟨rfl, hdir⟩ := hend
      have hroot : parent.1 ++ [parent.2] ≠ [] := by simp
      have hdir' : t'.isDir (parent.1 ++ [parent.2]).dropLast := by
        rw [List.dropLast_concat]
        exact hdir
      have hserved : ¬ t'.isDir (parent.1 ++ [parent.2]) →
          post (.ok ()) (t'.insert (parent.1 ++ [parent.2]) (.file contents)) := fun hnot =>
        hok _ (writeFileAt_eq_ok.mpr ⟨hdir', hnot, rfl⟩)
      refine ends_orElse (ends_bind (ends_createFile hdir (fun old hfile => ?_) (fun hisDir => ?_)
        (fun hnone => ?_) fun hfaults e _ => ends_throw (hfaulty hfaults _)))
      · have hnot := not_isDir_stored hfile (by simp) hroot
        exact ends_writeStream hfile (hserved hnot) fun hfaults e => ends_throw (hfaulty hfaults _)
      · exact ends_throw (hrefused _ (.inr (isDir_stored hisDir)))
      · have hnot := not_isDir_stored hnone (by simp) hroot
        have hmade : AList.lookup (parent.1 ++ [parent.2])
            (t'.insert (parent.1 ++ [parent.2]) (.file [])) = some (.file []) := by
          rw [lookup_insert_eq, if_pos rfl]
        refine ends_writeStream hmade ?_ fun hfaults e => ?_
        · rw [AList.insert_insert]
          exact hserved hnot
        · exact ends_throw (hbegun hfaults _ hroot hdir' hnone)
  | error e =>
      rcases hend with ⟨rfl, -⟩ | ⟨hroot, hend⟩
      · exact hrefused e (.inr (isDir_nil t'))
      · rcases hend.faulty hv with hfaults | hdir
        · exact hfaulty hfaults e
        · exact hrefused e (.inl hdir)

theorem ends_writeBytes (hv : t.Valid) (path : Text) {contents : List UInt8}
    {post : Except Failure Unit → Tree → Prop}
    (hok : ∀ t', writing t path (fun l => writeFileAt t l contents) = (.ok (), t') → post (.ok ()) t')
    (herror : ∀ e e', writing t path (fun l => writeFileAt t l contents) = (.error e, t) →
      post (.error e') t)
    (hfaulty : faults → ∀ e, post (.error e) t)
    (hbegun : faults → ∀ e l, pathSegments path = .ok l → l ≠ [] → t.isDir l.dropLast →
      t.lookup l = none → post (.error e) (t.insert l (.file []))) :
    Ends (Answering b faults) post (writeBytes path contents) t := by
  refine ends_normal (fun l hl hsegs => ?_) fun e he => herror (.storage e) _ ?_
  · refine ends_writeLocked hv hl (fun t' h => hok t' ?_) (fun e e' h => herror e e' ?_) hfaulty
      fun hfaults e => hbegun hfaults e l hsegs
    · rw [writing_ok hsegs, h]
    · rw [writing_ok hsegs, h]
  · rw [writing, he]

theorem writeTextFile_ends (hv : t.Valid) (path : Text) (contents : String) :
    Ends (Answering b faults) (Backed faults t (.writeTextFile path contents))
      (writeBytes path (utf8Codec.encode contents)) t :=
  ends_writeBytes hv path (fun _ h => .served noClock h) (fun _ e' h => .refused noClock e' h)
    (fun hfaults e => .rejected _ _ e hfaults) fun hfaults e _ => .begun e hfaults rfl

theorem writeFile_ends (hv : t.Valid) (path : Text) (contents : List UInt8) :
    Ends (Answering b faults) (Backed faults t (.writeFile path contents)) (writeBytes path contents) t :=
  ends_writeBytes hv path (fun _ h => .served noClock h) (fun _ e' h => .refused noClock e' h)
    (fun hfaults e => .rejected _ _ e hfaults) fun hfaults e _ => .begun e hfaults rfl

end Writing

section Directories

variable {b : Browser} {faults : Prop} {t : Tree} {path : Text} {l : List Text}

/-- Opening a directory with creation in one that is there. -/
theorem ends_createDir {dir : List Text} {name : Text} (hdir : t.isDir dir)
    {post : Except Failure (List Text) → Tree → Prop}
    (hthere : t.lookup (dir ++ [name]) = some .dir → post (.ok (dir ++ [name])) t)
    (hfile : ∀ contents, t.lookup (dir ++ [name]) = some (.file contents) →
      post (.error (.dom .typeMismatch)) t)
    (hnone : t.lookup (dir ++ [name]) = none → post (.ok (dir ++ [name])) (t.insert (dir ++ [name]) .dir))
    (hdom : faults → ∀ e, e ≠ .notFound → post (.error (.dom e)) t) :
    Ends (Answering b faults) post (getDirectoryHandle dir name true) t := by
  refine ends_bind (ends_ask (o := .getDirectoryHandle dir name true) ?_ hdom)
  rw [Browser.respond, hdir]
  cases hstored : t.lookup (dir ++ [name]) with
  | none => exact hnone hstored
  | some node =>
      cases node with
      | dir => exact hthere hstored
      | file contents => exact hfile contents hstored

/-- What making the directories below a directory ends with: as in the tree, or the first of them are
made. -/
def DirsMade (faults : Prop) (dir segments : List Text) (t : Tree) (out : Except Failure (List Text))
    (t' : Tree) : Prop :=
  match out with
  | .ok last => last = dir ++ segments ∧ makeDirs (segments.inits.tail.map (dir ++ ·)) t = (.ok (), t')
  | .error _ => (∃ e, makeDirs (segments.inits.tail.map (dir ++ ·)) t = (.error e, t')) ∨
      faults ∧ ∃ made rest, segments = made ++ rest ∧
        makeDirs (made.inits.tail.map (dir ++ ·)) t = (.ok (), t')

/-- The rest of the directories are made below the first one. -/
theorem DirsMade.cons {dir rest : List Text} {s : Text} {t₁ t' : Tree} {out : Except Failure (List Text)}
    (h : DirsMade faults (dir ++ [s]) rest t₁ out t')
    (hfirst : ∀ paths, makeDirs ((dir ++ [s]) :: paths) t = makeDirs paths t₁) :
    DirsMade faults dir (s :: rest) t out t' := by
  cases out with
  | ok last =>
      obtain ⟨rfl, hmade⟩ := h
      refine ⟨by simp, ?_⟩
      rw [inits_below, hfirst, hmade]
  | error e =>
      rcases h with ⟨e', hmade⟩ | ⟨hfaults, made, rest', rfl, hmade⟩
      · refine .inl ⟨e', ?_⟩
        rw [inits_below, hfirst, hmade]
      · refine .inr ⟨hfaults, s :: made, rest', rfl, ?_⟩
        rw [inits_below, hfirst, hmade]

theorem makeDirs_refuses {path : List Text} {contents : List UInt8}
    (h : t.lookup path = some (.file contents)) (paths : List (List Text)) :
    ∃ e, makeDirs (path :: paths) t = (.error e, t) := by
  rw [makeDirs, h]
  exact ⟨_, rfl⟩

theorem ends_makeDirs {segments dir : List Text} {t : Tree} (hdir : t.isDir dir) :
    Ends (Answering b faults) (DirsMade faults dir segments t)
      (segments.foldlM (fun dir segment => getDirectoryHandle dir segment true) dir) t := by
  induction segments generalizing dir t with
  | nil => exact ends_pure ⟨(List.append_nil dir).symm, rfl⟩
  | cons s rest ih =>
      rw [List.foldlM_cons]
      refine ends_bind (ends_createDir hdir (fun hthere => ?_) (fun contents hfile => ?_)
        (fun hnone => ?_) fun hfaults e _ => ?_)
      · refine (ih (isDir_stored hthere)).imp fun out t' hend => ?_
        exact hend.cons fun paths => by rw [makeDirs, hthere]
      · obtain ⟨e, he⟩ := makeDirs_refuses hfile (rest.inits.tail.map ((dir ++ [s]) ++ ·))
        exact .inl ⟨e, by rw [inits_below, he]⟩
      · have hmade : Tree.isDir (t.insert (dir ++ [s]) .dir) (dir ++ [s]) := by
          refine isDir_stored ?_
          rw [lookup_insert_eq, if_pos rfl]
        refine (ih hmade).imp fun out t' hend => ?_
        exact hend.cons fun paths => by rw [makeDirs, hnone]
      · exact .inr ⟨hfaults, [], s :: rest, rfl, rfl⟩

theorem mkdir_ends (hv : t.Valid) (path : Text) (recursive : Bool) :
    Ends (Answering b faults) (Backed faults t (.mkdir path recursive)) (mkdir path recursive) t := by
  refine ends_normal (fun l hl hsegs => ?_) fun e he => refused_writing rfl he
  have hcall : respond utf8Codec noClock (.mkdir path recursive) t = mkdirAt t l recursive := by
    rw [respond, writing_ok hsegs]
  by_cases hroot : l = []
  · subst hroot
    refine ends_pure (.served noClock ?_)
    rw [hcall, mkdirAt]
    cases recursive <;> rfl
  rw [if_neg (mt (render_eq_root hl).mp hroot)]
  refine ends_bind (ends_init ?_ fun hfaults e _ => .rejected _ _ _ hfaults)
  rw [pathSegments_render hl]
  refine ends_path (fun _ heq => ?_) fun _ he => by cases he
  cases heq
  cases recursive with
  | true =>
      refine ends_bind ((ends_makeDirs (isDir_nil t)).imp fun out t' hend => ?_)
      cases out with
      | ok last =>
          refine ends_pure (.served noClock ?_)
          rw [hcall, mkdirAt, if_pos rfl, ← hend.2]
          simp
      | error e =>
          rcases hend with ⟨e', hmade⟩ | ⟨hfaults, made, rest, rfl, hmade⟩
          · refine .refused (e := e') noClock e ?_
            rw [hcall, mkdirAt, if_pos rfl, ← hmade]
            simp
          · refine .partly e hfaults hsegs ?_
            rw [mkdirAt, if_pos rfl, ← hmade]
            simp
  | false =>
      refine ends_bind ((ends_resolveParent hv hl).imp fun out t' hend => ?_)
      obtain ⟨rfl, hend⟩ := hend
      rw [mkdirAt, if_neg (by simp), if_neg hroot] at hcall
      cases out with
      | ok parent =>
          obtain ⟨rfl, hdir⟩ := hend
          rw [List.dropLast_concat, if_neg (by simp [hdir])] at hcall
          refine ends_bind (ends_orElse (ends_createDir hdir (fun hthere => ?_) (fun contents hfile => ?_)
            (fun hnone => ?_) fun hfaults e _ => ends_throw (.rejected _ _ _ hfaults)))
          · refine ends_pure (.served noClock ?_)
            rw [hcall, makeDirs, hthere]
            rfl
          · obtain ⟨e, he⟩ := makeDirs_refuses hfile []
            refine ends_throw (.refused noClock _ (e := e) ?_)
            rw [hcall, he]
          · refine ends_pure (.served noClock ?_)
            rw [hcall, makeDirs, hnone]
            rfl
      | error e =>
          rcases hend with ⟨hnil, -⟩ | ⟨-, hend⟩
          · exact absurd hnil hroot
          rcases hend.faulty hv with hfaults | hdir
          · exact .rejected _ _ e hfaults
          · rw [if_pos (by simpa using hdir)] at hcall
            exact .refused noClock e hcall

theorem removeAt_refuses (h : t.lookup l = none) (recursive : Bool) :
    ∃ e, removeAt t l recursive = (.error e, t) := by
  rw [removeAt, h]
  split
  next => exact ⟨_, rfl⟩
  next => exact ⟨_, if_pos rfl⟩

theorem remove_ends (hv : t.Valid) (path : Text) (recursive : Bool) :
    Ends (Answering b faults) (Backed faults t (.remove path recursive)) (remove path recursive) t := by
  refine ends_normal (fun l hl hsegs => ?_) fun e he => refused_writing rfl he
  have hcall : respond utf8Codec noClock (.remove path recursive) t = removeAt t l recursive := by
    rw [respond, writing_ok hsegs]
  by_cases hroot : l = []
  · subst hroot
    rw [removeAt, if_pos rfl] at hcall
    exact ends_throw (.refused noClock _ hcall)
  rw [if_neg (mt (render_eq_root hl).mp hroot)]
  have hmissing : ∀ e, t.lookup l = none → Backed faults t (.remove path recursive) (.error e) t := by
    intro e hnone
    obtain ⟨e', he'⟩ := removeAt_refuses hnone recursive
    exact .refused noClock e (hcall.trans he')
  refine ends_bind ((ends_resolveParent hv hl).imp fun out t' hend => ?_)
  obtain ⟨rfl, hend⟩ := hend
  cases out with
  | ok parent =>
      obtain ⟨rfl, hdir⟩ := hend
      refine ends_rethrow (fun e => ?_) (ends_ask (o := .removeEntry parent.1 parent.2 recursive) ?_
        fun hfaults e _ e' => .rejected _ _ e' hfaults)
      · split
        next => exact ⟨_, rfl⟩
        next => exact ⟨_, rfl⟩
      rw [Browser.respond]
      cases hstored : t'.lookup (parent.1 ++ [parent.2]) with
      | none => exact fun e' => hmissing e' hstored
      | some node =>
          dsimp only
          rw [removeAt, if_neg hroot, if_neg (by simp [hstored])] at hcall
          by_cases hfull : t'.children (parent.1 ++ [parent.2]) ≠ [] ∧ recursive = false
          · rw [if_pos (by simpa using hfull)]
            rw [if_pos (by simpa [and_comm] using hfull)] at hcall
            exact fun e' => .refused noClock e' hcall
          · rw [if_neg (by simpa using hfull)]
            rw [if_neg (by simpa [and_comm] using hfull)] at hcall
            exact .served noClock hcall
  | error e =>
      rcases hend with ⟨hnil, -⟩ | ⟨-, hend⟩
      · exact absurd hnil hroot
      rcases hend.faulty hv with hfaults | hdir
      · exact .rejected _ _ e hfaults
      · refine hmissing e ?_
        cases hstored : t'.lookup l with
        | none => rfl
        | some node => exact absurd (hv _ _ hstored).2.2 hdir

end Directories

section Asking

variable {b : Browser} {faults : Prop} {t : Tree} {path : Text} {l : List Text}

/-- What `stat` tells of a place. -/
def Stated (faults : Prop) (t : Tree) (l : List Text) (out : Except Failure FileStat) : Prop :=
  match out with
  | .ok info => statAt t l = .ok info.size
  | .error e => l ≠ [] ∧ (Absent e → t.lookup l = none) ∧ (¬ Absent e → faults ∨ FileOn t l.dropLast)

/-- The directory that a path may be when it is no file that can be read. -/
theorem ends_statDir {dir : List Text} {name : Text} (hdir : t.isDir dir) (normalized : Text)
    (hnot : faults ∨ ∀ contents, t.lookup (dir ++ [name]) ≠ some (.file contents)) :
    Ends (Serves b faults) (fun out t' => t' = t ∧ Stated faults t (dir ++ [name]) out) (do
      let _ ← (ofOpfs (getDirectoryHandle dir name false)).orElse fun error =>
        throw (toStorageError error normalized)
      pure ⟨0, none⟩) t := by
  have hroot : dir ++ [name] ≠ [] := by simp
  refine ends_bind (ends_orElse (ends_ofOpfs (ends_openDir hdir (fun hstored => ?_) (fun contents hfile => ?_)
    (fun hnone => ?_) fun hfaults e he => ?_)))
  · refine ends_pure ⟨rfl, ?_⟩
    rw [Stated, statAt, if_neg hroot, hstored]
  · refine ends_throw ⟨rfl, hroot, fun habsent => ?_, fun _ => .inl (hnot.resolve_right fun h => h _ hfile)⟩
    cases (absent_toStorageError normalized).mp habsent
  · exact ends_throw ⟨rfl, hroot, fun _ => hnone, fun h => absurd ((absent_toStorageError normalized).mpr rfl) h⟩
  · exact ends_throw ⟨rfl, hroot, fun habsent => absurd ((absent_toStorageError normalized).mp habsent) he,
      fun _ => .inl hfaults⟩

theorem ends_statIn {parent : List Text × Text} (hdir : t.isDir parent.1) (normalized : Text) :
    Ends (Serves b faults) (fun out t' => t' = t ∧ Stated faults t (parent.1 ++ [parent.2]) out)
      (statIn normalized parent) t := by
  refine ends_orElse (ends_bind (ends_ofOpfs (ends_openFile hdir (fun contents hfile => ?_) (fun hisDir => ?_)
    (fun hnone => ?_) fun hfaults e he => ends_statDir hdir normalized (.inl hfaults))))
  · refine ends_bind (ends_getFile (fun contents time hfile => ?_) (fun hnot => absurd hfile (hnot _))
      fun hfaults e he => ends_statDir hdir normalized (.inl hfaults))
    refine ends_pure ⟨rfl, ?_⟩
    rw [Stated, statAt, if_neg (by simp), hfile]
  · refine ends_statDir hdir normalized (.inr fun contents => ?_)
    rw [hisDir]
    simp
  · refine ends_statDir hdir normalized (.inr fun contents => ?_)
    rw [hnone]
    simp

theorem ends_stat (hv : t.Valid) {post : Except Failure FileStat → Tree → Prop}
    (hstated : ∀ l out, pathSegments path = .ok l → Stated faults t l out → post out t)
    (herror : ∀ e, pathSegments path = .error e → post (.error (.storage e)) t) :
    Ends (Serves b faults) post (stat path) t := by
  rw [stat, ofOpfs_path]
  refine ends_normal (fun l hl hsegs => ?_) herror
  by_cases hroot : l = []
  · rw [if_pos ((render_eq_root hl).mpr hroot)]
    subst hroot
    exact ends_pure (hstated [] _ hsegs rfl)
  · rw [if_neg (mt (render_eq_root hl).mp hroot)]
    refine ends_bind (ends_ofOpfs ((ends_resolveParent hv hl).imp fun out t' hend => ?_))
    obtain ⟨rfl, hend⟩ := hend
    cases out with
    | ok parent =>
        obtain ⟨rfl, hdir⟩ := hend
        refine (ends_statIn hdir _).imp fun out t'' hend => ?_
        obtain ⟨rfl, hend⟩ := hend
        exact hstated _ out hsegs hend
    | error e =>
        rcases hend with ⟨hnil, -⟩ | ⟨-, hend⟩
        · exact absurd hnil hroot
        · refine hstated l _ hsegs ⟨hroot, fun habsent => ?_, hend.other⟩
          cases hstored : t'.lookup l with
          | none => rfl
          | some node => exact absurd (hv _ _ hstored).2.2 (hend.missing habsent).1

theorem statAt_refuses (hroot : l ≠ []) (h : t.lookup l = none) : ∃ e, statAt t l = .error e := by
  rw [statAt, if_neg hroot, h]
  exact ⟨_, rfl⟩

/-- Nothing is below a file. -/
theorem none_of_fileOn (hv : t.Valid) (h : FileOn t l.dropLast) : t.lookup l = none := by
  cases hstored : t.lookup l with
  | none => rfl
  | some node => exact absurd (hv _ _ hstored).2.2 (not_isDir_of_fileOn hv h)

theorem stat_ends (hv : t.Valid) (path : Text) :
    Ends (Serves b faults) (Backed faults t (.stat path)) (stat path) t := by
  refine ends_stat hv (fun l out hsegs hout => ?_) fun e he =>
    refused_reading (o := .stat path) rfl he
  cases out with
  | ok info =>
      refine .served ⟨0, fun _ => info.mtime⟩ ?_
      rw [respond, reading_ok hsegs, hout]
      rfl
  | error e =>
      obtain ⟨hroot, habsent, hpresent⟩ := hout
      have hmissing : t.lookup l = none → Backed faults t (.stat path) (.error e) t := by
        intro hnone
        obtain ⟨e', he'⟩ := statAt_refuses hroot hnone
        refine .refused (e := e') noClock e ?_
        rw [respond, reading_ok hsegs, he']
        rfl
      by_cases h : Absent e
      · exact hmissing (habsent h)
      · rcases hpresent h with hfaults | hfile
        · exact .rejected _ _ e hfaults
        · exact hmissing (none_of_fileOn hv hfile)

theorem absentOrThrow_eq {e : Failure} (h : ¬ Absent e) : absentOrThrow e = throw e := by
  rcases e with ⟨message, code⟩ | e
  · cases code <;> first | rfl | exact absurd ⟨message, rfl⟩ h
  · rfl

theorem isSome_of_statAt {size : ℕ} (hroot : l ≠ []) (h : statAt t l = .ok size) : (t.lookup l).isSome := by
  cases hstored : t.lookup l with
  | some node => rfl
  | none =>
      obtain ⟨e, he⟩ := statAt_refuses hroot hstored
      rw [he] at h
      cases h

theorem doesExist_ends (hv : t.Valid) (path : Text) :
    Ends (Serves b faults) (Backed faults t (.exists path)) (doesExist path) t := by
  rw [doesExist, ofOpfs_path]
  refine ends_normal (fun l hl hsegs => ?_) fun e he =>
    refused_reading (f := fun l => .ok (existsAt t l)) rfl he
  have hserved : ∀ found, existsAt t l = found → Backed faults t (.exists path) (.ok found) t := by
    intro found hfound
    refine .served noClock ?_
    rw [respond, reading_ok hsegs, hfound]
  by_cases hroot : l = []
  · rw [if_pos ((render_eq_root hl).mpr hroot)]
    exact ends_pure (hserved true (decide_eq_true (.inl hroot)))
  · rw [if_neg (mt (render_eq_root hl).mp hroot)]
    refine ends_orElse (ends_bind (ends_stat hv (fun l' out hsegs' hout => ?_) fun e he => ?_))
    · rw [pathSegments_render hl, Except.ok.injEq] at hsegs'
      subst hsegs'
      cases out with
      | ok info =>
          exact ends_pure (hserved true (decide_eq_true (.inr (isSome_of_statAt hroot hout))))
      | error e =>
          obtain ⟨-, habsent, hpresent⟩ := hout
          by_cases h : Absent e
          · obtain ⟨message, rfl⟩ := h
            refine ends_pure (hserved false ?_)
            rw [existsAt, habsent ⟨message, rfl⟩]
            simp [hroot]
          · change Ends (Serves b faults) _ (absentOrThrow e) t
            rw [absentOrThrow_eq h]
            rcases hpresent h with hfaults | hfile
            · exact ends_throw (.rejected _ _ e hfaults)
            · exact ends_throw (.hidden e hsegs hfile)
    · rw [pathSegments_render hl] at he
      cases he

end Asking

section Carrying

variable {b : Browser} {faults : Prop} {t : Tree} {depth : ℕ}

theorem now_ends : Ends (Serves b faults) (Backed faults t .now) (Method.perform HandleOp.now) t := by
  refine ⟨trivial, fun time t' hans => ?_⟩
  cases hans with
  | now _ time => exact .served ⟨time, fun _ => none⟩ rfl

/-- Each call of the backend ends as in the tree. -/
theorem method_ends (hv : t.Valid) {o : StorageOp} (hplain : Plain o) :
    Ends (Serves b faults) (Backed faults t o) (method depth o) t := by
  cases o with
  | readDir path => exact ends_ofOpfs (readDir_ends hv path)
  | readTextFile path => exact readTextFile_ends hv path
  | readFile path => exact ends_ofOpfs (readFile_ends hv path)
  | writeTextFile path contents => exact ends_ofOpfs (writeTextFile_ends hv path contents)
  | writeFile path contents => exact ends_ofOpfs (writeFile_ends hv path contents)
  | mkdir path recursive => exact ends_ofOpfs (mkdir_ends hv path recursive)
  | rename fromPath toPath => exact hplain.elim
  | remove path recursive => exact ends_ofOpfs (remove_ends hv path recursive)
  | stat path => exact stat_ends hv path
  | «exists» path => exact doesExist_ends hv path
  | now => exact now_ends

theorem carries_calls : Carries (calls depth) (Backed faults) (Serves b faults) (fun _ o => Plain o)
    (fun _ _ => True) (fun t' t => t' = t ∧ t.Valid) := by
  rintro t _ o ⟨rfl, hv⟩ hplain
  rw [calls, holds_map]
  refine Holds.imp (method_ends hv hplain) fun out t' hend => ?_
  rcases out with ⟨e | a, mem⟩
  · exact ⟨t', hend, rfl, valid_backed hv hend⟩
  · exact ⟨t', hend, rfl, valid_backed hv hend⟩

/-- Code that runs on the browser's private file system, but for renames, runs on the tree of its files:
what it returns it can return there, and it leaves the same tree. -/
theorem opfs_refines_tree {α : Type} {p : Prog StorageOp StorageAns α} {t' : Tree} {a : α} (hv : t.Valid)
    (hplain : Holds (Backed faults) (fun _ o => Plain o) (fun _ _ => True) p t)
    (hexec : Exec (Serves b faults) t (interp (calls depth) p) a t') :
    Exec (Backed faults) t p a t' ∧ t'.Valid := by
  obtain ⟨t'', hrun, -, rfl, hv'⟩ := carries_calls.exec hplain ⟨rfl, hv⟩ hexec
  exact ⟨hrun, hv'⟩

/-- A folder is made and the root is listed. -/
def folderListed : Prog StorageOp StorageAns (Except Failure (List DirEntry)) :=
  .call (.mkdir ['/', 'd'] false) fun _ => .call (.readDir ['/']) .ret

theorem opfs_refines_tree_folder :
    Exec (Backed False) ∅ folderListed (.ok [⟨['d'], true, false⟩]) ((∅ : Tree).insert [['d']] .dir) ∧
      Tree.Valid ((∅ : Tree).insert [['d']] .dir) := by
  have hplain : Holds (Backed False) (fun _ o => Plain o) (fun _ _ => True) folderListed ∅ :=
    ⟨trivial, fun _ _ _ => ⟨trivial, fun _ _ _ => trivial⟩⟩
  have hvalid : Tree.Valid ∅ := by decide
  have hexec : Exec (Serves ⟨none⟩ False) ∅ (interp (calls 0) folderListed) (.ok [⟨['d'], true, false⟩])
      ((∅ : Tree).insert [['d']] .dir) := by
    refine .step (.opfs (o := .init) rfl) ?_
    refine .step (.opfs (o := .init) rfl) ?_
    refine .step (.opfs (o := .getDirectoryHandle [] ['d'] true) rfl) ?_
    refine .step (.opfs (o := .init) rfl) ?_
    exact .step (.opfs (o := .entries []) rfl) (.refl _ _)
  exact opfs_refines_tree hvalid hplain hexec

end Carrying

end Tactile.Storage.OpfsBackend

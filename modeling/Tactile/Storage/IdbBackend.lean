import Tactile.Lib.Layers
import Tactile.Storage.IdbNodes
import Tactile.Storage.IdbRename

/-!
The backend in IndexedDB as the tree that the code above a backend takes it for: each of its calls
answers what the tree answers, or rejects with an exception of the browser.
-/

namespace Tactile.Storage.IdbBackend

open Tactile.Lib.Program Tactile.Lib.Script Tactile.Lib.Layers Tactile.Lib.FiniteMap
open Tactile.Storage.Paths Tactile.Storage.Mutex
open Tactile.Storage.Idb hiding Faulty Serves
open Tactile.Storage.IdbTree Tactile.Storage.IdbNodes Tactile.Storage.IdbRename
open Tactile.Storage.Opfs (Node Tree isDir_eq_true isDir_nil isDir_of_stored mem_children valid_insert)
open Tactile.Storage.Backend hiding Serves makeDirs ask
open Tactile.Storage.Restoring (utf8Codec)

section Calls

/-- What the backend does at a time: what its writing calls do, and a reading of the index of
parents. -/
inductive StoreOp
  | idb (o : IdbOp)
  | children (path : Text)

abbrev StoreAns : StoreOp → Type
  | .idb o => IdbAns o
  | .children _ => Except Failure (List EntryRecord)

/-- The answers of the object store and the lock. Where there are faults any transaction may fail, with
nothing written. -/
def Answering (faults : Prop) : Answers IdbOp IdbAns World := fun w o ans w' =>
  Idb.Serves w o ans w' ∨ faults ∧ Idb.Faulty w o ans w'

/-- The answers with those of the index, whose records come in some order. -/
inductive Serves (faults : Prop) : Answers StoreOp StoreAns World
  | idb {w w' : World} {o : IdbOp} {ans : IdbAns o} : Answering faults w o ans w' →
      Serves faults w (.idb o) ans w'
  | children (w : World) (path : Text) (records : List EntryRecord) :
      records.Perm ((values w.db).filter fun r => r.parent = path) →
      Serves faults w (.children path) (.ok records) w
  | failed (w : World) (path : Text) (e : DomError) : faults →
      Serves faults w (.children path) (.error (.dom e)) w

abbrev StoreM (α : Type) : Type := Method StoreOp StoreAns Failure Unit α

/-- A call that reads no index. -/
def ofIdb {α : Type} (m : IdbM α) : StoreM α := Method.interp (fun o => Prog.op (.idb o)) m

def listChildren (path : Text) : StoreM (List EntryRecord) := do
  let answer ← Method.perform (.children path)
  Method.ofExcept id answer

def notDirectory (path : Text) : Failure :=
  .storage (storageError "Not a directory: " path .notDirectory)

def noSuchFile (path : Text) : Failure := .storage (storageError "No such file: " path .notFound)

def isADirectory (path : Text) : Failure :=
  .storage (storageError "Is a directory: " path .isDirectory)

/-- The check of `readDir` that a path which is not the root is a directory. -/
def requireDir (normalized : Text) : IdbM Unit := do
  let root ← pathResult (isRoot normalized)
  if root then pure ()
  else do
    let record ← getRecord normalized
    match record with
    | none => throw (noSuchDirectory normalized)
    | some r => if r.kind ≠ .dir then throw (notDirectory normalized) else pure ()

def dirEntryOf (r : EntryRecord) : Except StorageError DirEntry := do
  let name ← baseName r.path
  pure ⟨name, r.kind = .dir, r.kind = .file⟩

def readDir (path : Text) : StoreM (List DirEntry) := do
  let normalized ← Method.ofExcept .storage (normalizePath path)
  ofIdb (requireDir normalized)
  let children ← listChildren normalized
  Method.ofExcept .storage (children.mapM dirEntryOf)

def getFileRecord (path : Text) : IdbM EntryRecord := do
  let normalized ← pathResult (normalizePath path)
  let record ← getRecord normalized
  match record with
  | none => throw (noSuchFile normalized)
  | some r => if r.kind ≠ .file then throw (isADirectory normalized) else pure r

def readFile (path : Text) : IdbM (List UInt8) := do
  let record ← getFileRecord path
  pure (Restoring.readFile utf8Codec record.data)

def readTextFile (path : Text) : IdbM String := do
  let record ← getFileRecord path
  pure (Restoring.readTextFile utf8Codec record.data)

def stat (path : Text) : IdbM FileStat := do
  let normalized ← pathResult (normalizePath path)
  let root ← pathResult (isRoot normalized)
  if root then pure ⟨0, none⟩
  else do
    let record ← getRecord normalized
    match record with
    | none => throw (noSuchFile normalized)
    | some r => pure ⟨r.size, some r.mtime⟩

def doesExist (path : Text) : IdbM Bool := do
  let normalized ← pathResult (normalizePath path)
  let root ← pathResult (isRoot normalized)
  if root then pure true
  else do
    let record ← getRecord normalized
    pure record.isSome

/-- The method of each call. -/
def method : (o : StorageOp) → StoreM (StorageVal o)
  | .readDir path => readDir path
  | .readTextFile path => ofIdb (readTextFile path)
  | .readFile path => ofIdb (readFile path)
  | .writeTextFile path contents => ofIdb (writeRecord path (.text contents))
  | .writeFile path contents => ofIdb (writeRecord path (.bytes contents))
  | .mkdir path recursive => ofIdb (Idb.mkdir path recursive)
  | .rename fromPath toPath => ofIdb (Idb.rename fromPath toPath)
  | .remove path recursive => ofIdb (Idb.remove path recursive)
  | .stat path => ofIdb (stat path)
  | .exists path => ofIdb (doesExist path)
  | .now => ofIdb (idb .now)

/-- What carries out the calls of a backend. -/
def calls : Handler StorageOp StorageAns StoreOp StoreAns :=
  fun o => Prod.fst <$> (method o).call ()

end Calls

section Spec

def codeOf : Failure → Option ErrCode
  | .storage e => some e.code
  | .dom _ => none

/-- The same value, listings in any order, or errors with the same code. -/
def Agrees : (o : StorageOp) → StorageAns o → StorageAns o → Prop
  | .readDir _, .ok entries, .ok entries' => entries.Perm entries'
  | _, .ok val, .ok val' => val = val'
  | _, .error e, .error e' => codeOf e = codeOf e'
  | _, _, _ => False

/-- A call answers what the tree answers. Where there are faults it may reject with an exception of the
browser, and has changed nothing or made the first of the directories that it was to make. -/
inductive Backed (faults : Prop) : Answers StorageOp StorageAns Tree
  | served {t : Tree} {o : StorageOp} {ans : StorageAns o} (clock : Clock) :
      Agrees o (respond utf8Codec clock o t).1 ans →
      Backed faults t o ans (respond utf8Codec clock o t).2
  | rejected (t : Tree) (o : StorageOp) (e : DomError) : faults → o ≠ .now →
      Backed faults t o (.error (.dom e)) t
  | partly {t : Tree} {path : Text} {made rest : List Text} (e : DomError) : faults →
      pathSegments path = .ok (made ++ rest) → (mkdirAt t made true).1 = .ok () →
      Backed faults t (.mkdir path true) (.error (.dom e)) (mkdirAt t made true).2

/-- The calls in which the backend and the tree agree: what is written as a text is read back, and nothing
is written at the root or renamed onto it. -/
def Plain : StorageOp → Prop
  | .writeTextFile path contents => Unmarked contents ∧ pathSegments path ≠ .ok []
  | .writeFile path _ => pathSegments path ≠ .ok []
  | .rename _ toPath => pathSegments toPath ≠ .ok []
  | _ => True

/-- What a call ends with: an answer of the tree, and the tree after it. -/
def Done (faults : Prop) (o : StorageOp) (t : Tree) (ans : StorageAns o) (db' : Db) : Prop :=
  ∃ t', Backed faults t o ans t' ∧ Stores db' t'

end Spec

section Ends

variable {α β : Type} {post : Except Failure α → Db → Prop} {db : Db} {faults : Prop}

theorem faulty_of_answering {w w' : World} {o : IdbOp} {ans : IdbAns o}
    (h : Answering faults w o ans w') : Idb.Faulty w o ans w' := h.elim .served And.right

theorem of_get {w w' : World} {path : Text} {ans : IdbAns (.get path)}
    (h : Answering faults w (.get path) ans w') :
    w' = w ∧ (ans = .ok (w.db.lookup path) ∨ faults ∧ ∃ e, ans = .error (.dom e)) := by
  rcases h with h | ⟨hfaults, h⟩
  · cases h
    exact ⟨rfl, .inl rfl⟩
  · cases h with
    | served h =>
        cases h
        exact ⟨rfl, .inl rfl⟩
    | get _ _ e => exact ⟨rfl, .inr ⟨hfaults, e, rfl⟩⟩

theorem of_put {w w' : World} {r : EntryRecord} {ans : IdbAns (.put r)}
    (h : Answering faults w (.put r) ans w') :
    ans = .ok () ∧ w'.db = w.db.insert r.path r ∨ faults ∧ w' = w ∧ ∃ e, ans = .error (.dom e) := by
  rcases h with h | ⟨hfaults, h⟩
  · cases h
    exact .inl ⟨rfl, rfl⟩
  · cases h with
    | served h =>
        cases h
        exact .inl ⟨rfl, rfl⟩
    | put _ _ e => exact .inr ⟨hfaults, rfl, e, rfl⟩

theorem of_now {w w' : World} {now : ℤ} (h : Answering faults w .now now w') : w' = w := by
  rcases h with h | ⟨-, h⟩
  · cases h
    rfl
  · cases h with
    | served h =>
        cases h
        rfl

theorem of_removeTx {w w' : World} {path : Text} {recursive : Bool} {ans : Except Failure Unit}
    (h : Answering faults w (.removeTx path recursive) ans w') :
    ans = storageFailure (Idb.removeTx path recursive w.db).1 ∧
        w'.db = (Idb.removeTx path recursive w.db).2 ∨
      faults ∧ w' = w ∧ ∃ e, ans = .error (.dom e) := by
  rcases h with h | ⟨hfaults, h⟩
  · cases h
    exact .inl ⟨rfl, rfl⟩
  · cases h with
    | served h =>
        cases h
        exact .inl ⟨rfl, rfl⟩
    | removeTx _ _ _ e => exact .inr ⟨hfaults, rfl, e, rfl⟩

theorem of_renameTx {w w' : World} {src dst : Text} {ans : Except Failure Unit}
    (h : Answering faults w (.renameTx src dst) ans w') :
    (∃ now, ans = storageFailure (Idb.renameTx src dst now w.db).1 ∧
        w'.db = (Idb.renameTx src dst now w.db).2) ∨
      faults ∧ w' = w ∧ ∃ e, ans = .error (.dom e) := by
  rcases h with h | ⟨hfaults, h⟩
  · cases h with
    | renameTx _ _ _ now => exact .inl ⟨now, rfl, rfl⟩
  · cases h with
    | served h =>
        cases h with
        | renameTx _ _ _ now => exact .inl ⟨now, rfl, rfl⟩
    | renameTx _ _ _ e => exact .inr ⟨hfaults, rfl, e, rfl⟩

/-- How a method ends, whatever the lock is. -/
def Ends (faults : Prop) (post : Except Failure α → Db → Prop) (m : IdbM α) (db : Db) : Prop :=
  ∀ w : World, w.db = db → Meets (Answering faults) (fun _ _ => True) (fun a _ w' => post (.ok a) w'.db)
    (fun e _ w' => post (.error e) w'.db) m () w

theorem ends_pure {a : α} (h : post (.ok a) db) : Ends faults post (pure a) db := by
  rintro w rfl
  exact h

theorem ends_throw {e : Failure} (h : post (.error e) db) : Ends faults post (throw e) db := by
  rintro w rfl
  exact h

theorem Ends.imp {m : IdbM α} {post' : Except Failure α → Db → Prop} (h : Ends faults post m db)
    (himp : ∀ out db', post out db' → post' out db') : Ends faults post' m db :=
  fun w hw => (h w hw).imp (fun _ _ _ => himp _ _) fun _ _ _ => himp _ _

theorem ends_bind {m : IdbM α} {f : α → IdbM β} {post : Except Failure β → Db → Prop}
    (h : Ends faults (fun out db' => match out with
      | .ok a => Ends faults post (f a) db'
      | .error e => post (.error e) db') m db) : Ends faults post (m >>= f) db := by
  rintro w hw
  rw [meets_bind]
  exact (h w hw).imp (fun a _ w' hf => hf w' rfl) fun e _ w' he => he

theorem ends_path {x : Except StorageError α} {f : α → IdbM β} {post : Except Failure β → Db → Prop}
    (hok : ∀ a, x = .ok a → Ends faults post (f a) db)
    (herror : ∀ e, x = .error e → post (.error (.storage e)) db) :
    Ends faults post (pathResult x >>= f) db := by
  rintro w rfl
  rw [meets_bind, pathResult, meets_ofExcept]
  exact ⟨fun a ha => hok a ha w rfl, fun e he => herror e he⟩

theorem ends_get {path : Text} {f : Option EntryRecord → IdbM α}
    (hok : Ends faults post (f (db.lookup path)) db) (hdom : faults → ∀ e, post (.error (.dom e)) db) :
    Ends faults post (getRecord path >>= f) db := by
  rintro w rfl
  rw [meets_bind, getRecord, meets_bind]
  refine ⟨trivial, fun ans w' hans => ?_⟩
  change Meets _ _ _ _ (Method.ofExcept id ans : IdbM _) () w'
  rw [meets_ofExcept]
  obtain ⟨rfl, rfl | ⟨hfaults, e, rfl⟩⟩ := of_get hans
  · refine ⟨fun a ha => ?_, fun e he => ?_⟩
    · cases ha
      exact hok w' rfl
    · cases he
  · refine ⟨fun a ha => ?_, fun e' he' => ?_⟩
    · cases ha
    · cases he'
      exact hdom hfaults e

theorem ends_put {r : EntryRecord} {post : Except Failure Unit → Db → Prop}
    (hok : post (.ok ()) (db.insert r.path r)) (hdom : faults → ∀ e, post (.error (.dom e)) db) :
    Ends faults post (putRecord r) db := by
  rintro w rfl
  rw [putRecord, meets_bind]
  refine ⟨trivial, fun ans w' hans => ?_⟩
  change Meets _ _ _ _ (Method.ofExcept id ans : IdbM _) () w'
  rw [meets_ofExcept]
  obtain ⟨rfl, hdb⟩ | ⟨hfaults, rfl, e, rfl⟩ := of_put hans
  · refine ⟨fun a ha => ?_, fun e he => ?_⟩
    · rw [hdb]
      exact hok
    · cases he
  · refine ⟨fun a ha => ?_, fun e' he' => ?_⟩
    · cases ha
    · cases he'
      exact hdom hfaults e

theorem ends_now {f : ℤ → IdbM α} (h : ∀ now, Ends faults post (f now) db) :
    Ends faults post (idb .now >>= f) db := by
  rintro w rfl
  rw [meets_bind]
  exact ⟨trivial, fun now w' hans => h now w' (congrArg World.db (of_now hans))⟩

theorem ends_event {o : IdbOp} {f : IdbAns o → IdbM α} (ho : LockEvent o)
    (hf : ∀ ans, Ends faults post (f ans) db) : Ends faults post (idb o >>= f) db := by
  rintro w rfl
  rw [meets_bind]
  exact ⟨trivial, fun ans w' hans => hf ans w' (lockEvent_db ho (faulty_of_answering hans))⟩

theorem ends_answer {out : Except Failure α} (h : post out db) :
    Ends faults post (Method.ofExcept id out) db := by
  rintro w rfl
  rw [meets_ofExcept]
  exact ⟨fun a ha => ha ▸ h, fun e he => he ▸ h⟩

/-- The lock around a method changes nothing of how it ends. -/
theorem ends_runExclusive (keys : List Text) {fn : IdbM Unit} {post : Except Failure Unit → Db → Prop}
    (h : Ends faults post fn db) : Ends faults post (runExclusive keys fn) db := by
  refine ends_event trivial fun n => ends_event trivial fun _ => ?_
  rintro w hw
  rw [meets_bind, meets_outcome]
  have hend : ∀ (out : Except Failure Unit) (w : World), post out w.db →
      Meets (Answering faults) (fun _ _ => True) (fun a _ w' => post (.ok a) w'.db)
        (fun e _ w' => post (.error e) w'.db) (do
          idb (.settle n out.isOk)
          idb (.tail n)
          idb (.release n)
          Method.ofExcept id out) () w := by
    intro out w hpost
    have hends : Ends faults post _ w.db := ends_event (o := .settle n out.isOk) trivial fun _ =>
      ends_event (o := .tail n) trivial fun _ => ends_event (o := .release n) trivial fun _ =>
        ends_answer hpost
    exact hends w rfl
  exact (h w hw).imp (fun a _ w' hpost => hend (.ok a) w' hpost) fun e _ w' hpost =>
    hend (.error e) w' hpost

/-- A transaction that answers with an outcome. -/
theorem ends_tx {o : IdbOp} {answer : IdbAns o → Except Failure Unit}
    {post : Except Failure Unit → Db → Prop}
    (h : ∀ w : World, w.db = db → ∀ ans w', Answering faults w o ans w' → post (answer ans) w'.db) :
    Ends faults post (do
      let ans ← idb o
      Method.ofExcept id (answer ans)) db := by
  rintro w hw
  rw [meets_bind]
  refine ⟨trivial, fun ans w' hans => ?_⟩
  change Meets _ _ _ _ (Method.ofExcept id (answer ans) : IdbM _) () w'
  rw [meets_ofExcept]
  have hpost := h w hw ans w' hans
  refine ⟨fun a ha => ?_, fun e he => ?_⟩
  · rw [ha] at hpost
    exact hpost
  · rw [he] at hpost
    exact hpost

end Ends

section Reads

variable {db : Db} {t : Tree} {o : StorageOp} {path : Text} {faults : Prop}

/-- The times in the records. -/
def clockOf (db : Db) : Clock where
  now := 0
  mtime l := if l = [] then none else (db.lookup (render l)).map EntryRecord.mtime

theorem agrees_refl (o : StorageOp) (ans : StorageAns o) : Agrees o ans ans := by
  cases o <;> cases ans <;> first | exact rfl | exact List.Perm.refl _

theorem agrees_error {e e' : Failure} (h : codeOf e = codeOf e') :
    Agrees o (.error e) (.error e') := by
  cases o <;> exact h

theorem done_same (h : Stores db t) {ans : StorageAns o} (clock : Clock)
    (hans : respond utf8Codec clock o t = (ans, t)) : Done faults o t ans db := by
  have hbacked : Backed faults t o ans (respond utf8Codec clock o t).2 := by
    refine .served clock ?_
    rw [hans]
    exact agrees_refl o ans
  rw [hans] at hbacked
  exact ⟨t, hbacked, h⟩

/-- An error with the code of the tree's. -/
theorem done_refused (h : Stores db t) (clock : Clock) (message : String) (l : List Text) {e : StorageError}
    (hans : respond utf8Codec clock o t = (refuse message l e.code, t)) :
    Done faults o t (.error (.storage e)) db := by
  have hbacked : Backed faults t o (.error (.storage e)) (respond utf8Codec clock o t).2 := by
    refine .served clock ?_
    rw [hans]
    exact agrees_error rfl
  rw [hans] at hbacked
  exact ⟨t, hbacked, h⟩

theorem done_dom (h : Stores db t) (hfaults : faults) (ho : o ≠ .now) (e : DomError) : Done faults o t (.error (.dom e)) db :=
  ⟨t, .rejected t o e hfaults ho, h⟩

theorem pathSegments_error {e : StorageError} (h : normalizePath path = .error e) :
    pathSegments path = .error e := by
  rw [pathSegments, h]
  rfl

theorem reading_error {α : Type} {e : StorageError} (h : pathSegments path = .error e)
    (f : List Text → Except Failure α) : reading t path f = (.error (.storage e), t) := by
  rw [reading, h]

theorem writing_failed {α : Type} {e : StorageError} (h : pathSegments path = .error e)
    (f : List Text → Except Failure α × Tree) : writing t path f = (.error (.storage e), t) := by
  rw [writing, h]

/-- A file's record is found where the tree has the file, and an error is the one of a read. -/
theorem ends_getFileRecord (h : Stores db t) {post : Except Failure EntryRecord → Db → Prop}
    (hok : ∀ l r, pathSegments path = .ok l → Kept r →
      readFileAt t l = .ok (Restoring.readFile utf8Codec r.data) → post (.ok r) db)
    (herror : ∀ e, reading t path (readFileAt t) = (.error e, t) → post (.error e) db)
    (hdom : faults → ∀ e, post (.error (.dom e)) db) : Ends faults post (getFileRecord path) db := by
  refine ends_path (fun normalized hnorm => ?_) fun e he => ?_
  · obtain ⟨l, hl, rfl⟩ := normalizePath_eq_ok hnorm
    have hsegs := pathSegments_of_normalizePath hl hnorm
    have hnode := h.nodes l hl
    refine ends_get ?_ hdom
    cases hr : db.lookup (render l) with
    | none =>
        rw [hr] at hnode
        refine ends_throw (herror _ ?_)
        rw [reading_ok hsegs, readFileAt, hnode]
        rfl
    | some r =>
        rw [hr, Option.map_some, nodeOf] at hnode
        dsimp only
        cases hkind : r.kind with
        | dir =>
            rw [hkind] at hnode
            rw [if_pos (by simp)]
            refine ends_throw (herror _ ?_)
            rw [reading_ok hsegs, readFileAt, hnode]
            rfl
        | file =>
            rw [hkind] at hnode
            rw [if_neg (by simp)]
            exact ends_pure (hok l r hsegs (h.kept _ r hr) (by rw [readFileAt, hnode]))
  · exact herror _ (reading_error (pathSegments_error he) _)

theorem readFile_ends (h : Stores db t) (path : Text) :
    Ends faults (Done faults (.readFile path) t) (readFile path) db := by
  refine ends_bind (ends_getFileRecord h (fun l r hsegs _ hread => ?_) (fun e he => ?_)
    fun hfaults e => done_dom h hfaults (by simp) e)
  · refine ends_pure (done_same h (clockOf db) ?_)
    rw [respond, reading_ok hsegs, hread]
  · exact done_same h (clockOf db) he

theorem readTextFile_ends (h : Stores db t) (path : Text) :
    Ends faults (Done faults (.readTextFile path) t) (readTextFile path) db := by
  refine ends_bind (ends_getFileRecord h (fun l r hsegs hkept hread => ?_) (fun e he => ?_)
    fun hfaults e => done_dom h hfaults (by simp) e)
  · refine ends_pure (done_same h (clockOf db) ?_)
    rw [respond, reading_ok hsegs, hread, hkept.text]
    rfl
  · refine done_same h (clockOf db) ?_
    rw [reading] at he
    rw [respond, reading]
    cases hsegs : pathSegments path with
    | error e' =>
        rw [hsegs] at he
        cases he
        rfl
    | ok l =>
        rw [hsegs] at he
        have hread : readFileAt t l = .error e := congrArg Prod.fst he
        dsimp only
        rw [hread]
        rfl

/-- A path is taken apart, and the root is told from what is in it. -/
theorem ends_located {α : Type} {post : Except Failure α → Db → Prop} {f : Text → Bool → IdbM α}
    (hroot : pathSegments path = .ok [] → Ends faults post (f (render []) true) db)
    (hok : ∀ l, Names l → l ≠ [] → pathSegments path = .ok l → Ends faults post (f (render l) false) db)
    (herror : ∀ e, pathSegments path = .error e → post (.error (.storage e)) db) :
    Ends faults post (do
      let normalized ← pathResult (normalizePath path)
      let root ← pathResult (isRoot normalized)
      f normalized root) db := by
  refine ends_path (fun normalized hnorm => ?_) fun e he => herror e (pathSegments_error he)
  obtain ⟨l, hl, rfl⟩ := normalizePath_eq_ok hnorm
  have hsegs := pathSegments_of_normalizePath hl hnorm
  refine ends_path (fun root hisRoot => ?_) fun e he => ?_
  · rw [isRoot_render hl, Except.ok.injEq] at hisRoot
    subst hisRoot
    by_cases hnil : l = []
    · subst hnil
      exact hroot hsegs
    · rw [decide_eq_false hnil]
      exact hok l hl hnil hsegs
  · rw [isRoot_render hl] at he
    cases he

theorem stat_ends (h : Stores db t) (path : Text) : Ends faults (Done faults (.stat path) t) (stat path) db := by
  refine ends_located (fun hsegs => ?_) (fun l hl hroot hsegs => ?_) fun e he => ?_
  · refine ends_pure (done_same h (clockOf db) ?_)
    rw [respond, reading_ok hsegs]
    rfl
  · have hnode := h.nodes l hl
    refine ends_get ?_ fun hfaults e => done_dom h hfaults (by simp) e
    cases hr : db.lookup (render l) with
    | none =>
        rw [hr] at hnode
        refine ends_throw (done_same h (clockOf db) ?_)
        rw [respond, reading_ok hsegs, statAt, if_neg hroot, hnode]
        rfl
    | some r =>
        rw [hr, Option.map_some] at hnode
        have hmtime : (clockOf db).mtime l = some r.mtime := by
          rw [clockOf]
          dsimp only
          rw [if_neg hroot, hr]
          rfl
        have hsize : statAt t l = .ok r.size := by
          rw [statAt, if_neg hroot, hnode, (h.kept _ r hr).size]
          cases nodeOf r <;> rfl
        refine ends_pure (done_same h (clockOf db) ?_)
        rw [respond, reading_ok hsegs, hsize, hmtime]
        rfl
  · refine done_same h (clockOf db) ?_
    rw [respond, reading_error he]

theorem doesExist_ends (h : Stores db t) (path : Text) :
    Ends faults (Done faults (.exists path) t) (doesExist path) db := by
  refine ends_located (fun hsegs => ?_) (fun l hl hroot hsegs => ?_) fun e he => ?_
  · refine ends_pure (done_same h (clockOf db) ?_)
    rw [respond, reading_ok hsegs]
    rfl
  · refine ends_get (ends_pure (done_same h (clockOf db) ?_)) fun hfaults e => done_dom h hfaults (by simp) e
    rw [respond, reading_ok hsegs, existsAt, h.nodes l hl, Option.isSome_map]
    simp [hroot]
  · refine done_same h (clockOf db) ?_
    rw [respond, reading_error he]

end Reads

section Writes

variable {db : Db} {t : Tree} {o : StorageOp} {path : Text} {faults : Prop}

/-- The check of a parent is the tree's. -/
theorem ends_requireParent {α : Type} (h : Stores db t) {l : List Text} (hl : Names l)
    {post : Except Failure α → Db → Prop} {f : Text → IdbM α}
    (hok : t.isDir l.dropLast → Ends faults post (f (render l.dropLast)) db)
    (herror : ¬ t.isDir l.dropLast → post (.error (noSuchDirectory (render l.dropLast))) db)
    (hdom : faults → ∀ e, post (.error (.dom e)) db) : Ends faults post (requireParent (render l) >>= f) db := by
  have hparent := names_dropLast hl
  refine ends_bind (ends_path (fun parent heq => ?_) fun e he => ?_)
  · rw [parentPath_render hl, Except.ok.injEq] at heq
    subst heq
    refine ends_path (fun root heq => ?_) fun e he => ?_
    · rw [isRoot_render hparent, Except.ok.injEq] at heq
      subst heq
      split
      next hroot =>
        rw [decide_eq_true_eq] at hroot
        refine ends_pure (hok ?_)
        rw [hroot]
        exact isDir_nil t
      next hroot =>
        rw [decide_eq_true_eq] at hroot
        refine ends_get ?_ hdom
        have hiff := h.isDir hparent
        rw [or_iff_right hroot, Db.isDir] at hiff
        split
        next hdir => exact ends_pure (hok (hiff.mpr hdir))
        next hdir => exact ends_throw (herror (mt hiff.mp hdir))
    · rw [isRoot_render hparent] at he
      cases he
  · rw [parentPath_render hl] at he
    cases he

/-- A write is the tree's. -/
theorem ends_writeRecord (h : Stores db t) {data : Data} (hdata : Readable data)
    (hpath : pathSegments path ≠ .ok []) {post : Except Failure Unit → Db → Prop}
    (hok : ∀ t' db', writing t path (fun l => writeFileAt t l (Restoring.readFile utf8Codec data)) =
      (.ok (), t') → Stores db' t' → post (.ok ()) db')
    (herror : ∀ e, writing t path (fun l => writeFileAt t l (Restoring.readFile utf8Codec data)) =
      (.error e, t) → post (.error e) db)
    (hdom : faults → ∀ e, post (.error (.dom e)) db) : Ends faults post (writeRecord path data) db := by
  refine ends_path (fun normalized hnorm => ?_) fun e he => ?_
  · obtain ⟨l, hl, rfl⟩ := normalizePath_eq_ok hnorm
    have hsegs := pathSegments_of_normalizePath hl hnorm
    have hroot : l ≠ [] := by
      rintro rfl
      exact hpath hsegs
    simp only [writing_ok hsegs] at hok herror
    refine ends_runExclusive _ (ends_requireParent h hl (fun hparent => ?_) (fun hparent => ?_) hdom)
    · refine ends_get ?_ hdom
      have hdir := h.isDir hl
      rw [or_iff_right hroot, Db.isDir] at hdir
      split
      next hisDir =>
        refine ends_throw (herror _ ?_)
        rw [writeFileAt, if_neg (by simp [hparent]), if_pos (hdir.mpr hisDir)]
        rfl
      next hisDir =>
        refine ends_now fun now => ends_put ?_ hdom
        refine hok _ _ (writeFileAt_eq_ok.mpr ⟨hparent, mt hdir.mp hisDir, rfl⟩) ?_
        refine h.put ⟨hl, hroot, rfl, rfl, (h.isDir (names_dropLast hl)).mp hparent⟩
          ⟨byteLength_eq data, hdata.text⟩ fun _ => ?_
        rw [Db.isDir]
        simpa using hisDir
    · refine herror _ ?_
      rw [writeFileAt, if_pos (by simpa using hparent)]
      rfl
  · exact herror _ (writing_failed (pathSegments_error he) _)

/-- A directory is made where nothing is. -/
theorem ends_makeDir (h : Stores db t) {l : List Text} (hl : Names l) (hroot : l ≠ [])
    (hparent : t.isDir l.dropLast) (now : ℤ) {post : Except Failure Unit → Db → Prop}
    (hdir : t.lookup l = some .dir → post (.ok ()) db)
    (hfile : ∀ contents, t.lookup l = some (.file contents) →
      post (.error (.storage (storageError "File exists: " (render l) .alreadyExists))) db)
    (hmade : t.lookup l = none → ∀ db', Stores db' (t.insert l .dir) → post (.ok ()) db')
    (hdom : faults → ∀ e, post (.error (.dom e)) db) : Ends faults post (makeDir now (render l)) db := by
  have hnode := h.nodes l hl
  refine ends_get ?_ hdom
  cases hr : db.lookup (render l) with
  | some r =>
      rw [hr, Option.map_some, nodeOf] at hnode
      dsimp only
      cases hkind : r.kind with
      | dir =>
          rw [hkind] at hnode
          rw [if_neg (by simp)]
          exact ends_pure (hdir hnode)
      | file =>
          rw [hkind] at hnode
          rw [if_pos (by simp)]
          exact ends_throw (hfile _ hnode)
  | none =>
      rw [hr] at hnode
      refine ends_path (fun parent heq => ?_) fun e he => ?_
      · rw [parentPath_render hl, Except.ok.injEq] at heq
        subst heq
        refine ends_put (hmade hnode _ ?_) hdom
        have hplaced : Placed db ⟨render l, render l.dropLast, .dir, .text "", 0, now, now⟩ l :=
          ⟨hl, hroot, rfl, rfl, (h.isDir (names_dropLast hl)).mp hparent⟩
        exact h.put hplaced ⟨rfl, rfl⟩ fun hkind => by cases hkind
      · rw [parentPath_render hl] at he
        cases he

/-- What making the directories below a directory ends with: as in the tree, or the first of them are
made. -/
def DirsMade (faults : Prop) (dir segments : List Text) (t : Tree) (out : Except Failure Unit) (db' : Db) : Prop :=
  out = (Backend.makeDirs (segments.inits.tail.map (dir ++ ·)) t).1 ∧
      Stores db' (Backend.makeDirs (segments.inits.tail.map (dir ++ ·)) t).2 ∨
    ∃ e made rest t', faults ∧ out = .error (.dom e) ∧ segments = made ++ rest ∧
      Backend.makeDirs (made.inits.tail.map (dir ++ ·)) t = (.ok (), t') ∧ Stores db' t'

/-- The rest of the directories are made below the first one. -/
theorem DirsMade.cons {dir rest : List Text} {s : Text} {t₁ : Tree} {out : Except Failure Unit}
    {db' : Db} (h : DirsMade faults (dir ++ [s]) rest t₁ out db')
    (hfirst : ∀ paths, Backend.makeDirs ((dir ++ [s]) :: paths) t = Backend.makeDirs paths t₁) :
    DirsMade faults dir (s :: rest) t out db' := by
  rcases h with ⟨rfl, hstores⟩ | ⟨e, made, rest', t', hfaults, rfl, rfl, hmade, hstores⟩
  · refine .inl ?_
    rw [inits_below, hfirst]
    exact ⟨rfl, hstores⟩
  · refine .inr ⟨e, s :: made, rest', t', hfaults, rfl, rfl, ?_, hstores⟩
    rw [inits_below, hfirst]
    exact hmade

theorem ends_makeDirs (now : ℤ) {segments : List Text} {dir : List Text} {t : Tree} {db : Db}
    (h : Stores db t) (hnames : Names (dir ++ segments)) (hdir : t.isDir dir) :
    Ends faults (DirsMade faults dir segments t) (Idb.makeDirs now (suffix dir) segments) db := by
  induction segments generalizing dir t db with
  | nil => exact ends_pure (.inl ⟨rfl, h⟩)
  | cons s rest ih =>
      have htext : suffix dir ++ '/' :: s = suffix (dir ++ [s]) := by simp [suffix]
      rw [List.append_cons] at hnames
      have hplace := (names_append.mp hnames).1
      have hrender := render_eq_suffix (l := dir ++ [s]) (by simp)
      have hparent : t.isDir (dir ++ [s]).dropLast := by
        rw [List.dropLast_concat]
        exact hdir
      rw [Idb.makeDirs, htext, ← hrender]
      refine ends_bind (ends_makeDir h hplace (by simp) hparent now (fun hthere => ?_)
        (fun contents hfile => ?_) (fun hfree db' h' => ?_) fun hfaults e => ?_)
      · rw [hrender]
        refine (ih h hnames (isDir_eq_true.mpr (.inr hthere))).imp fun out db' hend => ?_
        exact hend.cons fun paths => by rw [Backend.makeDirs, hthere]
      · refine .inl ?_
        rw [inits_below, Backend.makeDirs, hfile]
        exact ⟨rfl, h⟩
      · rw [hrender]
        have hmade : Tree.isDir (t.insert (dir ++ [s]) .dir) (dir ++ [s]) := by
          rw [isDir_eq_true, lookup_insert_eq, if_pos rfl]
          exact .inr rfl
        refine (ih h' hnames hmade).imp fun out db' hend => ?_
        exact hend.cons fun paths => by rw [Backend.makeDirs, hfree]
      · exact .inr ⟨e, [], s :: rest, t, hfaults, rfl, rfl, rfl, h⟩

/-- A call that writes as the tree does. -/
theorem done_served {ans : StorageAns o} {t' : Tree} {db' : Db} (h : Stores db' t') (clock : Clock)
    (hans : respond utf8Codec clock o t = (ans, t')) : Done faults o t ans db' := by
  have hbacked : Backed faults t o ans (respond utf8Codec clock o t).2 := by
    refine .served clock ?_
    rw [hans]
    exact agrees_refl o ans
  rw [hans] at hbacked
  exact ⟨t', hbacked, h⟩

theorem mkdir_ends (h : Stores db t) (path : Text) (recursive : Bool) :
    Ends faults (Done faults (.mkdir path recursive) t) (Idb.mkdir path recursive) db := by
  refine ends_located (fun hsegs => ?_) (fun l hl hroot hsegs => ?_) fun e he => ?_
  · refine ends_pure (done_same h (clockOf db) ?_)
    rw [respond, writing_ok hsegs, mkdirAt]
    cases recursive <;> rfl
  · refine ends_now fun now => ?_
    cases recursive with
    | true =>
        refine ends_path (fun segments heq => ?_) fun e he => ?_
        · rw [pathSegments_render hl, Except.ok.injEq] at heq
          subst heq
          have hids : l.inits.tail.map ([] ++ ·) = l.inits.tail := by simp
          have hnames : Names ([] ++ l) := hl
          refine (ends_makeDirs now h hnames (isDir_nil t)).imp fun out db' hend => ?_
          rcases hend with ⟨rfl, hstores⟩ | ⟨e, made, rest, t', hfaults, rfl, rfl, hmade, hstores⟩
          · rw [hids] at hstores ⊢
            refine done_served hstores (clockOf db) ?_
            rw [respond, writing_ok hsegs, mkdirAt, if_pos rfl]
          · have hmkdir : mkdirAt t made true = (.ok (), t') := by
              rw [mkdirAt, if_pos rfl, ← hmade]
              simp
            have hbacked := Backed.partly (t := t) e hfaults hsegs (by rw [hmkdir])
            rw [hmkdir] at hbacked
            exact ⟨t', hbacked, hstores⟩
        · rw [pathSegments_render hl] at he
          cases he
    | false =>
        refine ends_requireParent h hl (fun hparent => ?_) (fun hparent => ?_)
          fun hfaults e => done_dom h hfaults (by simp) e
        · have hcall : respond utf8Codec (clockOf db) (.mkdir path false) t = Backend.makeDirs [l] t := by
            rw [respond, writing_ok hsegs, mkdirAt, if_neg (by simp), if_neg hroot,
              if_neg (by simp [hparent])]
          refine ends_makeDir h hl hroot hparent now (fun hthere => ?_) (fun contents hfile => ?_)
            (fun hfree db' h' => ?_) fun hfaults e => done_dom h hfaults (by simp) e
          · refine done_same h (clockOf db) ?_
            rw [hcall, Backend.makeDirs, hthere]
            rfl
          · refine done_same h (clockOf db) ?_
            rw [hcall, Backend.makeDirs, hfile]
            rfl
          · refine done_served h' (clockOf db) ?_
            rw [hcall, Backend.makeDirs, hfree]
            rfl
        · refine done_same h (clockOf db) ?_
          rw [respond, writing_ok hsegs, mkdirAt, if_neg (by simp), if_neg hroot,
            if_pos (by simpa using hparent)]
          rfl
  · refine done_same h (clockOf db) ?_
    rw [respond, writing_failed he]

theorem remove_ends (h : Stores db t) (path : Text) (recursive : Bool) :
    Ends faults (Done faults (.remove path recursive) t) (Idb.remove path recursive) db := by
  refine ends_located (fun hsegs => ?_) (fun l hl hroot hsegs => ?_) fun e he => ?_
  · refine ends_throw (done_refused h (clockOf db) "Cannot remove root" [] ?_)
    rw [respond, writing_ok hsegs, removeAt, if_pos rfl]
  · refine ends_runExclusive _ (ends_tx fun w hw ans w' hans => ?_)
    rcases of_removeTx hans with ⟨rfl, hdb⟩ | ⟨hfaults, rfl, e, rfl⟩
    · obtain ⟨hanswer, hstores⟩ := h.removeTx hl hroot recursive
      rw [hdb, hw, hanswer]
      refine done_served hstores (clockOf db) ?_
      rw [respond, writing_ok hsegs]
    · rw [hw]
      exact done_dom h hfaults (by simp) e
  · refine done_same h (clockOf db) ?_
    rw [respond, writing_failed he]

theorem rename_ends (h : Stores db t) (fromPath toPath : Text) (hpath : pathSegments toPath ≠ .ok []) :
    Ends faults (Done faults (.rename fromPath toPath) t) (Idb.rename fromPath toPath) db := by
  refine ends_path (fun src hfrom => ?_) fun e he => ?_
  · obtain ⟨s, hs, rfl⟩ := normalizePath_eq_ok hfrom
    have hsrc := pathSegments_of_normalizePath hs hfrom
    refine ends_path (fun dst hto => ?_) fun e he => ?_
    · obtain ⟨d, hd, rfl⟩ := normalizePath_eq_ok hto
      have hdst := pathSegments_of_normalizePath hd hto
      have hdroot : d ≠ [] := by
        rintro rfl
        exact hpath hdst
      have hcall : respond utf8Codec (clockOf db) (.rename fromPath toPath) t = renameAt t s d := by
        rw [respond, writing_ok hsrc, writing_ok hdst]
      refine ends_path (fun root hroot => ?_) fun e he => ?_
      · rw [isRoot_render hs, Except.ok.injEq] at hroot
        subst hroot
        split
        next hroot =>
          rw [decide_eq_true_eq] at hroot
          refine ends_throw (done_refused h (clockOf db) "Cannot rename root" [] ?_)
          rw [hcall, renameAt, if_pos hroot]
        next hsroot =>
          rw [decide_eq_true_eq] at hsroot
          split
          next heq =>
            have hsame := render_inj hs hd heq
            refine ends_pure (done_same h (clockOf db) ?_)
            rw [hcall, renameAt, if_neg hsroot, if_pos hsame]
          next hne =>
            have hne' : s ≠ d := fun heq => hne (by rw [heq])
            refine ends_path (fun under hunder => ?_) fun e he => ?_
            · rw [isUnder_render hd hs, Except.ok.injEq] at hunder
              subst hunder
              split
              next hunder =>
                rw [decide_eq_true_eq] at hunder
                refine ends_throw
                  (done_refused h (clockOf db) "Cannot move a directory into itself" [] ?_)
                rw [hcall, renameAt, if_neg hsroot, if_neg hne', if_pos hunder]
              next hunder =>
                rw [decide_eq_true_eq] at hunder
                refine ends_runExclusive _ (ends_tx fun w hw ans w' hans => ?_)
                rcases of_renameTx hans with ⟨now, rfl, hdb⟩ | ⟨hfaults, rfl, e, rfl⟩
                · obtain ⟨hanswer, hstores⟩ := h.renameTx hs hd hsroot hdroot hunder now
                  rw [hdb, hw, hanswer]
                  exact done_served hstores (clockOf db) hcall
                · rw [hw]
                  exact done_dom h hfaults (by simp) e
            · rw [isUnder_render hd hs] at he
              cases he
      · rw [isRoot_render hs] at he
        cases he
    · refine done_same h (clockOf db) ?_
      rw [respond, writing_ok hsrc, writing_failed (pathSegments_error he)]
  · refine done_same h (clockOf db) ?_
    rw [respond, writing_failed (pathSegments_error he)]

end Writes

section Listing

variable {db : Db} {t : Tree} {path : Text} {l : List Text} {faults : Prop}

theorem mapM_dirEntryOf {records : List EntryRecord}
    (h : ∀ r ∈ records, ∃ l s, Names (l ++ [s]) ∧ r.path = render (l ++ [s])) :
    records.mapM dirEntryOf = .ok (records.map fun r => entryOf (nameOf r) (nodeOf r)) := by
  induction records with
  | nil => rfl
  | cons r records ih =>
      obtain ⟨l, s, hnames, hpath⟩ := h r List.mem_cons_self
      have hentry : dirEntryOf r = .ok (entryOf (nameOf r) (nodeOf r)) := by
        rw [dirEntryOf, nameOf, hpath, baseName_render hnames, nodeOf]
        cases r.kind <;> rfl
      rw [List.mapM_cons, hentry, ih fun r' hr' => h r' (List.mem_cons_of_mem _ hr')]
      rfl

/-- The check of `readDir` is the tree's. -/
theorem ends_requireDir (h : Stores db t) (hl : Names l) :
    Ends faults (fun out db' => db' = db ∧ match out with
      | .ok () => t.isDir l
      | .error e => readDirAt t l = .error e ∨ faults ∧ ∃ e', e = .dom e') (requireDir (render l)) db := by
  refine ends_path (fun root hroot => ?_) fun e he => ?_
  · rw [isRoot_render hl, Except.ok.injEq] at hroot
    subst hroot
    split
    next hroot =>
      rw [decide_eq_true_eq] at hroot
      refine ends_pure ⟨rfl, ?_⟩
      dsimp only
      rw [hroot]
      exact isDir_nil t
    next hroot =>
      rw [decide_eq_true_eq] at hroot
      have hnode := h.nodes l hl
      refine ends_get ?_ fun hfaults e => ⟨rfl, .inr ⟨hfaults, e, rfl⟩⟩
      cases hr : db.lookup (render l) with
      | none =>
          rw [hr] at hnode
          refine ends_throw ⟨rfl, .inl ?_⟩
          rw [readDirAt, if_neg, if_neg]
          · rfl
          · rw [hnode]
            simp
          · rw [isDir_eq_true, hnode]
            simp [hroot]
      | some r =>
          rw [hr, Option.map_some] at hnode
          dsimp only
          split
          next hkind =>
            refine ends_throw ⟨rfl, .inl ?_⟩
            rw [readDirAt, if_neg, if_pos]
            · rfl
            · rw [hnode]
              rfl
            · rw [isDir_eq_true, hnode, Option.some.injEq, nodeOf_eq_dir, not_or]
              exact ⟨hroot, hkind⟩
          next hkind =>
            refine ends_pure ⟨rfl, isDir_eq_true.mpr (.inr ?_)⟩
            rw [hnode, nodeOf_eq_dir.mpr (not_not.mp hkind)]
  · rw [isRoot_render hl] at he
    cases he

end Listing

section Carrying

variable {db : Db} {t : Tree} {faults : Prop}

/-- A call that reads no index ends as in the object store. -/
theorem carries_idb : Carries (fun o => Prog.op (StoreOp.idb o)) (Answering faults) (Serves faults) (fun _ _ => True)
    (fun _ _ => True) (Eq : World → World → Prop) := by
  rintro w _ o rfl -
  refine ⟨trivial, fun ans w' hans => ?_⟩
  cases hans with
  | idb hans => exact ⟨w', hans, rfl⟩

theorem meets_ofIdb {α : Type} {m : IdbM α} {post : Except Failure α → Db → Prop} {w : World}
    (h : Ends faults post m w.db) : Meets (Serves faults) (fun _ _ => True) (fun a _ w' => post (.ok a) w'.db)
      (fun e _ w' => post (.error e) w'.db) (ofIdb m) () w := by
  refine (carries_idb.meets (h w rfl) rfl).imp (fun a _ w' hend => ?_) fun e _ w' hend => ?_
  · obtain ⟨_, hpost, rfl⟩ := hend
    exact hpost
  · obtain ⟨_, hpost, rfl⟩ := hend
    exact hpost

/-- A listing is the tree's, in some order. -/
theorem readDir_meets {w : World} (h : Stores w.db t) (path : Text) :
    Meets (Serves faults) (fun _ _ => True) (fun a _ w' => Done faults (.readDir path) t (.ok a) w'.db)
      (fun e _ w' => Done faults (.readDir path) t (.error e) w'.db) (readDir path) () w := by
  rw [readDir, meets_bind, meets_ofExcept]
  refine ⟨fun normalized hnorm => ?_, fun e he => ?_⟩
  · obtain ⟨l, hl, rfl⟩ := normalizePath_eq_ok hnorm
    have hcall : respond utf8Codec (clockOf w.db) (.readDir path) t = (readDirAt t l, t) := by
      rw [respond, reading_ok (pathSegments_of_normalizePath hl hnorm)]
    rw [meets_bind]
    refine (meets_ofIdb (ends_requireDir h hl)).imp (fun _ _ w' hend => ?_) fun e _ w' hend => ?_
    · obtain ⟨hsame, hdir⟩ := hend
      rw [meets_bind, listChildren, meets_bind]
      refine ⟨trivial, fun ans w'' hans => ?_⟩
      change Meets _ _ _ _ (Method.ofExcept id ans : StoreM _) () w''
      rw [meets_ofExcept]
      cases hans with
      | failed _ _ e hfaults =>
          refine ⟨fun a ha => ?_, fun e' he' => ?_⟩
          · cases ha
          · cases he'
            rw [hsame]
            exact done_dom h hfaults (by simp) e
      | children _ _ records hperm =>
          refine ⟨fun a ha => ?_, fun e' he' => ?_⟩
          · cases ha
            rw [hsame] at hperm
            have hplaces : ∀ r ∈ records, ∃ l s, Names (l ++ [s]) ∧ r.path = render (l ++ [s]) := by
              intro r hr
              obtain ⟨s, hnames, hpath, -⟩ := (h.parent_iff hl).mp (hperm.subset hr)
              exact ⟨l, s, hnames, hpath⟩
            rw [meets_ofExcept, mapM_dirEntryOf hplaces]
            refine ⟨fun entries hentries => ?_, fun e he => ?_⟩
            · cases hentries
              rw [hsame]
              have hbacked : Backed faults t (.readDir path)
                  (.ok (records.map fun r => entryOf (nameOf r) (nodeOf r)))
                  (respond utf8Codec (clockOf w.db) (.readDir path) t).2 := by
                refine .served (clockOf w.db) ?_
                rw [hcall, readDirAt_eq_ok.mpr ⟨hdir, rfl⟩]
                have hchildren := ((hperm.map fun r => (nameOf r, nodeOf r)).trans (h.children hl)).map
                  fun e => entryOf e.1 e.2
                rw [List.map_map] at hchildren
                exact hchildren.symm
              rw [hcall] at hbacked
              exact ⟨t, hbacked, h⟩
            · cases he
          · cases he'
    · obtain ⟨hsame, hread | ⟨hfaults, e', rfl⟩⟩ := hend
      · rw [hsame]
        refine done_same h (clockOf w.db) ?_
        rw [hcall, hread]
      · rw [hsame]
        exact done_dom h hfaults (by simp) e'
  · refine done_same h (clockOf w.db) ?_
    rw [respond, reading_error (pathSegments_error he)]

theorem now_ends (h : Stores db t) : Ends faults (Done faults .now t) (idb .now) db := by
  rintro w rfl
  refine ⟨trivial, fun now w' hans => ?_⟩
  obtain rfl := of_now hans
  exact done_same h ⟨now, fun _ => none⟩ rfl

theorem writeTextFile_ends (h : Stores db t) {path : Text} {contents : String}
    (hplain : Plain (.writeTextFile path contents)) :
    Ends faults (Done faults (.writeTextFile path contents) t) (writeRecord path (.text contents)) db := by
  have hdata : Readable (.text contents) := hplain.1
  exact ends_writeRecord h hdata hplain.2 (fun _ _ hwrite h' => done_served h' (clockOf db) hwrite)
    (fun _ hwrite => done_same h (clockOf db) hwrite) fun hfaults e => done_dom h hfaults (by simp) e

theorem writeFile_ends (h : Stores db t) {path : Text} {contents : List UInt8}
    (hplain : Plain (.writeFile path contents)) :
    Ends faults (Done faults (.writeFile path contents) t) (writeRecord path (.bytes contents)) db := by
  have hdata : Readable (.bytes contents) := trivial
  exact ends_writeRecord h hdata hplain (fun _ _ hwrite h' => done_served h' (clockOf db) hwrite)
    (fun _ hwrite => done_same h (clockOf db) hwrite) fun hfaults e => done_dom h hfaults (by simp) e

/-- Each call of the backend ends as in the tree. -/
theorem method_meets {w : World} (h : Stores w.db t) {o : StorageOp} (hplain : Plain o) :
    Meets (Serves faults) (fun _ _ => True) (fun a _ w' => Done faults o t (.ok a) w'.db)
      (fun e _ w' => Done faults o t (.error e) w'.db) (method o) () w := by
  cases o with
  | readDir path => exact readDir_meets h path
  | readTextFile path => exact meets_ofIdb (readTextFile_ends h path)
  | readFile path => exact meets_ofIdb (readFile_ends h path)
  | writeTextFile path contents => exact meets_ofIdb (writeTextFile_ends h hplain)
  | writeFile path contents => exact meets_ofIdb (writeFile_ends h hplain)
  | mkdir path recursive => exact meets_ofIdb (mkdir_ends h path recursive)
  | rename fromPath toPath => exact meets_ofIdb (rename_ends h fromPath toPath hplain)
  | remove path recursive => exact meets_ofIdb (remove_ends h path recursive)
  | stat path => exact meets_ofIdb (stat_ends h path)
  | «exists» path => exact meets_ofIdb (doesExist_ends h path)
  | now => exact meets_ofIdb (now_ends h)

theorem carries_calls : Carries calls (Backed faults) (Serves faults) (fun _ o => Plain o) (fun _ _ => True)
    (fun w t => Stores w.db t) := by
  intro w t o h hplain
  rw [calls, holds_map]
  refine Holds.imp (method_meets h hplain) fun out w' hend => ?_
  rcases out with ⟨e | a, mem⟩
  · exact hend
  · exact hend

/-- Code that runs on the backend in IndexedDB runs on a tree: what it returns it can return on the tree
that the records are, with the rejections of the transactions that fail, and the records are the tree
that it leaves. -/
theorem idbfs_refines_tree {α : Type} {p : Prog StorageOp StorageAns α} {w w' : World} {a : α}
    (hstores : Stores w.db t) (hplain : Holds (Backed faults) (fun _ o => Plain o) (fun _ _ => True) p t)
    (hexec : Exec (Serves faults) w (interp calls p) a w') :
    ∃ t', Exec (Backed faults) t p a t' ∧ Stores w'.db t' := by
  obtain ⟨t', hrun, -, hstores'⟩ := carries_calls.exec hplain hstores hexec
  exact ⟨t', hrun, hstores'⟩

/-- A folder is made in a new store and listed. -/
def folderListed : Prog StorageOp StorageAns (Except Failure (List DirEntry)) :=
  .call (.mkdir ['/', 'd'] false) fun _ => .call (.readDir ['/']) .ret

theorem idbfs_refines_tree_folder : ∃ (w' : World) (t' : Tree),
    Exec (Backed False) ∅ folderListed (.ok [⟨['d'], true, false⟩]) t' ∧ Stores w'.db t' := by
  let w : World := ⟨∅, KeyedMutex.empty⟩
  let w' : World := ⟨(∅ : Db).insert folder.path folder, KeyedMutex.empty⟩
  have hlist : [folder].Perm ((values w'.db).filter fun r => r.parent = ['/']) := List.Perm.refl _
  have hexec : Exec (Serves False) w (interp calls folderListed) (.ok [⟨['d'], true, false⟩]) w' := by
    refine .step (.idb (.inl (.now w 0))) ?_
    refine .step (.idb (.inl (.get w ['/', 'd']))) ?_
    refine .step (.idb (.inl (.put w folder))) ?_
    exact .step (.children w' ['/'] [folder] hlist) (.refl _ _)
  have hplain : Holds (Backed False) (fun _ o => Plain o) (fun _ _ => True) folderListed ∅ :=
    ⟨trivial, fun _ _ _ => ⟨trivial, fun _ _ _ => trivial⟩⟩
  obtain ⟨t', hrun⟩ := idbfs_refines_tree stores_empty hplain hexec
  exact ⟨w', t', hrun⟩

end Carrying

end Tactile.Storage.IdbBackend

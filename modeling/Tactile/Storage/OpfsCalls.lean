import Tactile.Storage.Opfs

/-!
What the calls of the private file system do: resolving a path, copying and
removing, in a browser that answers and in one whose steps may fail.
-/

namespace Tactile.Storage.OpfsCalls

open Tactile.Lib.Program Tactile.Lib.Script Tactile.Lib.FiniteMap
open Tactile.Storage.Paths Tactile.Storage.Idb Tactile.Storage.Opfs

variable {α β : Type} {R : Answers OpfsOp OpfsAns Tree} {t : Tree}
variable {Q : α → Unit → Tree → Prop} {E : Failure → Unit → Tree → Prop}

theorem meets_ask {o : OpfsOp} {Q : OpfsVal o → Unit → Tree → Prop}
    (hok : ∀ v t', R t o (.ok v) t' → Q v () t')
    (herror : ∀ e t', R t o (.error e) t' → E e () t') :
    Meets R (fun _ _ => True) Q E (ask o) () t := by
  rw [ask, meets_bind]
  refine ⟨trivial, fun ans t' hans => ?_⟩
  cases ans with
  | ok v => exact hok v t' hans
  | error e => exact herror e t' hans

theorem meets_pathResult {x : Except StorageError α}
    (hok : ∀ a, x = .ok a → Q a () t) (herror : ∀ e, x = .error e → E (.storage e) () t) :
    Meets R (fun _ _ => True) Q E (Opfs.pathResult x) () t :=
  (meets_ofExcept ..).mpr ⟨hok, herror⟩

section Resolving

/-- Opening a directory without creating it finds it or fails, and changes nothing. -/
theorem getDirectoryHandle_faulty {b : Browser} {dir : List Text} {name : Text}
    {ans : OpfsAns (.getDirectoryHandle dir name false)} {t' : Tree}
    (h : Faulty b t (.getDirectoryHandle dir name false) ans t') :
    t' = t ∧ (ans = .ok () → t.lookup (dir ++ [name]) = some .dir) := by
  cases h with
  | rejected => exact ⟨rfl, nofun⟩
  | served h =>
      have hrespond : b.respond (.getDirectoryHandle dir name false) t = (ans, t') := h
      rw [Browser.respond] at hrespond
      split at hrespond
      next =>
        cases hrespond
        exact ⟨rfl, nofun⟩
      next =>
        split at hrespond
        next hstored =>
          cases hrespond
          exact ⟨rfl, fun _ => hstored⟩
        next =>
          cases hrespond
          exact ⟨rfl, nofun⟩
        next =>
          cases hrespond
          exact ⟨rfl, nofun⟩

theorem init_faulty {b : Browser} {ans : OpfsAns .init} {t' : Tree}
    (h : Faulty b t .init ans t') : t' = t := by
  cases h with
  | rejected => rfl
  | served h =>
      have hrespond : b.respond .init t = (ans, t') := h
      cases hrespond
      rfl

theorem openDirs_faulty (b : Browser) (normalized : Text) (segments : List Text) :
    Meets (Faulty b) (fun _ _ => True)
      (fun dir _ t' => t' = t ∧ dir = segments ∧ t.isDir segments) (fun _ _ t' => t' = t)
      (openDirs normalized segments) () t := by
  refine meets_foldlM _ (fun pre dir _ t' => t' = t ∧ dir = pre ∧ t.isDir pre) segments [] () t
    ⟨rfl, rfl, isDir_nil t⟩ ?_
  rintro pre segment post - dir _ t' ⟨rfl, rfl, hdir⟩
  rw [meets_orElse, getDirectoryHandle, meets_bind]
  refine meets_ask (fun _ t'' hans => ?_) fun e t'' hans => ?_
  · obtain ⟨hsame, hstored⟩ := getDirectoryHandle_faulty hans
    exact ⟨hsame, rfl, isDir_eq_true.mpr (.inr (hstored rfl))⟩
  · exact (getDirectoryHandle_faulty hans).1

/-- Resolving the parent of a path that is not the root finds a directory or
fails, and changes nothing; at the root it fails. -/
theorem resolveParent_faulty (b : Browser) {l : List Text} (hl : Names l) :
    Meets (Faulty b) (fun _ _ => True)
      (fun parent _ t' => t' = t ∧ l = parent.1 ++ [parent.2] ∧ t.isDir parent.1)
      (fun _ _ t' => t' = t) (resolveParent (render l)) () t := by
  rw [resolveParent, normalizePath_render hl, meets_bind]
  refine meets_pathResult (fun _ hnorm => ?_) nofun
  cases hnorm
  rw [meets_bind, pathSegments_render hl]
  refine meets_pathResult (fun _ hsegments => ?_) nofun
  cases hsegments
  rcases List.eq_nil_or_concat l with rfl | ⟨l', name, rfl⟩
  · exact rfl
  · rw [List.concat_eq_append, List.getLast?_concat]
    dsimp only
    rw [meets_bind]
    refine meets_ask (fun _ t' hans => ?_) fun _ t' hans => init_faulty hans
    obtain rfl := init_faulty hans
    rw [meets_bind, List.dropLast_concat]
    refine (openDirs_faulty b _ _).imp (fun dir _ t' hdir => ?_) fun _ _ _ h => h
    obtain ⟨rfl, rfl, hdir⟩ := hdir
    exact ⟨rfl, rfl, hdir⟩

end Resolving

section Answering

variable {b : Browser}

/-- The world answers the operation as the browser does when nothing fails. -/
def Follows (b : Browser) (R : Answers OpfsOp OpfsAns Tree) (o : OpfsOp) : Prop :=
  ∀ t ans t', R t o ans t' → b.respond o t = (ans, t')

/-- The opening of directories does not fail. -/
structure Opens (b : Browser) (R : Answers OpfsOp OpfsAns Tree) : Prop where
  init : Follows b R .init
  openDir : ∀ dir name create, Follows b R (.getDirectoryHandle dir name create)

theorem opens_serves (b : Browser) : Opens b (Serves b) :=
  ⟨fun _ _ _ h => h, fun _ _ _ _ _ _ h => h⟩

theorem respond_stored {dir : List Text} {name : Text} (create : Bool) (hdir : t.isDir dir)
    (hstored : t.lookup (dir ++ [name]) = some .dir) :
    b.respond (.getDirectoryHandle dir name create) t = (.ok (), t) := by
  rw [Browser.respond, hdir, hstored]
  rfl

theorem respond_create {dir : List Text} {name : Text} (hdir : t.isDir dir)
    (hfree : t.lookup (dir ++ [name]) = none) :
    b.respond (.getDirectoryHandle dir name true) t = (.ok (), t.insert (dir ++ [name]) .dir) := by
  rw [Browser.respond, hdir, hfree]
  rfl

theorem meets_follows {o : OpfsOp} {Q : OpfsVal o → Unit → Tree → Prop} {v : OpfsVal o} {t' : Tree}
    (hR : Follows b R o) (hrespond : b.respond o t = (.ok v, t')) (hQ : Q v () t') :
    Meets R (fun _ _ => True) Q E (ask o) () t := by
  refine meets_ask (fun v' t'' hans => ?_) fun e t'' hans => ?_
  · have hsame := (hR _ _ _ hans).symm.trans hrespond
    cases hsame
    exact hQ
  · have hsame := (hR _ _ _ hans).symm.trans hrespond
    cases hsame

theorem meets_init (hR : Opens b R) {Q : Unit → Unit → Tree → Prop} (hQ : Q () () t) :
    Meets R (fun _ _ => True) Q E (ask .init) () t :=
  meets_follows hR.init rfl hQ

theorem openDirs_opens (hR : Opens b R) (hv : t.Valid) (normalized : Text) {segments : List Text}
    (hdir : t.isDir segments) {Q : List Text → Unit → Tree → Prop} (hQ : Q segments () t) :
    Meets R (fun _ _ => True) Q E (openDirs normalized segments) () t := by
  have hfold : Meets R (fun _ _ => True) (fun dir _ t' => t' = t ∧ dir = segments)
      (fun _ _ _ => False) (openDirs normalized segments) () t := by
    refine meets_foldlM _ (fun pre dir _ t' => t' = t ∧ dir = pre) segments [] () t ⟨rfl, rfl⟩ ?_
    rintro pre segment post rfl dir _ t' ⟨rfl, rfl⟩
    have hall : t'.isDir ((dir ++ [segment]) ++ post) := by simpa using hdir
    have hnext := isDir_above hv hall
    have hstored := (isDir_eq_true.mp hnext).resolve_left (by simp)
    rw [meets_orElse, getDirectoryHandle, meets_bind]
    refine meets_follows (hR.openDir _ _ _) (respond_stored false ?_ hstored) ⟨rfl, rfl⟩
    exact isDir_above hv hnext
  refine hfold.imp (fun dir _ t' hdir' => ?_) fun _ _ _ h => h.elim
  obtain ⟨rfl, rfl⟩ := hdir'
  exact hQ

theorem resolveParent_opens (hR : Opens b R) (hv : t.Valid) {dir : List Text} {name : Text}
    (hl : Names (dir ++ [name])) (hdir : t.isDir dir)
    {Q : List Text × Text → Unit → Tree → Prop} (hQ : Q (dir, name) () t) :
    Meets R (fun _ _ => True) Q E (resolveParent (render (dir ++ [name]))) () t := by
  rw [resolveParent, normalizePath_render hl, meets_bind]
  refine meets_pathResult (fun _ hnorm => ?_) nofun
  cases hnorm
  rw [meets_bind, pathSegments_render hl]
  refine meets_pathResult (fun _ hsegments => ?_) nofun
  cases hsegments
  rw [List.getLast?_concat]
  dsimp only
  rw [meets_bind, List.dropLast_concat]
  refine meets_init hR ?_
  rw [meets_bind]
  exact openDirs_opens hR hv _ hdir hQ

theorem resolveDir_opens (hR : Opens b R) (hv : t.Valid) {l : List Text} (hl : Names l)
    (hdir : t.isDir l) {Q : List Text → Unit → Tree → Prop} (hQ : Q l () t) :
    Meets R (fun _ _ => True) Q E (resolveDir (render l)) () t := by
  rw [resolveDir, normalizePath_render hl, meets_bind]
  refine meets_pathResult (fun _ hnorm => ?_) nofun
  cases hnorm
  rw [meets_bind]
  refine meets_init hR ?_
  rw [meets_bind, pathSegments_render hl]
  refine meets_pathResult (fun _ hsegments => ?_) nofun
  cases hsegments
  exact openDirs_opens hR hv _ hdir hQ

/-- Creating the directories on a way whose last one is missing creates that one. -/
theorem createDirs_opens (hR : Opens b R) (hv : t.Valid) {dir : List Text} {name : Text}
    (hdir : t.isDir dir) (hfree : t.lookup (dir ++ [name]) = none)
    {Q : List Text → Unit → Tree → Prop}
    (hQ : Q (dir ++ [name]) () (t.insert (dir ++ [name]) .dir)) :
    Meets R (fun _ _ => True) Q E
      ((dir ++ [name]).foldlM (fun dstDir segment => getDirectoryHandle dstDir segment true) [])
      () t := by
  have hfold : Meets R (fun _ _ => True) (fun dstDir _ t' => t' = t ∧ dstDir = dir)
      (fun _ _ _ => False)
      (dir.foldlM (fun dstDir segment => getDirectoryHandle dstDir segment true) []) () t := by
    refine meets_foldlM _ (fun pre dstDir _ t' => t' = t ∧ dstDir = pre) dir [] () t ⟨rfl, rfl⟩ ?_
    rintro pre segment post rfl dstDir _ t' ⟨rfl, rfl⟩
    have hall : t'.isDir ((dstDir ++ [segment]) ++ post) := by simpa using hdir
    have hnext := isDir_above hv hall
    have hstored := (isDir_eq_true.mp hnext).resolve_left (by simp)
    rw [getDirectoryHandle, meets_bind]
    refine meets_follows (hR.openDir _ _ _) (respond_stored true ?_ hstored) ⟨rfl, rfl⟩
    exact isDir_above hv hnext
  rw [List.foldlM_append, meets_bind]
  refine hfold.imp (fun dstDir _ t' hdst => ?_) fun _ _ _ h => h.elim
  obtain ⟨rfl, rfl⟩ := hdst
  rw [List.foldlM_cons, meets_bind, getDirectoryHandle, meets_bind]
  exact meets_follows (hR.openDir _ _ _) (respond_create hdir hfree) hQ

end Answering

section Keeping

/-- The browser fails with its own exceptions only. -/
theorem serves_error {b : Browser} {o : OpfsOp} {ans : OpfsAns o} {t' : Tree} {e : Failure}
    (h : Opfs.Serves b t o ans t') (he : ans = .error e) : ∃ x, e = .dom x := by
  have hrespond : b.respond o t = (ans, t') := h
  subst he
  cases o with
  | init | write | abort | hasMove => cases hrespond
  | getDirectoryHandle | getFileHandle | arrayBuffer | createWritable | close | entries
  | removeEntry | move =>
      rw [Browser.respond] at hrespond
      grind

/-- The operations that take nothing out of the tree. -/
def Adds : OpfsOp → Prop
  | .removeEntry .. => False
  | .move .. => False
  | _ => True

/-- What is in the tree stays there under such an operation. -/
theorem serves_adds {b : Browser} {o : OpfsOp} {ans : OpfsAns o} {t' : Tree} {path : List Text}
    (h : Opfs.Serves b t o ans t') (ho : Adds o) (hstored : t.lookup path ≠ none) :
    t'.lookup path ≠ none := by
  have hrespond : b.respond o t = (ans, t') := h
  have hinsert : ∀ (l : List Text) (node : Node), AList.lookup path (AList.insert l node t) ≠ none := by
    intro l node
    rw [lookup_insert_eq]
    split
    next => nofun
    next => exact hstored
  cases o with
  | removeEntry | move => cases ho
  | init | write | abort | hasMove =>
      cases hrespond
      exact hstored
  | getDirectoryHandle | getFileHandle | arrayBuffer | createWritable | close | entries =>
      rw [Browser.respond] at hrespond
      grind

/-- The allowed operations keep a property of the tree and fail in allowed ways. -/
structure Keeps (R : Answers OpfsOp OpfsAns Tree) (A : OpfsOp → Prop) (I : Tree → Prop)
    (Err : Failure → Prop) : Prop where
  step : ∀ t o ans t', A o → I t → R t o ans t' → I t' ∧ ∀ e, ans = .error e → Err e
  dom : ∀ e, Err (.dom e)
  storage : ∀ e : StorageError, e.code ≠ .alreadyExists → Err (.storage e)

/-- A call keeps the property and fails in allowed ways. -/
def Kept (R : Answers OpfsOp OpfsAns Tree) (I : Tree → Prop) (Err : Failure → Prop)
    (m : OpfsM α) : Prop :=
  ∀ t, I t → Meets R (fun _ _ => True) (fun _ _ t' => I t') (fun e _ t' => I t' ∧ Err e) m () t

variable {A : OpfsOp → Prop} {I : Tree → Prop} {Err : Failure → Prop}

theorem Kept.bind {m : OpfsM α} {f : α → OpfsM β} (hm : Kept R I Err m)
    (hf : ∀ a, Kept R I Err (f a)) : Kept R I Err (m >>= f) := by
  intro t ht
  rw [meets_bind]
  exact (hm t ht).imp (fun a _ t' ht' => hf a t' ht') fun _ _ _ h => h

theorem Kept.orElse {m : OpfsM α} {handler : Failure → OpfsM α} (hm : Kept R I Err m)
    (hhandler : ∀ e, Err e → Kept R I Err (handler e)) : Kept R I Err (m.orElse handler) := by
  intro t ht
  rw [meets_orElse]
  exact (hm t ht).imp (fun _ _ _ h => h) fun e _ t' h => hhandler e h.2 t' h.1

theorem kept_pure (a : α) : Kept R I Err (pure a : OpfsM α) := fun _ ht => ht

theorem kept_throw {e : Failure} (he : Err e) : Kept R I Err (throw e : OpfsM α) :=
  fun _ ht => ⟨ht, he⟩

theorem kept_foldlM {ι : Type} {f : β → ι → OpfsM β} (hf : ∀ b x, Kept R I Err (f b x))
    (xs : List ι) (b : β) : Kept R I Err (xs.foldlM f b) := by
  induction xs generalizing b with
  | nil => exact kept_pure b
  | cons x xs ih =>
      rw [List.foldlM_cons]
      exact (hf b x).bind ih

theorem kept_forM {ι : Type} {f : ι → OpfsM PUnit} (hf : ∀ x, Kept R I Err (f x)) (xs : List ι) :
    Kept R I Err (forM xs f) := by
  induction xs with
  | nil => exact kept_pure _
  | cons x xs ih =>
      rw [List.forM_cons]
      exact (hf x).bind fun _ => ih

theorem kept_ask (h : Keeps R A I Err) {o : OpfsOp} (ho : A o) : Kept R I Err (ask o) := by
  intro t ht
  refine meets_ask (fun _ t' hans => (h.step t o _ t' ho ht hans).1) fun e t' hans => ?_
  obtain ⟨ht', he⟩ := h.step t o _ t' ho ht hans
  exact ⟨ht', he e rfl⟩

theorem kept_pathResult (h : Keeps R A I Err) {x : Except StorageError α}
    (hx : ∀ e, x = .error e → e.code = .invalidPath) : Kept R I Err (Opfs.pathResult x) := by
  intro t ht
  refine meets_pathResult (fun _ _ => ht) fun e he => ⟨ht, h.storage e ?_⟩
  rw [hx e he]
  nofun

theorem Keeps.toStorageError (h : Keeps R A I Err) {e : Failure} (he : Err e) (path : Text) :
    Err (toStorageError e path) := by
  unfold Opfs.toStorageError
  split
  next => exact h.storage _ nofun
  next => exact h.storage _ nofun
  next => exact h.storage _ nofun
  next => exact h.storage _ nofun
  next => exact he

section Adding

variable (h : Keeps R A I Err) (hA : ∀ o, Adds o → A o)

include h hA

theorem kept_then {o : OpfsOp} {f : OpfsVal o → OpfsM β} (ho : Adds o)
    (hf : ∀ v, Kept R I Err (f v)) : Kept R I Err (ask o >>= f) :=
  (kept_ask h (hA o ho)).bind hf

theorem kept_or {o : OpfsOp} {handler : Failure → OpfsM (OpfsVal o)} (ho : Adds o)
    (hhandler : ∀ e, Err e → Kept R I Err (handler e)) :
    Kept R I Err ((ask o).orElse handler) :=
  (kept_ask h (hA o ho)).orElse hhandler

theorem kept_getDirectoryHandle (dir : List Text) (name : Text) (create : Bool) :
    Kept R I Err (getDirectoryHandle dir name create) :=
  kept_then h hA trivial fun _ => kept_pure _

theorem kept_getFileHandle (dir : List Text) (name : Text) (create : Bool) :
    Kept R I Err (getFileHandle dir name create) :=
  kept_then h hA trivial fun _ => kept_pure _

theorem kept_openDirs (normalized : Text) (segments : List Text) :
    Kept R I Err (openDirs normalized segments) :=
  kept_foldlM (fun dir segment => (kept_getDirectoryHandle h hA dir segment false).orElse
    fun _ he => kept_throw (h.toStorageError he normalized)) segments []

theorem kept_resolveParent (path : Text) : Kept R I Err (resolveParent path) := by
  refine (kept_pathResult h fun _ => normalizePath_code).bind fun normalized => ?_
  refine (kept_pathResult h fun _ => pathSegments_code).bind fun segments => ?_
  split
  next => exact kept_throw (h.storage _ nofun)
  next =>
    refine kept_then h hA trivial fun _ => ?_
    exact (kept_openDirs h hA normalized _).bind fun _ => kept_pure _

theorem kept_resolveDir (path : Text) : Kept R I Err (resolveDir path) := by
  refine (kept_pathResult h fun _ => normalizePath_code).bind fun normalized => ?_
  refine kept_then h hA trivial fun _ => ?_
  refine (kept_pathResult h fun _ => pathSegments_code).bind fun segments => ?_
  exact kept_openDirs h hA normalized segments

theorem kept_readFile (path : Text) : Kept R I Err (readFile path) := by
  refine (kept_pathResult h fun _ => normalizePath_code).bind fun normalized => ?_
  have hfile : Kept R I Err (resolveFile normalized) := by
    refine (kept_pathResult h fun _ => normalizePath_code).bind fun normalized' => ?_
    refine (kept_resolveParent h hA normalized').bind fun parent => ?_
    exact (kept_getFileHandle h hA _ _ _).orElse fun _ he =>
      kept_throw (h.toStorageError he normalized')
  refine hfile.bind fun handle => ?_
  exact kept_or h hA trivial fun _ he => kept_throw (h.toStorageError he normalized)

theorem kept_writeStream (handle : List Text) (data : List UInt8) :
    Kept R I Err (writeStream handle data) := by
  refine kept_then h hA trivial fun _ => ?_
  have hwritten : Kept R I Err (do ask (.write handle data); ask (.close handle data) : OpfsM Unit) :=
    kept_then h hA trivial fun _ => kept_ask h (hA (.close handle data) trivial)
  refine hwritten.orElse fun e he => ?_
  refine Kept.bind ?_ fun _ => kept_throw he
  exact kept_or h hA trivial fun _ _ => kept_pure ()

theorem kept_copyEntries {copyDir : List Text → List Text → OpfsM Unit}
    (hcopy : ∀ src dst, Kept R I Err (copyDir src dst)) (src dst : List Text) :
    Kept R I Err (copyEntries copyDir src dst) := by
  refine kept_then h hA trivial fun children => kept_forM (fun child => ?_) children
  split
  next => exact (kept_getDirectoryHandle h hA _ _ _).bind fun handle => hcopy _ handle
  next =>
    refine kept_then h hA trivial fun data => ?_
    exact (kept_getFileHandle h hA _ _ _).bind fun out => kept_writeStream h hA out data

theorem kept_copyDirRecursive (depth : ℕ) (src dst : List Text) :
    Kept R I Err (copyDirRecursive depth src dst) := by
  induction depth generalizing src dst with
  | zero => exact kept_copyEntries h hA (fun _ _ => kept_throw (h.dom _)) src dst
  | succ depth ih => exact kept_copyEntries h hA ih src dst

theorem kept_copyHandle (depth : ℕ) (fromPath toPath : Text) :
    Kept R I Err (copyHandle depth fromPath toPath) := by
  have hcopy : Kept R I Err (do
      let dir ← resolveDir fromPath
      let segments ← Opfs.pathResult (pathSegments toPath)
      ask .init
      let dstDir ← segments.foldlM (fun dstDir segment => getDirectoryHandle dstDir segment true) []
      copyDirRecursive depth dir dstDir : OpfsM Unit) := by
    refine (kept_resolveDir h hA fromPath).bind fun dir => ?_
    refine (kept_pathResult h fun _ => pathSegments_code).bind fun segments => ?_
    refine kept_then h hA trivial fun _ => ?_
    refine Kept.bind ?_ fun dstDir => kept_copyDirRecursive h hA depth dir dstDir
    exact kept_foldlM (fun dstDir segment => kept_getDirectoryHandle h hA _ _ _) segments []
  have hfile : Kept R I Err (do
      let data ← readFile fromPath
      let parent ← resolveParent toPath
      let handle ← getFileHandle parent.1 parent.2 true
      writeStream handle data : OpfsM Unit) := by
    refine (kept_readFile h hA fromPath).bind fun data => ?_
    refine (kept_resolveParent h hA toPath).bind fun parent => ?_
    exact (kept_getFileHandle h hA _ _ _).bind fun handle => kept_writeStream h hA handle data
  refine hcopy.orElse fun e he => ?_
  split
  next => exact hfile
  next => exact hfile
  next => exact kept_throw he

end Adding

theorem kept_removeInternal (h : Keeps R (fun _ => True) I Err) (path : Text) (recursive : Bool) :
    Kept R I Err (removeInternal path recursive) := by
  refine (kept_resolveParent h (fun _ _ => trivial) path).bind fun parent => ?_
  refine (kept_ask h trivial).orElse fun e he => ?_
  split
  next => exact kept_throw (h.storage _ nofun)
  next => exact kept_throw (h.toStorageError he path)

theorem kept_renameLocked (h : Keeps R (fun _ => True) I Err) (depth : ℕ) (src dst : Text) :
    Kept R I Err (renameLocked depth src dst) := by
  have hA : ∀ o : OpfsOp, Adds o → True := fun _ _ => trivial
  refine (kept_resolveParent h hA src).bind fun srcDir => ?_
  refine (kept_resolveParent h hA dst).bind fun dstDir => ?_
  refine (kept_getDirectoryHandle h hA _ _ _).bind fun handle => ?_
  have hmove : Kept R I Err (moveNatively handle (dstDir.1 ++ [dstDir.2])) := by
    refine (kept_ask h trivial).bind fun native => ?_
    split
    next =>
      have hmoved : Kept R I Err (do
          ask (.move handle (dstDir.1 ++ [dstDir.2]))
          pure true : OpfsM Bool) := (kept_ask h trivial).bind fun _ => kept_pure true
      exact hmoved.orElse fun _ _ => kept_pure false
    next => exact kept_pure false
  refine hmove.bind fun moved => ?_
  split
  next => exact kept_pure ()
  next =>
    exact (kept_copyHandle h hA depth src dst).bind fun _ => kept_removeInternal h src false

end Keeping

end Tactile.Storage.OpfsCalls

import Tactile.Storage.IdbTree
import Tactile.Storage.OpfsCalls

/-!
The rename of the private file system against the one of the IndexedDB backend,
on every tree, with and without the native move and with failing steps.
-/

namespace Tactile.Storage.OpfsRename

open Tactile.Lib.Program Tactile.Lib.Script Tactile.Lib.FiniteMap
open Tactile.Storage.Paths Tactile.Storage.Mutex Tactile.Storage.Mutex.KeyedMutex
open Tactile.Storage.Idb Tactile.Storage.IdbTree Tactile.Storage.Opfs Tactile.Storage.OpfsCalls

section Statement

def bytesOf : Data → List UInt8
  | .text contents => contents.toUTF8.data.toList
  | .bytes contents => contents

/-- The file or directory that a record stands for. -/
def nodeOf (r : EntryRecord) : Node :=
  match r.kind with
  | .dir => .dir
  | .file => .file (bytesOf r.data)

/-- The records and the tree hold the same files and directories. -/
def SameTree (db : Db) (t : Tree) : Prop :=
  ∀ l, Names l → l ≠ [] → (db.lookup (render l)).map nodeOf = t.lookup l

def codeOf : Except Failure Unit → Option ErrCode
  | .error (.storage e) => some e.code
  | _ => none

variable (b : Browser) (depth : ℕ) (db : Db) (t : Tree) (fromPath toPath : Text)

/-- A rename in which nothing fails succeeds exactly when the one of the
IndexedDB backend does, leaves the same tree, and reports an existing
destination as it does. -/
def Refines : Prop :=
  ∀ out t' out' w',
    Exec (Opfs.Serves b) t ((Opfs.rename depth fromPath toPath).call ()) (out, ()) t' →
    Exec Idb.Serves ⟨db, KeyedMutex.empty⟩ ((Idb.rename fromPath toPath).call ()) (out', ()) w' →
    out.isOk = out'.isOk ∧ SameTree w'.db t' ∧
      (codeOf out' = some .alreadyExists → codeOf out = some .alreadyExists)

/-- A rename that fails, whichever steps failed, leaves the tree as it was. -/
def KeepsOnFailure : Prop :=
  ∀ e t', Exec (Opfs.Faulty b) t ((Opfs.rename depth fromPath toPath).call ()) (.error e, ()) t' →
    ∀ l, t'.lookup l = t.lookup l

/-- The rename moves nothing: a path is not valid, the destination is the source
or below it, or the source or the destination's parent directory is missing. -/
def Idle : Prop :=
  ∀ s d, Names s → Names d → normalizePath fromPath = .ok (render s) →
    normalizePath toPath = .ok (render d) →
    s <+: d ∨ t.lookup s = none ∨ (d ≠ [] ∧ t.lookup d = none ∧ t.isDir d.dropLast = false)

/-- The browser has a native move and does not reject this one. -/
def Accepts (s d : List Text) : Prop :=
  ∃ move t', b.move = some move ∧ move t s d = .ok t'

/-- The destination is a free place in a directory, outside the source. -/
structure FreePlace (s d : List Text) : Prop where
  apart : ¬ s <+: d
  notRoot : d ≠ []
  free : t.lookup d = none
  parent : t.isDir d.dropLast

/-- The rename moves a directory to a free place, natively or as an empty one. -/
def MovesDirectory : Prop :=
  ∃ s d, Names s ∧ Names d ∧ normalizePath fromPath = .ok (render s) ∧
    normalizePath toPath = .ok (render d) ∧ t.lookup s = some .dir ∧ FreePlace t s d ∧
    (Accepts b t s d ∨ ∀ x, x ≠ [] → t.lookup (s ++ x) = none)

/-- Where a rename of a subtree finds what is at a path afterwards. -/
def movedLookup (s d l : List Text) : Option Node :=
  if d <+: l then t.lookup (s ++ l.drop d.length)
  else if s <+: l then none
  else t.lookup l

/-- A native move of a directory to a free place that goes through moves exactly
its subtree. -/
def MovesSubtrees : Prop :=
  ∀ move t s d t', b.move = some move → move t s d = .ok t' → t.Valid → t.lookup s = some .dir →
    FreePlace t s d → ∀ l, t'.lookup l = movedLookup t s d l

end Statement

section Alone

/-- The mutex has had one call, which waits for nothing. -/
def Alone (m : KeyedMutex) (p : Phase) : Prop := ∃ c, m.calls = [c] ∧ c.prior = [] ∧ c.phase = p

theorem alone_lock (keys : List String) : Alone (KeyedMutex.empty.runExclusive keys) .waiting := by
  refine ⟨_, rfl, List.filterMap_eq_nil_iff.mpr fun key _ => ?_, rfl⟩
  exact AList.lookup_empty key

theorem alone_setPhase {m : KeyedMutex} {p : Phase} (h : Alone m p) (q : Phase) :
    Alone (m.setPhase 0 q) q := by
  obtain ⟨c, hc, hprior, -⟩ := h
  refine ⟨{ c with phase := q }, ?_, hprior, rfl⟩
  rw [setPhase, hc]
  rfl

theorem alone_start {m : KeyedMutex} (h : Alone m .waiting) :
    m.after (.start 0) = some (m.setPhase 0 .running) := by
  obtain ⟨c, hc, hprior, hphase⟩ := h
  simp [after, hc, hprior, hphase]

theorem alone_settle {m : KeyedMutex} (h : Alone m .running) (ok : Bool) :
    m.after (.settle 0 ok) = some (m.setPhase 0 (.settled ok)) := by
  obtain ⟨c, hc, -, hphase⟩ := h
  simp [after, hc, hphase]

theorem alone_tail {m : KeyedMutex} {ok : Bool} (h : Alone m (.settled ok)) :
    m.after (.tail 0) = some (m.setPhase 0 .tailSettled) := by
  obtain ⟨c, hc, -, hphase⟩ := h
  simp [after, hc, hphase, Phase.operationSettled, Phase.tailDone]

theorem alone_release {m : KeyedMutex} (h : Alone m .tailSettled) :
    ∃ m', m.after (.release 0) = some m' := by
  obtain ⟨c, hc, -, hphase⟩ := h
  refine ⟨(m.release 0 c.keys).setPhase 0 .released, ?_⟩
  simp [after, hc, hphase]

/-- The backend can answer the operation. -/
def Enabled (w : World) (o : IdbOp) : Prop := ∃ ans w', Idb.Serves w o ans w'

section Lock

variable {Q : Db → Prop} {E : Failure → Db → Prop}

/-- The backend can answer, and what is left ends in a database of a kind. -/
abbrev Runs (Q : Db → Prop) (E : Failure → Db → Prop) (m : IdbM Unit) (w : World) : Prop :=
  Meets Idb.Serves Enabled (fun _ _ w => Q w.db) (fun e _ w => E e w.db) m () w

theorem runs_idb {o : IdbOp} {f : IdbAns o → IdbM Unit} {w : World} (henabled : Enabled w o)
    (hnext : ∀ ans w', Idb.Serves w o ans w' → Runs Q E (f ans) w') : Runs Q E (idb o >>= f) w := by
  rw [Runs, meets_bind]
  exact ⟨henabled, hnext⟩

theorem runs_unlock {db : Db} {m : KeyedMutex} (hrunning : Alone m .running)
    {result : Except Failure Unit} (hok : result = .ok () → Q db)
    (herror : ∀ e, result = .error e → E e db) :
    Runs Q E (do
      idb (.settle 0 result.isOk)
      idb (.tail 0)
      idb (.release 0)
      Method.ofExcept id result) ⟨db, m⟩ := by
  have hsettled := alone_setPhase hrunning (.settled result.isOk)
  have htail := alone_setPhase hsettled .tailSettled
  obtain ⟨m', hm'⟩ := alone_release htail
  refine runs_idb ⟨_, _, .settle _ _ _ _ (alone_settle hrunning _)⟩ fun _ w hw => ?_
  cases hw with
  | settle _ _ _ m₁ hm₁ =>
      dsimp only at hm₁
      rw [alone_settle hrunning] at hm₁
      cases hm₁
      refine runs_idb ⟨_, _, .tail _ _ _ (alone_tail hsettled)⟩ fun _ w hw => ?_
      cases hw with
      | tail _ _ m₂ hm₂ =>
          dsimp only at hm₂
          rw [alone_tail hsettled] at hm₂
          cases hm₂
          refine runs_idb ⟨_, _, .release _ _ _ hm'⟩ fun _ w hw => ?_
          cases hw
          exact (meets_ofExcept ..).mpr ⟨fun _ h => hok h, herror⟩

/-- A call that takes the lock while nobody holds it does what it does without. -/
theorem runs_runExclusive {keys : List Text} {fn : IdbM Unit} {db : Db}
    (hfn : ∀ m, Meets Idb.Serves Enabled (fun _ _ w => w.mutex = m ∧ Q w.db)
      (fun e _ w => w.mutex = m ∧ E e w.db) fn () ⟨db, m⟩) :
    Runs Q E (Idb.runExclusive keys fn) ⟨db, KeyedMutex.empty⟩ := by
  refine runs_idb ⟨_, _, .lock _ _⟩ fun n w hlock => ?_
  cases hlock
  have hwaiting := alone_lock (keys.map String.ofList)
  dsimp only
  generalize KeyedMutex.empty.runExclusive (keys.map String.ofList) = m at hwaiting ⊢
  refine runs_idb ⟨_, _, .begin _ _ _ (alone_start hwaiting)⟩ fun _ w hbegin => ?_
  have hrunning := alone_setPhase hwaiting .running
  cases hbegin with
  | begin _ _ m' hm' =>
      change m.after (.start 0) = some m' at hm'
      rw [alone_start hwaiting] at hm'
      cases hm'
      rw [Runs, meets_bind, meets_outcome]
      refine (hfn _).imp (fun _ _ w hw => ?_) fun e _ w hw => ?_
      · obtain ⟨hmutex, hQ⟩ := hw
        exact runs_unlock (hmutex ▸ hrunning) (fun _ => hQ) nofun
      · obtain ⟨hmutex, hE⟩ := hw
        refine runs_unlock (hmutex ▸ hrunning) nofun fun e' he' => ?_
        cases he'
        exact hE

/-- What the rename of the IndexedDB backend does when nothing else is called. -/
theorem runs_rename {fromPath toPath : Text} {s d : List Text} {db : Db} (hs : Names s)
    (hd : Names d) (hfrom : normalizePath fromPath = .ok (render s))
    (hto : normalizePath toPath = .ok (render d))
    (hroot : s = [] → E (.storage ⟨"Cannot rename root", .invalidPath⟩) db)
    (hsame : s ≠ [] → s = d → Q db)
    (hinside : s ≠ [] → s ≠ d → s <+: d →
      E (.storage ⟨"Cannot move a directory into itself", .invalidPath⟩) db)
    (hok : ¬ s <+: d → ∀ now db', renameTx (render s) (render d) now db = (.ok (), db') → Q db')
    (herror : ¬ s <+: d → ∀ now e db',
      renameTx (render s) (render d) now db = (.error e, db') → E (.storage e) db') :
    Runs Q E (Idb.rename fromPath toPath) ⟨db, KeyedMutex.empty⟩ := by
  rw [Runs, Idb.rename, meets_bind, hfrom]
  refine (meets_ofExcept ..).mpr ⟨fun _ h => ?_, nofun⟩
  cases h
  rw [meets_bind, hto]
  refine (meets_ofExcept ..).mpr ⟨fun _ h => ?_, nofun⟩
  cases h
  rw [meets_bind, isRoot_render hs]
  refine (meets_ofExcept ..).mpr ⟨fun _ h => ?_, nofun⟩
  cases h
  split
  next h => exact hroot (of_decide_eq_true h)
  next hne =>
    rw [decide_eq_true_eq] at hne
    split
    next h => exact hsame hne (render_inj hs hd h)
    next hdiff =>
      have hsd : s ≠ d := fun h => hdiff (congrArg render h)
      rw [meets_bind, isUnder_render hd hs]
      refine (meets_ofExcept ..).mpr ⟨fun _ h => ?_, nofun⟩
      cases h
      split
      next h => exact hinside hne hsd (of_decide_eq_true h)
      next hunder =>
        rw [decide_eq_true_eq] at hunder
        refine runs_runExclusive fun m => ?_
        rw [meets_bind]
        refine ⟨⟨_, _, .renameTx _ _ _ 0⟩, fun ans w hw => ?_⟩
        cases hw with
        | renameTx _ _ _ now =>
            refine (meets_ofExcept ..).mpr ⟨fun _ h => ?_, fun e h => ?_⟩
            · cases hres : (Idb.renameTx (render s) (render d) now db).1 with
              | ok => exact ⟨rfl, hok hunder now _ (Prod.ext hres rfl)⟩
              | error e =>
                  change storageFailure (Idb.renameTx (render s) (render d) now db).1 = _ at h
                  rw [hres] at h
                  cases h
            · change storageFailure (Idb.renameTx (render s) (render d) now db).1 = _ at h
              cases hres : (Idb.renameTx (render s) (render d) now db).1 with
              | ok =>
                  rw [hres] at h
                  cases h
              | error e' =>
                  rw [hres] at h
                  cases h
                  exact ⟨rfl, herror hunder now e' _ (Prod.ext hres rfl)⟩

end Lock

end Alone

section Moving

variable {R : Answers OpfsOp OpfsAns Tree} {b : Browser} {depth : ℕ} {t : Tree}
variable {fromPath toPath : Text} {s d : List Text}

/-- What the checks of a rename leave of it. -/
theorem meets_rename {Q : Unit → Unit → Tree → Prop} {E : Failure → Unit → Tree → Prop}
    (hs : Names s) (hd : Names d) (hfrom : normalizePath fromPath = .ok (render s))
    (hto : normalizePath toPath = .ok (render d))
    (hroot : s = [] → E (.storage ⟨"Cannot rename root", .invalidPath⟩) () t)
    (hsame : s ≠ [] → s = d → Q () () t)
    (hinside : s ≠ [] → s ≠ d → s <+: d →
      E (.storage ⟨"Cannot move a directory into itself", .invalidPath⟩) () t)
    (hlocked : ¬ s <+: d →
      Meets R (fun _ _ => True) Q E (renameLocked depth (render s) (render d)) () t) :
    Meets R (fun _ _ => True) Q E (Opfs.rename depth fromPath toPath) () t := by
  rw [Opfs.rename, meets_bind, hfrom]
  refine meets_pathResult (fun _ h => ?_) nofun
  cases h
  rw [meets_bind, hto]
  refine meets_pathResult (fun _ h => ?_) nofun
  cases h
  split
  next h => exact hroot ((render_eq_root hs).mp h)
  next hne =>
    have hne : s ≠ [] := mt (render_eq_root hs).mpr hne
    split
    next h => exact hsame hne (render_inj hs hd h.symm)
    next hdiff =>
      have hsd : s ≠ d := fun h => hdiff (congrArg render h.symm)
      have hslash : (render s ++ ['/']) <+: render d ↔ s <+: d := by
        by_cases hdroot : d = []
        · subst hdroot
          refine ⟨fun hpre => ?_, fun hpre => absurd (List.prefix_nil.mp hpre) hne⟩
          have hlen := hpre.length_le
          rw [List.length_append] at hlen
          have hpos : 0 < (render s).length := Nat.succ_pos _
          have hone : (render []).length = 1 := rfl
          rw [List.length_singleton] at hlen
          omega
        · rw [render_eq_suffix hne, render_eq_suffix hdroot, slash_prefix_iff hs hd]
          constructor
          · rintro ⟨rest, -, rfl⟩
            exact List.prefix_append s rest
          · rintro ⟨rest, rfl⟩
            exact ⟨rest, fun h => hsd (by rw [h, List.append_nil]), rfl⟩
      split
      next h => exact hinside hne hsd (hslash.mp h)
      next h => exact hlocked (mt hslash.mpr h)

/-- Only a directory is renamed, and only to a place in a directory: otherwise
the rename fails and changes nothing, whatever steps fail. -/
theorem renameLocked_refused (b : Browser) (depth : ℕ) (hs : Names s) (hd : Names d)
    (h : ¬ (t.lookup s = some .dir ∧ d ≠ [] ∧ t.isDir d.dropLast)) :
    Meets (Opfs.Faulty b) (fun _ _ => True) (fun _ _ _ => False) (fun _ _ t' => t' = t)
      (renameLocked depth (render s) (render d)) () t := by
  rw [renameLocked, meets_bind]
  refine (resolveParent_faulty b hs).imp (fun srcDir _ t' hsrc => ?_) fun _ _ _ h => h
  obtain ⟨rfl, hsrc, -⟩ := hsrc
  rw [meets_bind]
  refine (resolveParent_faulty b hd).imp (fun dstDir _ t' hdst => ?_) fun _ _ _ h => h
  obtain ⟨rfl, hdst, hdir⟩ := hdst
  rw [meets_bind, getDirectoryHandle, meets_bind]
  refine meets_ask (fun _ t'' hans => ?_) fun _ t'' hans => (getDirectoryHandle_faulty hans).1
  have hstored := (getDirectoryHandle_faulty hans).2 rfl
  refine absurd ⟨?_, ?_, ?_⟩ h
  · rw [hsrc]
    exact hstored
  · rw [hdst]
    simp
  · rw [hdst, List.dropLast_concat]
    exact hdir

/-- A removal that is not recursive does not take out a directory with an entry. -/
theorem removeInternal_full (b : Browser) (hs : Names s) {name : Text}
    (hfull : t.lookup (s ++ [name]) ≠ none) :
    Meets (Opfs.Serves b) (fun _ _ => True) (fun _ _ _ => False) (fun _ _ _ => True)
      (removeInternal (render s) false) () t := by
  have hparent : Meets (Opfs.Serves b) (fun _ _ => True)
      (fun parent _ t' => t' = t ∧ s = parent.1 ++ [parent.2] ∧ t.isDir parent.1)
      (fun _ _ t' => t' = t) (resolveParent (render s)) () t :=
    Holds.of_le (resolveParent_faulty b hs) fun _ _ _ _ h => .served h
  rw [removeInternal, meets_bind]
  refine hparent.imp (fun parent _ t' hparent => ?_) fun _ _ _ _ => trivial
  obtain ⟨rfl, rfl, -⟩ := hparent
  rw [meets_orElse]
  refine meets_ask (fun _ t'' hans => ?_) fun e t'' _ => ?_
  · have hrespond : b.respond (.removeEntry parent.1 parent.2 false) t' = _ := hans
    rw [Browser.respond] at hrespond
    split at hrespond
    next => cases hrespond
    next =>
      have hchildren : t'.children (parent.1 ++ [parent.2]) ≠ [] :=
        fun hnil => hfull (children_eq_nil.mp hnil name)
      rw [if_pos ⟨hchildren, rfl⟩] at hrespond
      cases hrespond
  · split
    next => exact trivial
    next => exact trivial

/-- No rename fails as a rename to an existing destination should. -/
theorem rename_never_exists (b : Browser) (depth : ℕ) (src dst : Text) :
    Meets (Opfs.Serves b) (fun _ _ => True) (fun _ _ _ => True)
      (fun e _ _ => codeOf (.error e) ≠ some .alreadyExists) (renameLocked depth src dst) () t := by
  have hkeeps : Keeps (Opfs.Serves b) (fun _ => True) (fun _ => True)
      (fun e => codeOf (.error e) ≠ some .alreadyExists) := by
    refine ⟨fun t o ans t' _ _ hans => ⟨trivial, fun e he => ?_⟩, fun e => nofun, fun e he heq => ?_⟩
    · obtain ⟨x, rfl⟩ := serves_error hans he
      nofun
    · exact he (Option.some.inj heq)
  exact (kept_renameLocked hkeeps depth src dst t trivial).imp (fun _ _ _ _ => trivial)
    fun _ _ _ h => h.2

section Directory

variable (hv : t.Valid) (hs : Names s) (hd : Names d) (hdir : t.lookup s = some .dir)
variable (hdroot : d ≠ []) (hparent : t.isDir d.dropLast)

/-- The part of a rename behind its reads, for a directory and a place in one. -/
def afterReads (depth : ℕ) (s d : List Text) : OpfsM Unit := do
  let moved ← moveNatively s d
  if moved then pure ()
  else do
    copyHandle depth (render s) (render d)
    removeInternal (render s) false

include hv hs hd hdir hdroot hparent

theorem renameLocked_opens {Q : Unit → Unit → Tree → Prop} {E : Failure → Unit → Tree → Prop}
    (hR : Opens b R) (h : Meets R (fun _ _ => True) Q E (afterReads depth s d) () t) :
    Meets R (fun _ _ => True) Q E (renameLocked depth (render s) (render d)) () t := by
  obtain ⟨hsroot, -, hsparent⟩ := hv _ _ hdir
  obtain ⟨ds, ns, rfl⟩ := (List.eq_nil_or_concat' s).resolve_left hsroot
  obtain ⟨dd, nd, rfl⟩ := (List.eq_nil_or_concat' d).resolve_left hdroot
  rw [List.dropLast_concat] at hsparent hparent
  rw [renameLocked, meets_bind]
  refine resolveParent_opens hR hv hs hsparent ?_
  rw [meets_bind]
  refine resolveParent_opens hR hv hd hparent ?_
  rw [meets_bind, getDirectoryHandle, meets_bind]
  exact meets_follows (hR.openDir _ _ _) (respond_stored false hsparent hdir) h

/-- The copy makes the destination and copies the entries into it. -/
theorem copyHandle_opens {Q : Unit → Unit → Tree → Prop} {E : Failure → Unit → Tree → Prop}
    (hR : Opens b R) (hfree : t.lookup d = none)
    (h : Meets R (fun _ _ => True) Q (fun e _ t' => e = .dom .other ∧ E e () t')
      (copyDirRecursive depth s d) () (t.insert d .dir)) :
    Meets R (fun _ _ => True) Q E (copyHandle depth (render s) (render d)) () t := by
  obtain ⟨dd, nd, rfl⟩ := (List.eq_nil_or_concat' d).resolve_left hdroot
  rw [List.dropLast_concat] at hparent
  rw [copyHandle, meets_orElse, meets_bind]
  refine resolveDir_opens hR hv hs (isDir_eq_true.mpr (.inr hdir)) ?_
  rw [meets_bind, pathSegments_render hd]
  refine meets_pathResult (fun _ hsegments => ?_) nofun
  cases hsegments
  rw [meets_bind]
  refine meets_init hR ?_
  rw [meets_bind]
  refine createDirs_opens hR hv hparent hfree ?_
  refine h.imp (fun _ _ _ h => h) fun e _ t' he => ?_
  obtain ⟨rfl, hE⟩ := he
  exact hE

end Directory

section Steps

/-- A rename whose native move goes through. -/
theorem afterReads_accepted {move : Tree → List Text → List Text → Except DomError Tree} {t₁ : Tree}
    (hb : b.move = some move) (hmove : move t s d = .ok t₁) :
    Meets (Opfs.Serves b) (fun _ _ => True) (fun _ _ t' => t' = t₁) (fun _ _ _ => False)
      (afterReads depth s d) () t := by
  have hnative : b.respond .hasMove t = (.ok true, t) := by
    rw [Browser.respond, hb]
    rfl
  have hmoved : b.respond (.move s d) t = (.ok (), t₁) := by
    rw [Browser.respond, hb]
    dsimp only
    rw [hmove]
  rw [afterReads, moveNatively, meets_bind, meets_bind]
  refine meets_follows (fun _ _ _ h => h) hnative ?_
  rw [if_pos rfl, meets_orElse, meets_bind]
  exact meets_follows (fun _ _ _ h => h) hmoved rfl

/-- A rename whose native move is missing or rejected copies and removes. -/
theorem afterReads_copies {Q : Unit → Unit → Tree → Prop} {E : Failure → Unit → Tree → Prop}
    (hnative : Follows b R .hasMove)
    (hmove : ∀ ans t', R t (.move s d) ans t' → t' = t ∧ ans ≠ .ok ())
    (h : Meets R (fun _ _ => True) Q E (do
      copyHandle depth (render s) (render d)
      removeInternal (render s) false) () t) :
    Meets R (fun _ _ => True) Q E (afterReads depth s d) () t := by
  rw [afterReads, moveNatively, meets_bind, meets_bind]
  have hrespond : b.respond .hasMove t = (.ok b.move.isSome, t) := rfl
  refine meets_follows hnative hrespond ?_
  split
  next =>
    rw [meets_orElse, meets_bind]
    refine meets_ask (fun _ t' hans => ?_) fun _ t' hans => ?_
    · exact absurd rfl (hmove _ _ hans).2
    · obtain rfl := (hmove _ _ hans).1
      exact h
  next => exact h

theorem serves_move_rejected (hacc : ¬ Accepts b t s d) (ans : OpfsAns (.move s d)) (t' : Tree)
    (h : Opfs.Serves b t (.move s d) ans t') : t' = t ∧ ans ≠ .ok () := by
  have hrespond : b.respond (.move s d) t = (ans, t') := h
  rw [Browser.respond] at hrespond
  split at hrespond
  next =>
    cases hrespond
    exact ⟨rfl, fun hok => by cases hok⟩
  next move hb =>
    split at hrespond
    next t₁ hmove => exact absurd ⟨move, t₁, hb, hmove⟩ hacc
    next =>
      cases hrespond
      exact ⟨rfl, fun hok => by cases hok⟩

/-- A rename of a directory with an entry that is not moved natively fails: the
copy leaves the entry, and the removal is not recursive. -/
theorem afterReads_full (hs : Names s) (hacc : ¬ Accepts b t s d) {name : Text}
    (hfull : t.lookup (s ++ [name]) ≠ none) :
    Meets (Opfs.Serves b) (fun _ _ => True) (fun _ _ _ => False) (fun _ _ _ => True)
      (afterReads depth s d) () t := by
  refine afterReads_copies (fun _ _ _ h => h) (serves_move_rejected hacc) ?_
  have hkeeps : Keeps (Opfs.Serves b) Adds (fun t' => t'.lookup (s ++ [name]) ≠ none)
      (fun _ => True) := by
    refine ⟨fun t o ans t' ho ht hans => ⟨serves_adds hans ho ht, fun _ _ => trivial⟩,
      fun _ => trivial, fun _ _ => trivial⟩
  rw [meets_bind]
  refine (kept_copyHandle hkeeps (fun _ h => h) depth _ _ t hfull).imp (fun _ _ t' ht' => ?_)
    fun _ _ _ _ => trivial
  exact removeInternal_full b hs ht'

/-- A rename of an empty directory that is not moved natively makes the
destination and removes the source. -/
theorem afterReads_empty (hv : t.Valid) (hs : Names s) (hd : Names d)
    (hdir : t.lookup s = some .dir) (hdroot : d ≠ []) (hparent : t.isDir d.dropLast)
    (hfree : t.lookup d = none) (hunder : ¬ s <+: d) (hacc : ¬ Accepts b t s d)
    (hempty : ∀ x, x ≠ [] → t.lookup (s ++ x) = none) :
    Meets (Opfs.Serves b) (fun _ _ => True)
      (fun _ _ t' => t' = select (AList.insert d .dir t) fun l _ => !s.isPrefixOf l)
      (fun _ _ _ => False) (afterReads depth s d) () t := by
  have hsd : s ≠ d := by
    rintro rfl
    exact hunder (List.prefix_refl s)
  have hv' : Tree.Valid (t.insert d .dir) := valid_insert hv hd hdroot hparent fun _ => rfl
  have hstored : AList.lookup s (AList.insert d Node.dir t) = some .dir := by
    rw [lookup_insert_eq, if_neg hsd, hdir]
  have hchildren : Tree.children (t.insert d .dir) s = [] := by
    refine children_eq_nil.mpr fun name => ?_
    rw [lookup_insert_eq, if_neg]
    · exact hempty [name] (List.cons_ne_nil _ _)
    · rintro rfl
      exact hunder (List.prefix_append s [name])
  have hentries : b.respond (.entries s) (t.insert d .dir) = (.ok [], t.insert d .dir) := by
    rw [Browser.respond, if_pos (isDir_eq_true.mpr (.inr hstored)), hchildren]
  have hcopied : ∀ copyDir, Meets (Opfs.Serves b) (fun _ _ => True)
      (fun _ _ t' => t' = AList.insert d .dir t)
      (fun e _ _ => e = .dom .other ∧ False) (copyEntries copyDir s d) () (t.insert d .dir) := by
    intro copyDir
    rw [copyEntries, meets_bind]
    exact meets_follows (fun _ _ _ h => h) hentries rfl
  refine afterReads_copies (fun _ _ _ h => h) (serves_move_rejected hacc) ?_
  rw [meets_bind]
  refine copyHandle_opens hv hs hd hdir hdroot hparent (opens_serves b) hfree ?_
  have hrec : Meets (Opfs.Serves b) (fun _ _ => True) (fun _ _ t' => t' = AList.insert d .dir t)
      (fun e _ _ => e = .dom .other ∧ False) (copyDirRecursive depth s d) () (t.insert d .dir) := by
    cases depth with
    | zero => exact hcopied _
    | succ depth => exact hcopied _
  refine hrec.imp (fun _ _ t' ht' => ?_) fun _ _ _ h => h
  subst ht'
  obtain ⟨hsroot, -, hsparent⟩ := hv' _ _ hstored
  obtain ⟨ds, ns, rfl⟩ := (List.eq_nil_or_concat' s).resolve_left hsroot
  rw [List.dropLast_concat] at hsparent
  have hremoved : b.respond (.removeEntry ds ns false) (t.insert d .dir) =
      (.ok (), select (AList.insert d .dir t) fun l _ => !(ds ++ [ns]).isPrefixOf l) := by
    rw [Browser.respond, hstored]
    dsimp only
    rw [if_neg]
    exact fun hnot => hnot.1 hchildren
  rw [removeInternal, meets_bind]
  refine resolveParent_opens (opens_serves b) hv' hs hsparent ?_
  rw [meets_orElse]
  exact meets_follows (fun _ _ _ h => h) hremoved rfl

/-- A browser that rejects every native move and every listing. -/
def interrupted (b : Browser) : (o : OpfsOp) → Tree → OpfsAns o × Tree
  | .move _ _, t => (.error (.dom .other), t)
  | .entries _, t => (.error (.dom .other), t)
  | o, t => b.respond o t

theorem interrupted_faulty (t : Tree) (o : OpfsOp) (ans : OpfsAns o) (t' : Tree)
    (h : Responds (interrupted b) t o ans t') : Opfs.Faulty b t o ans t' := by
  have hrespond : interrupted b o t = (ans, t') := h
  cases o with
  | move s d =>
      cases hrespond
      exact .rejected _ _ _ nofun
  | entries dir =>
      cases hrespond
      exact .rejected _ _ _ nofun
  | init | write | abort | hasMove | getDirectoryHandle | getFileHandle | arrayBuffer
  | createWritable | close | removeEntry => exact .served hrespond

theorem opens_interrupted (b : Browser) : Opens b (Responds (interrupted b)) :=
  ⟨fun _ _ _ h => h, fun _ _ _ _ _ _ h => h⟩

/-- A rename whose native move and listing are rejected has made the destination. -/
theorem afterReads_interrupted (hv : t.Valid) (hs : Names s) (hd : Names d)
    (hdir : t.lookup s = some .dir) (hdroot : d ≠ []) (hparent : t.isDir d.dropLast)
    (hfree : t.lookup d = none) :
    Meets (Responds (interrupted b)) (fun _ _ => True) (fun _ _ _ => False)
      (fun _ _ t' => t' = AList.insert d .dir t) (afterReads depth s d) () t := by
  refine afterReads_copies (fun _ _ _ h => h) (fun ans t' h => ?_) ?_
  · have hrespond : interrupted b (.move s d) t = (ans, t') := h
    cases hrespond
    exact ⟨rfl, nofun⟩
  rw [meets_bind]
  refine copyHandle_opens hv hs hd hdir hdroot hparent (opens_interrupted b) hfree ?_
  have hcopy : ∀ copyDir, Meets (Responds (interrupted b)) (fun _ _ => True) (fun _ _ _ => False)
      (fun e _ t' => e = .dom .other ∧ t' = AList.insert d .dir t) (copyEntries copyDir s d) ()
      (t.insert d .dir) := by
    intro copyDir
    rw [copyEntries, meets_bind]
    refine meets_ask (fun _ _ h => ?_) fun e t' h => ?_
    · have hrespond : interrupted b (.entries s) (t.insert d .dir) = _ := h
      cases hrespond
    · have hrespond : interrupted b (.entries s) (t.insert d .dir) = _ := h
      cases hrespond
      exact ⟨rfl, rfl⟩
  cases depth with
  | zero => exact (hcopy _).imp (fun _ _ _ h => h.elim) fun _ _ _ h => h
  | succ depth => exact (hcopy _).imp (fun _ _ _ h => h.elim) fun _ _ _ h => h

end Steps

end Moving

section Reference

variable {db db' : Db} {t t' : Tree} {s d : List Text} {now : ℤ}

theorem sameTree_none (h : SameTree db t) {l : List Text} (hl : Names l) (hroot : l ≠ []) :
    db.lookup (render l) = none ↔ t.lookup l = none := by
  rw [← h l hl hroot, Option.map_eq_none_iff]

theorem nodeOf_eq_dir {r : EntryRecord} : nodeOf r = .dir ↔ r.kind = .dir := by
  unfold nodeOf
  split <;> simp_all

theorem sameTree_isDir (h : SameTree db t) {l : List Text} (hl : Names l) :
    t.isDir l ↔ l = [] ∨ db.isDir (render l) := by
  rw [isDir_eq_true]
  by_cases hroot : l = []
  · simp [hroot]
  · rw [← h l hl hroot, Option.map_eq_some_iff, IdbTree.isDir_iff]
    simp only [nodeOf_eq_dir]

/-- The reads of the transaction refuse a rename that moves nothing. -/
theorem renameTx_idle (hdb : Rooted db) (h : SameTree db t) (hs : Names s) (hd : Names d)
    (hunder : ¬ s <+: d)
    (hidle : t.lookup s = none ∨ (d ≠ [] ∧ t.lookup d = none ∧ t.isDir d.dropLast = false))
    (now : ℤ) : ∃ e, renameTx (render s) (render d) now db = (.error e, db) ∧
      e.code ≠ .alreadyExists := by
  have hsroot : s ≠ [] := by
    rintro rfl
    exact hunder List.nil_prefix
  rw [renameTx, renameReads_eq hdb hs hd]
  split
  next e hreads =>
    refine ⟨e, rfl, ?_⟩
    split at hreads
    next =>
      cases hreads
      intro hcode
      cases hcode
    next hsource =>
      split at hreads
      next htarget =>
        rcases hidle with hmissing | ⟨hdroot, hfree, -⟩
        · rw [(sameTree_none h hs hsroot).mpr hmissing] at hsource
          exact absurd rfl hsource
        · rw [(sameTree_none h hd hdroot).mpr hfree] at htarget
          cases htarget
      next =>
        split at hreads
        next =>
          cases hreads
          intro hcode
          cases hcode
        next => cases hreads
  next records hreads =>
    split at hreads
    next => cases hreads
    next hsource =>
      split at hreads
      next => cases hreads
      next =>
        split at hreads
        next => cases hreads
        next hparent =>
          rcases hidle with hmissing | ⟨-, -, hnodir⟩
          · rw [(sameTree_none h hs hsroot).mpr hmissing] at hsource
            exact absurd rfl hsource
          · have hnot := mt (sameTree_isDir h (names_dropLast hd)).mpr (by simp [hnodir])
            obtain ⟨hne, hdir⟩ := not_or.mp hnot
            exact absurd ⟨hne, by simpa using hdir⟩ hparent

theorem renameTx_exists (hdb : Rooted db) (h : SameTree db t) (hs : Names s) (hd : Names d)
    (hsroot : s ≠ []) (hdroot : d ≠ []) (hsource : t.lookup s ≠ none) (htarget : t.lookup d ≠ none)
    (now : ℤ) : ∃ e, renameTx (render s) (render d) now db = (.error e, db) ∧
      e.code = .alreadyExists := by
  have hsource' := mt (sameTree_none h hs hsroot).mp hsource
  have htarget' := mt (sameTree_none h hd hdroot).mp htarget
  rw [renameTx, renameReads_eq hdb hs hd, if_neg (by simpa using hsource'),
    if_pos (by simpa [Option.isSome_iff_ne_none] using htarget')]
  exact ⟨_, rfl, rfl⟩

theorem renames_of (h : SameTree db t) (hs : Names s) (hd : Names d) (hsroot : s ≠ [])
    (hdroot : d ≠ []) (hsource : t.lookup s ≠ none) (htarget : t.lookup d = none)
    (hparent : t.isDir d.dropLast) : Renames s d db where
  source := Option.ne_none_iff_exists'.mp (mt (sameTree_none h hs hsroot).mp hsource)
  target := (sameTree_none h hd hdroot).mpr htarget
  parentDir := (sameTree_isDir h (names_dropLast hd)).mp hparent

theorem moveRecords_ok {src dst : Text} {rs : List EntryRecord}
    (hrs : ∀ r ∈ rs, ∃ p, parentPath (dst ++ r.path.drop src.length) = .ok p) (db : Db) :
    (moveRecords src dst now rs db).1 = .ok () := by
  induction rs generalizing db with
  | nil => rfl
  | cons r rs ih =>
      obtain ⟨p, hp⟩ := hrs r List.mem_cons_self
      rw [moveRecords, hp]
      exact ih (fun r' hr' => hrs r' (List.mem_cons_of_mem _ hr')) _

/-- Nothing stops a rename onto the root. -/
theorem renameTx_root (hdb : Rooted db) (h : SameTree db t) (hs : Names s) (hsroot : s ≠ [])
    (hsource : t.lookup s ≠ none) (now : ℤ) : (renameTx (render s) (render []) now db).1 = .ok () := by
  have hsource' := mt (sameTree_none h hs hsroot).mp hsource
  have hroot : db.lookup (render []) = none := by
    cases hr : db.lookup (render []) with
    | none => rfl
    | some r => exact absurd rfl (hdb.placed names_nil hr).notRoot
  rw [renameTx, renameReads_eq hdb hs names_nil, if_neg (by simpa using hsource'), hroot,
    if_neg (fun hnone => by cases hnone), if_neg (by simp)]
  refine moveRecords_ok (fun r hr => ?_) db
  obtain ⟨hvalue, hu⟩ := List.mem_filter.mp hr
  obtain ⟨l, hl⟩ := hdb.values_placed r hvalue
  obtain ⟨x, rfl⟩ := (under_iff hl hs).mp (of_decide_eq_true hu)
  have hx := (names_append.mp hl.names).2
  have hne : s ++ x ≠ [] := fun heq => hsroot (List.append_eq_nil_iff.mp heq).1
  have hdrop : r.path.drop (render s).length = suffix x := by
    rw [hl.path, render_eq_suffix hne, render_eq_suffix hsroot, suffix_append, List.drop_left]
  have hnorm : normalizePath ('/' :: suffix x) = .ok (render x) := by
    rw [normalizePath, if_neg (List.cons_ne_nil _ _), splitOn_cons_slash, splitOn_suffix hx,
      keepSegments, if_pos (.inl rfl), keepSegments, if_pos (.inl rfl), keepSegments_names _ hx]
    rfl
  have hparent : parentPath ('/' :: suffix x) = parentPath (render x) := by
    rw [parentPath, parentPath, hnorm, normalizePath_render hx]
  refine ⟨render x.dropLast, ?_⟩
  rw [hdrop, ← parentPath_render hx, ← hparent]
  rfl

theorem nodeOf_relocated (x : List Text) (r : EntryRecord) :
    nodeOf (relocated s d x now r) = nodeOf r := rfl

/-- A tree in which the subtree has moved is the one that the records hold then. -/
theorem sameTree_relocated (hdb : Rooted db) (h : SameTree db t) (hs : Names s) (hd : Names d)
    (hsroot : s ≠ []) (hdroot : d ≠ []) (hren : Renames s d db) (hrel : Relocates s d now db db')
    (ht' : ∀ l, t'.lookup l = movedLookup t s d l) : SameTree db' t' := by
  have hnone : ∀ l, Names l → ¬ d <+: l → (db.lookup (render l) = none ∨ s <+: l) →
      db'.lookup (render l) = none := by
    intro l hl hnot hgone
    cases hr : db'.lookup (render l) with
    | none => rfl
    | some r' =>
        rcases hrel.only _ r' hr with ⟨x, r, hx, -, hpath, -⟩ | ⟨hold, hu⟩
        · rw [render_inj hl (names_swap hd hx) hpath] at hnot
          exact absurd (List.prefix_append d x) hnot
        · rcases hgone with hgone | hpre
          · rw [hgone] at hold
            cases hold
          · exact absurd ((under_iff (hdb.placed hl hold) hs).mpr hpre) hu
  intro l hl hroot
  rw [ht', movedLookup]
  split
  next hpre =>
    obtain ⟨x, rfl⟩ := hpre
    have hx : Names (s ++ x) := names_swap hs hl
    rw [List.drop_left, ← h (s ++ x) hx (by simp [hsroot])]
    cases hr : db.lookup (render (s ++ x)) with
    | some r =>
        rw [hrel.moved x r hx hr, Option.map_some, Option.map_some, nodeOf_relocated]
    | none =>
        cases hr' : db'.lookup (render (d ++ x)) with
        | none => rfl
        | some r' =>
            rcases hrel.only _ r' hr' with ⟨y, r, hy, hold, hpath, -⟩ | ⟨hold, -⟩
            · rw [append_inj_names hl (names_swap hd hy) hpath, hold] at hr
              cases hr
            · rw [hren.nothing_below hdb hdroot hl] at hold
              cases hold
  next hnot =>
    split
    next hpre =>
      rw [hnone l hl hnot (.inr hpre)]
      rfl
    next hpre =>
      rw [← h l hl hroot]
      cases hr : db.lookup (render l) with
      | none => rw [hnone l hl hnot (.inl hr)]
      | some r =>
          rw [hrel.kept _ r hr fun hu => hpre ((under_iff (hdb.placed hl hr) hs).mp hu)]

end Reference

section Agreement

variable {b : Browser} {depth : ℕ} {db : Db} {t : Tree} {fromPath toPath : Text}

/-- A path that is not valid stops both renames alike. -/
theorem meets_invalid {R : Answers OpfsOp OpfsAns Tree}
    (h : ∀ s d, normalizePath fromPath = .ok s → normalizePath toPath ≠ .ok d) :
    ∃ e, Meets R (fun _ _ => True) (fun _ _ _ => False)
        (fun e' _ t' => e' = .storage e ∧ t' = t) (Opfs.rename depth fromPath toPath) () t ∧
      Runs (fun _ => False) (fun e' db' => e' = .storage e ∧ db' = db)
        (Idb.rename fromPath toPath) ⟨db, KeyedMutex.empty⟩ := by
  rw [Opfs.rename, Idb.rename]
  cases hfrom : normalizePath fromPath with
  | error e =>
      refine ⟨e, ?_, ?_⟩
      · rw [meets_bind]
        exact meets_pathResult nofun fun e' he' => by cases he'; exact ⟨rfl, rfl⟩
      · rw [Runs, meets_bind]
        refine (meets_ofExcept ..).mpr ⟨nofun, fun e' he' => ?_⟩
        cases he'
        exact ⟨rfl, rfl⟩
  | ok s =>
      cases hto : normalizePath toPath with
      | ok d => exact absurd hto (h s d hfrom)
      | error e =>
          refine ⟨e, ?_, ?_⟩
          · rw [meets_bind]
            refine meets_pathResult (fun _ _ => ?_) nofun
            rw [meets_bind]
            exact meets_pathResult nofun fun e' he' => by cases he'; exact ⟨rfl, rfl⟩
          · rw [Runs, meets_bind]
            refine (meets_ofExcept ..).mpr ⟨fun _ _ => ?_, nofun⟩
            rw [meets_bind]
            refine (meets_ofExcept ..).mpr ⟨nofun, fun e' he' => ?_⟩
            cases he'
            exact ⟨rfl, rfl⟩

/-- Two renames agree when the ends that their calls may have agree. -/
theorem refines_of {Qo : Tree → Prop} {Eo : Failure → Tree → Prop} {Qi : Db → Prop}
    {Ei : Failure → Db → Prop}
    (hopfs : Meets (Opfs.Serves b) (fun _ _ => True) (fun _ _ t' => Qo t') (fun e _ t' => Eo e t')
      (Opfs.rename depth fromPath toPath) () t)
    (hidb : Runs Qi Ei (Idb.rename fromPath toPath) ⟨db, KeyedMutex.empty⟩)
    (hok : ∀ t' db', Qo t' → Qi db' → SameTree db' t')
    (herror : ∀ e t' e' db', Eo e t' → Ei e' db' → SameTree db' t' ∧
      (codeOf (.error e') = some .alreadyExists → codeOf (.error e) = some .alreadyExists))
    (hfirst : ∀ t' e' db', Qo t' → ¬ Ei e' db') (hsecond : ∀ e t' db', Eo e t' → ¬ Qi db') :
    Refines b depth db t fromPath toPath := by
  intro out t' out' w' hexec hexec'
  have ho := Holds.exec hopfs hexec
  have hi := Holds.exec hidb hexec'
  cases out with
  | ok =>
      cases out' with
      | ok => exact ⟨rfl, hok _ _ ho hi, nofun⟩
      | error e' => exact absurd hi (hfirst _ _ _ ho)
  | error e =>
      cases out' with
      | ok => exact absurd hi (hsecond _ _ _ ho)
      | error e' =>
          obtain ⟨hsame, hcode⟩ := herror _ _ _ _ ho hi
          exact ⟨rfl, hsame, hcode⟩

/-- A call of the IndexedDB backend alone ends in what every run of it ends in. -/
theorem exec_of_runs {Q : Db → Prop} {E : Failure → Db → Prop} {m : IdbM Unit} {w : World}
    (h : Runs Q E m w) : ∃ out w', Exec Idb.Serves w (m.call ()) (out, ()) w' ∧
      ((out = .ok () ∧ Q w'.db) ∨ ∃ e, out = .error e ∧ E e w'.db) := by
  obtain ⟨⟨out, _⟩, w', hexec, hend⟩ := Holds.exists_exec h fun _ _ henabled => henabled
  refine ⟨out, w', hexec, ?_⟩
  cases out with
  | ok => exact .inl ⟨rfl, hend⟩
  | error e => exact .inr ⟨e, rfl, hend⟩

/-- Renames that agree have ends of their calls that agree. -/
theorem ends_of_refines {Qo : Tree → Prop} {Eo : Failure → Tree → Prop} {Qi : Db → Prop}
    {Ei : Failure → Db → Prop} (h : Refines b depth db t fromPath toPath)
    (hopfs : Meets (Opfs.Serves b) (fun _ _ => True) (fun _ _ t' => Qo t') (fun e _ t' => Eo e t')
      (Opfs.rename depth fromPath toPath) () t)
    (hidb : Runs Qi Ei (Idb.rename fromPath toPath) ⟨db, KeyedMutex.empty⟩) :
    (∃ t' db', Qo t' ∧ Qi db') ∨
      ∃ e t' e' db', Eo e t' ∧ Ei e' db' ∧
        (codeOf (.error e') = some .alreadyExists → codeOf (.error e) = some .alreadyExists) := by
  have hexec := exec_eval b.respond ((Opfs.rename depth fromPath toPath).call ()) t
  have hend := Holds.exec hopfs hexec
  generalize eval b.respond ((Opfs.rename depth fromPath toPath).call ()) t = run at *
  obtain ⟨⟨out, _⟩, t'⟩ := run
  obtain ⟨out', w', hexec', hend'⟩ := exec_of_runs hidb
  obtain ⟨hok, -, hcode⟩ := h out t' out' w' hexec hexec'
  rcases hend' with ⟨rfl, hQi⟩ | ⟨e', rfl, hEi⟩
  · cases out with
    | ok => exact .inl ⟨t', w'.db, hend, hQi⟩
    | error e => cases hok
  · cases out with
    | ok => cases hok
    | error e => exact .inr ⟨e, t', e', w'.db, hend, hEi, hcode⟩

theorem keeps_of {Q : Tree → Prop} {E : Failure → Prop}
    (h : Meets (Opfs.Faulty b) (fun _ _ => True) (fun _ _ t' => Q t')
      (fun e _ t' => E e ∧ t' = t) (Opfs.rename depth fromPath toPath) () t) :
    KeepsOnFailure b depth t fromPath toPath := by
  intro e t' hexec l
  have hend := Holds.exec h hexec
  rw [hend.2]

theorem serves_of_faulty {Q : Unit → Unit → Tree → Prop} {E : Failure → Unit → Tree → Prop}
    {m : OpfsM Unit} (h : Meets (Opfs.Faulty b) (fun _ _ => True) Q E m () t) :
    Meets (Opfs.Serves b) (fun _ _ => True) Q E m () t :=
  Holds.of_le h fun _ _ _ _ hans => .served hans

/-- A rename that moves nothing agrees, and changes nothing whatever fails. -/
theorem idle_refines (hdb : Rooted db) (hsame : SameTree db t)
    (hidle : Idle t fromPath toPath) :
    Refines b depth db t fromPath toPath ∧ KeepsOnFailure b depth t fromPath toPath := by
  by_cases hvalid : ∃ s d, normalizePath fromPath = .ok s ∧ normalizePath toPath = .ok d
  · obtain ⟨_, _, hfrom, hto⟩ := hvalid
    obtain ⟨s, hs, rfl⟩ := normalizePath_eq_ok hfrom
    obtain ⟨d, hd, rfl⟩ := normalizePath_eq_ok hto
    -- the rename ends well exactly when it names one path twice
    have hopfs : Meets (Opfs.Faulty b) (fun _ _ => True) (fun _ _ t' => (s ≠ [] ∧ s = d) ∧ t' = t)
        (fun _ _ t' => ¬ (s ≠ [] ∧ s = d) ∧ t' = t) (Opfs.rename depth fromPath toPath) () t := by
      refine meets_rename hs hd hfrom hto (fun hroot => ⟨fun h => h.1 hroot, rfl⟩)
        (fun hne heq => ⟨⟨hne, heq⟩, rfl⟩) (fun _ hne _ => ⟨fun h => hne h.2, rfl⟩) fun hunder => ?_
      refine (renameLocked_refused b depth hs hd ?_).imp (fun _ _ _ h => h.elim)
        fun _ _ _ h => ⟨fun heq => hunder ?_, h⟩
      · rintro ⟨hstored, hdroot, hparent⟩
        rcases hidle s d hs hd hfrom hto with hin | hmissing | ⟨-, -, hnodir⟩
        · exact hunder hin
        · rw [hmissing] at hstored
          cases hstored
        · rw [hnodir] at hparent
          cases hparent
      · rw [heq.2]
    have hfails : ¬ s <+: d → ∀ now, ∃ e, renameTx (render s) (render d) now db = (.error e, db) ∧
        e.code ≠ .alreadyExists := by
      intro hunder now
      exact renameTx_idle hdb hsame hs hd hunder
        ((hidle s d hs hd hfrom hto).resolve_left hunder) now
    have hidb : Runs (fun db' => (s ≠ [] ∧ s = d) ∧ db' = db)
        (fun e db' => ¬ (s ≠ [] ∧ s = d) ∧ db' = db ∧ codeOf (.error e) ≠ some .alreadyExists)
        (Idb.rename fromPath toPath) ⟨db, KeyedMutex.empty⟩ := by
      refine runs_rename hs hd hfrom hto (fun hroot => ⟨fun h => h.1 hroot, rfl, nofun⟩)
        (fun hne heq => ⟨⟨hne, heq⟩, rfl⟩) (fun _ hne _ => ⟨fun h => hne h.2, rfl, nofun⟩)
        (fun hunder now db' htx => ?_) fun hunder now e db' htx => ?_
      · obtain ⟨e, herror, -⟩ := hfails hunder now
        rw [herror] at htx
        cases htx
      · obtain ⟨e', herror, hcode⟩ := hfails hunder now
        rw [herror] at htx
        cases htx
        refine ⟨fun h => hunder ?_, rfl, fun h => hcode (Option.some.inj h)⟩
        rw [h.2]
    refine ⟨refines_of (serves_of_faulty hopfs) hidb (fun t' db' ho hi => ?_)
      (fun e t' e' db' ho hi => ?_) (fun t' e' db' ho hi => hi.1 ho.1)
      fun e t' db' ho hi => ho.1 hi.1, keeps_of hopfs⟩
    · rw [ho.2, hi.2]
      exact hsame
    · rw [ho.2, hi.2.1]
      exact ⟨hsame, fun h => absurd h hi.2.2⟩
  · have hinvalid : ∀ s d, normalizePath fromPath = .ok s → normalizePath toPath ≠ .ok d :=
      fun s d hs hd => hvalid ⟨s, d, hs, hd⟩
    obtain ⟨e, hopfs, hidb⟩ := meets_invalid (R := Opfs.Faulty b) hinvalid
    refine ⟨refines_of (serves_of_faulty hopfs) hidb (fun _ _ ho => ho.elim)
      (fun e₁ t' e₂ db' ho hi => ?_) (fun _ _ _ ho => ho.elim) fun _ _ _ _ hi => hi, keeps_of hopfs⟩
    rw [ho.2, hi.2, ho.1, hi.1]
    exact ⟨hsame, fun h => h⟩

section Moves

variable {s d : List Text} (hdb : Rooted db) (ht : t.Valid) (hsame : SameTree db t)
variable (hs : Names s) (hd : Names d) (hfrom : normalizePath fromPath = .ok (render s))
variable (hto : normalizePath toPath = .ok (render d))

theorem FreePlace.sourceNotRoot (h : FreePlace t s d) : s ≠ [] := by
  rintro rfl
  exact h.apart List.nil_prefix

/-- Something below a directory is below one of its entries. -/
theorem child_of_below (ht : t.Valid) {x : List Text} (hx : x ≠ [])
    (hstored : t.lookup (s ++ x) ≠ none) : ∃ name, t.lookup (s ++ [name]) ≠ none := by
  obtain ⟨name, rest, rfl⟩ := List.exists_cons_of_ne_nil hx
  refine ⟨name, ?_⟩
  obtain ⟨node, hnode⟩ := Option.ne_none_iff_exists'.mp hstored
  by_cases hrest : rest = []
  · rw [hrest] at hstored
    exact hstored
  · rw [List.append_cons] at hnode
    have hdir := isDir_of_stored ht hrest hnode
    rcases isDir_eq_true.mp hdir with hroot | hname
    · exact absurd hroot (by simp)
    · rw [hname]
      nofun

/-- A valid tree has nothing below a free place. -/
theorem FreePlace.nothing_below (h : FreePlace t s d) (ht : t.Valid) (x : List Text) :
    t.lookup (d ++ x) = none := by
  by_cases hx : x = []
  · rw [hx, List.append_nil]
    exact h.free
  · cases hstored : t.lookup (d ++ x) with
    | none => rfl
    | some node =>
        have hdir := (isDir_eq_true.mp (isDir_of_stored ht hx hstored)).resolve_left h.notRoot
        rw [h.free] at hdir
        cases hdir

/-- The source of a rename is not below its free place. -/
theorem FreePlace.not_below (h : FreePlace t s d) (ht : t.Valid) (hsource : t.lookup s ≠ none) :
    ¬ d <+: s := by
  rintro ⟨x, rfl⟩
  exact hsource (h.nothing_below ht x)

/-- Making the destination and taking out an empty source moves the directory. -/
theorem lookup_moved_empty (ht : t.Valid) (hdir : t.lookup s = some .dir) (h : FreePlace t s d)
    (hempty : ∀ x, x ≠ [] → t.lookup (s ++ x) = none) (l : List Text) :
    AList.lookup l (select (AList.insert d .dir t) fun l _ => !s.isPrefixOf l) =
      movedLookup t s d l := by
  have hsource : t.lookup s ≠ none := by
    rw [hdir]
    nofun
  have hiff : s.isPrefixOf l = true ↔ s <+: l := List.isPrefixOf_iff_prefix
  rw [movedLookup, lookup_select, lookup_insert_eq]
  by_cases hpre : d <+: l
  · have hbelow : s.isPrefixOf l = false := by
      rw [Bool.eq_false_iff, ne_eq, hiff]
      intro hs
      exact (List.prefix_or_prefix_of_prefix hs hpre).elim h.apart (h.not_below ht hsource)
    rw [if_pos hpre]
    obtain ⟨x, rfl⟩ := hpre
    rw [List.drop_left]
    by_cases hx : x = []
    · subst hx
      rw [List.append_nil] at hbelow
      rw [List.append_nil, List.append_nil, if_pos rfl, hdir, Option.filter_some, hbelow]
      rfl
    · rw [if_neg (by simpa using hx), h.nothing_below ht x, hempty x hx]
      rfl
  · have hne : l ≠ d := by
      rintro rfl
      exact hpre (List.prefix_refl l)
    rw [if_neg hpre, if_neg hne]
    split
    next hunder => simp [hiff.mpr hunder]
    next hunder =>
      have hfalse : s.isPrefixOf l = false := by
        rw [Bool.eq_false_iff, ne_eq, hiff]
        exact hunder
      rw [hfalse]
      cases t.lookup l <;> rfl

include hs hd hfrom hto

/-- A rename to a place outside its source is what its locked part is. -/
theorem meets_outside {R : Answers OpfsOp OpfsAns Tree} {Q : Unit → Unit → Tree → Prop}
    {E : Failure → Unit → Tree → Prop} (hunder : ¬ s <+: d)
    (h : Meets R (fun _ _ => True) Q E (renameLocked depth (render s) (render d)) () t) :
    Meets R (fun _ _ => True) Q E (Opfs.rename depth fromPath toPath) () t := by
  have hsroot : s ≠ [] := by
    rintro rfl
    exact hunder List.nil_prefix
  refine meets_rename hs hd hfrom hto (fun hroot => absurd hroot hsroot) (fun _ heq => ?_)
    (fun _ _ hin => absurd hin hunder) fun _ => h
  exact absurd (heq ▸ List.prefix_refl s) hunder

theorem runs_outside {Q : Db → Prop} {E : Failure → Db → Prop} (hunder : ¬ s <+: d)
    (hok : ∀ now db', renameTx (render s) (render d) now db = (.ok (), db') → Q db')
    (herror : ∀ now e db', renameTx (render s) (render d) now db = (.error e, db') →
      E (.storage e) db') :
    Runs Q E (Idb.rename fromPath toPath) ⟨db, KeyedMutex.empty⟩ := by
  have hsroot : s ≠ [] := by
    rintro rfl
    exact hunder List.nil_prefix
  refine runs_rename hs hd hfrom hto (fun hroot => absurd hroot hsroot) (fun _ heq => ?_)
    (fun _ _ hin => absurd hin hunder) (fun _ => hok) fun _ => herror
  exact absurd (heq ▸ List.prefix_refl s) hunder

include hdb hsame

/-- The reference moves what is stored to a free place. -/
theorem runs_moving (hsource : t.lookup s ≠ none) (hplace : FreePlace t s d) :
    Runs (fun db' => ∃ now, Relocates s d now db db') (fun _ _ => False)
      (Idb.rename fromPath toPath) ⟨db, KeyedMutex.empty⟩ := by
  have hsroot := hplace.sourceNotRoot
  have hren := renames_of hsame hs hd hsroot hplace.notRoot hsource hplace.free hplace.parent
  refine runs_outside hs hd hfrom hto hplace.apart (fun now db' htx => ?_) fun now e db' htx => ?_
  · obtain ⟨db₁, hrename, hrel⟩ :=
      hdb.relocates hs hd hsroot hplace.notRoot hplace.apart hren now
    rw [hrename] at htx
    cases htx
    exact ⟨now, hrel⟩
  · obtain ⟨db₁, hrename, -⟩ :=
      hdb.relocates hs hd hsroot hplace.notRoot hplace.apart hren now
    rw [hrename] at htx
    cases htx

include ht

/-- A rename that moves a directory natively, or an empty one, agrees. -/
theorem moves_refines (hmove : MovesSubtrees b) (hdir : t.lookup s = some .dir)
    (hplace : FreePlace t s d)
    (hhow : Accepts b t s d ∨ ∀ x, x ≠ [] → t.lookup (s ++ x) = none) :
    Refines b depth db t fromPath toPath := by
  have hsroot := hplace.sourceNotRoot
  have hsource : t.lookup s ≠ none := by
    rw [hdir]
    nofun
  have hren := renames_of hsame hs hd hsroot hplace.notRoot hsource hplace.free hplace.parent
  have hopfs : Meets (Opfs.Serves b) (fun _ _ => True)
      (fun _ _ t' => ∀ l, t'.lookup l = movedLookup t s d l) (fun _ _ _ => False)
      (Opfs.rename depth fromPath toPath) () t := by
    refine meets_outside hs hd hfrom hto hplace.apart ?_
    refine renameLocked_opens ht hs hd hdir hplace.notRoot hplace.parent (opens_serves b) ?_
    by_cases hacc : Accepts b t s d
    · obtain ⟨move, t₁, hb, hmoved⟩ := hacc
      refine (afterReads_accepted hb hmoved).imp (fun _ _ t' ht' => ?_) fun _ _ _ h => h
      subst ht'
      exact hmove move t s d _ hb hmoved ht hdir hplace
    · have hempty := hhow.resolve_left hacc
      refine (afterReads_empty ht hs hd hdir hplace.notRoot hplace.parent hplace.free hplace.apart
        hacc hempty).imp (fun _ _ t' ht' => ?_) fun _ _ _ h => h
      subst ht'
      exact lookup_moved_empty ht hdir hplace hempty
  refine refines_of hopfs (runs_moving hdb hsame hs hd hfrom hto hsource hplace)
    (fun t' db' ho hi => ?_) (fun _ _ _ _ ho => ho.elim) (fun _ _ _ _ hi => hi)
    fun _ _ _ ho => ho.elim
  obtain ⟨now, hrel⟩ := hi
  exact sameTree_relocated hdb hsame hs hd hsroot hplace.notRoot hren hrel ho

omit hdb hsame in
/-- When the listing of the source fails, the destination that has been made
stays. -/
theorem moves_not_keeps (hdir : t.lookup s = some .dir) (hplace : FreePlace t s d) :
    ¬ KeepsOnFailure b depth t fromPath toPath := by
  intro hkeeps
  have hend : Meets (Responds (interrupted b)) (fun _ _ => True) (fun _ _ _ => False)
      (fun _ _ t' => t' = AList.insert d .dir t) (Opfs.rename depth fromPath toPath) () t :=
    meets_outside hs hd hfrom hto hplace.apart
      (renameLocked_opens ht hs hd hdir hplace.notRoot hplace.parent (opens_interrupted b)
        (afterReads_interrupted ht hs hd hdir hplace.notRoot hplace.parent hplace.free))
  have hexec := exec_eval (interrupted b) ((Opfs.rename depth fromPath toPath).call ()) t
  have hleft := Holds.exec hend hexec
  generalize eval (interrupted b) ((Opfs.rename depth fromPath toPath).call ()) t = run at *
  obtain ⟨⟨out, _⟩, t'⟩ := run
  cases out with
  | ok => exact hleft
  | error e =>
      have hinsert : t' = AList.insert d .dir t := hleft
      have hkept := hkeeps e t' (Steps.mono interrupted_faulty hexec) d
      rw [hinsert, lookup_insert_eq, if_pos rfl, hplace.free] at hkept
      cases hkept

omit hdb hsame ht in
/-- Unless it moves a directory to a free place, no rename ends well. -/
theorem meets_refused (hunder : ¬ s <+: d)
    (h : ¬ (t.lookup s = some .dir ∧ d ≠ [] ∧ t.isDir d.dropLast)) :
    Meets (Opfs.Serves b) (fun _ _ => True) (fun _ _ _ => False) (fun _ _ _ => True)
      (Opfs.rename depth fromPath toPath) () t :=
  meets_outside hs hd hfrom hto hunder (serves_of_faulty
    ((renameLocked_refused b depth hs hd h).imp (fun _ _ _ h => h) fun _ _ _ _ => trivial))

omit ht in
/-- An existing destination is not reported as one. -/
theorem exists_not_refines (hunder : ¬ s <+: d) (hsource : t.lookup s ≠ none) (hdroot : d ≠ [])
    (htarget : t.lookup d ≠ none) : ¬ Refines b depth db t fromPath toPath := by
  intro h
  have hsroot : s ≠ [] := by
    rintro rfl
    exact hunder List.nil_prefix
  have hfails := renameTx_exists hdb hsame hs hd hsroot hdroot hsource htarget
  have hidb : Runs (fun _ => False) (fun e _ => codeOf (.error e) = some .alreadyExists)
      (Idb.rename fromPath toPath) ⟨db, KeyedMutex.empty⟩ := by
    refine runs_outside hs hd hfrom hto hunder (fun now db' htx => ?_) fun now e db' htx => ?_
    · obtain ⟨e, herror, -⟩ := hfails now
      rw [herror] at htx
      cases htx
    · obtain ⟨e', herror, hcode⟩ := hfails now
      rw [herror] at htx
      cases htx
      exact congrArg Option.some hcode
  have hopfs : Meets (Opfs.Serves b) (fun _ _ => True) (fun _ _ _ => True)
      (fun e _ _ => codeOf (.error e) ≠ some .alreadyExists) (Opfs.rename depth fromPath toPath)
      () t :=
    meets_outside hs hd hfrom hto hunder (rename_never_exists b depth _ _)
  rcases ends_of_refines h hopfs hidb with ⟨_, _, -, hnone⟩ | ⟨_, _, _, _, hne, hcode, himp⟩
  · exact hnone
  · exact hne (himp hcode)

omit ht in
/-- A rename onto the root fails here and not there. -/
theorem root_not_refines (hunder : ¬ s <+: d) (hsource : t.lookup s ≠ none) (hdroot : d = []) :
    ¬ Refines b depth db t fromPath toPath := by
  intro h
  have hsroot : s ≠ [] := by
    rintro rfl
    exact hunder List.nil_prefix
  have hidb : Runs (fun _ => True) (fun _ _ => False) (Idb.rename fromPath toPath)
      ⟨db, KeyedMutex.empty⟩ := by
    refine runs_outside hs hd hfrom hto hunder (fun _ _ _ => trivial) fun now e db' htx => ?_
    have hok := renameTx_root hdb hsame hs hsroot hsource now
    rw [← hdroot, htx] at hok
    cases hok
  have hopfs : Meets (Opfs.Serves b) (fun _ _ => True) (fun _ _ _ => False) (fun _ _ _ => True)
      (Opfs.rename depth fromPath toPath) () t :=
    meets_refused hs hd hfrom hto hunder fun hplace => hplace.2.1 hdroot
  rcases ends_of_refines h hopfs hidb with ⟨_, _, hnone, -⟩ | ⟨_, _, _, _, -, hnone, -⟩
  · exact hnone
  · exact hnone

/-- A file is not moved, and neither is a directory with an entry that the
browser does not move natively. -/
theorem place_not_refines (hsource : t.lookup s ≠ none) (hplace : FreePlace t s d)
    (hhow : t.lookup s = some .dir →
      ¬ Accepts b t s d ∧ ∃ name, t.lookup (s ++ [name]) ≠ none) :
    ¬ Refines b depth db t fromPath toPath := by
  intro h
  have hidb := (runs_moving hdb hsame hs hd hfrom hto hsource hplace)
  have hopfs : Meets (Opfs.Serves b) (fun _ _ => True) (fun _ _ _ => False) (fun _ _ _ => True)
      (Opfs.rename depth fromPath toPath) () t := by
    by_cases hdir : t.lookup s = some .dir
    · obtain ⟨hacc, name, hfull⟩ := hhow hdir
      exact meets_outside hs hd hfrom hto hplace.apart
        (renameLocked_opens ht hs hd hdir hplace.notRoot hplace.parent (opens_serves b)
          (afterReads_full hs hacc hfull))
    · exact meets_refused hs hd hfrom hto hplace.apart fun hplace => hdir hplace.1
  rcases ends_of_refines h hopfs hidb with ⟨_, _, hnone, -⟩ | ⟨_, _, _, _, -, hnone, -⟩
  · exact hnone
  · exact hnone

end Moves

/-- Every other rename disagrees. -/
theorem otherwise_not_refines (hdb : Rooted db) (ht : t.Valid) (hsame : SameTree db t)
    (hidle : ¬ Idle t fromPath toPath) (hmoves : ¬ MovesDirectory b t fromPath toPath) :
    ¬ Refines b depth db t fromPath toPath := by
  simp only [Idle, not_forall, not_or] at hidle
  obtain ⟨s, d, hs, hd, hfrom, hto, hunder, hsource, hparent⟩ := hidle
  by_cases hdroot : d = []
  · exact root_not_refines hdb hsame hs hd hfrom hto hunder hsource hdroot
  by_cases htarget : t.lookup d = none
  · have hplace : FreePlace t s d := by
      refine ⟨hunder, hdroot, htarget, ?_⟩
      by_contra hnot
      exact hparent ⟨hdroot, htarget, Bool.eq_false_of_not_eq_true hnot⟩
    refine place_not_refines hdb ht hsame hs hd hfrom hto hsource hplace fun hdir => ?_
    obtain ⟨hacc, hbelow⟩ := not_or.mp
      fun hhow => hmoves ⟨s, d, hs, hd, hfrom, hto, hdir, hplace, hhow⟩
    refine ⟨hacc, ?_⟩
    by_contra hnone
    refine hbelow fun x hx => ?_
    by_contra hstored
    exact hnone (child_of_below ht hx hstored)
  · exact exists_not_refines hdb hsame hs hd hfrom hto hunder hsource hdroot htarget

/-- Where nothing fails, the renames agree when there is nothing to move and
when a directory goes to a free place natively or empty. That no failure leaves
a trace besides holds only of a rename that has nothing to move. -/
theorem rename_refines_iff (b : Browser) (depth : ℕ) (db : Db) (t : Tree) (fromPath toPath : Text)
    (hdb : Rooted db) (ht : t.Valid) (hsame : SameTree db t) (hmove : MovesSubtrees b) :
    (Refines b depth db t fromPath toPath ↔
      Idle t fromPath toPath ∨ MovesDirectory b t fromPath toPath) ∧
    (Refines b depth db t fromPath toPath ∧ KeepsOnFailure b depth t fromPath toPath ↔
      Idle t fromPath toPath) := by
  have hrefines : Refines b depth db t fromPath toPath →
      Idle t fromPath toPath ∨ MovesDirectory b t fromPath toPath := by
    intro h
    by_contra hnot
    obtain ⟨hidle, hmoves⟩ := not_or.mp hnot
    exact otherwise_not_refines hdb ht hsame hidle hmoves h
  refine ⟨⟨hrefines, ?_⟩, fun h => ?_, idle_refines hdb hsame⟩
  · rintro (hidle | ⟨s, d, hs, hd, hfrom, hto, hdir, hplace, hhow⟩)
    · exact (idle_refines hdb hsame hidle).1
    · exact moves_refines hdb ht hsame hs hd hfrom hto hmove hdir hplace hhow
  · rcases hrefines h.1 with hidle | ⟨s, d, hs, hd, hfrom, hto, hdir, hplace, -⟩
    · exact hidle
    · exact absurd h.2 (moves_not_keeps ht hs hd hfrom hto hdir hplace)

end Agreement

section Examples

/-- A record in the root. -/
def entryRecord (kind : Kind) : EntryRecord :=
  { path := ['/', 'a'], parent := ['/'], kind := kind, data := .text "", size := 0, mtime := 0
    ctime := 0 }

def entryDb (kind : Kind) : Db := AList.insert ['/', 'a'] (entryRecord kind) ∅

def entryTree (kind : Kind) : Tree := AList.insert [['a']] (nodeOf (entryRecord kind)) ∅

/-- A browser whose native move takes empty directories only. -/
def emptyMover : Browser where
  move := some fun t s d =>
    if t.lookup s = some .dir ∧ t.children s = [] then
      .ok (select (AList.insert d .dir t) fun l _ => !s.isPrefixOf l)
    else .error .other

theorem names_letter (c : Char) (hc : c ≠ '.' ∧ c ≠ '/') : Names [[c]] := by
  intro name hname
  rw [List.mem_singleton] at hname
  subst hname
  exact ⟨by simp, by simpa using hc.1, by simp, by simpa using hc.2.symm⟩

theorem names_source : Names [['a']] := names_letter 'a' (by decide)

theorem rooted_entryDb (kind : Kind) : Rooted (entryDb kind) := by
  have hplaced : Placed ∅ (entryRecord kind) [['a']] :=
    ⟨names_source, by simp, rfl, rfl, .inl rfl⟩
  exact rooted_empty.put hplaced fun _ => rfl

theorem valid_entryTree (kind : Kind) : (entryTree kind).Valid := by
  intro path node hpath
  rw [entryTree, lookup_insert_eq] at hpath
  split at hpath
  next heq =>
    subst heq
    exact ⟨by simp, names_source, rfl⟩
  next =>
    rw [AList.lookup_empty] at hpath
    cases hpath

theorem sameTree_entry (kind : Kind) : SameTree (entryDb kind) (entryTree kind) := by
  intro l hl _
  have hkey : render l = ['/', 'a'] ↔ l = [['a']] :=
    ⟨fun h => render_inj hl names_source h, fun h => congrArg render h⟩
  rw [entryDb, entryTree, lookup_insert_eq, lookup_insert_eq, AList.lookup_empty,
    AList.lookup_empty]
  simp only [hkey]
  split <;> rfl

theorem freePlace_entry (kind : Kind) : FreePlace (entryTree kind) [['a']] [['b']] where
  apart := by decide
  notRoot := by simp
  free := by cases kind <;> rfl
  parent := rfl

theorem movesSubtrees_emptyMover : MovesSubtrees emptyMover := by
  intro move t s d t' hb hmoved ht hdir hplace
  cases hb
  dsimp only at hmoved
  split at hmoved
  next hempty =>
    cases hmoved
    refine lookup_moved_empty ht hdir hplace fun x hx => ?_
    by_contra hstored
    obtain ⟨name, hname⟩ := child_of_below ht hx hstored
    exact hname (children_eq_nil.mp hempty.2 name)
  next => cases hmoved

/-- An empty directory is moved, and the move is not undone when it fails. -/
theorem rename_refines_iff_empty :
    Refines emptyMover 0 (entryDb .dir) (entryTree .dir) ['/', 'a'] ['/', 'b'] ∧
      ¬ (Refines emptyMover 0 (entryDb .dir) (entryTree .dir) ['/', 'a'] ['/', 'b'] ∧
        KeepsOnFailure emptyMover 0 (entryTree .dir) ['/', 'a'] ['/', 'b']) := by
  obtain ⟨hrefines, hkeeps⟩ := rename_refines_iff emptyMover 0 (entryDb .dir) (entryTree .dir)
    ['/', 'a'] ['/', 'b'] (rooted_entryDb .dir) (valid_entryTree .dir) (sameTree_entry .dir)
    movesSubtrees_emptyMover
  have hb := names_letter 'b' (by decide)
  have haccepts : Accepts emptyMover (entryTree .dir) [['a']] [['b']] := ⟨_, _, rfl, rfl⟩
  refine ⟨hrefines.mpr (.inr ⟨[['a']], [['b']], names_source, hb, rfl, rfl, rfl,
    freePlace_entry .dir, .inl haccepts⟩), fun h => ?_⟩
  rcases hkeeps.mp h [['a']] [['b']] names_source hb rfl rfl with hin | hmissing | hparent
  · exact (freePlace_entry .dir).apart hin
  · cases hmissing
  · cases hparent.2.2

/-- A file is not renamed at all. -/
theorem file_not_renamed :
    ¬ (Refines ⟨none⟩ 0 (entryDb .file) (entryTree .file) ['/', 'a'] ['/', 'b'] ∧
      KeepsOnFailure ⟨none⟩ 0 (entryTree .file) ['/', 'a'] ['/', 'b']) := by
  rintro ⟨hrefines, -⟩
  refine place_not_refines (rooted_entryDb .file) (valid_entryTree .file) (sameTree_entry .file)
    names_source (names_letter 'b' (by decide)) rfl rfl ?_ (freePlace_entry .file) ?_ hrefines
  · nofun
  · nofun

end Examples

end Tactile.Storage.OpfsRename

import Tactile.Sync.Outcome

/-!
The runs that go through: what they gather, what they have noted when all paths have
ended, and what they save.
-/

namespace Tactile.Sync.Completed

open Tactile.Lib.Program Tactile.Lib.Script Tactile.Lib.FiniteMap
open Tactile.Storage.Paths Tactile.Storage.Idb Tactile.Storage.Backend
open Tactile.Sync.Records Tactile.Sync.SyncNow Tactile.Sync.Merge Tactile.Sync.Outcome

variable {D P σ : Type} {R : Answers (SyncOp D P) (SyncAns D P) σ}

section Memory

/-- A part of the run that leaves what has been collected. -/
def Leaves {α : Type} (R : Answers (SyncOp D P) (SyncAns D P) σ) (f : SyncMethod D P α) : Prop :=
  ∀ m s, Meets R (fun _ _ => True) (fun _ m' _ => m' = m) (fun _ m' _ => m' = m) f m s

variable {α β ι : Type}

theorem leaves_pure (a : α) : Leaves R (pure a) := fun _ _ => rfl

theorem leaves_throw (e : SyncError) : Leaves R (throw e : SyncMethod D P α) := fun _ _ => rfl

theorem Leaves.bind {f : SyncMethod D P β} {next : β → SyncMethod D P α} (hf : Leaves R f)
    (hnext : ∀ b, Leaves R (next b)) : Leaves R (f >>= next) := by
  intro m s
  rw [meets_bind]
  refine (hf m s).imp (fun b m' s' hm' => ?_) fun _ _ _ h => h
  subst hm'
  exact hnext b m' s'

theorem leaves_perform (o : SyncOp D P) : Leaves R (Method.perform o) := by
  intro m s
  rw [meets_perform]
  exact ⟨trivial, fun _ _ _ => rfl⟩

theorem leaves_ofExcept {φ : Type} (wrap : φ → SyncError) (x : Except φ α) :
    Leaves R (Method.ofExcept wrap x) := by
  intro m s
  rw [meets_ofExcept]
  exact ⟨fun _ _ => rfl, fun _ _ => rfl⟩

theorem leaves_call (o : RelayOp D P) : Leaves R (call o) :=
  (leaves_perform _).bind fun ans => leaves_ofExcept SyncError.relay ans

theorem leaves_store (o : StorageOp) : Leaves R (store o) :=
  (leaves_perform _).bind fun ans => leaves_ofExcept SyncError.storage ans

theorem leaves_attempt (o : StorageOp) : Leaves R (attempt o) :=
  (leaves_perform _).bind fun _ => leaves_pure _

theorem leaves_path (x : Except StorageError α) : Leaves R (pathResult x) := leaves_ofExcept _ x

theorem Leaves.outcome {f : SyncMethod D P α} (hf : Leaves R f) : Leaves R f.outcome := by
  intro m s
  rw [meets_outcome]
  exact hf m s

theorem leaves_foldlM {f : β → ι → SyncMethod D P β} (hf : ∀ b x, Leaves R (f b x)) (xs : List ι)
    (b : β) : Leaves R (xs.foldlM f b) := by
  induction xs generalizing b with
  | nil => exact leaves_pure b
  | cons x xs ih =>
      rw [List.foldlM_cons]
      exact (hf b x).bind ih

theorem leaves_forM {f : ι → SyncMethod D P PUnit} (hf : ∀ x, Leaves R (f x)) (xs : List ι) :
    Leaves R (forM xs f) := by
  induction xs with
  | nil => exact leaves_pure PUnit.unit
  | cons x xs ih =>
      rw [List.forM_cons]
      exact (hf x).bind fun _ => ih

end Memory

section Parts

variable (C : Crypto D P) (collection : Text)

theorem leaves_walkEntry (maxBytes : ℤ)
    {descend : Text → Text → Dict Text (LocalFile D) → SyncMethod D P (Dict Text (LocalFile D))}
    (hdescend : ∀ abs rel out, Leaves R (descend abs rel out)) (absDir relDir : Text)
    (out : Dict Text (LocalFile D)) (entry : DirEntry) :
    Leaves R (walkEntry C maxBytes descend absDir relDir out entry) := by
  unfold walkEntry
  generalize (if relDir = [] then entry.name else relDir ++ '/' :: entry.name) = rel
  refine (leaves_path _).bind fun abs => ?_
  cases entry.isDirectory with
  | true =>
      rw [if_pos rfl]
      split
      next => exact hdescend abs rel out
      next =>
        split
        next => exact leaves_pure out
        next =>
          refine (leaves_path _).bind fun internal => ?_
          cases internal with
          | true => exact leaves_pure out
          | false => exact hdescend abs rel out
  | false =>
      rw [if_neg Bool.false_ne_true]
      split
      next => exact leaves_pure out
      next =>
        refine (leaves_path _).bind fun internal => ?_
        cases internal with
        | true => exact leaves_pure out
        | false =>
            refine (leaves_attempt _).bind fun stat => ?_
            split
            next => exact leaves_pure out
            next =>
              refine (leaves_attempt _).bind fun data => ?_
              cases data with
              | none => exact leaves_pure out
              | some data => exact leaves_pure _

theorem leaves_walk (maxBytes : ℤ) (depth : ℕ) (absDir relDir : Text)
    (out : Dict Text (LocalFile D)) : Leaves R (walk C maxBytes depth absDir relDir out) := by
  induction depth generalizing absDir relDir out with
  | zero => exact leaves_throw _
  | succ depth ih =>
      rw [walk]
      exact (leaves_attempt _).bind fun entries =>
        leaves_foldlM (leaves_walkEntry C maxBytes ih absDir relDir) _ out

theorem leaves_fetchManifest (id : D) : Leaves R (fetchManifest C id) :=
  (leaves_call _).bind fun _ => leaves_pure _

theorem leaves_writeManifest (id : D) (manifest : Manifest D) :
    Leaves R (writeManifest C id manifest) :=
  (leaves_call _).bind fun _ => (leaves_call _).bind fun _ => leaves_pure _

theorem leaves_loadLocalState : Leaves R (loadLocalState C collection) := by
  have hread : Leaves R (do
      let file ← pathResult (joinPath [collection, syncStateFile])
      store (.readTextFile file) : SyncMethod D P String) :=
    (leaves_path _).bind fun file => leaves_store _
  exact hread.outcome.bind fun text => leaves_pure _

theorem leaves_saveLocalState (state : LocalSyncState D) :
    Leaves R (saveLocalState C collection state) :=
  (leaves_path _).bind fun _ => leaves_store _

theorem leaves_gather (depth : ℕ) : Leaves R (gather C collection depth) := by
  refine (leaves_call _).outcome.bind fun info => ?_
  refine (leaves_fetchManifest C _).bind fun fetched => ?_
  refine (leaves_loadLocalState C collection).bind fun state => ?_
  refine (leaves_walk C _ depth collection [] ∅).bind fun locals => ?_
  exact (leaves_store _).bind fun now => leaves_pure _

theorem leaves_publish [DecidableEq D] (g : Gathered D) : Leaves R (publish C collection g) := by
  have hread : Leaves R (Method.read : SyncMethod D P (Merge D)) := fun m s => rfl
  refine hread.bind fun m => ?_
  refine (leaves_writeManifest C _ _).bind fun _ => ?_
  refine (leaves_forM (fun b => (leaves_call _).outcome.bind fun _ => leaves_pure _) _).bind
    fun _ => ?_
  exact leaves_saveLocalState C collection m.nextState

end Parts

section Runs

variable [DecidableEq D] {C : Crypto D P} {collection : Text} {depth : ℕ} {s s' : σ}

/-- A run that goes through: what it has gathered, and what it has collected from the
paths and publishes. -/
def Completes (R : Answers (SyncOp D P) (SyncAns D P) σ) (C : Crypto D P) (collection : Text)
    (depth : ℕ) (s : σ) (g : Gathered D) (m : Merge D) (s' : σ) : Prop :=
  ∃ m₀ s₁ s₂, Exec R s ((gather C collection depth).call (.empty D)) (.ok g, m₀) s₁ ∧
    Exec R s₁ ((mergeAll C collection g).call m₀) (.ok (), m) s₂ ∧
    Exec R s₂ ((publish C collection g).call m) (.ok (), m) s'

/-- A run of a sync whose result notes no failure of the run goes through. -/
theorem completes_of_exec {res : SyncResult} (hopen : collection ≠ [])
    (hrun : Exec R s (syncNow C collection depth) (some res) s')
    (hres : ∀ e, .run e ∉ res.errors) :
    ∃ g m, Completes R C collection depth s g m s' ∧ res = m.result := by
  have hfailed : ∀ (e : SyncError) (m : Merge D), some res ≠ some (m.result.fail (.run e)) := by
    intro e m heq
    have herrors : res.errors = m.result.errors ++ [.run e] :=
      congrArg SyncResult.errors (Option.some.inj heq)
    exact hres e (herrors ▸ List.mem_append_right _ List.mem_cons_self)
  unfold syncNow at hrun
  rw [if_neg hopen, ← bind_pure_comp] at hrun
  obtain ⟨⟨out, m'⟩, u, hsync, hpure⟩ := hrun.of_bind
  cases hpure
  rw [syncRun, Method.call_bind] at hsync
  obtain ⟨⟨gathered, m₀⟩, s₁, hgather, hrest⟩ := hsync.of_bind
  cases gathered with
  | error e =>
      cases hrest
      exact absurd rfl (hfailed e m')
  | ok g =>
      dsimp only at hrest
      rw [syncGathered, Method.call_bind] at hrest
      obtain ⟨⟨merged, m⟩, s₂, hmerge, hpublish⟩ := hrest.of_bind
      cases merged with
      | error e =>
          cases hpublish
          exact absurd rfl (hfailed e m')
      | ok _ =>
          cases out with
          | error e => exact absurd rfl (hfailed e m')
          | ok _ =>
              have hleft : m' = m := (leaves_publish C collection g m s₂).exec hpublish
              subst hleft
              exact ⟨g, m', ⟨m₀, s₁, s₂, hgather, hmerge, hpublish⟩, rfl⟩

/-- What a completed run has done for its paths and noted of them. -/
theorem Completes.outcomes {g : Gathered D} {m : Merge D}
    (h : Completes R C collection depth s g m s') :
    ∃ outs s₁ s₂, Exec R s ((gather C collection depth).call (.empty D)) (.ok g, .empty D) s₁ ∧
      Ran R C collection g outs (mergedPaths g.remote g.locals) s₁ s₂ ∧
      Noted C collection g (mergedPaths g.remote g.locals) outs m ∧
      Exec R s₂ ((publish C collection g).call m) (.ok (), m) s' := by
  obtain ⟨m₀, s₁, s₂, hgather, hmerge, hpublish⟩ := h
  have hleft : m₀ = Merge.empty D := (leaves_gather C collection depth _ s).exec hgather
  subst hleft
  obtain ⟨outs, hran, hnoted⟩ : ∃ outs, Ran R C collection g outs (mergedPaths g.remote g.locals)
      s₁ s₂ ∧ Noted C collection g (mergedPaths g.remote g.locals) outs m :=
    (mergeAll_outcomes g s₁).exec hmerge
  exact ⟨outs, s₁, s₂, hgather, hran, hnoted, hpublish⟩

theorem publish_saves (g : Gathered D) (m : Merge D) (s : σ) :
    Meets R (fun _ _ => True)
      (fun _ _ s' => ∃ file u, joinPath [collection, syncStateFile] = .ok file ∧
        R u (.storage (.writeTextFile file (C.stateText m.nextState))) (.ok ()) s')
      (fun _ _ _ => True) (publish C collection g) m s := by
  rw [publish, meets_bind, meets_read, meets_bind]
  refine (leaves_writeManifest C _ _ m s).imp (fun _ m₁ s₁ _ => ?_) fun _ _ _ _ => trivial
  rw [meets_bind]
  refine (leaves_forM (fun b => (leaves_call _).outcome.bind fun _ => leaves_pure _) _ m₁ s₁).imp
    (fun _ m₂ s₂ _ => ?_) fun _ _ _ _ => trivial
  rw [saveLocalState, meets_bind]
  refine (meets_ofExcept _ _ _ _).mpr ⟨fun file hfile => ?_, fun _ _ => trivial⟩
  refine (meets_store (E := fun _ _ _ => True) (.writeTextFile file _) _ m₂ s₂).mpr
    ⟨trivial, fun ans s₃ hans => ⟨fun _ hok => ?_, fun _ _ => trivial⟩⟩
  subst hok
  exact ⟨file, s₂, hfile, hans⟩

/-- The last thing that a completed run does is to save the base it has collected. -/
theorem Completes.saves {g : Gathered D} {m : Merge D}
    (h : Completes R C collection depth s g m s') :
    ∃ file u, joinPath [collection, syncStateFile] = .ok file ∧
      R u (.storage (.writeTextFile file (C.stateText m.nextState))) (.ok ()) s' := by
  obtain ⟨m₀, s₁, s₂, -, -, hpublish⟩ := h
  exact (publish_saves g m s₂).exec hpublish

end Runs

end Tactile.Sync.Completed

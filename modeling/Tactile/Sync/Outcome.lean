import Tactile.Sync.Merge

/-!
What a run decides for each of its paths, and what it has noted for all of them, by
how each has ended.
-/

namespace Tactile.Sync.Outcome

open Tactile.Lib.Program Tactile.Lib.Script Tactile.Lib.FiniteMap
open Tactile.Storage.Paths Tactile.Storage.Backend
open Tactile.Sync.Records Tactile.Sync.SyncNow Tactile.Sync.Merge

variable {D P σ : Type} [DecidableEq D]

section Decided

/-- The decisions, by the file here, the manifest's entry and the base's. -/
inductive Decides (now : ℤ) : Option (LocalFile D) → Option (RemoteFileEntry D) →
    Option (BaseEntry D) → Decision D → Prop
  | same (l : LocalFile D) (r : RemoteFileEntry D) (s : Option (BaseEntry D)) :
      r.d = false → l.hash = r.h → Decides now (some l) (some r) s (.same r)
  | upload (l : LocalFile D) (r : RemoteFileEntry D) (s : Option (BaseEntry D)) :
      r.d = false → l.hash ≠ r.h → changed s l.hash = true → changed s r.h = false →
      Decides now (some l) (some r) s (.upload l)
  | conflictCopy (l : LocalFile D) (r : RemoteFileEntry D) (s : Option (BaseEntry D)) :
      r.d = false → l.hash ≠ r.h → changed s l.hash = true → changed s r.h = true →
      l.mtime < r.m → Decides now (some l) (some r) s (.conflictCopy l r)
  | conflictUpload (l : LocalFile D) (r : RemoteFileEntry D) (s : Option (BaseEntry D)) :
      r.d = false → l.hash ≠ r.h → changed s l.hash = true → changed s r.h = true →
      r.m ≤ l.mtime → Decides now (some l) (some r) s (.conflictUpload l)
  | download (l : LocalFile D) (r : RemoteFileEntry D) (s : Option (BaseEntry D)) :
      r.d = false → l.hash ≠ r.h → changed s l.hash = false → changed s r.h = true →
      Decides now (some l) (some r) s (.download r)
  | revive (l : LocalFile D) (r : RemoteFileEntry D) (s : Option (BaseEntry D)) :
      r.d = true → changed s l.hash = true → Decides now (some l) (some r) s (.upload l)
  | deleteLocal (l : LocalFile D) (r : RemoteFileEntry D) (s : Option (BaseEntry D)) :
      r.d = true → changed s l.hash = false → Decides now (some l) (some r) s (.deleteLocal l r)
  | new (l : LocalFile D) (s : Option (BaseEntry D)) : Decides now (some l) none s (.upload l)
  | fetch (r : RemoteFileEntry D) (s : Option (BaseEntry D)) :
      r.d = false → changed s r.h = true → Decides now none (some r) s (.download r)
  | tombstone (r : RemoteFileEntry D) (s : Option (BaseEntry D)) :
      r.d = false → changed s r.h = false → Decides now none (some r) s (.tombstone r)
  | prune (r : RemoteFileEntry D) (s : Option (BaseEntry D)) :
      r.d = true → tombstonePruneMs < now - r.m → Decides now none (some r) s .pruneTombstone
  | keep (r : RemoteFileEntry D) (s : Option (BaseEntry D)) :
      r.d = true → now - r.m ≤ tombstonePruneMs → Decides now none (some r) s (.keepTombstone r)
  | nothing (s : Option (BaseEntry D)) : Decides now none none s .nothing

theorem changed_eq_false {s : Option (BaseEntry D)} {h : D} :
    changed s h = false ↔ ∃ b, s = some b ∧ b.h = h := by
  cases s with
  | none => simp [changed]
  | some b => simp [changed]

/-- What has changed neither here nor there has one hash. -/
theorem hash_eq_of_unchanged {s : Option (BaseEntry D)} {h h' : D} (hh : changed s h = false)
    (hh' : changed s h' = false) : h = h' := by
  obtain ⟨b, rfl, rfl⟩ := changed_eq_false.mp hh
  obtain ⟨b', hb, rfl⟩ := changed_eq_false.mp hh'
  rw [Option.some.inj hb]

theorem decides (now : ℤ) (l : Option (LocalFile D)) (r : Option (RemoteFileEntry D))
    (s : Option (BaseEntry D)) : Decides now l r s (decision now l r s) := by
  cases l with
  | none =>
      cases r with
      | none => exact .nothing s
      | some r =>
          rw [decision]
          split
          next hd =>
            split
            next hold => exact .prune r s hd hold
            next hold => exact .keep r s hd (not_lt.mp hold)
          next hd =>
            have hlive : r.d = false := by simpa using hd
            split
            next hchanged => exact .fetch r s hlive hchanged
            next hchanged => exact .tombstone r s hlive (by simpa using hchanged)
  | some l =>
      cases r with
      | none => exact .new l s
      | some r =>
          rw [decision]
          split
          next hd =>
            split
            next hchanged => exact .revive l r s hd hchanged
            next hchanged => exact .deleteLocal l r s hd (by simpa using hchanged)
          next hd =>
            have hlive : r.d = false := by simpa using hd
            split
            next hsame => exact .same l r s hlive hsame
            next hother =>
              cases hl : changed s l.hash with
              | true =>
                  rw [if_pos rfl]
                  cases hr : changed s r.h with
                  | false => exact .upload l r s hlive hother hl hr
                  | true =>
                      rw [Bool.not_true, if_neg Bool.false_ne_true]
                      split
                      next hlater => exact .conflictCopy l r s hlive hother hl hr hlater
                      next hlater => exact .conflictUpload l r s hlive hother hl hr (not_lt.mp hlater)
              | false =>
                  rw [if_neg Bool.false_ne_true]
                  cases hr : changed s r.h with
                  | true => exact .download l r s hlive hother hl hr
                  | false => exact absurd (hash_eq_of_unchanged hl hr) hother

/-- What a run decides for a path. -/
def Decided (g : Gathered D) (rel : Text) : Decision D :=
  decision g.now (g.locals.lookup rel) (g.remote.files.lookup rel) (g.state.files.lookup rel)

theorem decided_decides (g : Gathered D) (rel : Text) :
    Decides g.now (g.locals.lookup rel) (g.remote.files.lookup rel) (g.state.files.lookup rel)
      (Decided g rel) :=
  decides ..

end Decided

section Noted

variable (C : Crypto D P) (collection : Text) (g : Gathered D)

/-- The next manifest's entry of a path that has ended so. -/
def entryAfter (rel : Text) : PathOutcome → Option (RemoteFileEntry D)
  | .error _ => g.remote.files.lookup rel
  | .ok () => (Decided g rel).entry C (collectionKey collection) g.now

/-- The next base's entry of a path that has ended so. -/
def baseAfter (rel : Text) : PathOutcome → Option (BaseEntry D)
  | .error _ => none
  | .ok () => (Decided g rel).base C (collectionKey collection) g.now

/-- What has been noted when some paths have ended so. -/
structure Noted (done : List Text) (outs : Text → PathOutcome) (m : Merge D) : Prop where
  files : ∀ rel, m.nextFiles.lookup rel =
    if rel ∈ done then entryAfter C collection g rel (outs rel) else g.remote.files.lookup rel
  bases : ∀ rel, m.nextState.files.lookup rel =
    if rel ∈ done then baseAfter C collection g rel (outs rel) else none
  errors : ∀ rel e, .path rel e ∈ m.result.errors ↔ rel ∈ done ∧ outs rel = .error e

variable {C collection g}

theorem settle_files_self {rel : Text} {m : Merge D}
    (hfiles : m.nextFiles.lookup rel = g.remote.files.lookup rel) (out : PathOutcome) :
    (settle C collection g.now rel (Decided g rel) m out).nextFiles.lookup rel =
      entryAfter C collection g rel out := by
  cases out with
  | error e => exact hfiles
  | ok _ =>
      have hdecides := decided_decides g rel
      unfold settle entryAfter
      dsimp only
      generalize Decided g rel = d at hdecides
      generalize g.locals.lookup rel = l at hdecides
      generalize g.remote.files.lookup rel = r at hfiles hdecides
      generalize g.state.files.lookup rel = s at hdecides
      cases hdecides with
      | prune => exact AList.lookup_erase _ _
      | nothing => exact hfiles
      | _ => exact AList.lookup_insert _

omit [DecidableEq D] in
theorem settle_files_ne {rel rel' : Text} (hne : rel' ≠ rel) (now : ℤ) (d : Decision D)
    (m : Merge D) (out : PathOutcome) :
    (settle C collection now rel d m out).nextFiles.lookup rel' = m.nextFiles.lookup rel' := by
  cases out with
  | error e => rfl
  | ok _ =>
      cases d with
      | pruneTombstone => exact AList.lookup_erase_ne hne
      | nothing => rfl
      | _ => exact AList.lookup_insert_ne hne

theorem settle_bases_self {rel : Text} {m : Merge D} (hbases : m.nextState.files.lookup rel = none)
    (out : PathOutcome) :
    (settle C collection g.now rel (Decided g rel) m out).nextState.files.lookup rel =
      baseAfter C collection g rel out := by
  cases out with
  | error e => exact hbases
  | ok _ =>
      unfold settle baseAfter
      dsimp only
      cases (Decided g rel).base C (collectionKey collection) g.now with
      | some s => exact AList.lookup_insert _
      | none => exact hbases

omit [DecidableEq D] in
theorem settle_bases_ne {rel rel' : Text} (hne : rel' ≠ rel) (now : ℤ) (d : Decision D)
    (m : Merge D) (out : PathOutcome) :
    (settle C collection now rel d m out).nextState.files.lookup rel' =
      m.nextState.files.lookup rel' := by
  cases out with
  | error e => rfl
  | ok _ =>
      unfold settle
      dsimp only
      cases d.base C (collectionKey collection) now with
      | some s => exact AList.lookup_insert_ne hne
      | none => rfl

omit [DecidableEq D] in
theorem settle_errors (now : ℤ) (rel rel' : Text) (d : Decision D) (m : Merge D)
    (out : PathOutcome) (e : SyncError) :
    .path rel' e ∈ (settle C collection now rel d m out).result.errors ↔
      .path rel' e ∈ m.result.errors ∨ rel' = rel ∧ out = .error e := by
  cases out with
  | error e' =>
      change SyncFailure.path rel' e ∈ (d.begun m.result).errors ++ [.path rel e'] ↔ _
      rw [Decision.begun_errors, List.mem_append, List.mem_singleton, SyncFailure.path.injEq,
        Except.error.injEq, eq_comm (a := e)]
  | ok _ =>
      change SyncFailure.path rel' e ∈ (d.counted m.result).errors ↔ _
      rw [Decision.counted_errors]
      exact (or_iff_left fun h => nomatch h.2).symm

/-- The next path ends. -/
theorem Noted.settle {done : List Text} {outs : Text → PathOutcome} {m : Merge D}
    (h : Noted C collection g done outs m) {rel : Text} (hnew : rel ∉ done) (out : PathOutcome) :
    Noted C collection g (done ++ [rel]) (Function.update outs rel out)
      (settle C collection g.now rel (Decided g rel) m out) := by
  have hold : ∀ rel' ≠ rel, (rel' ∈ done ++ [rel] ↔ rel' ∈ done) ∧
      Function.update outs rel out rel' = outs rel' := by
    intro rel' hne
    refine ⟨?_, Function.update_of_ne hne _ _⟩
    rw [List.mem_append, List.mem_singleton]
    exact or_iff_left hne
  have hself : rel ∈ done ++ [rel] := List.mem_append_right _ (List.mem_singleton_self _)
  constructor
  · intro rel'
    rcases Decidable.em (rel' = rel) with rfl | hne
    · rw [if_pos hself, Function.update_self]
      refine settle_files_self ?_ out
      rw [h.files, if_neg hnew]
    · simp only [settle_files_ne hne, hold rel' hne]
      exact h.files rel'
  · intro rel'
    rcases Decidable.em (rel' = rel) with rfl | hne
    · rw [if_pos hself, Function.update_self]
      refine settle_bases_self ?_ out
      rw [h.bases, if_neg hnew]
    · simp only [settle_bases_ne hne, hold rel' hne]
      exact h.bases rel'
  · intro rel' e
    rw [settle_errors, h.errors]
    rcases Decidable.em (rel' = rel) with rfl | hne
    · rw [Function.update_self]
      exact ⟨fun he => ⟨hself, he.elim (fun he => absurd he.1 hnew) And.right⟩,
        fun he => .inr ⟨rfl, he.2⟩⟩
    · rw [(hold rel' hne).1, (hold rel' hne).2]
      exact or_iff_left fun he => hne he.1

omit [DecidableEq D] in
theorem nodup_mergedPaths (remote : Manifest D) (locals : Dict Text (LocalFile D)) :
    (mergedPaths remote locals).Nodup := by
  rw [mergedPaths, List.nodup_append]
  refine ⟨List.nodup_reverse.mpr locals.nodupKeys, remote.files.nodupKeys.filter _, ?_⟩
  rintro rel hlocal rel' hremote rfl
  have hsome := AList.lookup_isSome.mpr (AList.mem_keys.mpr (List.mem_reverse.mp hlocal))
  have hnone := (List.mem_filter.mp hremote).2
  rw [Option.isSome_iff_ne_none] at hsome
  exact hsome (Option.isNone_iff_eq_none.mp hnone)

omit [DecidableEq D] in
theorem mem_mergedPaths {rel : Text} : rel ∈ mergedPaths g.remote g.locals ↔
    g.locals.lookup rel ≠ none ∨ g.remote.files.lookup rel ≠ none := by
  have hkeys : ∀ {α : Type} (d : Dict Text α), rel ∈ d.keys ↔ d.lookup rel ≠ none := by
    intro α d
    rw [← AList.mem_keys, ← AList.lookup_isSome, Option.isSome_iff_ne_none]
  rw [mergedPaths, List.mem_append, List.mem_reverse, List.mem_filter, hkeys, hkeys,
    Option.isNone_iff_eq_none]
  constructor
  · exact Or.imp_right And.left
  · intro h
    rcases Decidable.em (g.locals.lookup rel = none) with hnone | hsome
    · exact .inr ⟨h.resolve_left (fun hne => hne hnone), hnone⟩
    · exact .inl hsome

end Noted

section Runs

variable {R : Answers (SyncOp D P) (SyncAns D P) σ}

/-- The effects of paths, one after another, that have ended so. -/
inductive Ran (R : Answers (SyncOp D P) (SyncAns D P) σ) (C : Crypto D P) (collection : Text)
    (g : Gathered D) (outs : Text → PathOutcome) : List Text → σ → σ → Prop
  | nil (s : σ) : Ran R C collection g outs [] s s
  | snoc {done : List Text} {s s' s'' : σ} (rel : Text) :
      Ran R C collection g outs done s s' →
      Exec R s' (effects C collection g.now rel (Decided g rel)) (outs rel) s'' →
      Ran R C collection g outs (done ++ [rel]) s s''

variable {C : Crypto D P} {collection : Text} {g : Gathered D}

theorem Ran.congr {outs outs' : Text → PathOutcome} {done : List Text} {s s' : σ}
    (h : Ran R C collection g outs done s s') (heq : ∀ rel ∈ done, outs' rel = outs rel) :
    Ran R C collection g outs' done s s' := by
  induction h with
  | nil s => exact .nil s
  | snoc rel _ hexec ih =>
      refine .snoc rel (ih fun rel' h => heq rel' (List.mem_append_left _ h)) ?_
      rw [heq rel (List.mem_append_right _ (List.mem_singleton_self _))]
      exact hexec

/-- All paths of a run: what they do, and what is noted of them. -/
theorem mergeAll_outcomes (g : Gathered D) (s : σ) :
    Meets R (fun _ _ => True)
      (fun _ m s' => ∃ outs, Ran R C collection g outs (mergedPaths g.remote g.locals) s s' ∧
        Noted C collection g (mergedPaths g.remote g.locals) outs m)
      (fun _ _ _ => False) (mergeAll C collection g) (Merge.empty D) s := by
  rw [mergeAll, meets_bind, meets_update]
  have hnodup := nodup_mergedPaths g.remote g.locals
  refine meets_forM _ (fun done m s' => ∃ outs, Ran R C collection g outs done s s' ∧
    Noted C collection g done outs m) _ _ _ ⟨fun _ => .ok (), .nil s, ?_⟩ ?_
  · exact ⟨fun rel => (if_neg List.not_mem_nil).symm, fun rel => (if_neg List.not_mem_nil).symm,
      fun rel e => by simp [Merge.empty]⟩
  · rintro pre rel post hpaths m s₁ ⟨outs, hran, hnoted⟩
    have hnew : rel ∉ pre := by
      rw [hpaths] at hnodup
      exact fun hmem => (List.nodup_append.mp hnodup).2.2 rel hmem rel List.mem_cons_self rfl
    rw [Meets, mergePath_call C collection g.now g.remote g.state g.locals rel m rfl, holds_bind]
    refine (holds_exec _ s₁).imp fun out s₂ hexec => ?_
    refine ⟨Function.update outs rel out, .snoc rel (hran.congr fun rel' hrel' => ?_) ?_,
      hnoted.settle hnew out⟩
    · have hne : rel' ≠ rel := by
        rintro rfl
        exact hnew hrel'
      exact Function.update_of_ne hne _ _
    · rw [Function.update_self]
      exact hexec

end Runs

end Tactile.Sync.Outcome

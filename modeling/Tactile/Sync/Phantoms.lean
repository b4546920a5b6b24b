import Tactile.Sync.Completed
import Tactile.Sync.Disk
import Tactile.Sync.Retry

/-!
What a run takes as deleted here, against what is in the collection: the walk passes
over files silently.
-/

namespace Tactile.Sync.Phantoms

open Tactile.Lib.Program Tactile.Lib.Script Tactile.Lib.FiniteMap
open Tactile.Storage.Paths Tactile.Storage.Idb Tactile.Storage.Opfs Tactile.Storage.Backend
open Tactile.Sync.Records Tactile.Sync.SyncNow Tactile.Sync.Merge Tactile.Sync.Outcome
open Tactile.Sync.Completed Tactile.Sync.Disk

variable {D P σ : Type}

section Property

variable [DecidableEq D]

/-- A run that gets to its publishing, with what it has gathered and collected. -/
def Publishing (R : Answers (SyncOp D P) (SyncAns D P) σ) (C : Crypto D P) (collection : Text)
    (depth : ℕ) (s : σ) (g : Gathered D) (m : Merge D) (s' : σ) : Prop :=
  ∃ m₀ s₁, Exec R s ((gather C collection depth).call (.empty D)) (.ok g, m₀) s₁ ∧
    Exec R s₁ ((mergeAll C collection g).call m₀) (.ok (), m) s'

omit [DecidableEq D]

/-- The run makes a tombstone of a live entry of the manifest. -/
def Tombstones (g : Gathered D) (m : Merge D) (rel : Text) : Prop :=
  ∃ r e, g.remote.files.lookup rel = some r ∧ r.d = false ∧ m.nextFiles.lookup rel = some e ∧
    e.d = true

/-- The run drops a path from the base where it has found no file, and has not failed there. -/
def Forgets (g : Gathered D) (m : Merge D) (rel : Text) : Prop :=
  g.state.files.lookup rel ≠ none ∧ g.locals.lookup rel = none ∧
    m.nextState.files.lookup rel = none ∧ ∀ e, .path rel e ∉ m.result.errors

/-- The collection has a file at the path. -/
def Present (collection : Text) (t : Tree) (rel : Text) : Prop :=
  ∃ root segments data, pathSegments collection = .ok root ∧ Names segments ∧ segments ≠ [] ∧
    rel = relText segments ∧ t.lookup (root ++ segments) = some (.file data)

/-- The base has the path, and the manifest has it as the base, not live or not at all. -/
def Unchanged (g : Gathered D) (rel : Text) : Prop :=
  ∃ s, g.state.files.lookup rel = some s ∧
    ∀ r, g.remote.files.lookup rel = some r → r.d = true ∨ r.h = s.h

/-- The file at the path is not internal nor too large, and it and the directories on the way
to it can be read. -/
def Visible (faults : Faults) (t : Tree) (collection : Text) (maxBytes : ℤ) (rel : Text) : Prop :=
  ∃ root segments data, pathSegments collection = .ok root ∧ rel = relText segments ∧
    Wanted faults t root maxBytes [] segments data

end Property

section Runs

variable [DecidableEq D] {R : Answers (SyncOp D P) (SyncAns D P) σ} {C : Crypto D P}
variable {collection : Text} {depth : ℕ} {g : Gathered D} {m : Merge D} {s s' : σ}

/-- A run fails before it publishes anything, or it publishes what it has collected. -/
theorem publishing_of_exec {out : Except SyncError Unit × Merge D}
    (hrun : Exec R s ((syncRun C collection depth).call (.empty D)) out s') :
    (∃ e m, Exec R s ((gather C collection depth).call (.empty D)) (.error e, m) s') ∨
      ∃ g m s₂, Publishing R C collection depth s g m s₂ ∧
        Exec R s₂ ((publish C collection g).call m) out s' := by
  rw [syncRun, Method.call_bind] at hrun
  obtain ⟨⟨gathered, m₀⟩, s₁, hgather, hrest⟩ := hrun.of_bind
  cases gathered with
  | error e =>
      cases hrest
      exact .inl ⟨e, m₀, hgather⟩
  | ok g =>
      dsimp only at hrest
      rw [syncGathered, Method.call_bind] at hrest
      obtain ⟨⟨merged, m⟩, s₂, hmerge, hpublish⟩ := hrest.of_bind
      cases merged with
      | error e =>
          have hleft : m₀ = Merge.empty D := (leaves_gather C collection depth _ s).exec hgather
          subst hleft
          exact ((mergeAll_outcomes g s₁).exec hmerge).elim
      | ok _ => exact .inr ⟨g, m, s₂, ⟨m₀, s₁, hgather, hmerge⟩, hpublish⟩

theorem Ran.effects {outs : Text → PathOutcome} {done : List Text} {rel : Text}
    (h : Ran R C collection g outs done s s') (hrel : rel ∈ done) :
    ∃ u u', Exec R u (effects C collection g.now rel (Decided g rel)) (outs rel) u' := by
  induction h with
  | nil => cases hrel
  | snoc rel' _ hexec ih =>
      rcases List.mem_append.mp hrel with hrel | hrel
      · exact ih hrel
      · cases List.mem_singleton.mp hrel
        exact ⟨_, _, hexec⟩

/-- What a run has noted when it gets to its publishing. -/
theorem Publishing.outcomes (h : Publishing R C collection depth s g m s') :
    ∃ outs, Noted C collection g (mergedPaths g.remote g.locals) outs m ∧
      ∀ rel ∈ mergedPaths g.remote g.locals,
        ∃ u u', Exec R u (effects C collection g.now rel (Decided g rel)) (outs rel) u' := by
  obtain ⟨m₀, s₁, hgather, hmerge⟩ := h
  have hleft : m₀ = Merge.empty D := (leaves_gather C collection depth _ s).exec hgather
  subst hleft
  obtain ⟨outs, hran, hnoted⟩ : ∃ outs, Ran R C collection g outs (mergedPaths g.remote g.locals)
      s₁ s' ∧ Noted C collection g (mergedPaths g.remote g.locals) outs m :=
    (mergeAll_outcomes g s₁).exec hmerge
  exact ⟨outs, hnoted, fun rel hrel => Ran.effects hran hrel⟩

section Taken

variable {outs : Text → PathOutcome} {rel : Text}

/-- Only a live entry that the base has, of a path without a file here, becomes a tombstone. -/
theorem Tombstones.taken (hnoted : Noted C collection g (mergedPaths g.remote g.locals) outs m)
    (h : Tombstones g m rel) : g.locals.lookup rel = none ∧ Unchanged g rel := by
  obtain ⟨r, e, hr, hlive, he, hdead⟩ := h
  have hmem : rel ∈ mergedPaths g.remote g.locals := mem_mergedPaths.mpr (.inr (by simp [hr]))
  rw [hnoted.files, if_pos hmem] at he
  cases hout : outs rel with
  | error err =>
      rw [hout, entryAfter, hr] at he
      cases he
      rw [hlive] at hdead
      cases hdead
  | ok _ =>
      rw [hout] at he
      have hentry : (Decided g rel).entry C (collectionKey collection) g.now = some e := he
      have hdecides := decided_decides g rel
      rw [hr] at hdecides
      generalize Decided g rel = d at hdecides hentry
      generalize hl : g.locals.lookup rel = l at hdecides
      generalize hs : g.state.files.lookup rel = s at hdecides
      cases hdecides with
      | tombstone _ _ _ hsame =>
          obtain ⟨b, rfl, hb⟩ := changed_eq_false.mp hsame
          refine ⟨rfl, b, hs, fun r' hr' => .inr ?_⟩
          rw [hr] at hr'
          cases hr'
          exact hb.symm
      | revive _ _ _ hd => simp [hlive] at hd
      | deleteLocal _ _ _ hd => simp [hlive] at hd
      | prune _ _ hd => simp [hlive] at hd
      | keep _ _ hd => simp [hlive] at hd
      | upload =>
          cases hentry
          cases hdead
      | conflictUpload =>
          cases hentry
          cases hdead
      | same | conflictCopy | download | fetch =>
          cases hentry
          simp [hlive] at hdead

theorem Forgets.unchanged (hnoted : Noted C collection g (mergedPaths g.remote g.locals) outs m)
    (h : Forgets g m rel) : Unchanged g rel := by
  obtain ⟨hbase, hnone, hdropped, hfine⟩ := h
  obtain ⟨s, hs⟩ := Option.ne_none_iff_exists'.mp hbase
  refine ⟨s, hs, fun r hr => ?_⟩
  have hmem : rel ∈ mergedPaths g.remote g.locals := mem_mergedPaths.mpr (.inr (by simp [hr]))
  cases hd : r.d with
  | true => exact .inl rfl
  | false =>
      refine .inr (Decidable.byContradiction fun hother => ?_)
      have hdecided : Decided g rel = .download r := by
        have hchanged : changed (some s) r.h = true := by simp [changed, Ne.symm hother]
        rw [Decided, hnone, hr, hs, decision, hd, if_neg Bool.false_ne_true, if_pos hchanged]
      rw [hnoted.bases, if_pos hmem] at hdropped
      cases hout : outs rel with
      | error e => exact hfine e ((hnoted.errors rel e).mpr ⟨hmem, hout⟩)
      | ok _ =>
          rw [hout, baseAfter, hdecided] at hdropped
          cases hdropped

/-- A path of the base without a file here is forgotten where the manifest has not changed. -/
theorem forgets_of_unchanged (hnoted : Noted C collection g (mergedPaths g.remote g.locals) outs m)
    (hran : ∀ rel ∈ mergedPaths g.remote g.locals,
      ∃ u u', Exec R u (effects C collection g.now rel (Decided g rel)) (outs rel) u')
    (hnone : g.locals.lookup rel = none) (h : Unchanged g rel) : Forgets g m rel := by
  obtain ⟨s, hs, hsame⟩ := h
  have hquiet : ((Decided g rel).base C (collectionKey collection) g.now = none) ∧
      effects C collection g.now rel (Decided g rel) = pure (.ok ()) := by
    have hdecides := decided_decides g rel
    rw [hnone, hs] at hdecides
    generalize Decided g rel = d at hdecides
    generalize hr : g.remote.files.lookup rel = r at hdecides
    cases hdecides with
    | fetch r _ hlive hchanged =>
        rcases hsame r hr with hdead | heq
        · rw [hlive] at hdead
          cases hdead
        · simp [changed, heq] at hchanged
    | tombstone => exact ⟨rfl, rfl⟩
    | prune => exact ⟨rfl, rfl⟩
    | keep => exact ⟨rfl, rfl⟩
    | nothing => exact ⟨rfl, rfl⟩
  refine ⟨by simp [hs], hnone, ?_, fun e he => ?_⟩
  · rw [hnoted.bases]
    split
    · cases hout : outs rel with
      | error e => rfl
      | ok _ => exact hquiet.1
    · rfl
  · obtain ⟨hmem, hout⟩ := (hnoted.errors rel e).mp he
    obtain ⟨u, u', hexec⟩ := hran rel hmem
    rw [hquiet.2, hout] at hexec
    cases hexec

end Taken

end Runs

section Main

variable [DecidableEq D] {C : Crypto D P} {faults : Faults} {codec : TextCodec} {clock : Clock}
variable {info : RelayAns D P .info} {collection : Text} {depth : ℕ} {g : Gathered D} {m : Merge D}
variable {t t' : Tree}

/-- A run finds no file at a path just where none can be seen. -/
theorem Publishing.locals_none (hv : t.Valid) {root : List Text}
    (hroot : pathSegments collection = .ok root)
    (h : Publishing (DiskWorld faults codec clock (Informs info)) C collection depth t g m t')
    (rel : Text) :
    g.locals.lookup rel = none ↔ ¬Visible faults t collection (sizeLimit info) rel := by
  obtain ⟨m₀, s₁, hgather, -⟩ := h
  have hfinds : ∀ rel l, g.locals.lookup rel = some l ↔
      Found C faults clock t root (sizeLimit info) rel l :=
    (gather_finds hv hroot depth _).exec hgather
  have hvisible : (∃ l, g.locals.lookup rel = some l) ↔
      Visible faults t collection (sizeLimit info) rel := by
    constructor
    · rintro ⟨l, hl⟩
      obtain ⟨segments, data, hwanted, hrel, -⟩ := (hfinds rel l).mp hl
      exact ⟨root, segments, data, hroot, hrel, hwanted⟩
    · rintro ⟨root', segments, data, hroot', hrel, hwanted⟩
      rw [hroot] at hroot'
      cases hroot'
      exact ⟨_, (hfinds rel _).mpr ⟨segments, data, hwanted, hrel, rfl⟩⟩
  rw [← hvisible, Option.eq_none_iff_forall_ne_some, not_exists]

/-- What a run makes a tombstone or drops from the base as deleted here is really absent
exactly when every file whose path the manifest has as the base can be seen. -/
theorem no_phantom_deletions_iff (hv : t.Valid)
    (h : Publishing (DiskWorld faults codec clock (Informs info)) C collection depth t g m t') :
    (∀ rel, Tombstones g m rel ∨ Forgets g m rel → ¬Present collection t rel) ↔
      ∀ rel, Unchanged g rel → Present collection t rel →
        Visible faults t collection (sizeLimit info) rel := by
  obtain ⟨outs, hnoted, hran⟩ := h.outcomes
  cases hroot : pathSegments collection with
  | error e =>
      have habsent : ∀ rel, ¬Present collection t rel := by
        rintro rel ⟨root, segments, data, hok, -⟩
        rw [hroot] at hok
        cases hok
      exact iff_of_true (fun rel _ => habsent rel) fun rel _ hpresent => absurd hpresent (habsent rel)
  | ok root =>
      have hnone := h.locals_none hv hroot
      constructor
      · intro hall rel hunchanged hpresent
        refine Classical.byContradiction fun hhidden => ?_
        exact hall rel (.inr (forgets_of_unchanged hnoted hran ((hnone rel).mpr hhidden) hunchanged))
          hpresent
      · intro hall rel htaken hpresent
        have hboth : g.locals.lookup rel = none ∧ Unchanged g rel := by
          rcases htaken with htombstone | hforgets
          · exact htombstone.taken hnoted
          · exact ⟨hforgets.2.1, hforgets.unchanged hnoted⟩
        exact (hnone rel).mp hboth.1 (hall rel hboth.2 hpresent)

end Main

section Sample

open Tactile.Sync.Untrusted (Symbol symbols answer sampleCollection)
open Tactile.Sync.Retry (symbolsWithBase noteTree)

/-- The answers of a backend whose reads fail at some places and of a relay. -/
def faulty (faults : Faults) (relay : (o : RelayOp D P) → RelayAns D P o) (codec : TextCodec)
    (clock : Clock) (o : SyncOp D P) (t : Tree) : SyncAns D P o × Tree :=
  match o with
  | .relay o => (relay o, t)
  | .storage o =>
    if faults.hits o then (.error (.dom .other), t) else respond codec clock o t

theorem diskWorld_of_faulty {faults : Faults} {relay : (o : RelayOp D P) → RelayAns D P o}
    {codec : TextCodec} {clock : Clock} (t : Tree) (o : SyncOp D P) (ans : SyncAns D P o) (t' : Tree)
    (h : Responds (faulty faults relay codec clock) t o ans t') :
    DiskWorld faults codec clock (Informs (relay .info)) t o ans t' := by
  have heq : faulty faults relay codec clock o t = (ans, t') := h
  cases o with
  | relay o =>
      cases heq
      refine ⟨.relay _ _ _ ?_, trivial⟩
      cases o with
      | info => exact rfl
      | _ => exact trivial
  | storage o =>
      change (if faults.hits o then (.error (.dom .other), t) else respond codec clock o t) =
        (ans, t') at heq
      split at heq
      next hhits =>
        cases heq
        refine ⟨.storage _ _ _ _ (.failed _ _ _ ?_), fun _ => ?_⟩
        · rintro rfl
          cases hhits
        · rw [Faults.seen, if_pos hhits]
          rfl
      next hhits =>
        have hans : ans = (respond codec clock o t).1 := (congrArg Prod.fst heq).symm
        have htree : t' = (respond codec clock o t).2 := (congrArg Prod.snd heq).symm
        subst hans htree
        refine ⟨.storage _ _ _ _ (.served _ _), fun _ => ?_⟩
        rw [Faults.seen, if_neg hhits]

variable [DecidableEq D] {C : Crypto D P} {collection : Text} {depth : ℕ} {s : σ}
variable {respond : (o : SyncOp D P) → σ → SyncAns D P o × σ}

/-- What a run in such a world gathers and collects. -/
def collected (respond : (o : SyncOp D P) → σ → SyncAns D P o × σ) (C : Crypto D P)
    (collection : Text) (depth : ℕ) (s : σ) : Option (Gathered D × Merge D) :=
  match eval respond ((gather C collection depth).call (.empty D)) s with
  | ((.ok g, m₀), s₁) => some (g, (eval respond ((mergeAll C collection g).call m₀) s₁).1.2)
  | _ => none

theorem publishing_of_collected {g : Gathered D} {m : Merge D}
    (h : collected respond C collection depth s = some (g, m)) :
    ∃ s', Publishing (Responds respond) C collection depth s g m s' := by
  rw [collected] at h
  split at h
  next g' m₀ s₁ hgather =>
    cases h
    have hexec := exec_eval respond ((gather C collection depth).call (.empty D)) s
    rw [hgather] at hexec
    have hmerge := exec_eval respond ((mergeAll C collection g).call m₀) s₁
    generalize eval respond ((mergeAll C collection g).call m₀) s₁ = out at hmerge
    obtain ⟨⟨merged, m⟩, s₂⟩ := out
    refine ⟨s₂, m₀, s₁, hexec, ?_⟩
    cases merged with
    | error e =>
        have hleft : m₀ = Merge.empty D := (leaves_gather C collection depth _ s).exec hexec
        subst hleft
        exact ((mergeAll_outcomes g s₁).exec hmerge).elim
    | ok _ => exact hmerge
  next => cases h

/-- The relay has the manifest as the base is, and no blobs. -/
def unchangedRelay : (o : RelayOp Symbol (Plaintext Symbol)) → RelayAns Symbol (Plaintext Symbol) o
  | .info => .ok none
  | .get (.manifest _) => .ok (some (.json ⟨0, AList.insert "a.md".toList
      { h := .content [0], m := 0, s := 1, b := .content [8] } ∅⟩))
  | .get _ => .ok none
  | .put .. => .ok true
  | .remove _ => .ok ()

/-- A file system in which one file cannot be read. -/
def unreadable (path : List Text) : Faults where
  listing _ := false
  reading l := decide (l = path)
  stat _ := false

/-- A run over the collection with `a.md`, of which one file cannot be read. -/
def unreadableRun (path : List Text) : Option (Gathered Symbol × Merge Symbol) :=
  collected (faulty (unreadable path) unchangedRelay ⟨fun _ => [], fun _ => ""⟩ ⟨0, fun _ => none⟩)
    symbolsWithBase sampleCollection 3 noteTree

theorem publishing_unreadable {path : List Text} {g : Gathered Symbol} {m : Merge Symbol}
    (h : unreadableRun path = some (g, m)) :
    ∃ t', Publishing (DiskWorld (unreadable path) ⟨fun _ => [], fun _ => ""⟩ ⟨0, fun _ => none⟩
      (Informs (.ok none))) symbolsWithBase sampleCollection 3 noteTree g m t' := by
  obtain ⟨t', m₀, s₁, hgather, hmerge⟩ := publishing_of_collected h
  exact ⟨t', m₀, s₁, Steps.mono diskWorld_of_faulty hgather, Steps.mono diskWorld_of_faulty hmerge⟩

theorem noteTree_valid : noteTree.Valid := by decide +kernel

/-- A run over a collection that can be read forgets nothing that is there. -/
theorem readable_kept : ∃ g m t', Publishing (DiskWorld (unreadable []) ⟨fun _ => [], fun _ => ""⟩
      ⟨0, fun _ => none⟩ (Informs (.ok none))) symbolsWithBase sampleCollection 3 noteTree g m t' ∧
    ((∀ rel, Tombstones g m rel ∨ Forgets g m rel → ¬Present sampleCollection noteTree rel) ↔
      ∀ rel, Unchanged g rel → Present sampleCollection noteTree rel →
        Visible (unreadable []) noteTree sampleCollection (sizeLimit (D := Symbol)
          (P := Plaintext Symbol) (.ok none)) rel) := by
  have hsome : (unreadableRun []).isSome = true := by decide +kernel
  obtain ⟨⟨g, m⟩, hrun⟩ := Option.isSome_iff_exists.mp hsome
  obtain ⟨t', hpublishing⟩ := publishing_unreadable hrun
  exact ⟨g, m, t', hpublishing, no_phantom_deletions_iff noteTree_valid hpublishing⟩

/-- A file that is there and cannot be read becomes a tombstone. -/
theorem unreadable_tombstone : ∃ g m t',
    Publishing (DiskWorld (unreadable ["Notes".toList, "a.md".toList]) ⟨fun _ => [], fun _ => ""⟩
      ⟨0, fun _ => none⟩ (Informs (.ok none))) symbolsWithBase sampleCollection 3 noteTree g m t' ∧
    ¬∀ rel, Tombstones g m rel ∨ Forgets g m rel → ¬Present sampleCollection noteTree rel := by
  have hrun : ((unreadableRun ["Notes".toList, "a.md".toList]).any fun out =>
      (out.1.remote.files.lookup "a.md".toList).any (fun r => !r.d) &&
        (out.2.nextFiles.lookup "a.md".toList).any fun e => e.d) = true := by
    decide +kernel
  cases hout : unreadableRun ["Notes".toList, "a.md".toList] with
  | none =>
      rw [hout] at hrun
      cases hrun
  | some out =>
      obtain ⟨g, m⟩ := out
      obtain ⟨t', hpublishing⟩ := publishing_unreadable hout
      rw [hout, Option.any_some, Bool.and_eq_true, Option.any_eq_true, Option.any_eq_true] at hrun
      obtain ⟨⟨r, hr, hlive⟩, e, he, hdead⟩ := hrun
      refine ⟨g, m, t', hpublishing, fun hall => ?_⟩
      refine hall "a.md".toList (.inl ⟨r, e, hr, by simpa using hlive, he, hdead⟩) ?_
      exact ⟨["Notes".toList], ["a.md".toList], [0], rfl, by decide, by decide, rfl, by decide⟩

end Sample

end Tactile.Sync.Phantoms

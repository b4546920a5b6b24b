import Tactile.Sync.Completed
import Tactile.Sync.Confine

/-!
What a run keeps of a path that fails: the base that a completed run saves, against
the base that it has loaded.
-/

namespace Tactile.Sync.Retry

open Tactile.Lib.Program Tactile.Lib.Script Tactile.Lib.FiniteMap
open Tactile.Storage.Paths Tactile.Storage.Idb Tactile.Storage.Opfs Tactile.Storage.Backend
open Tactile.Sync.Records Tactile.Sync.SyncNow Tactile.Sync.Merge Tactile.Sync.Untrusted
open Tactile.Sync.Confine Tactile.Sync.Outcome Tactile.Sync.Completed

section Runs

variable {D P σ : Type} {R : Answers (SyncOp D P) (SyncAns D P) σ}
variable [DecidableEq D] {C : Crypto D P} {collection : Text} {depth : ℕ} {s s' : σ}

/-- A completed run has no base of a path that has failed. -/
theorem base_none_of_failed {g : Gathered D} {m : Merge D}
    (h : Completes R C collection depth s g m s') {rel : Text} {e : SyncError}
    (hfailed : .path rel e ∈ m.result.errors) : m.nextState.files.lookup rel = none := by
  obtain ⟨outs, -, -, -, -, hnoted, -⟩ := h.outcomes
  obtain ⟨hmem, hout⟩ := (hnoted.errors rel e).mp hfailed
  rw [hnoted.bases, if_pos hmem, hout]
  rfl

/-- The base of the path is the one loaded, so that what is decided for the path with
the same file and the same entry is the same. -/
def Retried (g : Gathered D) (m : Merge D) (rel : Text) : Prop :=
  m.nextState.files.lookup rel = g.state.files.lookup rel ∧
    ∀ now l r, decision now l r (m.nextState.files.lookup rel) =
      decision now l r (g.state.files.lookup rel)

/-- A completed run keeps the base of a path that has failed exactly where it has
loaded none. -/
theorem failed_retried_iff {g : Gathered D} {m : Merge D}
    (h : Completes R C collection depth s g m s') {rel : Text} {e : SyncError}
    (hfailed : .path rel e ∈ m.result.errors) :
    Retried g m rel ↔ g.state.files.lookup rel = none := by
  have hnone := base_none_of_failed h hfailed
  constructor
  · rintro ⟨hkept, -⟩
    rw [← hkept, hnone]
  · intro hloaded
    have hkept : m.nextState.files.lookup rel = g.state.files.lookup rel := by
      rw [hnone, hloaded]
    exact ⟨hkept, fun now l r => by rw [hkept]⟩

end Runs

section Sample

/-- The base says of `a.md` that its content was one byte 0. -/
def symbolsWithBase : Crypto Symbol (Plaintext Symbol) :=
  { symbols with parseState := fun _ => some ⟨0, AList.insert "a.md".toList
      ⟨.content [0], .content [8]⟩ ∅⟩ }

/-- A relay whose manifest says of `a.md` that its content is one byte 1, and that has
lost the blob. -/
def emptiedRelay : (o : RelayOp Symbol (Plaintext Symbol)) → RelayAns Symbol (Plaintext Symbol) o
  | .info => .ok none
  | .get (.manifest _) => .ok (some (.json ⟨0, noteFiles⟩))
  | .get _ => .ok none
  | .put .. => .ok true
  | .remove _ => .ok ()

/-- The collection with a place for the base. -/
def baseTree : Tree := AList.insert ["Notes".toList, tactileDir] .dir sampleTree

/-- The collection with `a.md` as the base has it, and with the base. -/
def noteTree : Tree :=
  AList.insert ["Notes".toList, "a.md".toList] (.file [0])
    (AList.insert ["Notes".toList, tactileDir, "sync-state.json".toList] (.file []) baseTree)

def failingAnswers : (o : SyncOp Symbol (Plaintext Symbol)) → Tree →
    SyncAns Symbol (Plaintext Symbol) o × Tree :=
  answer emptiedRelay ⟨fun _ => [], fun _ => ""⟩ ⟨0, fun _ => none⟩

def failingRun (C : Crypto Symbol (Plaintext Symbol)) (t : Tree) : Option SyncResult × Tree :=
  eval failingAnswers (syncNow C sampleCollection 3) t

def failedNote : SyncResult :=
  { errors := [.path "a.md".toList (.missing "a.md".toList)] }

theorem failingRun_completes {C : Crypto Symbol (Plaintext Symbol)} {t : Tree}
    (hres : (failingRun C t).1 = some failedNote) :
    ∃ g m, Completes (Responds failingAnswers) C sampleCollection 3 t g m (failingRun C t).2 ∧
      .path "a.md".toList (.missing "a.md".toList) ∈ m.result.errors := by
  have hrun := exec_eval failingAnswers (syncNow C sampleCollection 3) t
  have hfst : (eval failingAnswers (syncNow C sampleCollection 3) t).1 = some failedNote :=
    hres
  rw [hfst] at hrun
  obtain ⟨g, m, hcompletes, hm⟩ := completes_of_exec (by decide) hrun fun e he => by
    cases List.mem_singleton.mp he
  refine ⟨g, m, hcompletes, ?_⟩
  rw [← hm]
  exact List.mem_singleton_self _

/-- A note that the run has no base of fails, and there is none in the next base. -/
theorem failed_retried_new : ∃ g m,
    Completes (Responds failingAnswers) symbols sampleCollection 3 baseTree g m
      (failingRun symbols baseTree).2 ∧
    (Retried g m "a.md".toList ↔ g.state.files.lookup "a.md".toList = none) := by
  obtain ⟨g, m, hcompletes, hfailed⟩ := failingRun_completes (C := symbols) (t := baseTree) (by decide +kernel)
  exact ⟨g, m, hcompletes, failed_retried_iff hcompletes hfailed⟩

/-- The base of a note whose download fails is lost. -/
theorem failed_not_retried : ¬ ∀ (C : Crypto Symbol (Plaintext Symbol)) (collection : Text)
    (depth : ℕ) (respond : (o : SyncOp Symbol (Plaintext Symbol)) → Tree →
      SyncAns Symbol (Plaintext Symbol) o × Tree) (t t' : Tree) (g : Gathered Symbol)
    (m : Merge Symbol) (rel : Text) (e : SyncError),
    Completes (Responds respond) C collection depth t g m t' → .path rel e ∈ m.result.errors →
    Retried g m rel := by
  intro h
  obtain ⟨g, m, hcompletes, hfailed⟩ :=
    failingRun_completes (C := symbolsWithBase) (t := noteTree) (by decide +kernel)
  have hkept := (h _ _ _ _ _ _ _ _ _ _ hcompletes hfailed).1
  rw [base_none_of_failed hcompletes hfailed] at hkept
  obtain ⟨m₀, s₁, -, hgather, -⟩ := hcompletes
  have hloaded : (eval failingAnswers ((gather symbolsWithBase sampleCollection 3).call
      (.empty Symbol)) noteTree).1.1.toOption.bind
      (fun g => g.state.files.lookup "a.md".toList) = some ⟨.content [0], .content [8]⟩ := by
    decide +kernel
  rw [(exec_responds_iff failingAnswers _ _ _ _).mp hgather] at hloaded
  rw [show g.state.files.lookup "a.md".toList = _ from hloaded] at hkept
  cases hkept

end Sample

end Tactile.Sync.Retry

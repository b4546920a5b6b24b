import Tactile.Sync.Completed
import Tactile.Sync.RelayView
import Tactile.Sync.Uploads

/-!
Syncs one after another at one relay: when the entries of the published manifests are backed by
blobs that have not expired.
-/

namespace Tactile.Sync.Backing

open Tactile.Lib.Program Tactile.Lib.Script Tactile.Lib.FiniteMap Tactile.Lib.Transition
open Tactile.Storage.Paths Tactile.Storage.Idb Tactile.Storage.Backend
open Tactile.Sync.Records Tactile.Sync.SyncNow Tactile.Sync.Merge Tactile.Sync.Outcome
open Tactile.Sync.Completed Tactile.Sync.RelayView
open Tactile.Sync.Uploads (only_call only_store only_pathResult only_outcome)

variable {D P : Type}

section Kinds

/-- Operations that ask the relay, and those of the storage. -/
def Asks : SyncOp D P → Prop
  | .relay .info | .relay (.get _) | .storage _ => True
  | _ => False

variable {C : Crypto D P}

theorem only_attempt (o : StorageOp) : Method.Only Asks (attempt (D := D) (P := P) o) :=
  (Method.only_perform trivial).bind fun _ => Method.only_pure _

theorem only_walkEntry (maxBytes : ℤ)
    {descend : Text → Text → Dict Text (LocalFile D) → SyncMethod D P (Dict Text (LocalFile D))}
    (hdescend : ∀ abs rel out, Method.Only Asks (descend abs rel out)) (absDir relDir : Text)
    (out : Dict Text (LocalFile D)) (entry : DirEntry) :
    Method.Only Asks (walkEntry C maxBytes descend absDir relDir out entry) := by
  unfold walkEntry
  generalize (if relDir = [] then entry.name else relDir ++ '/' :: entry.name) = rel
  refine (only_pathResult _).bind fun abs => ?_
  cases entry.isDirectory with
  | true =>
      rw [if_pos rfl]
      split
      next => exact hdescend abs rel out
      next =>
        split
        next => exact Method.only_pure out
        next =>
          refine (only_pathResult _).bind fun internal => ?_
          cases internal with
          | true => exact Method.only_pure out
          | false => exact hdescend abs rel out
  | false =>
      rw [if_neg Bool.false_ne_true]
      split
      next => exact Method.only_pure out
      next =>
        refine (only_pathResult _).bind fun internal => ?_
        cases internal with
        | true => exact Method.only_pure out
        | false =>
            refine (only_attempt _).bind fun stat => ?_
            split
            next => exact Method.only_pure out
            next =>
              refine (only_attempt _).bind fun data => ?_
              cases data with
              | none => exact Method.only_pure out
              | some data => exact Method.only_pure _

theorem only_walk (maxBytes : ℤ) (depth : ℕ) (absDir relDir : Text) (out : Dict Text (LocalFile D)) :
    Method.Only Asks (walk C maxBytes depth absDir relDir out) := by
  induction depth generalizing absDir relDir out with
  | zero => exact Method.only_throw _
  | succ depth ih =>
      rw [walk]
      exact (only_attempt _).bind fun entries =>
        Method.Only.foldlM (only_walkEntry maxBytes ih absDir relDir) _ out

theorem only_loadLocalState (collection : Text) :
    Method.Only Asks (loadLocalState C collection) := by
  apply Method.Only.bind
  · apply only_outcome
    apply (only_pathResult _).bind
    exact fun _ => only_store (o := .readTextFile _) trivial
  · exact fun _ => Method.only_pure _

theorem only_placeAt (collection rel : Text) (data : Except SyncError Bytes) :
    (placeAt (D := D) (P := P) collection rel data).Only Asks := by
  unfold placeAt
  cases joinPath [collection, rel] with
  | error e => trivial
  | ok abs =>
      dsimp only
      unfold placeFile
      cases parentPath abs with
      | error e => trivial
      | ok parent =>
          refine (Prog.only_op trivial).bind fun made => ?_
          rcases made with e | ⟨⟩
          · trivial
          · cases data with
            | error e => trivial
            | ok bytes => exact (Prog.only_op trivial).bind fun _ => trivial

theorem only_getFile (collection : Text) (r : RemoteFileEntry D) (rel : Text) :
    (getFile C collection r rel).Only Asks := by
  refine (Prog.only_op trivial).bind fun ans => ?_
  rcases ans with e | _ | payload
  · trivial
  · trivial
  · exact only_placeAt collection rel _

/-- The file that a decision uploads. -/
def uploads : Decision D → Option (LocalFile D)
  | .upload l | .conflictUpload l => some l
  | _ => none

/-- The effects of a decision that uploads nothing. -/
theorem only_effects (collection : Text) (now : ℤ) (rel : Text) {d : Decision D}
    (hd : uploads d = none) : (effects C collection now rel d).Only Asks := by
  cases d with
  | upload l => cases hd
  | conflictUpload l => cases hd
  | download r => exact only_getFile collection r rel
  | conflictCopy l r =>
      refine (only_placeAt collection _ _).bind fun copied => ?_
      rcases copied with e | ⟨⟩
      · trivial
      · exact only_getFile collection r rel
  | deleteLocal l r => exact (Prog.only_op trivial).bind fun _ => trivial
  | same | skip | tombstone | keepTombstone | pruneTombstone | nothing => trivial

theorem effects_upload (collection : Text) (now : ℤ) (rel : Text) {d : Decision D} {l : LocalFile D}
    (hd : uploads d = some l) : effects C collection now rel d = putFile C collection l := by
  cases d with
  | upload l' => cases hd; rfl
  | conflictUpload l' => cases hd; rfl
  | _ => cases hd

end Kinds

section Manifests

variable (C : Crypto D P)

/-- The entries of a manifest name blobs of files under its key; those of live ones were stored
and not removed. -/
def Good (key : Text) (c : RelayState D P) (files : Dict Text (RemoteFileEntry D)) : Prop :=
  ∀ rel e, files.lookup rel = some e → (∃ rel' hash, e.b = fileBlobId C key rel' hash) ∧
    (e.d = false → ∃ x, Due c e.b x)

/-- The manifests that the relay holds are good. -/
def Consistent (c : RelayState D P) : Prop :=
  ∀ key payload x manifest, c.blobs (manifestId C key) = some (.held payload x) →
    openManifest C payload = some manifest → Good C key c manifest.files

/-- The manifest is at the relay, and the blobs of its live entries can be read. -/
def Backed (key : Text) (c : RelayState D P) : Prop :=
  ∃ payload x manifest, c.blobs (manifestId C key) = some (.held payload x) ∧ c.time < x ∧
    openManifest C payload = some manifest ∧
    ∀ rel e, manifest.files.lookup rel = some e → e.d = false → Live c e.b

theorem consistent_empty : Consistent C (RelayState.empty D P) := by
  intro key payload x manifest hheld
  cases hheld

variable {C} {clamp : ℤ → ℤ} {limit : ℤ} {c c' : RelayState D P} {key : Text}
variable {files : Dict Text (RemoteFileEntry D)}

theorem Good.since (h : Good C key c files) (hsince : Since C limit c c') : Good C key c' files := by
  intro rel e he
  obtain ⟨hid, hdue⟩ := h rel e he
  refine ⟨hid, fun hlive => ?_⟩
  obtain ⟨x, hx⟩ := hdue hlive
  obtain ⟨x', -, hx'⟩ := hsince.due _ _ hx
  exact ⟨x', hx'⟩

theorem Consistent.since (h : Consistent C c) (hsince : Since C limit c c') : Consistent C c' := by
  intro key payload x manifest hheld hopen
  exact (h key payload x manifest (hsince.manifest key payload x hheld) hopen).since hsince

theorem asks_uploads {o : SyncOp D P} (h : Asks o) : RelayView.Uploads C o := by
  cases o with
  | storage o => trivial
  | relay o =>
      cases o with
      | info => trivial
      | get id => trivial
      | put id payload ttl => exact h.elim
      | remove id => exact h.elim

end Manifests

section Parts

variable [DecidableEq D] {C : Crypto D P} {clamp : ℤ → ℤ} {limit : ℤ} {collection : Text}
variable {c₀ c c' : RelayState D P} {g : Gathered D}

/-- What has happened since the start of a run, while nothing was removed. -/
abbrev SinceStart (C : Crypto D P) (clamp : ℤ → ℤ) (c₀ c : RelayState D P) : Prop :=
  Since C (c₀.time + clamp syncBlobTtlSeconds) c₀ c

theorem sinceStart_step {o : SyncOp D P} {ans : SyncAns D P o} (h : SinceStart C clamp c₀ c)
    (ho : RelayView.Uploads C o) (hworld : World clamp c o ans c') : SinceStart C clamp c₀ c' := by
  refine h.trans (world_since hworld ho ?_)
  have hlater := h.later
  omega

theorem sinceStart_asks (c : RelayState D P) (o : SyncOp D P) (ans : SyncAns D P o)
    (c' : RelayState D P) (ho : Asks o) (hworld : World clamp c o ans c')
    (h : SinceStart C clamp c₀ c) : SinceStart C clamp c₀ c' :=
  sinceStart_step h (asks_uploads ho) hworld

theorem asked_exec {α : Type} {p : Prog (SyncOp D P) (SyncAns D P) α} {a : α} (hp : p.Only Asks)
    (h : SinceStart C clamp c₀ c) (hexec : Exec (World clamp) c p a c') :
    SinceStart C clamp c₀ c' :=
  (hp.holds sinceStart_asks h).exec hexec

/-- What a run has fetched is a manifest that the relay held when the run began, or nothing. -/
def Fetched (C : Crypto D P) (key : Text) (c₀ : RelayState D P) (remote : Manifest D) : Prop :=
  remote.files = ∅ ∨ ∃ payload x, c₀.blobs (manifestId C key) = some (.held payload x) ∧
    openManifest C payload = some remote

theorem meets_fetchManifest (key : Text) (m : Merge D) (h : SinceStart C clamp c₀ c) :
    Meets (World clamp) (fun _ _ => True)
      (fun fetched _ c' => SinceStart C clamp c₀ c' ∧ Fetched C key c₀ (fetched.getD ⟨0, ∅⟩))
      (fun _ _ _ => True) (fetchManifest C (manifestId C key)) m c := by
  rw [fetchManifest, meets_bind]
  refine (meets_call (E := fun _ _ _ => True) (.get _) _ m c).mpr
    ⟨trivial, fun ans c' hworld => ⟨fun blob hans => ?_, fun _ _ => trivial⟩⟩
  subst hans
  rw [meets_pure]
  refine ⟨sinceStart_asks _ (.relay (.get _)) _ _ trivial hworld h, ?_⟩
  obtain ⟨c₁, size, hidle, hanswer⟩ := world_answered hworld
  cases blob with
  | none => exact .inl rfl
  | some payload =>
      rw [RelayView.respond] at hanswer
      split at hanswer
      next payload' x hheld =>
        split at hanswer
        next => cases hanswer
        next =>
          cases hanswer
          cases hopen : openManifest C payload with
          | none => exact .inl (by rw [Option.bind_some, hopen]; rfl)
          | some manifest =>
              refine .inr ⟨payload, x, h.manifest key payload x (hidle.held hheld), ?_⟩
              rw [Option.bind_some, hopen]
              rfl
      next => cases hanswer

theorem meets_gather (depth : ℕ) (m : Merge D) (h : SinceStart C clamp c₀ c) :
    Meets (World clamp) (fun _ _ => True)
      (fun g _ c' => SinceStart C clamp c₀ c' ∧ Fetched C (collectionKey collection) c₀ g.remote)
      (fun _ _ _ => True) (gather C collection depth) m c := by
  have hasks : ∀ {α : Type} {f : SyncMethod D P α} {m : Merge D} {c : RelayState D P},
      Method.Only Asks f → SinceStart C clamp c₀ c →
      Meets (World clamp) (fun _ _ => True) (fun _ _ c' => SinceStart C clamp c₀ c')
        (fun _ _ _ => True) f m c := by
    intro α f m c hf hc
    exact (hf.meets sinceStart_asks hc).mono (fun _ _ _ => trivial) (fun _ _ _ h => h)
      fun _ _ _ _ => trivial
  rw [gather, meets_bind]
  refine (hasks (only_outcome (only_call (o := .info) trivial)) h).imp (fun info m c hc => ?_) fun _ _ _ h => h
  rw [meets_bind]
  refine (meets_fetchManifest _ m hc).imp (fun fetched m c hc => ?_) fun _ _ _ h => h
  rw [meets_bind]
  refine (hasks (only_loadLocalState collection) hc.1).imp (fun state m c hc' => ?_) fun _ _ _ h => h
  rw [meets_bind]
  refine (hasks (only_walk _ depth collection [] ∅) hc').imp (fun locals m c hc' => ?_)
    fun _ _ _ h => h
  rw [meets_bind]
  refine (hasks (only_store (o := .now) trivial) hc').imp (fun now m c hc' => ?_) fun _ _ _ h => h
  exact ⟨hc', hc.2⟩

end Parts

section Merging

variable [DecidableEq D] {C : Crypto D P} {clamp : ℤ → ℤ} {limit : ℤ} {collection : Text}
variable {c₀ c c' : RelayState D P} {g : Gathered D}

theorem uploading_since {α : Type} {p : Prog (SyncOp D P) (SyncAns D P) α} {a : α}
    (hp : p.Only (RelayView.Uploads C)) (hlimit : limit ≤ c.time + clamp syncBlobTtlSeconds)
    (hexec : Exec (World clamp) c p a c') : Since C limit c c' := by
  refine (hp.holds (fun c₁ o ans c₂ ho hworld hsince => ?_) (Idle.refl c).since).exec hexec
  refine hsince.trans (world_since hworld ho ?_)
  have hlater := hsince.later
  omega

omit [DecidableEq D] in
theorem uploading_effects (now : ℤ) (rel : Text) (d : Decision D) :
    (effects C collection now rel d).Only (RelayView.Uploads C) := by
  cases hd : uploads d with
  | none => exact (only_effects collection now rel hd).mono fun _ => asks_uploads
  | some l =>
      rw [effects_upload collection now rel hd]
      exact (Prog.only_op ⟨rfl, _, _, _, rfl⟩).bind fun _ => trivial

/-- After the upload of a file the relay holds its blob. -/
theorem putFile_held {l : LocalFile D}
    (hexec : Exec (World clamp) c (putFile C collection l) (.ok ()) c') :
    ∃ payload x, c'.blobs (fileBlobId C (collectionKey collection) l.rel l.hash) =
      some (.held payload x) := by
  have hall : Holds (World clamp) (fun _ _ => True) (fun out c' => out = .ok () →
      ∃ payload x, c'.blobs (fileBlobId C (collectionKey collection) l.rel l.hash) =
        some (.held payload x)) (putFile C collection l) c := by
    refine ⟨trivial, fun ans c' hworld hout => ?_⟩
    cases ans with
    | error e => cases hout
    | ok fresh => exact held_of_put hworld
  exact hall.exec hexec rfl

/-- The blob of a file that a run has uploaded: it was there when the run began, or is held for
the whole retention. -/
def Uploaded (clamp : ℤ → ℤ) (c₀ c : RelayState D P) (id : D) : Prop :=
  ∃ x, Due c id x ∧ (c₀.time + clamp syncBlobTtlSeconds ≤ x ∨
    ∃ payload y, c₀.blobs id = some (.held payload y) ∧ y ≤ x)

omit [DecidableEq D] in
theorem Uploaded.since {id : D} (h : Uploaded clamp c₀ c id)
    (hsince : Since C (c₀.time + clamp syncBlobTtlSeconds) c c') : Uploaded clamp c₀ c' id := by
  obtain ⟨x, hdue, hx⟩ := h
  obtain ⟨x', hx', hdue'⟩ := hsince.due id x hdue
  refine ⟨x', hdue', ?_⟩
  rcases hx' with hle | hlimit
  · refine hx.imp (fun hlimit => hlimit.trans hle) ?_
    rintro ⟨payload, y, hheld, hy⟩
    exact ⟨payload, y, hheld, hy.trans hle⟩
  · exact .inl hlimit

theorem ran_uploads {outs : Text → PathOutcome} {done : List Text}
    (h : Ran (World clamp) C collection g outs done c c') (hc : SinceStart C clamp c₀ c) :
    SinceStart C clamp c₀ c' ∧ ∀ rel ∈ done, outs rel = .ok () → ∀ l,
      uploads (Decided g rel) = some l →
        Uploaded clamp c₀ c' (fileBlobId C (collectionKey collection) l.rel l.hash) := by
  induction h with
  | nil s => exact ⟨hc, fun rel hrel => by cases hrel⟩
  | @snoc done c c₁ c₂ rel _ hexec ih =>
      obtain ⟨hc₁, hdone⟩ := ih hc
      have hlater := hc₁.later
      have hstep : Since C (c₀.time + clamp syncBlobTtlSeconds) c₁ c₂ :=
        uploading_since (uploading_effects g.now rel (Decided g rel)) (by omega) hexec
      have hc₂ : SinceStart C clamp c₀ c₂ := hc₁.trans hstep
      refine ⟨hc₂, fun rel' hrel' hout l hl => ?_⟩
      rcases List.mem_append.mp hrel' with hold | hnew
      · exact (hdone rel' hold hout l hl).since hstep
      · obtain rfl := List.mem_singleton.mp hnew
        rw [effects_upload collection g.now rel' hl, hout] at hexec
        obtain ⟨payload, x, hheld⟩ := putFile_held hexec
        refine ⟨x, .inl ⟨payload, hheld⟩, ?_⟩
        rcases hc₂.held _ payload x hheld with hfirst | hlimit
        · exact .inr ⟨payload, x, hfirst, le_refl x⟩
        · exact .inl hlimit

end Merging

section Publishing

variable [DecidableEq D] {C : Crypto D P} {clamp : ℤ → ℤ} {collection : Text}
variable {c c' : RelayState D P} {g : Gathered D}

/-- Operations that write only some ids. -/
def WritesIn (lost : D → Prop) (o : SyncOp D P) : Prop := ∀ id, Writes o id → lost id

theorem spares_step {lost : D → Prop} {c₀ : RelayState D P} (c : RelayState D P) (o : SyncOp D P)
    (ans : SyncAns D P o) (c' : RelayState D P) (ho : WritesIn lost o)
    (hworld : World clamp c o ans c') (h : Spares lost c₀ c) : Spares lost c₀ c' :=
  h.trans (world_spares hworld ho)

omit [DecidableEq D] in
/-- What follows the write of the manifest. -/
theorem only_cleanup (stale : List D) (state : LocalSyncState D) :
    Method.Only (WritesIn (· ∈ stale)) (do
      forM stale fun b => do
        let _ : Except SyncError Unit ← (call (P := P) (D := D) (.remove b)).outcome
      saveLocalState C collection state) := by
  refine (Method.Only.forM fun b hb => ?_).bind fun _ => ?_
  · refine (only_outcome (only_call (o := .remove b) ?_)).bind fun _ => Method.only_pure _
    rintro id rfl
    exact hb
  · refine (only_pathResult _).bind fun file => only_store (o := .writeTextFile ..) ?_
    exact fun id hid => hid.elim

/-- A manifest that has been written is held for the whole retention, and only the blobs that
nothing refers to are removed with it. -/
theorem meets_publish (m : Merge D) (c : RelayState D P) :
    Meets (World clamp) (fun _ _ => True)
      (fun _ _ c' => ∃ c₁ x, Spares (· = manifestId C (collectionKey collection)) c c₁ ∧
        c₁.blobs (manifestId C (collectionKey collection)) =
          some (.held (C.encrypt (.json ⟨g.now, m.nextFiles⟩)) x) ∧
        c.time + clamp syncBlobTtlSeconds ≤ x ∧
        Spares (· ∈ staleBlobIds g m.nextFiles) c₁ c')
      (fun _ _ _ => True) (publish C collection g) m c := by
  rw [publish, meets_bind, meets_read, meets_bind, writeManifest, meets_bind]
  refine (meets_call (E := fun _ _ _ => True) (.remove _) _ m c).mpr
    ⟨trivial, fun ans c₁ hremove => ⟨fun val hans => ?_, fun _ _ => trivial⟩⟩
  subst hans
  rw [meets_bind]
  refine (meets_call (E := fun _ _ _ => True) (.put ..) _ m c₁).mpr
    ⟨trivial, fun ans c₂ hput => ⟨fun fresh hans => ?_, fun _ _ => trivial⟩⟩
  subst hans
  have hspares : Spares (· = manifestId C (collectionKey collection)) c c₂ :=
    (world_spares hremove fun id hid => hid).trans (world_spares hput fun id hid => hid)
  obtain ⟨u, size, hidle, hremoved⟩ := world_answered hremove
  cases hremoved
  obtain ⟨v, size', hidle', hputs⟩ := world_answered hput
  have hnone : v.blobs (manifestId C (collectionKey collection)) = none := by
    rcases hidle'.blobs (manifestId C (collectionKey collection)) with hsame | ⟨payload, y, hheld, -⟩
    · rw [hsame, blobs_set, if_pos rfl]
    · rw [blobs_set, if_pos rfl] at hheld
      cases hheld
  rw [RelayView.respond, hnone] at hputs
  cases hputs
  have htime : c.time ≤ v.time := hidle.later.trans hidle'.later
  rw [meets_pure]
  have hsame := (Idle.refl (v.set (manifestId C (collectionKey collection))
    (some (.held (C.encrypt (.json ⟨g.now, m.nextFiles⟩)) (v.time + clamp syncBlobTtlSeconds))))).spares
    (· ∈ staleBlobIds g m.nextFiles)
  refine ((only_cleanup _ _).meets spares_step hsame).mono (fun _ _ _ => trivial)
    (fun _ _ c' hsp => ?_) fun _ _ _ _ => trivial
  exact ⟨_, _, hspares, by rw [blobs_set, if_pos rfl], by omega, hsp⟩

end Publishing

section Decisions

/-- The live entry of the fetched manifest that a decision carries over. -/
def carries : Decision D → Option (RemoteFileEntry D)
  | .same r | .download r | .conflictCopy _ r | .skip r => some r
  | _ => none

variable [DecidableEq D] {C : Crypto D P} {g : Gathered D} {rel : Text} {e : RemoteFileEntry D}
variable {key : Text}

/-- The entry of a path names the blob of the fetched entry, or the one that is uploaded. -/
theorem entry_blob (h : (Decided g rel).entry C key g.now = some e) :
    (∃ r, g.remote.files.lookup rel = some r ∧ e.b = r.b) ∨
      ∃ l, uploads (Decided g rel) = some l ∧ e.b = fileBlobId C key l.rel l.hash := by
  have hdecides := decided_decides g rel
  generalize Decided g rel = d at h hdecides
  generalize hl : g.locals.lookup rel = l at hdecides
  generalize hr : g.remote.files.lookup rel = r at hdecides
  generalize g.state.files.lookup rel = s at hdecides
  cases hdecides with
  | upload | conflictUpload | revive | new =>
      cases h
      exact .inr ⟨_, rfl, rfl⟩
  | prune | nothing => cases h
  | _ =>
      cases h
      exact .inl ⟨_, rfl, rfl⟩

/-- A live entry is carried over or uploaded. -/
theorem entry_live (h : (Decided g rel).entry C key g.now = some e) (hlive : e.d = false) :
    (carries (Decided g rel) = some e ∧ g.remote.files.lookup rel = some e) ∨
      ∃ l, uploads (Decided g rel) = some l ∧ e.b = fileBlobId C key l.rel l.hash := by
  have hdecides := decided_decides g rel
  generalize Decided g rel = d at h hdecides
  generalize hl : g.locals.lookup rel = l at hdecides
  generalize hr : g.remote.files.lookup rel = r at hdecides
  generalize g.state.files.lookup rel = s at hdecides
  cases hdecides with
  | upload | conflictUpload | revive | new =>
      cases h
      exact .inr ⟨_, rfl, rfl⟩
  | prune | nothing => cases h
  | tombstone => cases h; cases hlive
  | deleteLocal _ _ _ hd | keep _ _ hd =>
      cases h
      rw [hd] at hlive
      cases hlive
  | _ =>
      cases h
      exact .inl ⟨rfl, rfl⟩

theorem mem_staleBlobIds {nextFiles : Dict Text (RemoteFileEntry D)} {b : D} :
    b ∈ staleBlobIds g nextFiles ↔
      ((∃ rel e, g.remote.files.lookup rel = some e ∧ e.b = b) ∨
        ∃ rel s, g.state.files.lookup rel = some s ∧ s.b = b) ∧
      ∀ rel e, nextFiles.lookup rel = some e → e.b ≠ b := by
  simp only [staleBlobIds, List.mem_filter, List.mem_dedup, List.mem_append, List.mem_map, mem_values,
    decide_eq_true_eq, not_exists, not_and, ← exists_and_right]
  refine and_congr (or_congr exists_comm exists_comm) ?_
  exact ⟨fun h rel e he => h e rel he, fun h e rel he => h rel e he⟩

end Decisions

end Tactile.Sync.Backing

import Tactile.Sync.Backing
import Tactile.Sync.Uploads

/-!
Rounds of syncs by any devices: what each leaves at the relay, and what a run of them does.
-/

namespace Tactile.Sync.Rounds

open Tactile.Lib.Program Tactile.Lib.Script Tactile.Lib.FiniteMap Tactile.Lib.Transition
open Tactile.Storage.Paths
open Tactile.Sync.Records Tactile.Sync.SyncNow Tactile.Sync.Merge Tactile.Sync.Outcome
open Tactile.Sync.Completed Tactile.Sync.RelayView Tactile.Sync.Backing

variable {D P : Type}

section Rounds

/-- A sync of a collection, with what it has gathered. -/
structure Round (D : Type) where
  collection : Text
  gathered : Gathered D

variable [DecidableEq D] {C : Crypto D P} {clamp : ℤ → ℤ} {c c' : RelayState D P} {e : Round D}

/-- A sync without errors, less than the retention after the end of the one before. -/
def RoundStep (C : Crypto D P) (clamp : ℤ → ℤ) (c : RelayState D P) (e : Round D)
    (c' : RelayState D P) : Prop :=
  ∃ c₁ depth m, Idle c c₁ ∧ Completes (World clamp) C e.collection depth c₁ e.gathered m c' ∧
    m.result.errors = [] ∧ c'.time < c.time + clamp syncBlobTtlSeconds

/-- No blob of an entry that is carried over, and none that is put while it is held, expires
before the sync ends; the base is one of the collection. -/
structure Careful (C : Crypto D P) (c : RelayState D P) (e : Round D) (c' : RelayState D P) :
    Prop where
  carried : ∀ rel r x, carries (Decided e.gathered rel) = some r → Due c r.b x → c'.time < x
  uploaded : ∀ rel l payload x, uploads (Decided e.gathered rel) = some l →
    c.blobs (fileBlobId C (collectionKey e.collection) l.rel l.hash) = some (.held payload x) →
    c'.time < x
  base : ∀ rel s, e.gathered.state.files.lookup rel = some s →
    ∃ rel' hash, s.b = fileBlobId C (collectionKey e.collection) rel' hash

/-- A sync that returns without errors is a step of its collection. -/
theorem roundStep_of_exec {c₁ : RelayState D P} {collection : Text} {depth : ℕ} {res : SyncResult}
    (hopen : collection ≠ []) (hidle : Idle c c₁)
    (hrun : Exec (World clamp) c₁ (syncNow C collection depth) (some res) c')
    (hres : res.errors = []) (htime : c'.time < c.time + clamp syncBlobTtlSeconds) :
    ∃ g, RoundStep C clamp c ⟨collection, g⟩ c' := by
  have hnone : ∀ e, SyncFailure.run e ∉ res.errors := by
    intro e he
    rw [hres] at he
    cases he
  obtain ⟨g, m, hcompletes, rfl⟩ := completes_of_exec hopen hrun hnone
  exact ⟨g, c₁, depth, m, hidle, hcompletes, hres, htime⟩

omit [DecidableEq D] in
theorem fetched_good {key : Text} {remote : Manifest D} (hstart : Consistent C c)
    (h : Fetched C key c remote) : Good C key c remote.files := by
  rcases h with hempty | ⟨payload, x, hheld, hopen⟩
  · intro rel e he
    rw [hempty] at he
    cases he
  · exact hstart key payload x remote hheld hopen

/-- What is removed with a manifest are blobs of files of its collection. -/
theorem stale_fileBlob {key : Text} {g : Gathered D} {nextFiles : Dict Text (RemoteFileEntry D)}
    (hremote : Good C key c g.remote.files)
    (hbase : ∀ rel s, g.state.files.lookup rel = some s → ∃ rel' hash, s.b = fileBlobId C key rel' hash)
    {b : D} (hb : b ∈ staleBlobIds g nextFiles) : ∃ rel hash, b = fileBlobId C key rel hash := by
  rcases (mem_staleBlobIds.mp hb).1 with ⟨rel, e, he, rfl⟩ | ⟨rel, s, hs, rfl⟩
  · exact (hremote rel e he).1
  · exact hbase rel s hs

/-- In an error-free run every entry of the next manifest is one that its path's decision gives. -/
theorem entry_decided {collection : Text} {g : Gathered D} {outs : Text → PathOutcome} {m : Merge D}
    (hnoted : Noted C collection g (mergedPaths g.remote g.locals) outs m)
    (herrors : m.result.errors = []) {rel : Text} {e : RemoteFileEntry D}
    (he : m.nextFiles.lookup rel = some e) :
    rel ∈ mergedPaths g.remote g.locals ∧ outs rel = .ok () ∧
      (Decided g rel).entry C (collectionKey collection) g.now = some e := by
  rw [hnoted.files] at he
  by_cases hmem : rel ∈ mergedPaths g.remote g.locals
  · rw [if_pos hmem] at he
    cases hout : outs rel with
    | error err =>
        have hlisted := (hnoted.errors rel err).mpr ⟨hmem, hout⟩
        rw [herrors] at hlisted
        cases hlisted
    | ok _ =>
        rw [hout] at he
        exact ⟨hmem, rfl, he⟩
  · rw [if_neg hmem] at he
    refine absurd (mem_mergedPaths.mpr (.inr ?_)) hmem
    rw [he]
    exact Option.some_ne_none e

/-- The entries of the next manifest name blobs of files, and those of the live ones are held
beyond the end of the sync. -/
theorem entries_due {c₁ c₂ : RelayState D P} {collection : Text} {g : Gathered D}
    {outs : Text → PathOutcome} {m : Merge D} (hcareful : Careful C c ⟨collection, g⟩ c')
    (hremote : Good C (collectionKey collection) c g.remote.files) (hidle : Idle c c₁)
    (hsince : SinceStart C clamp c₁ c₂)
    (huploads : ∀ rel ∈ mergedPaths g.remote g.locals, outs rel = .ok () → ∀ l,
      uploads (Decided g rel) = some l →
        Uploaded clamp c₁ c₂ (fileBlobId C (collectionKey collection) l.rel l.hash))
    (hnoted : Noted C collection g (mergedPaths g.remote g.locals) outs m)
    (herrors : m.result.errors = []) (htime : c'.time < c₁.time + clamp syncBlobTtlSeconds)
    {rel : Text} {e : RemoteFileEntry D} (he : m.nextFiles.lookup rel = some e) :
    (∃ rel' hash, e.b = fileBlobId C (collectionKey collection) rel' hash) ∧
      (e.d = false → ∃ x, Due c₂ e.b x ∧ c'.time < x) := by
  obtain ⟨hmem, hout, hentry⟩ := entry_decided hnoted herrors he
  constructor
  · rcases entry_blob hentry with ⟨r, hr, hb⟩ | ⟨l, -, hb⟩
    · rw [hb]
      exact (hremote rel r hr).1
    · exact ⟨l.rel, l.hash, hb⟩
  · intro hlive
    rcases entry_live hentry hlive with ⟨hcarries, hr⟩ | ⟨l, hl, hb⟩
    · obtain ⟨x, hdue⟩ := (hremote rel e hr).2 hlive
      have hx : c'.time < x := hcareful.carried rel e x hcarries hdue
      obtain ⟨x', hx', hdue'⟩ := hsince.due e.b x (hidle.due hdue)
      refine ⟨x', hdue', ?_⟩
      omega
    · rw [hb]
      obtain ⟨x, hdue, hx⟩ := huploads rel hmem hout l hl
      refine ⟨x, hdue, ?_⟩
      rcases hx with hlimit | ⟨payload, y, hheld, hy⟩
      · omega
      · have hy' : c'.time < y := hcareful.uploaded rel l payload y hl (hidle.held hheld)
        omega

/-- What the write of a manifest and the removal of stale blobs leave. -/
theorem published {c₀ c₁ c₂ c₃ : RelayState D P} {key : Text} {g : Gathered D}
    {files : Dict Text (RemoteFileEntry D)} {y : ℤ} (hstart : Consistent C c₀)
    (hsince : SinceStart C clamp c₀ c₁)
    (hstale : ∀ b ∈ staleBlobIds g files, ∃ rel hash, b = fileBlobId C key rel hash)
    (hentries : ∀ rel e, files.lookup rel = some e →
      (∃ rel' hash, e.b = fileBlobId C key rel' hash) ∧ (e.d = false → ∃ x, Due c₁ e.b x ∧ c₃.time < x))
    (hwritten : Spares (· = manifestId C key) c₁ c₂)
    (hheld : c₂.blobs (manifestId C key) = some (.held (C.encrypt (.json ⟨g.now, files⟩)) y))
    (hremoved : Spares (· ∈ staleBlobIds g files) c₂ c₃) (hy : c₃.time < y) :
    Backed C key c₃ ∧ Consistent C c₃ := by
  have hmanifest : ∀ key', manifestId C key' ∉ staleBlobIds g files := by
    intro key' hmem
    obtain ⟨rel, hash, hb⟩ := hstale _ hmem
    exact fileBlobId_ne_manifestId C key key' rel hash hb.symm
  have hdue : ∀ rel e, files.lookup rel = some e → e.d = false → ∃ x, Due c₃ e.b x ∧ c₃.time < x := by
    intro rel e he hlive
    obtain ⟨⟨rel', hash, hb⟩, hx⟩ := hentries rel e he
    obtain ⟨x, hdue, hx⟩ := hx hlive
    refine ⟨x, hremoved.due e.b x ?_ (hwritten.due e.b x ?_ hdue), hx⟩
    · intro hmem
      exact (mem_staleBlobIds.mp hmem).2 rel e he rfl
    · rw [hb]
      exact fileBlobId_ne_manifestId C key key rel' hash
  obtain ⟨payload, x, hlast, hx⟩ := (hremoved.due _ y (hmanifest key) (.inl ⟨_, hheld⟩)).live hy
  have hpayload := hremoved.held _ payload x (hmanifest key) hlast
  rw [hheld] at hpayload
  cases hpayload
  refine ⟨⟨_, y, _, hlast, hy, openManifest_encrypt C _, fun rel e he hlive => ?_⟩, ?_⟩
  · obtain ⟨x, hdue', hx⟩ := hdue rel e he hlive
    exact hdue'.live hx
  · intro key' payload' x' manifest hheld' hopen
    by_cases hkey : manifestId C key' = manifestId C key
    · have hsame : key' = key := by
        cases C.sha256_injective hkey
        rfl
      subst hsame
      rw [hlast] at hheld'
      cases hheld'
      rw [openManifest_encrypt] at hopen
      cases hopen
      intro rel e he
      refine ⟨(hentries rel e he).1, fun hlive => ?_⟩
      obtain ⟨x, hdue', -⟩ := hdue rel e he hlive
      exact ⟨x, hdue'⟩
    · have hfirst := hsince.manifest key' payload' x'
        (hwritten.held _ payload' x' hkey (hremoved.held _ payload' x' (hmanifest key') hheld'))
      intro rel e he
      obtain ⟨⟨rel', hash, hb⟩, hx⟩ := (hstart key' payload' x' manifest hfirst hopen) rel e he
      refine ⟨⟨rel', hash, hb⟩, fun hlive => ?_⟩
      obtain ⟨x, hdue'⟩ := hx hlive
      obtain ⟨x'', -, hdue''⟩ := hsince.due e.b x hdue'
      refine ⟨x'', hremoved.due e.b x'' ?_ (hwritten.due e.b x'' ?_ hdue'')⟩
      · intro hmem
        obtain ⟨rel'', hash', hb'⟩ := hstale _ hmem
        rw [hb] at hb'
        cases C.sha256_injective hb'
        exact hkey rfl
      · rw [hb]
        exact fileBlobId_ne_manifestId C key' key rel' hash

/-- A careful round leaves its manifest backed, and the manifests consistent. -/
theorem round_backed (hstart : Consistent C c) (hstep : RoundStep C clamp c e c')
    (hcareful : Careful C c e c') :
    Backed C (collectionKey e.collection) c' ∧ Consistent C c' := by
  obtain ⟨collection, g⟩ := e
  obtain ⟨c₁, depth, m, hidle, hcompletes, herrors, htime⟩ := hstep
  obtain ⟨outs, u, v, hgather, hran, hnoted, hpublish⟩ := hcompletes.outcomes
  obtain ⟨hu, hfetched⟩ : SinceStart C clamp c₁ u ∧
      Fetched C (collectionKey collection) c₁ g.remote :=
    (meets_gather depth (Merge.empty D) (Idle.refl c₁).since).exec hgather
  obtain ⟨hv, huploads⟩ := ran_uploads hran hu
  obtain ⟨w, y, hwritten, hheld, hy, hremoved⟩ : ∃ w y,
      Spares (· = manifestId C (collectionKey collection)) v w ∧
        w.blobs (manifestId C (collectionKey collection)) =
          some (.held (C.encrypt (.json ⟨g.now, m.nextFiles⟩)) y) ∧
        v.time + clamp syncBlobTtlSeconds ≤ y ∧ Spares (· ∈ staleBlobIds g m.nextFiles) w c' :=
    (meets_publish m v).exec hpublish
  have hpassed : Since C 0 c c₁ := hidle.since
  have hremote : Good C (collectionKey collection) c g.remote.files :=
    fetched_good hstart (hfetched.imp_right fun h => by
      obtain ⟨payload, x, hheld, hopen⟩ := h
      exact ⟨payload, x, hidle.held hheld, hopen⟩)
  have hlater := hidle.later
  have hlater' := hv.later
  refine published (hstart.since hpassed) hv (fun b hb => ?_) (fun rel e he => ?_) hwritten hheld hremoved (by omega)
  · exact stale_fileBlob hremote hcareful.base hb
  · exact entries_due hcareful hremote hidle hv huploads hnoted herrors (by omega) he

/-- In a run of careful rounds, of any collections and devices, the live entries of the manifest
that the last one has published name blobs that have not expired. -/
theorem entries_stay_backed {start : RelayState D P} {rounds : List (Round D)}
    (hstart : Consistent C start)
    (hrun : Runs (fun c e c' => RoundStep C clamp c e c' ∧ Careful C c e c') start (rounds ++ [e]) c) :
    Backed C (collectionKey e.collection) c := by
  obtain ⟨c₁, c₂, hbefore, ⟨hstep, hcareful⟩, hlast⟩ := hrun.split
  cases hlast
  have hkeeps : ∀ c e c', Consistent C c → RoundStep C clamp c e c' ∧ Careful C c e c' →
      Consistent C c' := fun c e c' hc h => (round_backed hc h.1 h.2).2
  exact (round_backed (hbefore.invariant hkeeps hstart) hstep hcareful).1

omit [DecidableEq D] in
/-- The base of a run is what it reads of the state file, or empty. -/
theorem meets_gather_state {collection : Text} {σ : Type} {R : Answers (SyncOp D P) (SyncAns D P) σ}
    (depth : ℕ) (m : Merge D) (s : σ) :
    Meets R (fun _ _ => True)
      (fun g _ _ => g.state = ⟨0, ∅⟩ ∨ ∃ text, C.parseState text = some g.state)
      (fun _ _ _ => True) (gather C collection depth) m s := by
  rw [gather, meets_bind]
  refine Meets.any (fun info m s => ?_) fun _ _ _ => trivial
  rw [meets_bind]
  refine Meets.any (fun fetched m s => ?_) fun _ _ _ => trivial
  rw [meets_bind, loadLocalState, meets_bind]
  refine Meets.any (fun text m s => ?_) fun _ _ _ => trivial
  rw [meets_pure, meets_bind]
  refine Meets.any (fun locals m s => ?_) fun _ _ _ => trivial
  rw [meets_bind]
  refine Meets.any (fun now m s => ?_) fun _ _ _ => trivial
  rw [meets_pure]
  cases hread : text.toOption.bind C.parseState with
  | none => exact .inl rfl
  | some state =>
      obtain ⟨text', -, hparsed⟩ := Option.bind_eq_some_iff.mp hread
      exact .inr ⟨text', hparsed⟩

end Rounds

section Sample

open Tactile.Relay.Rest (Server)
open Tactile.Storage.Opfs (Tree)
open Tactile.Storage.Backend (Clock TextCodec)
open Tactile.Sync.Untrusted (Symbol symbols sampleCollection)
open Tactile.Sync.Uploads (noteTree noteId)

/-- The retention that a relay grants. -/
def granted (srv : Server) (ttl : ℤ) : ℤ := (srv.clampTTL (Int64.ofInt ttl)).toInt

theorem granted_default :
    granted Tactile.Relay.Replay.openServer syncBlobTtlSeconds = 90 * 24 * 3600 := by
  decide +kernel

/-- A device and the relay. -/
abbrev Pair : Type := Tree × RelayState Symbol (Plaintext Symbol)

/-- The answers of a relay that holds blobs for 1 hour to 365 days. -/
def pairAnswer : (o : SyncOp Symbol (Plaintext Symbol)) → Pair →
    SyncAns Symbol (Plaintext Symbol) o × Pair
  | .relay o, s =>
    let answered := RelayView.respond none (granted Tactile.Relay.Replay.openServer) o s.2
    (answered.1, s.1, answered.2)
  | .storage o, s =>
    let answered := Tactile.Storage.Backend.respond ⟨fun _ => [], fun _ => ""⟩
      ⟨s.2.time * 1000, fun _ => none⟩ o s.1
    (answered.1, answered.2, s.2)

/-- Sixty days later. -/
def rested (s : Pair) : Pair := (s.1, { s.2 with time := s.2.time + 60 * 24 * 3600 })

/-- A collection with a note and a place for its base. -/
def pairTree : Tree := noteTree.insert ["Notes".toList, tactileDir] .dir

/-- The device syncs a note every sixty days. -/
def noteRounds : ℕ → Pair
  | 0 => (pairTree, RelayState.empty Symbol (Plaintext Symbol))
  | n + 1 => (eval pairAnswer (syncNow symbols sampleCollection 3) (rested (noteRounds n))).2

theorem world_of_pair (s : Pair) (o : SyncOp Symbol (Plaintext Symbol)) (ans : SyncAns Symbol (Plaintext Symbol) o)
    (s' : Pair) (h : Responds pairAnswer s o ans s') :
    World (granted Tactile.Relay.Replay.openServer) s.2 o ans s'.2 := by
  cases o with
  | relay o =>
      cases h
      exact .served none o (Idle.refl s.2)
  | storage o =>
      cases h
      exact .local o _ (Idle.refl s.2)

theorem idle_rested (s : Pair) : Idle s.2 (rested s).2 := by
  refine ⟨?_, fun _ => .inl rfl⟩
  change s.2.time ≤ s.2.time + 60 * 24 * 3600
  omega

/-- A round of the device that ends without errors, before anything can expire. -/
theorem noteRound_step {n k : ℕ} {res : SyncResult} (hk : n + 1 = k)
    (hres : (eval pairAnswer (syncNow symbols sampleCollection 3) (rested (noteRounds n))).1 = some res)
    (herrors : res.errors = [])
    (htime : (noteRounds k).2.time < (noteRounds n).2.time + 90 * 24 * 3600) :
    ∃ g, RoundStep symbols (granted Tactile.Relay.Replay.openServer) (noteRounds n).2
      ⟨sampleCollection, g⟩ (noteRounds k).2 := by
  subst hk
  have hexec := exec_eval pairAnswer (syncNow symbols sampleCollection 3) (rested (noteRounds n))
  rw [hres] at hexec
  have hseen : Exec (World (granted Tactile.Relay.Replay.openServer)) (rested (noteRounds n)).2
      (syncNow symbols sampleCollection 3) (some res) (noteRounds (n + 1)).2 :=
    Steps.project Prod.snd world_of_pair hexec
  refine roundStep_of_exec (by decide) (idle_rested (noteRounds n)) hseen herrors ?_
  rw [granted_default]
  exact htime

theorem firstRound : (eval pairAnswer (syncNow symbols sampleCollection 3) (rested (noteRounds 0))).1 =
    some { uploaded := 1 } := by
  decide +kernel

theorem secondRound : (eval pairAnswer (syncNow symbols sampleCollection 3) (rested (noteRounds 1))).1 =
    some {} := by
  decide +kernel

theorem thirdRound : (eval pairAnswer (syncNow symbols sampleCollection 3) (rested (noteRounds 2))).1 =
    some {} := by
  decide +kernel

/-- The device finds no base that it can read. -/
theorem noteRound_base {e : Round Symbol} {c c' : RelayState Symbol (Plaintext Symbol)} {clamp : ℤ → ℤ}
    (h : RoundStep symbols clamp c e c') (rel : Text) :
    e.gathered.state.files.lookup rel = none := by
  obtain ⟨c₁, depth, m, -, ⟨m₀, u, v, hgather, -, -⟩, -, -⟩ := h
  have hbase : e.gathered.state = ⟨0, ∅⟩ ∨ ∃ text, symbols.parseState text = some e.gathered.state :=
    (meets_gather_state depth (Merge.empty Symbol) c₁).exec hgather
  rcases hbase with hnone | ⟨text, hread⟩
  · rw [hnone]
    exact AList.lookup_empty rel
  · cases hread

/-- After the third round the manifest has a live entry of the note, whose blob has expired. -/
theorem noteRounds_unbacked :
    ¬ Backed symbols (collectionKey sampleCollection) (noteRounds 3).2 := by
  rintro ⟨payload, x, manifest, hheld, -, hopen, hlive⟩
  have hentry : (((noteRounds 3).2.heldAt (manifestId symbols (collectionKey sampleCollection))).bind
      fun b => (openManifest symbols b.1).bind fun manifest => manifest.files.lookup "a.md".toList).map
        (fun e => (e.b, e.d)) = some (noteId, false) := by decide +kernel
  rw [heldAt_eq_some.mpr hheld, Option.bind_some, hopen, Option.bind_some, Option.map_eq_some_iff] at hentry
  obtain ⟨e, he, hnote⟩ := hentry
  obtain ⟨hb, hd⟩ := Prod.mk.inj hnote
  obtain ⟨payload', y, hheld', hy⟩ := hlive _ e he hd
  rw [hb] at hheld'
  have hblob : ((noteRounds 3).2.heldAt noteId).map Prod.snd = some (150 * 24 * 3600) := by decide +kernel
  rw [heldAt_eq_some.mpr hheld', Option.map_some, Option.some.injEq] at hblob
  have htime : (noteRounds 3).2.time = 180 * 24 * 3600 := by decide +kernel
  dsimp only at hblob
  omega

/-- A note that is synced every sixty days without a change: its blob, put in the first round,
expires while the manifest is put anew in each. -/
theorem entries_expire : ¬ ∀ (C : Crypto Symbol (Plaintext Symbol)) (srv : Server)
    (start c : RelayState Symbol (Plaintext Symbol)) (rounds : List (Round Symbol)) (e : Round Symbol),
    Consistent C start → Runs (RoundStep C (granted srv)) start (rounds ++ [e]) c →
    Backed C (collectionKey e.collection) c := by
  intro h
  obtain ⟨g₁, h₁⟩ := noteRound_step (k := 1) rfl firstRound rfl (by decide +kernel)
  obtain ⟨g₂, h₂⟩ := noteRound_step (k := 2) rfl secondRound rfl (by decide +kernel)
  obtain ⟨g₃, h₃⟩ := noteRound_step (k := 3) rfl thirdRound rfl (by decide +kernel)
  have hrun : Runs (RoundStep symbols (granted Tactile.Relay.Replay.openServer)) (noteRounds 0).2
      ([⟨sampleCollection, g₁⟩, ⟨sampleCollection, g₂⟩] ++ [⟨sampleCollection, g₃⟩])
      (noteRounds 3).2 := .cons h₁ (.cons h₂ (.single h₃))
  exact noteRounds_unbacked (h symbols Tactile.Relay.Replay.openServer (noteRounds 0).2
    (noteRounds 3).2 [⟨sampleCollection, g₁⟩, ⟨sampleCollection, g₂⟩] ⟨sampleCollection, g₃⟩
    (consistent_empty symbols) hrun)

/-- The first round of the note leaves it backed. -/
theorem entries_stay_backed_first :
    Backed symbols (collectionKey sampleCollection) (noteRounds 1).2 := by
  obtain ⟨g, hstep⟩ := noteRound_step (k := 1) rfl firstRound rfl (by decide +kernel)
  have hnew : ∀ id, (noteRounds 0).2.blobs id = none := fun _ => rfl
  have hcareful : Careful symbols (noteRounds 0).2 ⟨sampleCollection, g⟩ (noteRounds 1).2 := by
    refine ⟨fun rel r x _ hdue => ?_, fun rel l payload x _ hheld => ?_, fun rel s hs => ?_⟩
    · rw [Due, hnew] at hdue
      simp at hdue
    · rw [hnew] at hheld
      simp at hheld
    · rw [noteRound_base hstep rel] at hs
      simp at hs
  have hrun : Runs (fun c e c' => RoundStep symbols (granted Tactile.Relay.Replay.openServer) c e c' ∧
      Careful symbols c e c') (noteRounds 0).2 ([] ++ [⟨sampleCollection, g⟩]) (noteRounds 1).2 :=
    Runs.single ⟨hstep, hcareful⟩
  have hstart : Consistent symbols (noteRounds 0).2 := consistent_empty symbols
  have hbacked := entries_stay_backed hstart hrun
  exact hbacked

end Sample

end Tactile.Sync.Rounds

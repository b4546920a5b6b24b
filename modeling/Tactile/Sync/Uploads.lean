import Tactile.Sync.Merge
import Tactile.Sync.Untrusted
import Tactile.Relay.RelayClient

/-!
What a run uploads: files that its walk has admitted by their size, and how long their
payloads are against the limit of the relay.
-/

namespace Tactile.Sync.Uploads

open Tactile.Lib.Program Tactile.Lib.Script Tactile.Lib.FiniteMap
open Tactile.Storage.Paths Tactile.Storage.Idb Tactile.Storage.Backend
open Tactile.Sync.Records Tactile.Sync.SyncNow Tactile.Sync.Merge

variable {D P : Type}

abbrev SyncCalls (D P : Type) : Type := List (Call (SyncOp D P) (SyncAns D P))

section Admission

/-- The walk's limit for the size of a file, from what the relay says of itself. -/
def maxFile (info : RelayAns D P .info) : ℤ :=
  min ((info.toOption.bind fun size => size).getD maxFileBytes) maxFileBytes

/-- The walk asked for the size of a file and got none over the limit, and read the file. -/
structure Read (maxBytes : ℤ) (calls : SyncCalls D P) (l : LocalFile D) : Prop where
  stat : ∃ ans, ⟨.storage (.stat l.abs), ans⟩ ∈ calls ∧ ∀ st, ans = .ok st → st.size ≤ maxBytes
  data : ⟨.storage (.readFile l.abs), .ok l.data⟩ ∈ calls

def Admitted (calls : SyncCalls D P) (l : LocalFile D) : Prop :=
  ∃ info, ⟨.relay .info, info⟩ ∈ calls ∧ Read (maxFile info) calls l

/-- The files found so far were admitted under the limit of this information. -/
structure Explored (info : RelayAns D P .info) (out : Dict Text (LocalFile D))
    (calls : SyncCalls D P) : Prop where
  asked : ⟨.relay .info, info⟩ ∈ calls
  read : ∀ rel l, out.lookup rel = some l → Read (maxFile info) calls l

variable {calls : SyncCalls D P} {info : RelayAns D P .info} {out : Dict Text (LocalFile D)}

theorem Read.append {maxBytes : ℤ} {l : LocalFile D} (h : Read maxBytes calls l)
    (more : SyncCalls D P) : Read maxBytes (calls ++ more) l where
  stat := h.stat.imp fun _ hans => ⟨List.mem_append_left _ hans.1, hans.2⟩
  data := List.mem_append_left _ h.data

theorem Explored.append (h : Explored info out calls) (more : SyncCalls D P) :
    Explored info out (calls ++ more) where
  asked := List.mem_append_left _ h.asked
  read := fun rel l hl => (h.read rel l hl).append more

theorem Explored.insert (h : Explored info out calls) {l : LocalFile D}
    (hl : Read (maxFile info) calls l) (rel : Text) : Explored info (out.insert rel l) calls where
  asked := h.asked
  read := fun rel' l' hl' => by
    rw [lookup_insert_eq] at hl'
    split at hl'
    next =>
      cases hl'
      exact hl
    next => exact h.read rel' l' hl'

end Admission

section Kinds

/-- Anything but an upload. -/
def NoPut : SyncOp D P → Prop
  | .relay (.put ..) => False
  | _ => True

variable {K : SyncOp D P → Prop}

theorem only_call {o : RelayOp D P} (ho : K (.relay o)) : Method.Only K (call o) :=
  (Method.only_perform ho).bind fun _ => Method.only_ofExcept _ _

theorem only_store {o : StorageOp} (ho : K (.storage o)) : Method.Only K (store (D := D) o) :=
  (Method.only_perform ho).bind fun _ => Method.only_ofExcept _ _

theorem only_fetchManifest (C : Crypto D P) (id : D) : Method.Only NoPut (fetchManifest C id) :=
  (only_call (o := .get id) trivial).bind fun _ => Method.only_pure _

theorem only_pathResult {α : Type} (x : Except StorageError α) :
    Method.Only K (pathResult x : SyncMethod D P α) :=
  Method.only_ofExcept _ x

theorem only_outcome {α : Type} {f : SyncMethod D P α} (hf : Method.Only K f) :
    Method.Only K f.outcome := by
  intro m
  apply (hf m).bind
  exact fun _ => trivial

theorem only_loadLocalState (C : Crypto D P) (collection : Text) :
    Method.Only NoPut (loadLocalState C collection) := by
  apply Method.Only.bind
  · apply only_outcome
    apply (only_pathResult _).bind
    exact fun _ => only_store (o := .readTextFile _) trivial
  · exact fun _ => Method.only_pure _

end Kinds

section Walking

variable {σ : Type} {R : Answers (SyncOp D P) (SyncAns D P) σ}
variable {C : Crypto D P} {key : Text} {info : RelayAns D P .info}

/-- An upload is of the manifest or of a file that was admitted before. -/
def UploadsAdmitted (C : Crypto D P) (key : Text) (t : σ × SyncCalls D P) : SyncOp D P → Prop
  | .relay (.put id payload ttl) => id = manifestId C key ∨
      ttl = syncBlobTtlSeconds ∧ ∃ l, Admitted t.2 l ∧ payload = C.encrypt (.bytes l.data)
  | _ => True

/-- What a part of the run that goes on from some files found ends with. -/
abbrev Explores (R : Answers (SyncOp D P) (SyncAns D P) σ) (C : Crypto D P) (key : Text)
    (info : RelayAns D P .info) (f : SyncMethod D P (Dict Text (LocalFile D))) (m : Merge D)
    (t : σ × SyncCalls D P) : Prop :=
  Meets (Logged R) (UploadsAdmitted C key) (fun out _ t' => Explored info out t'.2)
    (fun _ _ _ => True) f m t

theorem meets_attempt_logged {o : StorageOp} {m : Merge D} {t : σ × SyncCalls D P}
    {Q : Option (StorageVal o) → Merge D → σ × SyncCalls D P → Prop}
    {E : SyncError → Merge D → σ × SyncCalls D P → Prop}
    (h : ∀ (ans : StorageAns o) s', Q ans.toOption m (s', t.2 ++ [⟨.storage o, ans⟩])) :
    Meets (Logged R) (UploadsAdmitted C key) Q E (attempt o) m t := by
  rw [meets_attempt]
  refine ⟨trivial, fun ans t' hans => ?_⟩
  obtain ⟨s', calls'⟩ := t'
  obtain ⟨-, rfl⟩ := hans
  exact h ans s'

theorem walkEntry_explores
    {descend : Text → Text → Dict Text (LocalFile D) → SyncMethod D P (Dict Text (LocalFile D))}
    (hdescend : ∀ abs rel out m t, Explored info out t.2 → Explores R C key info (descend abs rel out) m t)
    (absDir relDir : Text) (entry : DirEntry) {out : Dict Text (LocalFile D)} (m : Merge D)
    {t : σ × SyncCalls D P} (h : Explored info out t.2) :
    Explores R C key info (walkEntry C (maxFile info) descend absDir relDir out entry) m t := by
  have hsame : Explores R C key info (pure out) m t := h
  unfold walkEntry
  dsimp only
  generalize (if relDir = [] then entry.name else relDir ++ '/' :: entry.name) = rel
  rw [Explores, meets_bind]
  refine (meets_ofExcept ..).mpr ⟨fun abs _ => ?_, fun _ _ => trivial⟩
  split
  · split
    · exact hdescend _ _ _ _ _ h
    · split
      · exact hsame
      · rw [meets_bind]
        refine (meets_ofExcept ..).mpr ⟨fun internal _ => ?_, fun _ _ => trivial⟩
        split
        · exact hsame
        · exact hdescend _ _ _ _ _ h
  · split
    · exact hsame
    · rw [meets_bind]
      refine (meets_ofExcept ..).mpr ⟨fun internal _ => ?_, fun _ _ => trivial⟩
      split
      · exact hsame
      · rw [meets_bind]
        refine meets_attempt_logged fun stat s₁ => ?_
        split
        · exact h.append _
        next hsize =>
          rw [meets_bind]
          refine meets_attempt_logged fun data s₂ => ?_
          rcases data with e | data
          · exact (h.append _).append _
          · apply ((h.append _).append _).insert
            constructor
            · refine ⟨stat, List.mem_append_left _ (List.mem_append_right _ List.mem_cons_self),
                fun st hst => ?_⟩
              rw [hst] at hsize
              simpa [Except.toOption] using hsize
            · exact List.mem_append_right _ List.mem_cons_self

theorem walk_explores (depth : ℕ) (absDir relDir : Text) {out : Dict Text (LocalFile D)}
    (m : Merge D) {t : σ × SyncCalls D P} (h : Explored info out t.2) :
    Explores R C key info (walk C (maxFile info) depth absDir relDir out) m t := by
  induction depth generalizing absDir relDir out m t with
  | zero => exact trivial
  | succ depth ih =>
      rw [Explores, walk, meets_bind]
      refine meets_attempt_logged fun entries s₁ => ?_
      apply meets_foldlM _ (fun _ out' _ (t' : σ × SyncCalls D P) => Explored info out' t'.2)
      · exact h.append _
      · intro pre entry post _ out' m' t' h'
        exact walkEntry_explores (fun abs rel out m t => ih abs rel m) absDir relDir entry m' h'

/-- Before it merges, a run uploads nothing, and its files are admitted. -/
theorem gather_explores [DecidableEq D] (collection : Text) (depth : ℕ) (m : Merge D) (s : σ) :
    Meets (Logged R) (UploadsAdmitted C key)
      (fun g _ t => ∀ rel l, g.locals.lookup rel = some l → Admitted t.2 l) (fun _ _ _ => True)
      (gather C collection depth) m (s, []) := by
  have hquiet : ∀ {α : Type} {f : SyncMethod D P α} {Q : α → Merge D → σ × SyncCalls D P → Prop}
      {info : RelayAns D P .info} {m : Merge D} {t : σ × SyncCalls D P}, Method.Only NoPut f →
      Explored info ∅ t.2 → (∀ a m' t', Explored info ∅ t'.2 → Q a m' t') →
      Meets (Logged R) (UploadsAdmitted C key) Q (fun _ _ _ => True) f m t := by
    intro α f Q info m t hf h hQ
    refine (hf.admits (I := fun t => Explored info ∅ t.2) ?_ ?_ h).imp hQ fun _ _ _ _ => trivial
    · rintro ⟨s, calls⟩ o ans ⟨s', calls'⟩ - ⟨-, rfl⟩ hcalls
      exact hcalls.append _
    · intro t o _ ho
      cases o with
      | relay o =>
          cases o with
          | put => exact ho.elim
          | _ => trivial
      | storage => trivial
  have hrest : ∀ (ans : RelayAns D P .info) (info : Except SyncError (Option ℤ)) (m : Merge D)
      (t : σ × SyncCalls D P), info.toOption = ans.toOption → ⟨.relay .info, ans⟩ ∈ t.2 →
      Meets (Logged R) (UploadsAdmitted C key)
        (fun g _ t => ∀ rel l, g.locals.lookup rel = some l → Admitted t.2 l) (fun _ _ _ => True) (do
          let maxFile := min ((info.toOption.bind fun size => size).getD maxFileBytes) maxFileBytes
          let fetched ← fetchManifest C (manifestId C (collectionKey collection))
          let state ← loadLocalState C collection
          let locals ← walkCollection C collection maxFile depth
          let now : ℤ ← store .now
          pure { remote := fetched.getD ⟨0, ∅⟩, state := state, locals := locals, now := now }
          : SyncMethod D P (Gathered D)) m t := by
    intro ans info m t hinfo hasked
    have hstart : Explored ans ∅ t.2 := ⟨hasked, fun rel l hl => by simp at hl⟩
    dsimp only
    rw [hinfo, meets_bind]
    refine hquiet (only_fetchManifest C _) hstart fun fetched m₁ t₁ h₁ => ?_
    rw [meets_bind]
    refine hquiet (only_loadLocalState C collection) h₁ fun state m₂ t₂ h₂ => ?_
    rw [meets_bind]
    refine (walk_explores depth collection [] m₂ h₂).imp (fun locals m₃ t₃ h₃ => ?_) fun _ _ _ h => h
    rw [meets_bind]
    refine (meets_store .now _ _ _).mpr ⟨trivial, ?_⟩
    rintro now ⟨s₄, calls₄⟩ ⟨-, rfl⟩
    refine ⟨fun _ _ rel l hl => ?_, fun _ _ => trivial⟩
    exact ⟨ans, (h₃.append _).asked, (h₃.append _).read rel l hl⟩
  rw [gather, meets_bind, meets_outcome]
  refine (meets_call .info _ _ _).mpr ⟨trivial, ?_⟩
  rintro ans ⟨s₁, calls₁⟩ ⟨-, rfl⟩
  refine ⟨?_, ?_⟩
  · rintro size rfl
    exact hrest (.ok size) (.ok size) _ _ rfl (by simp)
  · rintro e rfl
    exact hrest (.error e) (.error (.relay e)) _ _ rfl (by simp)

end Walking

section Merging

variable {C : Crypto D P} {collection : Text} {g : Gathered D}

/-- An upload is of the manifest or of a file found. -/
def UploadsFound (C : Crypto D P) (key : Text) (g : Gathered D) : SyncOp D P → Prop
  | .relay (.put id payload ttl) => id = manifestId C key ∨
      ttl = syncBlobTtlSeconds ∧ ∃ rel l, g.locals.lookup rel = some l ∧ payload = C.encrypt (.bytes l.data)
  | _ => True

/-- Only a file that is here is uploaded. -/
theorem decision_upload [DecidableEq D] {now : ℤ} {l : Option (LocalFile D)}
    {r : Option (RemoteFileEntry D)} {s : Option (BaseEntry D)} {l' : LocalFile D}
    (h : decision now l r s = .upload l' ∨ decision now l r s = .conflictUpload l') : l = some l' := by
  unfold decision at h
  split at h
  · split_ifs at h <;> simp_all
  · simp_all
  · split_ifs at h <;> simp_all
  · simp_all

theorem placeAt_only {K : SyncOp D P → Prop} (hstore : ∀ o, K (.storage o)) (rel : Text)
    (data : Except SyncError Bytes) : (placeAt collection rel data : SyncProg D P PathOutcome).Only K := by
  unfold placeAt
  split
  · trivial
  · unfold placeFile
    split
    · trivial
    · refine ⟨hstore _, fun made => ?_⟩
      rcases made with e | ⟨⟩
      · trivial
      · rcases data with e | data
        · trivial
        · exact ⟨hstore _, fun _ => trivial⟩

theorem getFile_only {K : SyncOp D P → Prop} (hstore : ∀ o, K (.storage o))
    (hget : ∀ id, K (.relay (.get id))) (r : RemoteFileEntry D) (rel : Text) :
    (getFile C collection r rel).Only K := by
  refine ⟨hget _, fun ans => ?_⟩
  rcases ans with e | _ | payload
  · trivial
  · trivial
  · exact placeAt_only hstore rel _

/-- What a run does for a path uploads at most the file found there. -/
theorem effects_found [DecidableEq D] (rel : Text) :
    (effects C collection g.now rel (decision g.now (g.locals.lookup rel)
      (g.remote.files.lookup rel) (g.state.files.lookup rel))).Only
        (UploadsFound C (collectionKey collection) g) := by
  have hput : ∀ l, g.locals.lookup rel = some l →
      (putFile C collection l).Only (UploadsFound C (collectionKey collection) g) := by
    intro l hl
    exact ⟨.inr ⟨rfl, rel, l, hl, rfl⟩, fun _ => trivial⟩
  have hget : ∀ r : RemoteFileEntry D,
      (getFile C collection r rel).Only (UploadsFound C (collectionKey collection) g) :=
    fun r => getFile_only (fun _ => trivial) (fun _ => trivial) r rel
  cases hd : decision g.now (g.locals.lookup rel) (g.remote.files.lookup rel)
      (g.state.files.lookup rel) with
  | upload l => exact hput l (decision_upload (.inl hd))
  | conflictUpload l => exact hput l (decision_upload (.inr hd))
  | download r => exact hget r
  | conflictCopy l r =>
      apply (placeAt_only (fun _ => trivial) _ _).bind
      intro copied
      rcases copied with e | ⟨⟩
      · trivial
      · exact hget r
  | deleteLocal l r => exact ⟨trivial, fun _ => trivial⟩
  | _ => trivial

theorem syncGathered_found [DecidableEq D] :
    Method.Only (UploadsFound C (collectionKey collection) g) (syncGathered C collection g) := by
  have hremove : ∀ b, UploadsFound C (collectionKey collection) g (.relay (.remove b)) := fun _ => trivial
  unfold syncGathered mergeAll publish writeManifest saveLocalState
  apply Method.Only.bind
  · apply (Method.only_update _).bind
    intro _
    apply Method.Only.forM
    intro rel _ m
    rw [mergePath_call C collection g.now g.remote g.state g.locals rel m rfl]
    apply (effects_found rel).bind
    exact fun _ => trivial
  · intro _
    apply Method.only_read.bind
    intro m
    apply Method.Only.bind
    · apply (only_call (hremove _)).bind
      intro _
      apply (only_call (o := .put _ _ _) (.inl rfl)).bind
      exact fun _ => Method.only_pure _
    · intro _
      apply Method.Only.bind
      · apply Method.Only.forM
        intro b _
        apply (only_outcome (only_call (hremove b))).bind
        exact fun _ => Method.only_pure _
      · intro _
        apply (only_pathResult _).bind
        exact fun _ => only_store (o := .writeTextFile _ _) trivial

/-- Every upload of a run, at any point of it, is of the manifest or of a file that the walk
has admitted. -/
theorem syncNow_admitted [DecidableEq D] {σ : Type} (R : Answers (SyncOp D P) (SyncAns D P) σ)
    (C : Crypto D P) (collection : Text) (depth : ℕ) (s : σ) :
    Holds (Logged R) (UploadsAdmitted C (collectionKey collection)) (fun _ _ => True)
      (syncNow C collection depth) (s, []) := by
  by_cases hopen : collection = []
  · rw [syncNow, if_pos hopen]
    trivial
  · rw [holds_syncNow hopen, syncRun, meets_bind]
    refine (gather_explores collection depth _ s).imp (fun g m t hfound => ?_) fun _ _ _ _ => trivial
    refine (syncGathered_found.admits
      (I := fun t => ∀ rel l, g.locals.lookup rel = some l → Admitted t.2 l) ?_ ?_ hfound).imp
        (fun _ _ _ _ => trivial) fun _ _ _ _ => trivial
    · rintro ⟨s, calls⟩ o ans ⟨s', calls'⟩ - ⟨-, rfl⟩ hcalls rel l hl
      obtain ⟨info, hasked, hread⟩ := hcalls rel l hl
      exact ⟨info, List.mem_append_left _ hasked, hread.append _⟩
    · intro t o hcalls ho
      rcases o with o | o
      · rcases o with _ | _ | ⟨id, payload, ttl⟩ | _
        · trivial
        · trivial
        · refine ho.imp_right fun hput => ?_
          obtain ⟨httl, rel, l, hl, hpayload⟩ := hput
          exact ⟨httl, l, hcalls rel l hl, hpayload⟩
        · trivial
      · trivial

end Merging

section Lengths

open Tactile.Relay.Rest (Server Arrival Response)
open Tactile.Relay.Replay (Signer)
open Tactile.Relay.Blob (BlobID)
open Tactile.Lib.ByteString (ByteArr)

/-- `NONCE_LEN`. -/
def nonceLen : ℕ := 24

/-- The length of the tag that the cipher adds. -/
def tagLen : ℕ := 16

/-- A nonce, and what the cipher makes of the plaintext with the key and the nonce. -/
def encrypt (cipher : Bytes → Bytes → Bytes → Bytes) (key : Bytes) (nonce : ByteArr nonceLen)
    (plaintext : Bytes) : Bytes :=
  nonce.val ++ cipher key nonce.val plaintext

def tooLarge : Response := .error 413 "too_large" "payload over max_blob_size"

/-- The relay answers an admitted client's put as too large by the length of the payload only. -/
theorem checkPut_tooLarge_iff {srv : Server} {key : Signer} {userAgent : Text} {arr : Arrival}
    (hagent : srv.checkUA userAgent = true) (hlimited : arr.limited = false)
    (hallowed : srv.allowIdentity key.pub = true) (bid : BlobID)
    (payload : Bytes) :
    srv.checkPut (Tactile.Relay.RelayClient.put key userAgent bid payload syncBlobTtlSeconds).request
        arr = .error tooLarge ↔ payload = [] ∨ srv.maxBlobSize < payload.length := by
  rw [(Tactile.Relay.RelayClient.checkPut_sent bid payload (by decide)).bytes,
    Tactile.Relay.RelayClient.verdict, hagent, hlimited, hallowed]
  by_cases hlarge : payload = [] ∨ srv.maxBlobSize < payload.length
  · simp [hlarge, tooLarge]
  · simp only [hlarge, iff_false, not_true_eq_false, if_false, Bool.false_eq_true, gt_iff_lt,
      decide_false]
    split <;> simp [tooLarge, Tactile.Relay.Rest.badSignature]

variable {σ : Type}

/-- Every upload of a file in a run of the sync, whatever the storage and the relay answer, is
of a file that the walk has admitted by its size, and the relay answers it as too large unless
the bytes read leave room for the nonce and the tag. -/
theorem upload_fits_iff [DecidableEq D] (R : Answers (SyncOp D P) (SyncAns D P) σ) (C : Crypto D P)
    (cipher : Bytes → Bytes → Bytes → Bytes) (encKey : Bytes) (bytes : P → Bytes)
    (hcipher : ∀ key nonce plaintext, (cipher key nonce plaintext).length = plaintext.length + tagLen)
    (hbytes : ∀ data, ∃ nonce, bytes (C.encrypt (.bytes data)) = encrypt cipher encKey nonce data)
    (collection : Text) (depth : ℕ) (s s' : σ) (calls : SyncCalls D P) (id : D) (payload : P) (ttl : ℤ)
    (next : RelayAns D P (.put id payload ttl) → SyncProg D P (Option SyncResult))
    (hid : id ≠ manifestId C (collectionKey collection))
    (hrun : Steps (Logged R) (s, []) (syncNow C collection depth) (s', calls)
      (.call (.relay (.put id payload ttl)) next))
    (srv : Server) (key : Signer) (userAgent : Text) (arr : Arrival) (bid : BlobID)
    (hagent : srv.checkUA userAgent = true) (hlimited : arr.limited = false)
    (hallowed : srv.allowIdentity key.pub = true) :
    ∃ l, Admitted calls l ∧ payload = C.encrypt (.bytes l.data) ∧
      (srv.checkPut (Tactile.Relay.RelayClient.put key userAgent bid (bytes payload) ttl).request arr ≠
        .error tooLarge ↔ (l.data.length + nonceLen + tagLen : ℤ) ≤ srv.maxBlobSize) := by
  have hadmits : UploadsAdmitted C (collectionKey collection) (s', calls)
      (.relay (.put id payload ttl)) := (syncNow_admitted R C collection depth s).admits hrun
  obtain ⟨rfl, l, hl, rfl⟩ := hadmits.resolve_left hid
  refine ⟨l, hl, rfl, ?_⟩
  obtain ⟨nonce, hpayload⟩ := hbytes l.data
  have hlength : (bytes (C.encrypt (.bytes l.data))).length = nonceLen + (l.data.length + tagLen) := by
    rw [hpayload, encrypt, List.length_append, hcipher, nonce.2]
  have hnonempty : bytes (C.encrypt (.bytes l.data)) ≠ [] := by
    rw [← List.length_pos_iff, hlength]
    simp [nonceLen]
  rw [ne_eq, checkPut_tooLarge_iff hagent hlimited hallowed, hlength]
  simp only [hnonempty, false_or, not_lt]
  push_cast
  omega

end Lengths

section Sample

open Tactile.Relay.Rest (Server)
open Tactile.Lib.ByteString (ByteArr)
open Tactile.Storage.Opfs (Tree)
open Tactile.Sync.Untrusted

/-- A relay without blobs that gives a maximal size for one. -/
def sizedRelay (maxBlobSize : ℤ) :
    (o : RelayOp Symbol (Plaintext Symbol)) → RelayAns Symbol (Plaintext Symbol) o
  | .info => .ok (some maxBlobSize)
  | .get _ => .ok none
  | .put .. => .ok true
  | .remove _ => .ok ()

def sizedServer (maxBlobSize : ℤ) : Server :=
  { Tactile.Relay.Replay.openServer with maxBlobSize := maxBlobSize }

/-- The answers of that relay, and those of a backend that never fails. -/
def noteAnswer (maxBlobSize : ℤ) : (o : SyncOp Symbol (Plaintext Symbol)) → Tree →
    SyncAns Symbol (Plaintext Symbol) o × Tree :=
  answer (sizedRelay maxBlobSize) ⟨fun _ => [], fun _ => ""⟩ ⟨0, fun _ => none⟩

/-- A collection with a note of two bytes. -/
def noteTree : Tree := sampleTree.insert ["Notes".toList, "a.md".toList] (.file [1, 2])

/-- A sync of the note up to its upload. -/
def noteRun (maxBlobSize : ℤ) : SyncProg Symbol (Plaintext Symbol) (Option SyncResult) × Tree :=
  runFor (noteAnswer maxBlobSize) 7 (syncNow symbols sampleCollection 2) noteTree

/-- The blob and the bytes that a run is about to upload. -/
def uploading : SyncProg Symbol (Plaintext Symbol) (Option SyncResult) → Option (Symbol × Bytes)
  | .call (.relay (.put id (.bytes data) _)) _ => some (id, data)
  | _ => none

theorem put_of_uploading {p : SyncProg Symbol (Plaintext Symbol) (Option SyncResult)} {id : Symbol}
    {data : Bytes} (h : uploading p = some (id, data)) :
    ∃ ttl next, p = .call (.relay (.put id (.bytes data) ttl)) next := by
  unfold uploading at h
  split at h
  · cases h
    exact ⟨_, _, rfl⟩
  · cases h

def noteId : Symbol := .file "Notes".toList "a.md".toList (.content [1, 2])

theorem noteRun_puts (maxBlobSize : ℤ) (h : uploading (noteRun maxBlobSize).1 = some (noteId, [1, 2])) :
    ∃ calls ttl next, Steps (Logged (Responds (noteAnswer maxBlobSize))) (noteTree, [])
      (syncNow symbols sampleCollection 2) ((noteRun maxBlobSize).2, calls)
      (.call (.relay (.put noteId (.bytes [1, 2]) ttl)) next) := by
  obtain ⟨ttl, next, hput⟩ := put_of_uploading h
  have hrun : Steps (Responds (noteAnswer maxBlobSize)) noteTree (syncNow symbols sampleCollection 2)
      (noteRun maxBlobSize).2 (noteRun maxBlobSize).1 := steps_runFor _ 7 _ _
  rw [hput] at hrun
  obtain ⟨calls, hlogged⟩ := hrun.log []
  exact ⟨calls, ttl, next, hlogged⟩

/-- A cipher that adds an empty tag. -/
def plainCipher (_ _ plaintext : Bytes) : Bytes := plaintext ++ List.replicate 16 0

def zeroNonce : ByteArr nonceLen := ⟨List.replicate 24 0, rfl⟩

def plainBytes : Plaintext Symbol → Bytes
  | .bytes data => encrypt plainCipher [] zeroNonce data
  | .json _ => []

/-- A note with room for the nonce and the tag is not too large. -/
theorem note_fits : ∃ ttl,
    (sizedServer 42).checkPut (Tactile.Relay.RelayClient.put Tactile.Relay.Replay.zeroSigner []
      Tactile.Relay.Replay.zeroID (plainBytes (.bytes [1, 2])) ttl).request
        (Tactile.Relay.Replay.arrivalAt 0) ≠ .error tooLarge := by
  obtain ⟨calls, ttl, next, hrun⟩ := noteRun_puts 42 (by decide +kernel)
  obtain ⟨l, -, hl, hfits⟩ := upload_fits_iff _ symbols plainCipher [] plainBytes
    (fun _ _ plaintext => by simp [plainCipher, tagLen]) (fun data => ⟨zeroNonce, rfl⟩) _ _ _ _ _ _ _ _
    next (by decide) hrun (sizedServer 42) Tactile.Relay.Replay.zeroSigner []
    (Tactile.Relay.Replay.arrivalAt 0) Tactile.Relay.Replay.zeroID rfl rfl rfl
  have hdata : l.data = [1, 2] := (Plaintext.bytes.inj hl).symm
  exact ⟨ttl, hfits.mpr (by simp [hdata, nonceLen, tagLen, sizedServer])⟩

/-- A file of two bytes is admitted under a limit of 41 bytes and its upload is too large. -/
theorem admitted_note_too_large : ∃ (t : Tree) (calls : SyncCalls Symbol (Plaintext Symbol)) (ttl : ℤ)
    (next : RelayAns Symbol (Plaintext Symbol) (.put noteId (.bytes [1, 2]) ttl) →
      SyncProg Symbol (Plaintext Symbol) (Option SyncResult)),
    Steps (Logged (Responds (noteAnswer 41))) (noteTree, []) (syncNow symbols sampleCollection 2)
      (t, calls)
      (.call (.relay (.put noteId (.bytes [1, 2]) ttl)) next) ∧
    (sizedServer 41).maxBlobSize = 41 ∧
    (sizedServer 41).checkPut (Tactile.Relay.RelayClient.put Tactile.Relay.Replay.zeroSigner []
      Tactile.Relay.Replay.zeroID (plainBytes (.bytes [1, 2])) syncBlobTtlSeconds).request
        (Tactile.Relay.Replay.arrivalAt 0) = .error tooLarge := by
  obtain ⟨calls, ttl, next, hrun⟩ := noteRun_puts 41 (by decide +kernel)
  refine ⟨_, _, ttl, next, hrun, rfl, ?_⟩
  exact (checkPut_tooLarge_iff rfl rfl rfl _ _).mpr (.inr (by decide))

end Sample

end Tactile.Sync.Uploads

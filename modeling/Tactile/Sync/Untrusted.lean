import Tactile.Sync.SyncNow

/-!
A run against a relay that may answer anything, and what its downloads write.
-/

namespace Tactile.Sync.Untrusted

open Tactile.Lib.Program Tactile.Lib.Script Tactile.Lib.FiniteMap
open Tactile.Storage.Paths Tactile.Storage.Idb Tactile.Storage.Opfs Tactile.Storage.Backend
open Tactile.Sync.Records Tactile.Sync.SyncNow

variable {D P : Type}

/-- The relay gives an answer that it may give; the storage backend is the tree's. -/
inductive World (may : (o : RelayOp D P) → RelayAns D P o → Prop) (codec : TextCodec)
    (clock : Clock) : Answers (SyncOp D P) (SyncAns D P) Tree
  | relay (t : Tree) (o : RelayOp D P) (ans : RelayAns D P o) :
      may o ans → World may codec clock t (.relay o) ans t
  | storage (t t' : Tree) (o : StorageOp) (ans : StorageAns o) :
      Serves codec clock t o ans t' → World may codec clock t (.storage o) ans t'

section Rules

variable {may : (o : RelayOp D P) → RelayAns D P o → Prop} {codec : TextCodec} {clock : Clock}
variable {m : Merge D} {t : Tree} {E : SyncError → Merge D → Tree → Prop} {α : Type}
variable {G : Tree → SyncOp D P → Prop}

theorem meets_request {o : RelayOp D P} {Q : RelayVal D P o → Merge D → Tree → Prop}
    (hG : G t (.relay o)) (hok : ∀ val, may o (.ok val) → Q val m t)
    (herror : ∀ e, may o (.error e) → E (.relay e) m t) :
    Meets (World may codec clock) G Q E (call o) m t := by
  rw [meets_call]
  refine ⟨hG, fun ans t' hans => ?_⟩
  cases hans with
  | relay _ _ _ hmay => exact ⟨fun val hval => hok val (hval ▸ hmay), fun e he => herror e (he ▸ hmay)⟩

theorem meets_stored {o : StorageOp} {Q : StorageVal o → Merge D → Tree → Prop}
    (hG : G t (.storage o)) (hok : ∀ val t', respond codec clock o t = (.ok val, t') → Q val m t')
    (herror : ∀ e t', t' = t ∨ respond codec clock o t = (.error e, t') → E (.storage e) m t') :
    Meets (World may codec clock) G Q E (store o) m t := by
  rw [meets_store]
  refine ⟨hG, fun ans t' hans => ?_⟩
  cases hans with
  | storage _ _ _ _ hserves =>
      exact ⟨fun val hval => hok val t' (served_ok (hval ▸ hserves)),
        fun e he => herror e t' (served_error (he ▸ hserves))⟩

theorem meets_path {x : Except StorageError α} {Q : α → Merge D → Tree → Prop}
    (hok : ∀ a, x = .ok a → Q a m t) (herror : ∀ e, x = .error e → E (.storage (.storage e)) m t) :
    Meets (World may codec clock) G Q E (pathResult x) m t :=
  (meets_ofExcept ..).mpr ⟨hok, herror⟩

/-- What a write below a directory leaves. -/
def Placed (t : Tree) (l : List Text) (data : Bytes) (t' : Tree) : Prop :=
  ∃ t₁, mkdirAt t l.dropLast true = (.ok (), t₁) ∧ writeFileAt t₁ l data = (.ok (), t')

theorem meets_writeBelow {l : List Text} (hl : Names l) (data : Except SyncError Bytes)
    {Q : Unit → Merge D → Tree → Prop} (hmkdir : G t (.storage (.mkdir (render l.dropLast) true)))
    (hwrite : ∀ t₁ bytes, G t₁ (.storage (.writeFile (render l) bytes)))
    (hok : ∀ bytes t', data = .ok bytes → Placed t l bytes t' → Q () m t')
    (herror : ∀ e t', SameFiles t t' → E e m t') :
    Meets (World may codec clock) G Q E (writeBelow (render l) data) m t := by
  rw [writeBelow, parentPath_render hl, meets_bind]
  have hl' : Names l.dropLast := fun s hs => hl s (List.dropLast_subset l hs)
  refine meets_path (fun parent hparent => ?_) nofun
  cases hparent
  have hmade : respond codec clock (.mkdir (render l.dropLast) true) t =
      mkdirAt t l.dropLast true := by
    rw [respond, writing_ok (pathSegments_render hl')]
  rw [meets_bind]
  refine meets_stored hmkdir (fun _ t₁ hans => ?_) fun e t₁ hans => herror _ t₁ ?_
  · rw [hmade] at hans
    have hfiles : SameFiles t t₁ := by
      have hsame := sameFiles_mkdirAt t l.dropLast true
      rw [hans] at hsame
      exact hsame
    rw [meets_bind, meets_ofExcept]
    refine ⟨fun bytes hbytes => ?_, fun e _ => herror e t₁ hfiles⟩
    have hwritten : respond codec clock (.writeFile (render l) bytes) t₁ = writeFileAt t₁ l bytes := by
      rw [respond, writing_ok (pathSegments_render hl)]
    refine meets_stored (hwrite t₁ bytes) (fun _ t₂ hans' => ?_) fun e t₂ hans' => herror _ t₂ ?_
    · rw [hwritten] at hans'
      exact hok bytes t₂ hbytes ⟨t₁, hans, hans'⟩
    · rw [hwritten] at hans'
      rcases hans' with rfl | hans'
      · exact hfiles
      · rw [writeFileAt_error hans']
        exact hfiles
  · rw [hmade] at hans
    rcases hans with rfl | hans
    · exact .refl t₁
    · have hsame := sameFiles_mkdirAt t l.dropLast true
      rw [hans] at hsame
      exact hsame

end Rules

theorem joinPath_eq_ok {parts : List Text} {abs : Text} (h : joinPath parts = .ok abs) :
    ∃ l, Names l ∧ abs = render l :=
  normalizePath_eq_ok h

section Downloads

variable (C : Crypto D P) (collection rel : Text) (r : RemoteFileEntry D)
variable (codec : TextCodec) (clock : Clock) (m : Merge D) (t : Tree)

/-- A download writes what has the hash of the entry, or it changes no file and
notes an error. -/
def Sound (m' : Merge D) (t' : Tree) : Prop :=
  (∃ l bytes t₁, joinPath [collection, rel] = .ok (render l) ∧ Names l ∧ SameFiles t t₁ ∧
      t' = t₁.insert l (.file bytes) ∧ C.contentHash bytes = r.h ∧
      m'.result.errors = m.result.errors) ∨
    SameFiles t t' ∧ ∃ e, m'.result.errors = m.result.errors ++ [.path rel e]

/-- What a response decrypts to has the hash of the entry, or cannot be written. -/
def Faithful (response : RelayAns D P (.get r.b)) : Prop :=
  ∀ payload bytes, response = .ok (some payload) → decrypted C payload = .ok bytes →
    C.contentHash bytes = r.h ∨ ∀ l t', joinPath [collection, rel] = .ok (render l) → Names l →
      ¬ Placed t l bytes t'

variable {C collection rel r codec clock m t}

theorem Placed.wrote {l : List Text} {bytes : Bytes} {t' : Tree} (h : Placed t l bytes t') :
    ∃ t₁, SameFiles t t₁ ∧ t' = t₁.insert l (.file bytes) := by
  obtain ⟨t₁, hmkdir, hwrite⟩ := h
  have hsame := sameFiles_mkdirAt t l.dropLast true
  rw [hmkdir] at hsame
  exact ⟨t₁, hsame, (writeFileAt_eq_ok.mp hwrite).2.2⟩

theorem download_sound {relay : (o : RelayOp D P) → RelayAns D P o}
    (h : Faithful C collection rel r t (relay (.get r.b))) :
    Meets (World (fun o ans => ans = relay o) codec clock) (fun _ _ => True)
      (fun _ m' t' => Sound C collection rel r m t m' t') (fun _ _ _ => False)
      ((download C collection r rel).orElse (noteError rel)) m t := by
  have hnoted : ∀ e t', SameFiles t t' →
      Meets (World (fun o ans => ans = relay o) codec clock) (fun _ _ => True)
        (fun _ m' t' => Sound C collection rel r m t m' t') (fun _ _ _ => False)
        (noteError rel e) m t' :=
    fun e t' hsame => .inr ⟨hsame, e, rfl⟩
  rw [meets_orElse, download, meets_bind]
  refine meets_request (G := fun _ _ => True) trivial (fun data hdata => ?_) fun e _ => ?_
  · cases data with
    | none => exact hnoted _ t (.refl t)
    | some payload =>
        dsimp only
        rw [meets_bind]
        refine meets_path (fun abs habs => ?_) fun e _ => hnoted _ t (.refl t)
        obtain ⟨l, hl, rfl⟩ := joinPath_eq_ok habs
        rw [meets_bind]
        refine meets_writeBelow (G := fun _ _ => True) hl _ trivial (fun _ _ => trivial) (fun bytes t' hbytes hplaced => ?_)
          fun e t' hsame => ?_
        · obtain ⟨t₁, hsame, heq⟩ := hplaced.wrote
          refine .inl ⟨l, bytes, t₁, habs, hl, hsame, heq, ?_, rfl⟩
          refine (h payload bytes hdata.symm hbytes).resolve_right fun hcannot => ?_
          exact hcannot l t' habs hl hplaced
        · exact hnoted e t' hsame
  · exact hnoted _ t (.refl t)

/-- The relay's answers, and those of a backend that never fails. -/
def answer (relay : (o : RelayOp D P) → RelayAns D P o) (codec : TextCodec) (clock : Clock) :
    (o : SyncOp D P) → Tree → SyncAns D P o × Tree
  | .relay o, t => (relay o, t)
  | .storage o, t => respond codec clock o t

theorem world_of_answer {relay : (o : RelayOp D P) → RelayAns D P o} (t : Tree) (o : SyncOp D P)
    (ans : SyncAns D P o) (t' : Tree) (h : Responds (answer relay codec clock) t o ans t') :
    World (fun o ans => ans = relay o) codec clock t o ans t' := by
  cases o with
  | relay o =>
      obtain ⟨rfl, rfl⟩ := Prod.mk.inj h
      exact .relay t o _ rfl
  | storage o => exact .storage t t' o ans (serves_of_responds h)

/-- What decrypts and can be written is written. -/
theorem download_writes {relay : (o : RelayOp D P) → RelayAns D P o} {payload : P} {bytes : Bytes}
    {l : List Text} {t' : Tree} (hresponse : relay (.get r.b) = .ok (some payload))
    (hbytes : decrypted C payload = .ok bytes) (hjoin : joinPath [collection, rel] = .ok (render l))
    (hl : Names l) (hplaced : Placed t l bytes t') :
    Meets (Responds (answer relay codec clock)) (fun _ _ => True)
      (fun _ m' t'' => t'' = t' ∧ m'.result.errors = m.result.errors) (fun _ _ _ => False)
      ((download C collection r rel).orElse (noteError rel)) m t := by
  obtain ⟨t₁, hmkdir, hwrite⟩ := hplaced
  have hl' : Names l.dropLast := fun s hs => hl s (List.dropLast_subset l hs)
  rw [meets_orElse, download, meets_bind]
  refine (meets_call (.get r.b) _ m t).mpr ⟨trivial, fun ans t₂ hans => ?_⟩
  obtain ⟨rfl, rfl⟩ := Prod.mk.inj hans
  rw [hresponse]
  refine ⟨fun data hdata => ?_, nofun⟩
  cases hdata
  rw [hjoin]
  change Meets _ _ _ _ (writeBelow (render l) (decrypted C payload) >>= _) m t
  rw [meets_bind, writeBelow, parentPath_render hl]
  change Meets _ _ _ _ (store (.mkdir (render l.dropLast) true) >>= _) m t
  rw [meets_bind]
  refine (meets_store _ _ m t).mpr ⟨trivial, fun ans t₂ hans => ?_⟩
  have hmade : writing t (render l.dropLast) (fun l => mkdirAt t l true) = (ans, t₂) := hans
  rw [writing_ok (pathSegments_render hl'), hmkdir] at hmade
  cases hmade
  refine ⟨fun _ _ => ?_, nofun⟩
  rw [hbytes]
  change Meets _ _ _ _ (store (.writeFile (render l) bytes)) m t₁
  refine (meets_store _ _ m t₁).mpr ⟨trivial, fun ans t₂ hans => ?_⟩
  have hwritten : writing t₁ (render l) (fun l => writeFileAt t₁ l bytes) = (ans, t₂) := hans
  rw [writing_ok (pathSegments_render hl), hwrite] at hwritten
  cases hwritten
  exact ⟨fun _ _ => ⟨rfl, rfl⟩, nofun⟩

/-- A response that decrypts to something else is written and no error noted. -/
theorem download_unsound {relay : (o : RelayOp D P) → RelayAns D P o} {payload : P} {bytes : Bytes}
    {l : List Text} {t' : Tree} (hresponse : relay (.get r.b) = .ok (some payload))
    (hbytes : decrypted C payload = .ok bytes) (hother : C.contentHash bytes ≠ r.h)
    (hjoin : joinPath [collection, rel] = .ok (render l)) (hl : Names l)
    (hplaced : Placed t l bytes t') :
    ∃ m', Exec (World (fun o ans => ans = relay o) codec clock) t
      (((download C collection r rel).orElse (noteError rel)).call m) (.ok (), m') t' ∧
      ¬ Sound C collection rel r m t m' t' := by
  have hwrites : Meets (Responds (answer relay codec clock)) _ _ _ _ m t :=
    download_writes hresponse hbytes hjoin hl hplaced
  obtain ⟨⟨out, m'⟩, t'', hexec, hout⟩ :=
    hwrites.exists_exec fun _ _ _ => ⟨_, _, rfl⟩
  cases out with
  | error e => exact hout.elim
  | ok =>
      obtain ⟨rfl, herrors⟩ := hout
      refine ⟨m', Steps.mono world_of_answer hexec, ?_⟩
      rintro (⟨l', bytes', t₁, hjoin', hl', -, heq, hhash, -⟩ | ⟨-, e, hnoted⟩)
      · rw [hjoin] at hjoin'
        have hsame : l' = l := render_inj hl' hl (Except.ok.inj hjoin').symm
        subst hsame
        obtain ⟨t₂, -, heq'⟩ := hplaced.wrote
        have hstored : t''.lookup l' = some (.file bytes) := by
          rw [heq', lookup_insert_eq, if_pos rfl]
        rw [heq, lookup_insert_eq, if_pos rfl] at hstored
        cases hstored
        exact hother hhash
      · rw [herrors] at hnoted
        simp at hnoted

variable (C collection rel r codec clock m t)

/-- Every download of an entry is sound exactly where the relay's response is faithful. -/
theorem download_sound_iff (relay : (o : RelayOp D P) → RelayAns D P o) :
    (∀ m' t', Exec (World (fun o ans => ans = relay o) codec clock) t
        (((download C collection r rel).orElse (noteError rel)).call m) (.ok (), m') t' →
        Sound C collection rel r m t m' t') ↔
      Faithful C collection rel r t (relay (.get r.b)) := by
  constructor
  · intro h payload bytes hresponse hbytes
    by_contra hnot
    obtain ⟨hother, hwritable⟩ := not_or.mp hnot
    refine hwritable fun l t' hjoin hl hplaced => ?_
    obtain ⟨m', hrun, hunsound⟩ := download_unsound hresponse hbytes hother hjoin hl hplaced
    exact hunsound (h m' t' hrun)
  · intro h m' t' hrun
    exact (download_sound h).exec hrun

end Downloads

section Sample

/-- Hashes that are what they are made of. -/
inductive Symbol
  | content (data : Bytes)
  | manifest (key : Text)
  | file (key rel : Text) (hash : Symbol)
  deriving DecidableEq

def symbolOf : Preimage Symbol → Symbol
  | .content data => .content data
  | .manifest key => .manifest key
  | .file key rel hash => .file key rel hash

/-- Ciphertexts that are what is encrypted, under the one key. -/
def symbols : Crypto Symbol (Plaintext Symbol) where
  sha256 := symbolOf
  encrypt := id
  decrypt := some
  stringify _ := []
  parse _ := none
  stateText _ := ""
  parseState _ := none
  sha256_injective x y h := by
    cases x <;> cases y <;> cases h <;> rfl
  decrypt_encrypt _ := rfl

def sampleCollection : Text := "/Notes".toList

/-- The manifest says of a note that its content is one byte 1. -/
def sampleEntry : RemoteFileEntry Symbol :=
  { h := .content [1], m := 0, s := 1, b := .content [9] }

/-- The relay answers with a ciphertext of an older content, one byte 0. -/
def staleRelay : (o : RelayOp Symbol (Plaintext Symbol)) → RelayAns Symbol (Plaintext Symbol) o
  | .info => .ok none
  | .get _ => .ok (some (.bytes [0]))
  | .put .. => .ok true
  | .remove _ => .ok ()

def sampleTree : Tree := AList.insert ["Notes".toList] .dir ∅

/-- The relay substitutes the content of a file although nothing decrypts but what
was encrypted under the key. -/
theorem download_substituted : ¬ ∀ (C : Crypto Symbol (Plaintext Symbol)),
    (∀ payload x, C.decrypt payload = some x → C.encrypt x = payload) →
    ∀ (collection rel : Text) (r : RemoteFileEntry Symbol) (codec : TextCodec) (clock : Clock)
      (m : Merge Symbol) (t : Tree)
      (relay : (o : RelayOp Symbol (Plaintext Symbol)) → RelayAns Symbol (Plaintext Symbol) o)
      (m' : Merge Symbol) (t' : Tree), t.Valid →
      Exec (World (fun o ans => ans = relay o) codec clock) t
        (((download C collection r rel).orElse (noteError rel)).call m) (.ok (), m') t' →
      Sound C collection rel r m t m' t' := by
  intro h
  let note : List Text := ["Notes".toList, "a.md".toList]
  have hplaced : Placed sampleTree note [0] (sampleTree.insert note (.file [0])) :=
    ⟨sampleTree, rfl, rfl⟩
  have hother : symbols.contentHash [0] ≠ sampleEntry.h := by
    intro heq
    cases heq
  have hunsound : ∃ m', Exec (World (fun o ans => ans = staleRelay o) ⟨fun _ => [], fun _ => ""⟩
      ⟨0, fun _ => none⟩) sampleTree
      (((download symbols sampleCollection sampleEntry "a.md".toList).orElse
        (noteError "a.md".toList)).call (Merge.empty Symbol)) (.ok (), m')
        (sampleTree.insert note (.file [0])) ∧ _ :=
    download_unsound rfl rfl hother rfl (by decide) hplaced
  obtain ⟨m', hrun, hnot⟩ := hunsound
  refine hnot (h symbols ?_ _ _ _ _ _ _ _ _ _ _ (by decide) hrun)
  intro payload x hx
  exact (Option.some.inj hx).symm

end Sample

end Tactile.Sync.Untrusted

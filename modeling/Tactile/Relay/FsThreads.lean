import Tactile.Relay.Requests

/-!
Concurrent requests to the file-system store: each lock-held section and each
file operation of a reader is one operation, and a blob that a put has stored
stays when no other request is about to remove its key.
-/

namespace Tactile.Relay.FsThreads

open Tactile.Lib.Program Tactile.Lib.Script Tactile.Lib.FiniteMap Tactile.Lib.ByteString
open Tactile.Lib.Transition Tactile.Lib.Threads
open Tactile.Relay.Blob Tactile.Relay.FileSystem Tactile.Relay.FsStore Tactile.Relay.Oracle
open Tactile.Relay.Index Tactile.Relay.FsIndex Tactile.Relay.FsFiles Tactile.Relay.FsMethods
open Tactile.Relay.FsRefinement Tactile.Relay.Requests

/-- The sections that hold the lock, and the opening of a file without it. -/
inductive FsOp
  | putWithin (r : Record) (identityCap totalCap : ℤ)
  | readEntry (id : IdentityID) (bid : BlobID)
  | deleteFile (id : IdentityID) (bid : BlobID)
  | readFile (file : Path)
  | expired (now : Int64)

abbrev FsAns : FsOp → Type
  | .putWithin .. => Except Err Unit
  | .readEntry .. => Option FsEntry
  | .deleteFile .. => Except Err Unit
  | .readFile _ => Except Errno Bytes
  | .expired _ => List Key

/-- The store's memory and its disk. -/
structure World where
  mem : FS
  disk : Disk

section Programs

variable (idOf : PubKey → IdentityID) (maxPayload : ℤ)

inductive Serves : Answers FsOp FsAns World
  | putWithin {w : World} {r : Record} {identityCap totalCap : ℤ} {ans : Except Err Unit} {s : FS}
      {d : Disk} :
      Exec FileSystem.Serves w.disk ((FsStore.putWithin idOf r identityCap totalCap).call w.mem)
        (ans, s) d →
      Serves w (.putWithin r identityCap totalCap) ans ⟨s, d⟩
  | readEntry (w : World) (id : IdentityID) (bid : BlobID) :
      Serves w (.readEntry id bid) (w.mem.entry id bid) w
  | deleteFile {w : World} {id : IdentityID} {bid : BlobID} {ans : Except Err Unit} {s : FS}
      {d : Disk} :
      Exec FileSystem.Serves w.disk ((FsStore.deleteFile id bid).call w.mem) (ans, s) d →
      Serves w (.deleteFile id bid) ans ⟨s, d⟩
  | readFile {w : World} {file : Path} {ans : Except Errno Bytes} {d : Disk} :
      FileSystem.Serves w.disk (.readFile file) ans d →
      Serves w (.readFile file) ans { w with disk := d }
  | expired (w : World) (now : Int64) (dead : List Key) :
      dead.Perm (FsStore.expired w.mem now) → Serves w (.expired now) dead w

/-- Opens the file of a live blob, for `Get` and `GetRange`. -/
def openBlob (pub : PubKey) (bid : BlobID) (now : Int64) : Prog FsOp FsAns (Except Err Bytes) := do
  let id := idOf pub
  let e : Option FsEntry ← Prog.op (FsOp.readEntry id bid)
  match e with
  | none => pure (.error .notFound)
  | some e =>
    if e.expiresAt ≤ now then do
      let _ : Except Err Unit ← Prog.op (FsOp.deleteFile id bid)
      pure (.error .expired)
    else do
      let opened : Except Errno Bytes ← Prog.op (FsOp.readFile (blobPath id bid))
      match opened with
      | .error .notExist => pure (.error .notFound)
      | .error (.other code) => pure (.error (.io (.other code)))
      | .ok file => pure (.ok file)

/-- Removes the blobs found expired, one lock-held section each. -/
def removeAll (dead : List Key) : Prog FsOp FsAns PUnit :=
  forM dead fun k => do
    let _ : Except Err Unit ← Prog.op (FsOp.deleteFile k.1 k.2)
    pure ()

def program : Request → Prog FsOp FsAns Result
  | .put r identityCap totalCap => do
    let out : Except Err Unit ← Prog.op (FsOp.putWithin r identityCap totalCap)
    pure (.done out)
  | .get pub bid now => do
    let opened ← openBlob idOf pub bid now
    match opened with
    | .error e => pure (.record (.error e))
    | .ok file => pure (.record (unmarshal file maxPayload))
  | .getRange pub bid start stop now => do
    let opened ← openBlob idOf pub bid now
    match opened with
    | .error e => pure (.range ⟨[], 0, some e⟩)
    | .ok file => pure (.range (readRange file start stop))
  | .delete pub bid => do
    let out : Except Err Unit ← Prog.op (FsOp.deleteFile (idOf pub) bid)
    pure (.done out)
  | .sweep now => do
    let dead : List Key ← Prog.op (FsOp.expired now)
    removeAll dead
    pure (.count dead.length)

/-- The request of a thread, the keys that it is set to remove, and whether its
put has stored its record. -/
structure FsTrack where
  request : Request
  pending : List Key
  stored : Bool

def track (q : Request) : FsTrack := ⟨q, q.removes idOf, false⟩

end Programs

def observe (t : FsTrack) : (o : FsOp) → FsAns o → FsTrack
  | .putWithin .., .ok () => { t with stored := true }
  | .readEntry id bid, some e =>
      if t.request.pastExpiry e.expiresAt then { t with pending := [(id, bid)] } else t
  | .deleteFile id bid, _ => { t with pending := t.pending.erase (id, bid) }
  | .expired _, dead => { t with pending := dead }
  | _, _ => t

abbrev FsPool : Type := Pool FsOp FsAns Result FsTrack World

abbrev FsEvent : Type := Event FsOp FsAns FsTrack

/-- A put stores a record only while no other request is set to remove its key. -/
def Undisturbed (idOf : PubKey → IdentityID) (x : FsPool) : FsEvent → Prop
  | .op n (.putWithin r _ _) (.ok ()) =>
      ∀ m th, m ≠ n → x.threads.lookup m = some th → keyOf idOf r ∉ th.track.pending
  | _ => True

/-- What a request guarantees before each of its operations. -/
def Guard (t : FsTrack) : FsOp → Prop
  | .putWithin r identityCap totalCap =>
      t.request = .put r identityCap totalCap ∧ t.pending = []
  | .deleteFile id bid => (id, bid) ∈ t.pending
  | .expired now => t.request = .sweep now
  | _ => True

/-- A put that returns without an error has stored its record. -/
def Returns (res : Result) (t : FsTrack) : Prop :=
  ∀ r identityCap totalCap, t.request = .put r identityCap totalCap → res = .done (.ok ()) →
    t.stored = true

section Guarantee

variable {idOf : PubKey → IdentityID} {maxPayload : ℤ}

theorem openBlob_guarantees (t : FsTrack) (pub : PubKey) (bid : BlobID) (now : Int64)
    (hnow : ∀ e : Int64, t.request.pastExpiry e = decide (e ≤ now)) :
    Holds (Observes observe) Guard (fun _ t' => t'.request = t.request)
      (openBlob idOf pub bid now) t := by
  refine ⟨trivial, fun e t' ht' => ?_⟩
  cases e with
  | none =>
      have hsame : t' = t := ht'
      rw [hsame]
      rfl
  | some e =>
      have hobserved : t' = observe t (.readEntry (idOf pub) bid) (some e) := ht'
      simp only [observe, hnow, decide_eq_true_eq] at hobserved
      change Holds _ _ _ (if e.expiresAt ≤ now then _ else _) t'
      split
      next hexpired =>
        rw [if_pos hexpired] at hobserved
        subst hobserved
        refine ⟨List.mem_singleton_self _, fun _ t'' ht'' => ?_⟩
        have hdone : t'' = _ := ht''
        rw [hdone]
        rfl
      next hlive =>
        rw [if_neg hlive] at hobserved
        subst hobserved
        refine ⟨trivial, fun opened t'' ht'' => ?_⟩
        have hsame : t'' = t' := ht''
        subst hsame
        rcases opened with ⟨_ | _⟩ | _ <;> rfl

theorem removeAll_guarantees (dead : List Key) (t : FsTrack) (ht : t.pending = dead) :
    Holds (Observes observe) Guard (fun _ t' => t'.request = t.request) (removeAll dead) t := by
  induction dead generalizing t with
  | nil => rfl
  | cons k dead ih =>
      refine ⟨?_, fun _ t' ht' => ?_⟩
      · change k ∈ t.pending
        rw [ht]
        exact List.mem_cons_self
      · have hobserved : t' = { t with pending := t.pending.erase k } := ht'
        have hrest : t'.pending = dead := by
          rw [hobserved, ht]
          exact List.erase_cons_head k dead
        refine (ih t' hrest).imp fun _ t'' ht'' => ?_
        rw [ht'', hobserved]

theorem program_guarantees (q : Request) :
    Holds (Observes observe) Guard Returns (program idOf maxPayload q) (track idOf q) := by
  have hother : ∀ {res : Result} {t : FsTrack}, t.request = q →
      (∀ r identityCap totalCap, q ≠ .put r identityCap totalCap) → Returns res t :=
    fun ht hq r i c hput _ => absurd (ht.symm.trans hput) (hq r i c)
  cases q with
  | put r identityCap totalCap =>
      refine ⟨⟨rfl, rfl⟩, fun out t ht => ?_⟩
      have hobserved : t = observe (track idOf (.put r identityCap totalCap))
        (.putWithin r identityCap totalCap) out := ht
      subst hobserved
      intro _ _ _ _ hres
      cases hres
      rfl
  | get pub bid now =>
      rw [program, holds_bind]
      refine (openBlob_guarantees _ pub bid now fun _ => rfl).imp fun opened t ht => ?_
      cases opened with
      | error e => exact hother ht nofun
      | ok file => exact hother ht nofun
  | getRange pub bid start stop now =>
      rw [program, holds_bind]
      refine (openBlob_guarantees _ pub bid now fun _ => rfl).imp fun opened t ht => ?_
      cases opened with
      | error e => exact hother ht nofun
      | ok file => exact hother ht nofun
  | delete pub bid =>
      refine ⟨List.mem_singleton_self _, fun out t ht => ?_⟩
      have hobserved : t = _ := ht
      rw [hobserved]
      exact hother rfl nofun
  | sweep now =>
      refine ⟨rfl, fun dead t ht => ?_⟩
      have hobserved : t = { track idOf (.sweep now) with pending := dead } := ht
      change Holds _ _ _ (removeAll dead >>= _) t
      rw [holds_bind]
      refine (removeAll_guarantees dead t (by rw [hobserved])).imp fun _ t' ht' => ?_
      exact hother (ht'.trans (by rw [hobserved]; rfl)) nofun

end Guarantee

/-- The memory and the disk hold the same records. -/
structure Agrees (w : World) (held : Held) : Prop where
  counts : Counts w.mem held
  stores : Stores w.disk held

def Consistent (w : World) : Prop := ∃ held, Agrees w held

section Sections

variable {idOf : PubKey → IdentityID} {w : World} {held : Held}

theorem Agrees.entry (h : Agrees w held) (k : Key) :
    w.mem.entry k.1 k.2 = (held.lookup k).map entryOf :=
  h.counts.entry k.1 k.2

/-- A put stores its record where none is held, or changes nothing. -/
theorem putWithin_meets (h : Agrees w held) (r : Record) (identityCap totalCap : ℤ) :
    Meets FileSystem.Serves (fun _ _ => True)
      (fun _ s d => held.lookup (keyOf idOf r) = none ∧
        Agrees ⟨s, d⟩ (held.insert (keyOf idOf r) r))
      (fun _ s d => s = w.mem ∧ d = w.disk)
      (FsStore.putWithin idOf r identityCap totalCap) w.mem w.disk := by
  rw [FsStore.putWithin, meets_bind, meets_read, meets_bind, meets_ofExcept]
  refine ⟨fun _ hcheck => ?_, fun _ _ => ⟨rfl, rfl⟩⟩
  have hentry := (Accounts.check_eq_ok hcheck).1
  have hfresh : held.lookup (keyOf idOf r) = none := by
    have hmap := h.counts.entry (idOf r.identity) r.id
    rw [FS.entry, hentry] at hmap
    exact Option.map_eq_none_iff.mp hmap.symm
  refine (putLocked_meets h.stores r (idOf r.identity)).mono (fun _ _ _ => trivial)
    (fun _ s d hput => ?_) fun _ _ _ hfail => hfail.elim
  obtain ⟨rfl, hstores⟩ := hput
  exact ⟨hfresh, h.counts.add _ _ r hfresh, hstores⟩

/-- A removal takes out what is held under its key and nothing else. -/
theorem deleteFile_meets_agrees (h : Agrees w held) (k : Key) :
    Meets FileSystem.Serves (fun _ _ => True) (fun _ s d => Agrees ⟨s, d⟩ (held.erase k))
      (fun _ s d => Agrees ⟨s, d⟩ (held.erase k)) (FsStore.deleteFile k.1 k.2) w.mem w.disk := by
  cases hheld : held.lookup k with
  | none =>
      have hsame : ∀ k', held.lookup k' = (held.erase k).lookup k' := by
        intro k'
        rw [lookup_erase_eq]
        split
        next heq => rw [heq, hheld]
        next => rfl
      have hentry : w.mem.entry k.1 k.2 = none := by rw [h.entry, hheld, Option.map_none]
      have habsent : Meets FileSystem.Serves (fun _ _ => True) (fun _ _ _ => False)
          (fun err s' d' => err = .notFound ∧ s' = w.mem ∧ d' = w.disk)
          (FsStore.deleteFile k.1 k.2) w.mem w.disk := deleteFile_absent hentry
      refine habsent.imp (fun _ _ _ hok => hok.elim) fun e s d herr => ?_
      obtain ⟨-, rfl, rfl⟩ := herr
      exact ⟨h.counts.congr hsame, h.stores.congr hsame⟩
  | some r =>
      have hentry : w.mem.entry k.1 k.2 = some (entryOf r) := by rw [h.entry, hheld, Option.map_some]
      refine (deleteFile_meets h.stores hentry (by rw [hheld]; rfl)).mono (fun _ _ _ => trivial)
        (fun _ s d hdrop => ?_) fun _ _ _ hfail => hfail.elim
      obtain ⟨rfl, hstores⟩ := hdrop
      exact ⟨h.counts.drop _ _ r hheld, hstores⟩

/-- What is held after an operation. -/
def heldAfter (idOf : PubKey → IdentityID) (held : Held) : (o : FsOp) → FsAns o → Held
  | .putWithin r _ _, .ok () => held.insert (keyOf idOf r) r
  | .deleteFile id bid, _ => held.erase (id, bid)
  | _, _ => held

theorem Agrees.serves (h : Agrees w held) {o : FsOp} {ans : FsAns o} {w' : World}
    (hserves : Serves idOf w o ans w') : Agrees w' (heldAfter idOf held o ans) := by
  cases hserves with
  | @putWithin _ r _ _ ans s d hexec =>
      have hput := Holds.exec (putWithin_meets h r _ _) hexec
      cases ans with
      | ok => exact hput.2
      | error e =>
          obtain ⟨rfl, rfl⟩ : s = w.mem ∧ d = w.disk := hput
          exact h
  | readEntry => exact h
  | @deleteFile _ id bid ans s d hexec =>
      have hdrop := Holds.exec (deleteFile_meets_agrees h (id, bid)) hexec
      cases ans with
      | ok => exact hdrop
      | error e => exact hdrop
  | readFile hread =>
      cases hread with
      | readFile | readMissing => exact h
  | expired => exact h

end Sections

section Protection

variable (idOf : PubKey → IdentityID) (r : Record)

/-- No request has reached the expiry of the record. -/
def Early (x : FsPool) : Prop :=
  ∀ n th, x.threads.lookup n = some th → th.track.request.pastExpiry r.expiresAt = false

def Base (x : FsPool) : Prop := Consistent x.shared ∧ Early r x

/-- The record is held and no request is set to remove its key. -/
structure Protected (held : Held) (x : FsPool) : Prop where
  stored : held.lookup (keyOf idOf r) = some r
  spared : ∀ n th, x.threads.lookup n = some th → keyOf idOf r ∉ th.track.pending

/-- The put of the record, from its start on: once it has stored the record, the
record is protected. -/
structure Follows (p : ℕ) (held : Held) (x : FsPool) : Prop where
  agrees : Agrees x.shared held
  early : Early r x
  put : ∃ th, x.threads.lookup p = some th ∧
    (∃ identityCap totalCap, th.track.request = .put r identityCap totalCap) ∧
    (th.track.stored = true → Protected idOf r held x)

variable {idOf : PubKey → IdentityID} {r : Record} {x : FsPool} {held : Held}

theorem observe_request (t : FsTrack) (o : FsOp) (ans : FsAns o) :
    (observe t o ans).request = t.request := by
  unfold observe
  split <;> try rfl
  split <;> rfl

theorem Early.op (h : Early r x) {n : ℕ} {p p' : Prog FsOp FsAns Result} {t : FsTrack}
    (hth : x.threads.lookup n = some ⟨p, t⟩) (o : FsOp) (ans : FsAns o) (w : World) :
    Early r ⟨w, x.threads.insert n ⟨p', observe t o ans⟩⟩ := by
  intro m th hm
  rw [lookup_insert_eq] at hm
  split at hm
  next =>
    cases hm
    rw [observe_request]
    exact h n _ hth
  next => exact h m th hm

theorem Early.launch (h : Early r x) {q : Request} (hq : q.pastExpiry r.expiresAt = false) (n : ℕ)
    (program : Request → Prog FsOp FsAns Result) :
    Early r (launch program (track idOf) x n q) := by
  intro m th hm
  rw [lookup_insert_eq] at hm
  split at hm
  next =>
    cases hm
    exact hq
  next => exact h m th hm

/-- An operation of a request that has not reached the expiry, and is not set to
remove the key, keeps the record. -/
theorem Protected.answer (h : Protected idOf r held x) (hagrees : Agrees x.shared held) {n : ℕ}
    {t : FsTrack} {o : FsOp} {next : FsAns o → Prog FsOp FsAns Result} {ans : FsAns o} {w : World}
    (hth : x.threads.lookup n = some ⟨.call o next, t⟩) (hguard : Guard t o)
    (hserves : Serves idOf x.shared o ans w) (hearly : t.request.pastExpiry r.expiresAt = false) :
    (heldAfter idOf held o ans).lookup (keyOf idOf r) = some r ∧
      keyOf idOf r ∉ (observe t o ans).pending := by
  have hspared := h.spared n _ hth
  cases hserves with
  | @putWithin _ r' _ _ ans s d hexec =>
      have hput := Holds.exec (putWithin_meets hagrees r' _ _) hexec
      cases ans with
      | error e => exact ⟨h.stored, hspared⟩
      | ok =>
          refine ⟨?_, hspared⟩
          rw [heldAfter, lookup_insert_eq, if_neg]
          · exact h.stored
          · intro heq
            have hfresh : held.lookup (keyOf idOf r') = none := hput.1
            rw [← heq, h.stored] at hfresh
            cases hfresh
  | readEntry _ id bid =>
      refine ⟨h.stored, ?_⟩
      rw [hagrees.entry (id, bid)]
      cases hheld : held.lookup (id, bid) with
      | none => exact hspared
      | some r' =>
          change keyOf idOf r ∉ FsTrack.pending (if _ then _ else _)
          split
          next hexpired =>
            intro hmem
            have hkey : keyOf idOf r = (id, bid) := List.mem_singleton.mp hmem
            rw [← hkey, h.stored] at hheld
            cases hheld
            change t.request.pastExpiry r.expiresAt = true at hexpired
            rw [hearly] at hexpired
            cases hexpired
          next => exact hspared
  | @deleteFile _ id bid ans _ _ _ =>
      have hne : keyOf idOf r ≠ (id, bid) := by
        intro heq
        exact hspared (heq ▸ hguard)
      refine ⟨?_, fun hmem => hspared (List.mem_of_mem_erase hmem)⟩
      rw [heldAfter, lookup_erase_eq, if_neg hne]
      exact h.stored
  | readFile => exact ⟨h.stored, hspared⟩
  | expired _ now dead hperm =>
      refine ⟨h.stored, fun hmem => ?_⟩
      obtain ⟨e, he, hexpired⟩ := mem_expired.mp (hperm.subset hmem)
      rw [hagrees.entry, h.stored] at he
      cases he
      change t.request = .sweep now at hguard
      rw [hguard] at hearly
      exact of_decide_eq_false hearly hexpired

theorem Protected.op (h : Protected idOf r held x) (hagrees : Agrees x.shared held) {n : ℕ}
    {t : FsTrack} {o : FsOp} {next : FsAns o → Prog FsOp FsAns Result} {ans : FsAns o} {w : World}
    (hth : x.threads.lookup n = some ⟨.call o next, t⟩) (hguard : Guard t o)
    (hserves : Serves idOf x.shared o ans w) (hearly : t.request.pastExpiry r.expiresAt = false) :
    Protected idOf r (heldAfter idOf held o ans)
      ⟨w, x.threads.insert n ⟨next ans, observe t o ans⟩⟩ := by
  obtain ⟨hstored, hpending⟩ := h.answer hagrees hth hguard hserves hearly
  refine ⟨hstored, fun m th hm => ?_⟩
  rw [lookup_insert_eq] at hm
  split at hm
  next =>
    cases hm
    exact hpending
  next => exact h.spared m th hm

/-- The step in which a put stores its record. -/
theorem protected_of_stored {n : ℕ} {t : FsTrack} {o : FsOp}
    {next : FsAns o → Prog FsOp FsAns Result} {ans : FsAns o} {w : World}
    (hth : x.threads.lookup n = some ⟨.call o next, t⟩) (hguard : Guard t o)
    (hserves : Serves idOf x.shared o ans w) (hundisturbed : Undisturbed idOf x (.op n o ans))
    {identityCap totalCap : ℤ} (hrequest : t.request = .put r identityCap totalCap)
    (hdone : (observe t o ans).stored = true) (hnot : ¬ t.stored = true) :
    Protected idOf r (heldAfter idOf held o ans)
      ⟨w, x.threads.insert n ⟨next ans, observe t o ans⟩⟩ := by
  cases hserves with
  | @putWithin _ r' _ _ ans s d hexec =>
      obtain ⟨hput, hempty⟩ := hguard
      rw [hrequest] at hput
      cases hput
      cases ans with
      | error e => exact absurd hdone hnot
      | ok =>
          refine ⟨AList.lookup_insert _, fun m th hm => ?_⟩
          rw [lookup_insert_eq] at hm
          split at hm
          next =>
            cases hm
            change keyOf idOf r ∉ t.pending
            rw [hempty]
            exact List.not_mem_nil
          next hne => exact hundisturbed m th hne hm
  | readEntry _ id bid =>
      cases hentry : x.shared.mem.entry id bid with
      | none =>
          rw [hentry] at hdone
          exact absurd hdone hnot
      | some e =>
          rw [hentry] at hdone
          change (if _ then _ else _ : FsTrack).stored = true at hdone
          split at hdone
          next => exact absurd hdone hnot
          next => exact absurd hdone hnot
  | deleteFile => exact absurd hdone hnot
  | readFile => exact absurd hdone hnot
  | expired => exact absurd hdone hnot

/-- Every operation keeps to the put, as long as a put stores its record only
while no other request is set to remove its key. -/
theorem Follows.op {p : ℕ} (h : Follows idOf r p held x) {n : ℕ} {t : FsTrack} {o : FsOp}
    {next : FsAns o → Prog FsOp FsAns Result} {ans : FsAns o} {w : World}
    (hth : x.threads.lookup n = some ⟨.call o next, t⟩) (hguard : Guard t o)
    (hserves : Serves idOf x.shared o ans w) (hundisturbed : Undisturbed idOf x (.op n o ans)) :
    Follows idOf r p (heldAfter idOf held o ans)
      ⟨w, x.threads.insert n ⟨next ans, observe t o ans⟩⟩ := by
  obtain ⟨th, hp, ⟨identityCap, totalCap, hrequest⟩, hstored⟩ := h.put
  have hearly := h.early n _ hth
  refine ⟨h.agrees.serves hserves, h.early.op hth o ans w, ?_⟩
  by_cases hn : p = n
  · subst hn
    rw [hth] at hp
    cases hp
    refine ⟨_, AList.lookup_insert _, ⟨identityCap, totalCap, ?_⟩, fun hdone => ?_⟩
    · rw [observe_request]
      exact hrequest
    · by_cases halready : t.stored = true
      · exact (hstored halready).op h.agrees hth hguard hserves hearly
      · exact protected_of_stored hth hguard hserves hundisturbed hrequest hdone halready
  · refine ⟨th, ?_, ⟨identityCap, totalCap, hrequest⟩, fun hdone => ?_⟩
    · rw [lookup_insert_eq, if_neg hn]
      exact hp
    · exact (hstored hdone).op h.agrees hth hguard hserves hearly

theorem Follows.launch {p : ℕ} (h : Follows idOf r p held x) {n : ℕ} {q : Request}
    (hfree : x.threads.lookup n = none) (hq : q.pastExpiry r.expiresAt = false)
    (hspares : keyOf idOf r ∉ q.removes idOf) (program : Request → Prog FsOp FsAns Result) :
    Follows idOf r p held (launch program (track idOf) x n q) := by
  obtain ⟨th, hp, hrequest, hstored⟩ := h.put
  refine ⟨h.agrees, h.early.launch hq n program, th, ?_, hrequest, fun hdone => ?_⟩
  · rw [lookup_insert_eq, if_neg]
    · exact hp
    · rintro rfl
      rw [hfree] at hp
      cases hp
  · refine ⟨(hstored hdone).stored, fun m th' hm => ?_⟩
    rw [lookup_insert_eq] at hm
    split at hm
    next =>
      cases hm
      exact hspares
    next => exact (hstored hdone).spared m th' hm

/-- What a reader is answered about the key while the record is protected. -/
def Sound (idOf : PubKey → IdentityID) (r : Record) : (o : FsOp) → FsAns o → Prop
  | .readEntry id bid, e => (id, bid) = keyOf idOf r → e = some (entryOf r)
  | .readFile file, data =>
      file = blobPath (idOf r.identity) r.id → data = .ok (marshal r)
  | _, _ => True

theorem Protected.sound (h : Protected idOf r held x) (hagrees : Agrees x.shared held) {o : FsOp}
    {ans : FsAns o} {w : World} (hserves : Serves idOf x.shared o ans w) : Sound idOf r o ans := by
  cases hserves with
  | putWithin | deleteFile | expired => exact trivial
  | readEntry _ id bid =>
      intro hkey
      rw [hagrees.entry (id, bid), hkey, h.stored]
      rfl
  | readFile hread =>
      intro hfile
      have hpresent : x.shared.disk.files.lookup (blobPath (idOf r.identity) r.id) =
          some (marshal r) := hagrees.stores.present _ _ h.stored
      subst hfile
      cases hread with
      | readFile _ _ data hdata =>
          rw [hpresent] at hdata
          cases hdata
          rfl
      | readMissing _ _ hmissing =>
          rw [hpresent] at hmissing
          cases hmissing

/-- A get that is answered soundly returns the record. -/
theorem get_sound {maxPayload : ℤ} (hlimit : (r.payload.length : ℤ) ≤ maxPayload)
    (hlt : r.payload.length < 2 ^ 32) {pub : PubKey} {now : Int64}
    (hpub : idOf pub = idOf r.identity) (hlive : ¬ r.expiresAt ≤ now) :
    Holds (Soundly (Sound idOf r)) (fun _ _ => True) (fun res _ => res = .record (.ok r))
      (program idOf maxPayload (.get pub r.id now)) () := by
  refine ⟨trivial, fun e _ he => ?_⟩
  have hentry : e = some (entryOf r) := he (by rw [hpub]; rfl)
  subst hentry
  change Holds _ _ _ ((if r.expiresAt ≤ now then _ else _) >>= _) ()
  rw [if_neg hlive]
  refine ⟨trivial, fun data _ hdata => ?_⟩
  have hfile : data = .ok (marshal r) := hdata (by rw [hpub])
  subst hfile
  exact congrArg Result.record (unmarshal_marshal_of_lt r maxPayload hlimit hlt)

end Protection

def Following (idOf : PubKey → IdentityID) (r : Record) (p : ℕ) (x : FsPool) : Prop :=
  ∃ held, Follows idOf r p held x

theorem protects (idOf : PubKey → IdentityID) (maxPayload : ℤ) (r : Record)
    (hlimit : (r.payload.length : ℤ) ≤ maxPayload) (hlt : r.payload.length < 2 ^ 32) :
    Protects idOf (program idOf maxPayload) (track idOf) observe (Serves idOf) (Undisturbed idOf)
      Guard Returns r (Base r) (Following idOf r) (Sound idOf r) where
  guarantee := program_guarantees
  startBase := fun x n q hx _ hq => ⟨hx.1, hx.2.launch hq n _⟩
  opBase := fun x n t o next ans s' hx hth _ hserves _ => by
    obtain ⟨⟨held, hagrees⟩, hearly⟩ := hx
    exact ⟨⟨_, hagrees.serves hserves⟩, hearly.op hth o ans s'⟩
  startPut := fun x p identityCap totalCap hx _ => by
    obtain ⟨⟨held, hagrees⟩, hearly⟩ := hx
    exact ⟨held, hagrees, hearly.launch rfl p _, _, AList.lookup_insert _,
      ⟨identityCap, totalCap, rfl⟩, nofun⟩
  startFollows := fun x p n q ⟨held, h⟩ hfree hq hspares => ⟨held, h.launch hfree hq hspares _⟩
  opFollows := fun x p n t o next ans s' ⟨held, h⟩ hth hguard hserves hundisturbed =>
    ⟨_, h.op hth hguard hserves hundisturbed⟩
  sound := fun x p t o ans s' ⟨held, h⟩ hdone hreturns hserves => by
    obtain ⟨th, hp, ⟨identityCap, totalCap, hrequest⟩, hstored⟩ := h.put
    rw [hdone] at hp
    cases hp
    exact (hstored (hreturns r identityCap totalCap hrequest rfl)).sound h.agrees hserves
  getFound := fun pub now hpub hlive => get_sound hlimit hlt hpub hlive

/-- The file-system store keeps a live blob as long as a put stores a record only
while no other request is set to remove its key. -/
theorem fs_liveBlobsStay (idOf : PubKey → IdentityID) (maxPayload : ℤ) :
    LiveBlobsStay idOf maxPayload (program idOf maxPayload) (track idOf) observe (Serves idOf)
      (Undisturbed idOf) Consistent := by
  have htrack : Function.Injective (track idOf) := fun _ _ h => congrArg FsTrack.request h
  have hinit : ∀ r w, Consistent w → Base r ⟨w, ∅⟩ := fun r w hw =>
    ⟨hw, fun n th hn => by simp at hn⟩
  exact liveBlobsStay_of_protects htrack hinit (protects idOf maxPayload)

end Tactile.Relay.FsThreads

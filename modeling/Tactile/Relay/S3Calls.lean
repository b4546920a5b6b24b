import Tactile.Relay.Requests
import Tactile.Relay.S3Store

/-!
Concurrent requests to the object store: the sections that hold the lock and the
requests to the object service, and what each request guarantees before each.
-/

namespace Tactile.Relay.S3Calls

open Tactile.Lib.Program Tactile.Lib.FiniteMap Tactile.Lib.ByteString Tactile.Lib.Threads
open Tactile.Relay.Blob Tactile.Relay.Index Tactile.Relay.Oracle Tactile.Relay.FsRefinement
open Tactile.Relay.S3Store Tactile.Relay.Requests

/-- The parts of a put, and those of the other requests. A range names its first
and its last byte. -/
inductive ObjOp
  | part (o : S3Op)
  | readEntry (id : IdentityID) (bid : BlobID)
  | getObject (key : String) (range : Option (ℤ × ℤ))
  | deleteObject (key : String)
  | indexDrop (id : IdentityID) (bid : BlobID) (size : ℤ)
  | expired (now : Int64)

abbrev ObjAns : ObjOp → Type
  | .part o => S3Ans o
  | .readEntry .. => Option S3Entry
  | .getObject .. => Option Bytes
  | .deleteObject _ => Unit
  | .indexDrop .. => Unit
  | .expired _ => List Key

abbrev ObjProg (α : Type) : Type := Prog ObjOp ObjAns α

/-- The object key of an owner, an id and an expiry. -/
def objectKey (k : Key) (expiresAt : Int64) : String :=
  hexEncode k.1.val ++ "/" ++ hexEncode k.2.val ++ "-e" ++ toString expiresAt.toInt ++ ".blob"

theorem s3Key_eq (id : IdentityID) (r : Record) : s3Key id r = objectKey (id, r.id) r.expiresAt := rfl

/-- The object key names the owner and the id. -/
theorem objectKey_inj {k k' : Key} {e e' : Int64} (h : objectKey k e = objectKey k' e') : k = k' := by
  have htexts := congrArg String.toList h
  simp only [objectKey, String.toList_append, List.append_assoc] at htexts
  have hlength : ∀ bs : IdentityID, (hexEncode bs.val).toList.length = 64 := fun bs => by
    rw [length_toList_hexEncode, bs.2]
  obtain ⟨howner, hrest⟩ := List.append_inj htexts (by rw [hlength, hlength])
  obtain ⟨-, hrest⟩ := List.append_inj hrest rfl
  obtain ⟨hid, -⟩ := List.append_inj hrest (by rw [hlength, hlength])
  exact Prod.ext (Subtype.ext (hexEncode_inj (String.toList_injective howner)))
    (Subtype.ext (hexEncode_inj (String.toList_injective hid)))

def sliceOf (body : Bytes) : Option (ℤ × ℤ) → Bytes
  | none => body
  | some (first, last) => (body.drop first.toNat).take (last - first + 1).toNat

/-- The write of a part of a put goes through. -/
def Lands : (o : S3Op) → S3Ans o → Prop
  | .putObject .., ans => ans = .ok ()
  | _, _ => True

/-- The object service is a map from keys to bodies. -/
inductive Serves : Answers ObjOp ObjAns World
  | part {w w' : World} {o : S3Op} {ans : S3Ans o} :
      S3Store.Serves w o ans w' → Lands o ans → Serves w (.part o) ans w'
  | readEntry (w : World) (id : IdentityID) (bid : BlobID) :
      Serves w (.readEntry id bid) (w.mem.accounts.entry id bid) w
  | getObject (w : World) (key : String) (range : Option (ℤ × ℤ)) :
      Serves w (.getObject key range) ((w.bucket.lookup key).map fun body => sliceOf body range) w
  | deleteObject (w : World) (key : String) :
      Serves w (.deleteObject key) () { w with bucket := w.bucket.erase key }
  | indexDrop (w : World) (id : IdentityID) (bid : BlobID) (size : ℤ) :
      Serves w (.indexDrop id bid size) ()
        { w with mem := { w.mem with accounts := w.mem.accounts.drop id bid size } }
  | expired (w : World) (now : Int64) (dead : List Key) :
      dead.Perm (w.mem.accounts.keysWhere fun e => e.expiresAt ≤ now) →
      Serves w (.expired now) dead w

section Programs

variable (idOf : PubKey → IdentityID) (maxPayload : ℤ)

/-- A put as a program of these operations. -/
def ofParts {α : Type} : Prog S3Op S3Ans α → ObjProg α
  | .ret a => .ret a
  | .call o next => .call (.part o) fun ans => ofParts (next ans)

def deleteKey (id : IdentityID) (bid : BlobID) : ObjProg (Except Err Unit) := do
  let e : Option S3Entry ← Prog.op (ObjOp.readEntry id bid)
  match e with
  | none => pure (.error .notFound)
  | some e => do
    Prog.op (ObjOp.deleteObject e.key)
    Prog.op (ObjOp.indexDrop id bid e.size)
    pure (.ok ())

/-- Resolves a live entry or reports not-found or expired. -/
def lookup (pub : PubKey) (bid : BlobID) (now : Int64) : ObjProg (Except Err S3Entry) := do
  let id := idOf pub
  let e : Option S3Entry ← Prog.op (ObjOp.readEntry id bid)
  match e with
  | none => pure (.error .notFound)
  | some e =>
    if e.expiresAt ≤ now then do
      let _ ← deleteKey id bid
      pure (.error .expired)
    else pure (.ok e)

def get (pub : PubKey) (bid : BlobID) (now : Int64) : ObjProg (Except Err Record) := do
  let found ← lookup idOf pub bid now
  match found with
  | .error e => pure (.error e)
  | .ok e => do
    let body : Option Bytes ← Prog.op (ObjOp.getObject e.key none)
    match body with
    | none => do
      let _ ← deleteKey (idOf pub) bid
      pure (.error .notFound)
    | some body => pure (unmarshal body maxPayload)

/-- Reads payload bytes `[start, stop)` with a range request over the payload. -/
def getRange (pub : PubKey) (bid : BlobID) (start stop : ℤ) (now : Int64) :
    ObjProg FsStore.RangeResult := do
  let found ← lookup idOf pub bid now
  match found with
  | .error e => pure ⟨[], 0, some e⟩
  | .ok e =>
    let total := e.size - headerSize
    if start < 0 ∨ start ≥ total ∨ stop ≤ start then pure ⟨[], total, some .badID⟩
    else do
      let range := (headerSize + start, headerSize + min stop total - 1)
      let body : Option Bytes ← Prog.op (ObjOp.getObject e.key (some range))
      match body with
      | none => pure ⟨[], total, some .notFound⟩
      | some body => pure ⟨body, total, none⟩

def removeAll (dead : List Key) : ObjProg PUnit :=
  forM dead fun k => do
    let _ ← deleteKey k.1 k.2
    pure ()

/-- Deletes expired objects and returns the count removed. -/
def sweep (now : Int64) : ObjProg ℕ := do
  let dead : List Key ← Prog.op (ObjOp.expired now)
  removeAll dead
  pure dead.length

def program : Request → ObjProg Result
  | .put r identityCap totalCap =>
      .done <$> ofParts (S3Store.putWithin idOf r identityCap totalCap)
  | .get pub bid now => .record <$> get idOf maxPayload pub bid now
  | .getRange pub bid start stop now => .range <$> getRange idOf pub bid start stop now
  | .delete pub bid => .done <$> deleteKey (idOf pub) bid
  | .sweep now => .count <$> sweep now

end Programs

section Tracks

/-- A request between its lock-held sections on a key: the index entry and the
object of the key in the meantime. -/
structure Window where
  key : Key
  entry : Option S3Entry
  object : Option String

/-- The request of a thread, the keys that it is set to store or remove, the
object that its get asks for, and its open window. -/
structure S3Track where
  request : Request
  pending : List Key
  reading : Option (Key × String)
  window : Option Window
  stored : Bool

def track (idOf : PubKey → IdentityID) (q : Request) : S3Track :=
  ⟨q, q.removes idOf, none, none, false⟩

/-- What reading an entry means: the first section of `deleteKey` when the
request is set to remove the key, else a lookup. -/
def S3Track.reads (t : S3Track) (k : Key) : Option S3Entry → S3Track
  | none => if k ∈ t.pending then { t with pending := t.pending.erase k } else t
  | some e =>
    if k ∈ t.pending then { t with window := some ⟨k, some e, some e.key⟩ }
    else if t.request.pastExpiry e.expiresAt then { t with pending := [k] }
    else
      match t.request with
      | .get .. => { t with reading := some (k, e.key) }
      | _ => t

/-- A get whose object is gone removes the key. -/
def S3Track.misses (t : S3Track) : S3Track :=
  match t.reading with
  | some (k, _) => { t with pending := [k], reading := none }
  | none => t

def S3Track.setObject (t : S3Track) (object : Option String) : S3Track :=
  { t with window := t.window.map fun v => { v with object := object } }

def observe (t : S3Track) : (o : ObjOp) → ObjAns o → S3Track
  | .part (.check id bid ..), .ok () =>
      { t with pending := [(id, bid)], window := some ⟨(id, bid), none, none⟩ }
  | .part (.putObject key _), .ok () => t.setObject (some key)
  | .part (.putObject ..), .error _ => { t with pending := [], window := none }
  | .part (.indexAdd ..), _ => { t with pending := [], window := none, stored := true }
  | .readEntry id bid, e => t.reads (id, bid) e
  | .getObject .., none => t.misses
  | .getObject .., some _ => { t with reading := none }
  | .deleteObject _, _ => t.setObject none
  | .indexDrop id bid _, _ => { t with pending := t.pending.erase (id, bid), window := none }
  | .expired _, dead => { t with pending := dead }
  | _, _ => t

abbrev S3Pool : Type := Pool ObjOp ObjAns Result S3Track World

abbrev S3Event : Type := Event ObjOp ObjAns S3Track

end Tracks

section Guarantee

variable (idOf : PubKey → IdentityID)

/-- The index entry that a put stores. -/
def entryOf (r : Record) : S3Entry where
  key := objectKey (keyOf idOf r) r.expiresAt
  expiresAt := r.expiresAt
  size := r.size
  sig := r.sig

/-- The thread is putting a record under a key. -/
def Puts (t : S3Track) (k : Key) (r : Record) : Prop :=
  k = keyOf idOf r ∧ ∃ identityCap totalCap, t.request = .put r identityCap totalCap

/-- What a request guarantees before each of its operations. -/
def Guard (t : S3Track) : ObjOp → Prop
  | .part (.check id bid size _ _) =>
      t.window = none ∧ t.pending = [] ∧ t.reading = none ∧
        ∃ r, Puts idOf t (id, bid) r ∧ size = r.size
  | .part (.putObject key body) =>
      t.reading = none ∧ ∃ k r, Puts idOf t k r ∧ k ∈ t.pending ∧
        key = objectKey k r.expiresAt ∧ body = marshal r ∧ t.window = some ⟨k, none, none⟩
  | .part (.indexAdd id bid e) =>
      t.reading = none ∧ ∃ r, Puts idOf t (id, bid) r ∧ (id, bid) ∈ t.pending ∧
        e = entryOf idOf r ∧ t.window = some ⟨(id, bid), none, some e.key⟩
  | .readEntry .. => t.window = none ∧ t.reading = none
  | .getObject key _ => t.window = none ∧ ∀ k key', t.reading = some (k, key') → key' = key
  | .deleteObject key =>
      ∃ k e, k ∈ t.pending ∧ key = e.key ∧ t.window = some ⟨k, some e, some e.key⟩
  | .indexDrop id bid size =>
      (id, bid) ∈ t.pending ∧ ∃ e, size = e.size ∧ t.window = some ⟨(id, bid), some e, none⟩
  | .expired now => t.window = none ∧ t.reading = none ∧ t.request = .sweep now

/-- A request that has returned is between no sections, and a put that returns
without an error has stored its record. -/
def Returns (res : Result) (t : S3Track) : Prop :=
  t.window = none ∧ ∀ r identityCap totalCap, t.request = .put r identityCap totalCap →
    res = .done (.ok ()) → t.stored = true

variable {idOf} {maxPayload : ℤ}

theorem deleteKey_guarantees {t : S3Track} {id : IdentityID} {bid : BlobID}
    (hwindow : t.window = none) (hreading : t.reading = none) (hmem : (id, bid) ∈ t.pending) :
    Holds (Observes observe) (Guard idOf)
      (fun _ t' => t' = { t with pending := t.pending.erase (id, bid) }) (deleteKey id bid) t := by
  refine ⟨⟨hwindow, hreading⟩, fun e t₁ ht₁ => ?_⟩
  have hreads : t₁ = t.reads (id, bid) e := ht₁
  cases e with
  | none =>
      rw [S3Track.reads, if_pos hmem] at hreads
      exact hreads
  | some e =>
      rw [S3Track.reads, if_pos hmem] at hreads
      subst hreads
      refine ⟨⟨(id, bid), e, hmem, rfl, rfl⟩, fun _ t₂ ht₂ => ?_⟩
      have hdeleted : t₂ = { t with window := some ⟨(id, bid), some e, none⟩ } := ht₂
      subst hdeleted
      refine ⟨⟨hmem, e, rfl, rfl⟩, fun _ t₃ ht₃ => ?_⟩
      have hdropped : t₃ = { t with pending := t.pending.erase (id, bid), window := none } := ht₃
      change t₃ = _
      rw [hdropped, hwindow]

/-- A get that has found a live entry asks for its object next. -/
def S3Track.found (t : S3Track) (k : Key) (e : S3Entry) : S3Track :=
  match t.request with
  | .get .. => { t with reading := some (k, e.key) }
  | _ => t

theorem lookup_guarantees {t : S3Track} (pub : PubKey) (bid : BlobID) (now : Int64)
    (hnow : ∀ e : Int64, t.request.pastExpiry e = decide (e ≤ now)) (hwindow : t.window = none)
    (hreading : t.reading = none) (hpending : t.pending = []) :
    Holds (Observes observe) (Guard idOf)
      (fun res t' => match res with
        | .error _ => t'.window = none ∧ t'.request = t.request
        | .ok e => t' = t.found (idOf pub, bid) e)
      (lookup idOf pub bid now) t := by
  have hnot : (idOf pub, bid) ∉ t.pending := by
    rw [hpending]
    exact List.not_mem_nil
  refine ⟨⟨hwindow, hreading⟩, fun e t₁ ht₁ => ?_⟩
  have hreads : t₁ = t.reads (idOf pub, bid) e := ht₁
  cases e with
  | none =>
      rw [S3Track.reads, if_neg hnot] at hreads
      subst hreads
      exact ⟨hwindow, rfl⟩
  | some e =>
      rw [S3Track.reads, if_neg hnot, hnow] at hreads
      change Holds _ _ _ (if e.expiresAt ≤ now then _ else _) t₁
      by_cases hexpired : e.expiresAt ≤ now
      · rw [if_pos (decide_eq_true hexpired)] at hreads
        subst hreads
        rw [if_pos hexpired, holds_bind]
        refine Holds.imp (deleteKey_guarantees hwindow hreading (List.mem_singleton_self _))
          fun _ t₂ ht₂ => ?_
        rw [holds_pure, ht₂]
        exact ⟨hwindow, rfl⟩
      · rw [if_neg (by simpa using hexpired)] at hreads
        rw [if_neg hexpired]
        exact hreads

theorem get_guarantees {t : S3Track} (pub : PubKey) (bid : BlobID) (now : Int64)
    (hrequest : t.request = .get pub bid now) (hwindow : t.window = none)
    (hreading : t.reading = none) (hpending : t.pending = []) :
    Holds (Observes observe) (Guard idOf) (fun _ t' => t'.window = none ∧ t'.request = t.request)
      (get idOf maxPayload pub bid now) t := by
  rw [get, holds_bind]
  refine (lookup_guarantees pub bid now (fun e => by rw [hrequest]; rfl) hwindow hreading
    hpending).imp fun res t₁ ht₁ => ?_
  cases res with
  | error e => exact ht₁
  | ok e =>
      have hfound : t₁ = { t with reading := some ((idOf pub, bid), e.key) } := by
        dsimp only at ht₁
        rw [ht₁, S3Track.found, hrequest]
      subst hfound
      refine ⟨⟨hwindow, fun k key' hk => by cases hk; rfl⟩, fun body t₂ ht₂ => ?_⟩
      cases body with
      | some body =>
          have hread : t₂ = { t with reading := none } := ht₂
          subst hread
          exact ⟨hwindow, rfl⟩
      | none =>
          have hmissed : t₂ = { t with pending := [(idOf pub, bid)], reading := none } := ht₂
          subst hmissed
          change Holds _ _ _ (deleteKey (idOf pub) bid >>= _) _
          rw [holds_bind]
          refine Holds.imp (deleteKey_guarantees hwindow rfl (List.mem_singleton_self _))
            fun _ t₃ ht₃ => ?_
          rw [holds_pure, ht₃]
          exact ⟨hwindow, rfl⟩

theorem getRange_guarantees {t : S3Track} (pub : PubKey) (bid : BlobID) (start stop : ℤ)
    (now : Int64) (hrequest : t.request = .getRange pub bid start stop now)
    (hwindow : t.window = none) (hreading : t.reading = none) (hpending : t.pending = []) :
    Holds (Observes observe) (Guard idOf) (fun _ t' => t'.window = none ∧ t'.request = t.request)
      (getRange idOf pub bid start stop now) t := by
  rw [getRange, holds_bind]
  refine (lookup_guarantees pub bid now (fun e => by rw [hrequest]; rfl) hwindow hreading
    hpending).imp fun res t₁ ht₁ => ?_
  cases res with
  | error e => exact ht₁
  | ok e =>
      have hsame : t₁ = t := by
        dsimp only at ht₁
        rw [ht₁, S3Track.found, hrequest]
      subst hsame
      change Holds _ _ _ (if _ then _ else _) t₁
      split
      next => exact ⟨hwindow, rfl⟩
      next =>
        refine ⟨⟨hwindow, fun k key' hk => by rw [hreading] at hk; cases hk⟩, fun body t₂ ht₂ => ?_⟩
        cases body with
        | some body =>
            have hread : t₂ = { t₁ with reading := none } := ht₂
            subst hread
            exact ⟨hwindow, rfl⟩
        | none =>
            have hmissed : t₂ = t₁ := by
              have hobserved : t₂ = t₁.misses := ht₂
              rw [hobserved, S3Track.misses, hreading]
            subst hmissed
            exact ⟨hwindow, rfl⟩

theorem removeAll_guarantees (dead : List Key) {t : S3Track} (hwindow : t.window = none)
    (hreading : t.reading = none) (hpending : t.pending = dead) :
    Holds (Observes observe) (Guard idOf) (fun _ t' => t'.window = none ∧ t'.request = t.request)
      (removeAll dead) t := by
  induction dead generalizing t with
  | nil => exact ⟨hwindow, rfl⟩
  | cons k dead ih =>
      have hmem : k ∈ t.pending := by
        rw [hpending]
        exact List.mem_cons_self
      rw [removeAll, List.forM_cons, holds_bind, holds_bind]
      refine Holds.imp (deleteKey_guarantees hwindow hreading hmem) fun _ t₁ ht₁ => ?_
      subst ht₁
      have hrest : t.pending.erase k = dead := by
        rw [hpending]
        exact List.erase_cons_head k dead
      exact ih (t := { t with pending := t.pending.erase k }) hwindow hreading hrest

theorem put_guarantees {t : S3Track} (r : Record) (identityCap totalCap : ℤ)
    (hrequest : t.request = .put r identityCap totalCap) (hwindow : t.window = none)
    (hreading : t.reading = none) (hpending : t.pending = []) :
    Holds (Observes observe) (Guard idOf)
      (fun res t' => t'.window = none ∧ (res = .ok () → t'.stored = true))
      (ofParts (S3Store.putWithin idOf r identityCap totalCap)) t := by
  have hputs : ∀ t' : S3Track, t'.request = t.request → Puts idOf t' (keyOf idOf r) r :=
    fun t' ht' => ⟨rfl, identityCap, totalCap, ht'.trans hrequest⟩
  refine ⟨⟨hwindow, hpending, hreading, r, hputs t rfl, rfl⟩, fun checked t₁ ht₁ => ?_⟩
  cases checked with
  | error e =>
      have hsame : t₁ = t := ht₁
      subst hsame
      exact ⟨hwindow, nofun⟩
  | ok =>
      have hopened : t₁ = { t with
          pending := [keyOf idOf r], window := some ⟨keyOf idOf r, none, none⟩ } := ht₁
      subst hopened
      refine ⟨⟨hreading, keyOf idOf r, r, hputs _ rfl, List.mem_singleton_self _, rfl, rfl, rfl⟩,
        fun stored t₂ ht₂ => ?_⟩
      cases stored with
      | error e =>
          have hfailed : t₂ = { t with pending := [], window := none } := ht₂
          subst hfailed
          exact ⟨rfl, nofun⟩
      | ok =>
          have hput : t₂ = { t with
              pending := [keyOf idOf r]
              window := some ⟨keyOf idOf r, none, some (objectKey (keyOf idOf r) r.expiresAt)⟩ } :=
            ht₂
          subst hput
          refine ⟨⟨hreading, r, hputs _ rfl, List.mem_singleton_self _, rfl, rfl⟩,
            fun _ t₃ ht₃ => ?_⟩
          have hadded : t₃ = { t with pending := [], window := none, stored := true } := ht₃
          subst hadded
          exact ⟨rfl, fun _ => rfl⟩

theorem program_guarantees (q : Request) :
    Holds (Observes observe) (Guard idOf) Returns (program idOf maxPayload q) (track idOf q) := by
  have hother : ∀ {res : Result} {t : S3Track}, t.window = none → t.request = q →
      (∀ r identityCap totalCap, q ≠ .put r identityCap totalCap) → Returns res t :=
    fun hwindow ht hq => ⟨hwindow, fun r i c hput _ => absurd (ht.symm.trans hput) (hq r i c)⟩
  cases q with
  | put r identityCap totalCap =>
      rw [program, holds_map]
      refine (put_guarantees r identityCap totalCap rfl rfl rfl rfl).imp fun res t ht => ?_
      refine ⟨ht.1, fun _ _ _ _ hres => ht.2 ?_⟩
      exact Result.done.inj hres
  | get pub bid now =>
      rw [program, holds_map]
      exact (get_guarantees pub bid now rfl rfl rfl rfl).imp fun _ _ ht => hother ht.1 ht.2 nofun
  | getRange pub bid start stop now =>
      rw [program, holds_map]
      exact (getRange_guarantees pub bid start stop now rfl rfl rfl rfl).imp
        fun _ _ ht => hother ht.1 ht.2 nofun
  | delete pub bid =>
      rw [program, holds_map]
      refine Holds.imp (deleteKey_guarantees rfl rfl (List.mem_singleton_self _)) fun _ t ht => ?_
      rw [ht]
      exact hother rfl rfl nofun
  | sweep now =>
      rw [program, holds_map]
      refine ⟨⟨rfl, rfl, rfl⟩, fun dead t ht => ?_⟩
      have hobserved : t = { track idOf (.sweep now) with pending := dead } := ht
      subst hobserved
      change Holds _ _ _ (removeAll dead >>= _) _
      rw [holds_bind]
      refine Holds.imp (removeAll_guarantees dead rfl rfl rfl) fun _ t' ht' => ?_
      exact hother ht'.1 ht'.2 nofun

end Guarantee

end Tactile.Relay.S3Calls

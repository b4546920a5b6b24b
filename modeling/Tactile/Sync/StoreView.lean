import Tactile.Relay.FsRefinement
import Tactile.Sync.RelayView

/-!
The relay's store on its disk, with its crashes and restarts, as the devices of an identity see it.
-/

namespace Tactile.Sync.StoreView

open Tactile.Lib.Program Tactile.Lib.FiniteMap Tactile.Lib.Transition
open Tactile.Relay.Blob Tactile.Relay.Index Tactile.Relay.FsStore Tactile.Relay.Oracle
open Tactile.Relay.FileSystem (Disk)
open Tactile.Relay.FsFiles (IsBlob Stores)
open Tactile.Relay.FsMethods Tactile.Relay.FsRefinement
open Tactile.Sync.Records Tactile.Sync.SyncNow Tactile.Sync.RelayView

variable {idOf : PubKey → IdentityID} {owner : IdentityID} {clamp : ℤ → ℤ}

section Requests

/-- The calls of the store that serve requests of an identity's devices. -/
inductive Requests (idOf : PubKey → IdentityID) (owner : IdentityID) (clamp : ℤ → ℤ) (now : Int64) :
    Call → RelayOp BlobID Bytes → Prop
  | put (r : Record) (ttl : ℤ) : idOf r.identity = owner → r.expiresAt.toInt = now.toInt + clamp ttl →
      Requests idOf owner clamp now (.put r) (.put r.id r.payload ttl)
  | get (pub : PubKey) (bid : BlobID) : idOf pub = owner →
      Requests idOf owner clamp now (.get pub bid now) (.get bid)
  | delete (pub : PubKey) (bid : BlobID) : idOf pub = owner →
      Requests idOf owner clamp now (.delete pub bid) (.remove bid)

/-- What a client makes of the result of a call. -/
inductive Answered : (o : RelayOp BlobID Bytes) → Result → RelayVal BlobID Bytes o → Prop
  | put (id : BlobID) (payload : Bytes) (ttl : ℤ) (out : Except Err Unit) :
      Answered (.put id payload ttl) (.done out) out.isOk
  | get (id : BlobID) (out : Except Err Record) :
      Answered (.get id) (.record out) (out.toOption.map fun r => r.payload)
  | remove (id : BlobID) (out : Except Err Unit) : Answered (.remove id) (.done out) ()

/-- The times that a call mentions are the time of the call. -/
def OnTime (now : Int64) : Call → Prop
  | .get _ _ t | .getRange _ _ _ _ t | .list _ t | .sweep t => t = now
  | _ => True

/-- The expiry of what an identity puts is the one that the relay grants. -/
def Granted (idOf : PubKey → IdentityID) (owner : IdentityID) (clamp : ℤ → ℤ) (now : Int64) :
    Call → Prop
  | .put r => idOf r.identity = owner → ∃ ttl, r.expiresAt.toInt = now.toInt + clamp ttl
  | _ => True

/-- An event of the store, with its time. -/
structure Timed where
  now : Int64
  event : Event

def Timed.Regular (idOf : PubKey → IdentityID) (owner : IdentityID) (clamp : ℤ → ℤ) (maxPayload : ℤ)
    (e : Timed) : Prop :=
  (match e.event with
    | .call c _ | .stopped c => OnTime e.now c ∧ Granted idOf owner clamp e.now c
    | .restarted => True) ∧ e.event.WithinLimit maxPayload ∧ e.event.FitsHeader

/-- The store and its clock. -/
inductive TimedStep (idOf : PubKey → IdentityID) (maxPayload : ℤ) :
    (FS × Disk) × Int64 → Timed → (FS × Disk) × Int64 → Prop
  | step {x y : FS × Disk} {t : Int64} {e : Timed} : t.toInt ≤ e.now.toInt →
      Step idOf maxPayload x e.event y → TimedStep idOf maxPayload (x, t) e (y, e.now)

/-- What the devices of an identity see of an event: an answer to one of them, a request whose answer
is lost with the process, or time that passes. -/
inductive Seen (idOf : PubKey → IdentityID) (owner : IdentityID) (clamp : ℤ → ℤ) :
    RelayState BlobID Bytes → Timed → RelayState BlobID Bytes → Prop
  | answered {s s' : RelayState BlobID Bytes} {now : Int64} {c : Call} {result : Result}
      {o : RelayOp BlobID Bytes} {val : RelayVal BlobID Bytes o} :
      Requests idOf owner clamp now c o → Answered o result val →
      World clamp s (.relay o) (.ok val) s' →
      Seen idOf owner clamp s ⟨now, .call c result⟩ s'
  | lost {s s' : RelayState BlobID Bytes} {now : Int64} {c : Call} {o : RelayOp BlobID Bytes}
      (e : String) : Requests idOf owner clamp now c o → World clamp s (.relay o) (.error e) s' →
      Seen idOf owner clamp s ⟨now, .stopped c⟩ s'
  | idle {s s' : RelayState BlobID Bytes} {e : Timed} :
      (∀ c result o, e.event = .call c result ∨ e.event = .stopped c →
        ¬ Requests idOf owner clamp e.now c o) →
      Idle s s' → Seen idOf owner clamp s e s'

end Requests

section Views

variable {m m' : Model idOf} {c : RelayState BlobID Bytes} {now : Int64}

def atTime (c : RelayState BlobID Bytes) (time : ℤ) : RelayState BlobID Bytes := { c with time := time }

theorem idle_atTime {time : ℤ} (h : c.time ≤ time) : Idle c (atTime c time) := ⟨h, fun _ => .inl rfl⟩

theorem shows_congr (h : Shows owner m c) {c' : RelayState BlobID Bytes} (hblobs : c'.blobs = c.blobs)
    (hheld : ∀ id, m'.held.lookup (owner, id) = m.held.lookup (owner, id)) : Shows owner m' c' := by
  intro id
  rw [hheld, ← h id, RelayState.heldAt, hblobs]
  rfl

theorem respond_time (o : RelayOp BlobID Bytes) (size : Option ℤ) :
    (RelayView.respond size clamp o c).2.time = c.time := by
  cases o with
  | info => rfl
  | remove id => rfl
  | get id =>
      rw [RelayView.respond]
      split
      next => split <;> rfl
      next => rfl
  | put id payload ttl =>
      rw [RelayView.respond]
      split <;> rfl

/-- To ask for a blob changes no more than time does. -/
theorem idle_respond_get (id : BlobID) (size : Option ℤ) :
    Idle c (RelayView.respond size clamp (.get id) c).2 := by
  rw [RelayView.respond]
  split
  next payload x hheld =>
    split
    next hx => exact idle_lapse hheld hx
    next => exact Idle.refl c
  next => exact Idle.refl c

/-- Other identities' blobs are not seen. -/
theorem shows_other {k : Key} (h : Shows owner m c) (hk : k.1 ≠ owner) : Shows owner (m.erase k) c := by
  refine shows_congr h rfl fun id => ?_
  rw [Model.erase, lookup_erase_eq, if_neg]
  rintro rfl
  exact hk rfl

/-- Asking for another identity's blob is not seen. -/
theorem shows_get_other {k : Key} (h : Shows owner m c) (hk : k.1 ≠ owner) (t : Int64) :
    Shows owner (m.get k t).2 c := by
  rw [Model.get]
  split
  next => exact h
  next =>
    split
    next => exact shows_other h hk
    next => exact h

/-- What a relay that drops some expired blobs is left with. -/
def RelayState.drop (c : RelayState BlobID Bytes) (dropped : BlobID → Bool) : RelayState BlobID Bytes :=
  { c with blobs := fun id =>
      if dropped id then (c.blobs id).map fun
        | .held _ x => .lapsed x
        | .lapsed x => .lapsed x
      else c.blobs id }

/-- Any of the records that have expired are dropped. -/
theorem shows_expired (h : Shows owner m c) (htime : c.time = now.toInt) {ks : List Key}
    (hks : ∀ k ∈ ks, k ∈ m.expiredKeys now) :
    ∃ c', Idle c c' ∧ c'.time = c.time ∧ Shows owner (m.eraseAll ks) c' := by
  refine ⟨RelayState.drop c fun id => (owner, id) ∈ ks, ⟨le_refl _, fun id => ?_⟩, rfl, fun id => ?_⟩
  · rw [RelayState.drop]
    simp only [decide_eq_true_eq]
    split
    next hmem =>
      obtain ⟨r, hr, hexpired⟩ := mem_expiredKeys.mp (hks _ hmem)
      have hid := h id
      rw [hr, Option.map_some, heldAt_eq_some] at hid
      rw [Int64.le_iff_toInt_le, ← htime] at hexpired
      exact .inr ⟨r.payload, r.expiresAt.toInt, hid, hexpired, by rw [hid]; rfl⟩
    next => exact .inl rfl
  · rw [lookup_eraseAll, RelayState.heldAt, RelayState.drop]
    simp only [decide_eq_true_eq]
    split
    next =>
      rcases c.blobs id with _ | ⟨payload, x⟩ | x <;> rfl
    next => exact h id

/-- A call serves a request, and both have the answer; or it is no more than time to the devices. -/
theorem shows_call (h : Shows owner m c) (htime : c.time = now.toInt) (call : Call)
    (hon : OnTime now call) (hgranted : Granted idOf owner clamp now call) :
    (∃ (o : RelayOp BlobID Bytes) (val : RelayVal BlobID Bytes o),
        Requests idOf owner clamp now call o ∧ Answered o (answer m call).1 val ∧
        (RelayView.respond none clamp o c).1 = .ok val ∧
        Shows owner (answer m call).2 (RelayView.respond none clamp o c).2) ∨
      (∀ o, ¬ Requests idOf owner clamp now call o) ∧
        ∃ c', Idle c c' ∧ c'.time = c.time ∧ Shows owner (answer m call).2 c' := by
  have hsame : ∀ {m' : Model idOf}, Shows owner m' c →
      ∃ c', Idle c c' ∧ c'.time = c.time ∧ Shows owner m' c' :=
    fun hm' => ⟨c, Idle.refl c, rfl, hm'⟩
  cases call with
  | put r =>
      by_cases howner : idOf r.identity = owner
      · obtain ⟨ttl, hexpiry⟩ := hgranted howner
        have hexpiry' : r.expiresAt.toInt = c.time + clamp ttl := by
          rw [htime]
          exact hexpiry
        have hput := @shows_put idOf owner m c none clamp h r ttl howner hexpiry'
        exact .inl ⟨_, _, .put r ttl howner hexpiry, .put _ _ _ _, hput⟩
      · refine .inr ⟨fun o hrequest => ?_, hsame ?_⟩
        · cases hrequest with
          | put _ ttl howner' => exact howner howner'
        · rw [answer, Model.put]
          split
          next => exact h
          next =>
            refine shows_congr h rfl fun id => ?_
            rw [Model.insert, lookup_insert_eq, if_neg]
            intro hkey
            exact howner (congrArg Prod.fst hkey).symm
  | get pub bid t =>
      have hnow : t = now := hon
      subst hnow
      by_cases howner : idOf pub = owner
      · have hget := @shows_get idOf owner m c none clamp h bid t htime.symm
        rw [← howner] at hget ⊢
        exact .inl ⟨_, _, .get pub bid rfl, .get _ _, hget⟩
      · refine .inr ⟨fun o hrequest => ?_, hsame ?_⟩
        · cases hrequest with
          | get _ _ howner' => exact howner howner'
        · exact shows_get_other h howner t
  | getRange pub bid start stop t =>
      have hnow : t = now := hon
      subst hnow
      refine .inr ⟨fun o hrequest => ?_, ?_⟩
      · cases hrequest
      have hmodel : (answer m (.getRange pub bid start stop t)).2 = (m.get (idOf pub, bid) t).2 := by
        rw [answer, Model.getRange]
        split <;> next heq => rw [heq]
      rw [hmodel]
      by_cases howner : idOf pub = owner
      · have hget := @shows_get idOf owner m c none clamp h bid t htime.symm
        rw [howner]
        exact ⟨_, idle_respond_get bid none, respond_time _ _, hget.2⟩
      · exact hsame (shows_get_other h howner t)
  | list | usage | totalBytes =>
      refine .inr ⟨fun o hrequest => ?_, hsame h⟩
      cases hrequest
  | delete pub bid =>
      by_cases howner : idOf pub = owner
      · have hdelete := @shows_delete idOf owner m c none clamp h bid
        rw [← howner] at hdelete ⊢
        exact .inl ⟨_, _, .delete pub bid rfl, .remove _ _, rfl, hdelete⟩
      · refine .inr ⟨fun o hrequest => ?_, hsame ?_⟩
        · cases hrequest with
          | delete _ _ howner' => exact howner howner'
        · rw [answer, Model.delete]
          split
          next => exact shows_other h howner
          next => exact h
  | sweep t =>
      have hnow : t = now := hon
      subst hnow
      refine .inr ⟨fun o hrequest => ?_, ?_⟩
      · cases hrequest
      · rw [answer, Model.sweep]
        exact shows_expired h htime fun _ hk => hk

end Views

section Runs

variable {m : Model idOf} {c c' : RelayState BlobID Bytes} {maxPayload : ℤ}

/-- The store holds records that the devices see, at the same time. -/
def Held (idOf : PubKey → IdentityID) (owner : IdentityID) (maxPayload : ℤ) (x : (FS × Disk) × Int64)
    (c : RelayState BlobID Bytes) : Prop :=
  (∃ m : Model idOf, Refines idOf maxPayload x.1.1 x.1.2 m ∧ Shows owner m c) ∧ c.time = x.2.toInt

theorem idle_at {time : ℤ} (hlater : c.time ≤ time) (h : Idle (atTime c time) c') : Idle c c' :=
  ⟨hlater.trans h.later, h.blobs⟩

/-- What a stop in a call leaves of the map is what the call leaves, or it was never made, or some of
the expired records are gone. -/
theorem shows_leaves (h : Shows owner m c) {now : Int64} (htime : c.time = now.toInt) {call : Call}
    {m' : Model idOf} (hleaves : Leaves m call m') (hon : OnTime now call) :
    m' = (answer m call).2 ∨ ∃ c', Idle c c' ∧ c'.time = c.time ∧ Shows owner m' c' := by
  cases hleaves with
  | before => exact .inr ⟨c, Idle.refl c, rfl, h⟩
  | after => exact .inl rfl
  | swept t ks hks =>
      have hnow : t = now := hon
      subst hnow
      exact .inr (shows_expired h htime hks)

/-- An event of the store, seen by the devices. -/
theorem seen_step {x y : (FS × Disk) × Int64} {e : Timed} (h : Held idOf owner maxPayload x c)
    (he : e.Regular idOf owner clamp maxPayload) (hstep : TimedStep idOf maxPayload x e y) :
    ∃ c', Seen idOf owner clamp c e c' ∧ Held idOf owner maxPayload y c' := by
  obtain ⟨⟨m, hrefines, hshows⟩, htime⟩ := h
  obtain ⟨hregular, hfits⟩ := he
  cases hstep with
  | @step x y t e hlater hevent =>
      obtain ⟨m', hmodel, hrefines'⟩ := step_simulates hrefines hfits hevent
      have hlater' : c.time ≤ e.now.toInt := by
        rw [htime]
        exact hlater
      have hidle := idle_atTime hlater'
      have hshows' : Shows owner m (atTime c e.now.toInt) := hshows
      obtain ⟨now, event⟩ := e
      cases hmodel with
      | call call =>
          obtain ⟨hon, hgranted⟩ := hregular
          rcases shows_call hshows' rfl call hon hgranted with
            ⟨o, val, hrequest, hanswered, hrespond, hafter⟩ | ⟨hnone, c', hdrop, htime', hafter⟩
          · have hworld := @World.served BlobID Bytes _ clamp _ _ none o hidle
            rw [hrespond] at hworld
            exact ⟨_, .answered hrequest hanswered hworld, ⟨_, hrefines', hafter⟩, respond_time o none⟩
          · refine ⟨c', .idle (fun call' result o heq hrequest => ?_) (idle_at hlater' hdrop),
              ⟨_, hrefines', hafter⟩, htime'⟩
            rcases heq with heq | heq
            · injection heq with heq
              exact hnone o (heq ▸ hrequest)
            · cases heq
      | @stopped _ call hleaves =>
          obtain ⟨hon, hgranted⟩ := hregular
          rcases shows_call hshows' rfl call hon hgranted with
            ⟨o, val, hrequest, hanswered, hrespond, hafter⟩ | ⟨hnone, c', hdrop, htime', hafter⟩
          · rcases shows_leaves hshows' rfl hleaves hon with rfl | ⟨c', hdrop, htime', hleft⟩
            · exact ⟨_, .lost "" hrequest (World.lost o "" hidle), ⟨_, hrefines', hafter⟩,
                respond_time o none⟩
            · exact ⟨c', .lost "" hrequest (World.rejected o "" (idle_at hlater' hdrop)),
                ⟨_, hrefines', hleft⟩, htime'⟩
          · have hseen : ∀ c', Idle c c' → Seen idOf owner clamp c ⟨now, .stopped call⟩ c' := by
              refine fun c' hidle' => .idle (fun call' result o heq hrequest => ?_) hidle'
              rcases heq with heq | heq
              · cases heq
              · injection heq with heq
                exact hnone o (heq ▸ hrequest)
            rcases shows_leaves hshows' rfl hleaves hon with rfl | ⟨c', hdrop, htime', hleft⟩
            · exact ⟨c', hseen c' (idle_at hlater' hdrop), ⟨_, hrefines', hafter⟩, htime'⟩
            · exact ⟨c', hseen c' (idle_at hlater' hdrop), ⟨_, hrefines', hleft⟩, htime'⟩
      | restarted =>
          refine ⟨_, .idle (fun call result o heq => ?_) hidle, ⟨_, hrefines', hshows'⟩, rfl⟩
          rcases heq with heq | heq <;> cases heq

/-- The relay's store on its disk is what the devices of an identity take the relay for: opened on a
directory without blobs, every run of timed calls for any identity, sweeps, stops at any file operation and
reopenings is one in which each answer to these devices comes from a relay that holds each blob until its
expiry, and the rest is lost requests and time. -/
theorem store_seen {d₀ : Disk} {x y : FS × Disk} {t₀ t : Int64} {events : List Timed}
    (hfresh : ∀ path ∈ d₀.files, ¬ IsBlob path) (hopen : Reopens idOf maxPayload d₀ x)
    (hrun : Runs (TimedStep idOf maxPayload) (x, t₀) events (y, t))
    (hregular : ∀ e ∈ events, e.Regular idOf owner clamp maxPayload) :
    ∃ c, Runs (Seen idOf owner clamp) ⟨t₀.toInt, fun _ => none⟩ events c ∧
      Held idOf owner maxPayload (y, t) c := by
  have hstores : Stores d₀ (Model.empty : Model idOf).held :=
    { present := fun _ _ h => by simp [Model.empty] at h
      only := fun path hblob hsome => absurd hblob (hfresh path (AList.lookup_isSome.mp hsome)) }
  have hx : Refines idOf maxPayload x.1 x.2 Model.empty :=
    hopen.refines hstores fun _ _ h => by simp [Model.empty] at h
  have hsim : ∀ (x : (FS × Disk) × Int64) (c : RelayState BlobID Bytes) (e : Timed)
      (y : (FS × Disk) × Int64), Held idOf owner maxPayload x c →
        e.Regular idOf owner clamp maxPayload → TimedStep idOf maxPayload x e y →
        ∃ c', Seen idOf owner clamp c e c' ∧ Held idOf owner maxPayload y c' :=
    fun _ _ _ _ h he hstep => seen_step h he hstep
  have hstart : Held idOf owner maxPayload (x, t₀) ⟨t₀.toInt, fun _ => none⟩ := by
    refine ⟨⟨_, hx, fun id => ?_⟩, rfl⟩
    rw [Model.empty, AList.lookup_empty]
    rfl
  exact hrun.simulate hsim hregular hstart

theorem store_seen_put_get :
    ∃ (y : FS × Disk) (c : RelayState BlobID Bytes),
      Runs (Seen zeroDigest (zeroDigest zeroKey) fun _ => 1) ⟨0, fun _ => none⟩
        [⟨0, .call (.put (zeroRecord [7, 8, 9])) (.done (.ok ()))⟩,
          ⟨0, .call (.get zeroKey (zeroRecord []).id 0) (.record (.ok (zeroRecord [7, 8, 9])))⟩] c ∧
      Held zeroDigest (zeroDigest zeroKey) 64 (y, 0) c := by
  obtain ⟨x, y, hopen, hrun⟩ :=
    put_then_get zeroDigest 64 (zeroRecord [7, 8, 9]) 0 (by decide) (by decide)
  have htimed : Runs (TimedStep zeroDigest 64) (x, 0)
      [⟨0, .call (.put (zeroRecord [7, 8, 9])) (.done (.ok ()))⟩,
        ⟨0, .call (.get zeroKey (zeroRecord []).id 0) (.record (.ok (zeroRecord [7, 8, 9])))⟩] (y, 0) := by
    cases hrun with
    | cons hput hrest =>
        cases hrest with
        | cons hget hdone =>
            cases hdone
            exact .cons (.step (le_refl _) hput) (.single (.step (le_refl _) hget))
  have hput : Timed.Regular zeroDigest (zeroDigest zeroKey) (fun _ => 1) 64
      ⟨0, .call (.put (zeroRecord [7, 8, 9])) (.done (.ok ()))⟩ :=
    ⟨⟨trivial, fun _ => ⟨0, by decide⟩⟩, by simp [Event.WithinLimit, zeroRecord],
      by simp [Event.FitsHeader, zeroRecord]⟩
  have hget : Timed.Regular zeroDigest (zeroDigest zeroKey) (fun _ => 1) 64
      ⟨0, .call (.get zeroKey (zeroRecord []).id 0) (.record (.ok (zeroRecord [7, 8, 9])))⟩ :=
    ⟨⟨rfl, trivial⟩, trivial, trivial⟩
  have hfresh : ∀ path ∈ emptyDisk.files, ¬ IsBlob path := fun _ h => by simp [emptyDisk] at h
  have hregular : ∀ e ∈ [⟨0, .call (.put (zeroRecord [7, 8, 9])) (.done (.ok ()))⟩,
      ⟨0, .call (.get zeroKey (zeroRecord []).id 0) (.record (.ok (zeroRecord [7, 8, 9])))⟩],
      Timed.Regular zeroDigest (zeroDigest zeroKey) (fun _ => 1) 64 e := by
    intro e he
    rcases List.mem_cons.mp he with rfl | he
    · exact hput
    · rw [List.mem_singleton.mp he]
      exact hget
  obtain ⟨c, hc⟩ := store_seen hfresh hopen htimed hregular
  exact ⟨y, c, hc⟩

end Runs

end Tactile.Sync.StoreView

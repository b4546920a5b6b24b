import Mathlib.Tactic.Linarith
import Tactile.Lib.Threads
import Tactile.Relay.FsStore
import Tactile.Relay.S3Store

/-!
The storage caps of `PutWithin` under concurrent puts, for both backends.
-/

namespace Tactile.Relay.Caps

open Tactile.Lib.Program Tactile.Lib.Script Tactile.Lib.FiniteMap Tactile.Lib.Transition
open Tactile.Relay.Blob Tactile.Relay.FileSystem Tactile.Relay.Index Tactile.Relay.FsStore
open Tactile.Lib.Threads

/-- The stored bytes of every owner and of the store are within the caps. -/
structure WithinCaps {ε : Type} (identityCap totalCap : ℤ) (a : Accounts ε) : Prop where
  identity : ∀ id, (a.usageID id).bytes ≤ identityCap
  total : a.totalBytes ≤ totalCap

theorem size_nonneg (r : Record) : 0 ≤ r.size := by
  rw [Record.size]
  omega

theorem bytes_usageID {ε : Type} {a : Accounts ε} {id : IdentityID} {u : Usage}
    (h : a.usage.lookup id = some u) : (a.usageID id).bytes = u.bytes := by
  rw [Accounts.usageID, h, Option.getD_some]

section FS

/-- A file system on which any operation may fail. -/
def AnyAnswer : Answers DiskOp DiskAns Unit := fun _ _ _ _ => True

variable (idOf : PubKey → IdentityID) (identityCap totalCap : ℤ)

/-- A put of the file-system store, which holds the lock from its check to its
index update. -/
def FsPut (s : FS) (e : Record × Except Err Unit) (s' : FS) : Prop :=
  Exec AnyAnswer () ((FsStore.putWithin idOf e.1 identityCap totalCap).call s) (e.2, s') ()

/-- An owner that has no usage record yet puts no more than its cap. -/
def FirstPutFits (s : FS) (e : Record × Except Err Unit) : Prop :=
  s.accounts.usage.lookup (idOf e.1.identity) = none → e.1.size ≤ identityCap

variable {idOf identityCap totalCap}

theorem meets_disk_any (o : DiskOp) {Q : DiskVal o → FS → Unit → Prop}
    {E : Err → FS → Unit → Prop} {s : FS} {u : Unit} (hE : ∀ e, E (.io e) s ())
    (hQ : ∀ v, Q v s ()) : Meets AnyAnswer (fun _ _ => True) Q E (disk o) s u := by
  refine ⟨trivial, fun ans _ _ => ?_⟩
  cases ans with
  | ok v => exact hQ v
  | error e => exact hE e

theorem meets_ignored_any {o : DiskOp} {Q : Unit → FS → Unit → Prop}
    {E : Err → FS → Unit → Prop} {s : FS} {u : Unit} (hQ : Q () s ()) :
    Meets AnyAnswer (fun _ _ => True) Q E (ignored o) s u :=
  ⟨trivial, fun _ _ _ => hQ⟩

theorem writeTemp_any (s : FS) (tmp path : Path) (r : Record) (id : IdentityID) :
    Meets AnyAnswer (fun _ _ => True)
      (fun _ s' _ => s' = s.indexAdd id r.id
        { expiresAt := r.expiresAt, size := r.size, sig := r.sig })
      (fun _ s' _ => s' = s) (writeTemp tmp path r id) s () := by
  have hclosed : ∀ e : Err, Meets AnyAnswer (fun _ _ => True) (fun _ _ _ => False)
      (fun _ s' _ => s' = s) (do ignored (.close tmp); throw e : FsMethod Unit) s () := by
    intro e
    rw [meets_bind]
    exact meets_ignored_any rfl
  have hwrite : Meets AnyAnswer (fun _ _ => True) (fun _ s' _ => s' = s) (fun _ s' _ => s' = s)
      ((do disk (.write tmp (marshal r)); disk (.sync tmp) : FsMethod Unit).orElse fun e => do
        ignored (.close tmp)
        throw e) s () := by
    have hclosed' : ∀ e : Err, Meets AnyAnswer (fun _ _ => True) (fun _ s' _ => s' = s)
        (fun _ s' _ => s' = s) (do ignored (.close tmp); throw e : FsMethod Unit) s () :=
      fun e => (hclosed e).imp (fun _ _ _ h => h.elim) fun _ _ _ h => h
    rw [meets_orElse, meets_bind]
    refine meets_disk_any (.write tmp (marshal r)) (fun e => hclosed' _) fun _ => ?_
    exact meets_disk_any (.sync tmp) (fun e => hclosed' _) fun _ => rfl
  rw [writeTemp, meets_bind]
  refine hwrite.imp (fun _ s' _ hs' => ?_) fun _ _ _ h => h
  subst hs'
  rw [meets_bind]
  refine meets_disk_any (.close tmp) (fun _ => rfl) fun _ => ?_
  rw [meets_bind]
  exact meets_disk_any (.rename tmp path) (fun _ => rfl) fun _ => rfl

/-- A put either changes nothing or adds the record that the check let in. -/
theorem fsPutWithin_meets (s : FS) (r : Record) :
    Meets AnyAnswer (fun _ _ => True)
      (fun _ s' _ => s.accounts.check (idOf r.identity) r.id r.size identityCap totalCap = .ok () ∧
        s' = s.indexAdd (idOf r.identity) r.id
          { expiresAt := r.expiresAt, size := r.size, sig := r.sig })
      (fun _ s' _ => s' = s) (FsStore.putWithin idOf r identityCap totalCap) s () := by
  rw [FsStore.putWithin, meets_bind, meets_read, meets_bind, meets_ofExcept]
  refine ⟨fun _ hcheck => ?_, fun _ _ => rfl⟩
  rw [putLocked, meets_bind]
  refine meets_disk_any (.mkdirAll (idDir (idOf r.identity))) (fun _ => rfl) fun _ => ?_
  rw [meets_bind]
  refine meets_disk_any (.createTemp (idDir (idOf r.identity))) (fun _ => rfl) fun tmp => ?_
  rw [meets_bind, meets_outcome]
  refine (writeTemp_any s tmp _ r _).imp (fun _ s' _ hs' => ?_) fun e s' _ hs' => ?_
  · rw [meets_bind]
    exact meets_ignored_any ⟨hcheck, hs'⟩
  · rw [meets_bind]
    exact meets_ignored_any hs'

/-- One put keeps the store within its caps. -/
theorem fsPut_withinCaps {s s' : FS} {e : Record × Except Err Unit}
    (h : WithinCaps identityCap totalCap s.accounts)
    (hput : FsPut idOf identityCap totalCap s e s') (hfirst : FirstPutFits idOf identityCap s e) :
    WithinCaps identityCap totalCap s'.accounts := by
  have hout := Holds.exec (fsPutWithin_meets s e.1) hput
  cases hres : e.2 with
  | error err =>
      rw [hres] at hout
      have hsame : s' = s := hout
      rw [hsame]
      exact h
  | ok =>
      rw [hres] at hout
      obtain ⟨hcheck, hs'⟩ : _ ∧ s' = _ := hout
      obtain ⟨_, hidentity, htotal⟩ := Accounts.check_eq_ok hcheck
      subst hs'
      refine ⟨fun id => ?_, htotal⟩
      rw [FS.indexAdd, Accounts.usageID_add]
      split
      next hid =>
        subst hid
        cases hu : s.accounts.usage.lookup (idOf e.1.identity) with
        | none =>
            have hzero : (s.accounts.usageID (idOf e.1.identity)).bytes = 0 := by
              rw [Accounts.usageID, hu]
              rfl
            rw [hzero, zero_add]
            exact hfirst hu
        | some u =>
            rw [bytes_usageID hu]
            exact hidentity u hu
      next => exact h.identity id

/-- A put that the check lets in, on a file system that answers. -/
theorem fsPut_of_check {s : FS} {r : Record}
    (hcheck : s.accounts.check (idOf r.identity) r.id r.size identityCap totalCap = .ok ()) :
    FsPut idOf identityCap totalCap s (r, .ok ()) (s.indexAdd (idOf r.identity) r.id
      { expiresAt := r.expiresAt, size := r.size, sig := r.sig }) := by
  have hprog : (FsStore.putWithin idOf r identityCap totalCap).call s =
      (putLocked r (idOf r.identity)).call s := by
    change (Method.ofExcept (fun e => e) (s.accounts.check _ _ _ _ _) >>= fun _ =>
      putLocked r (idOf r.identity)).call s = _
    rw [hcheck]
    rfl
  rw [FsPut, hprog]
  exact .answer (.ok ()) () trivial <| .answer (.ok []) () trivial <| .answer (.ok ()) () trivial <|
    .answer (.ok ()) () trivial <| .answer (.ok ()) () trivial <| .answer (.ok ()) () trivial <|
    .answer (.ok ()) () trivial <| .refl _ _

end FS

section S3

open Tactile.Relay.S3Store

variable (idOf : PubKey → IdentityID) (identityCap totalCap : ℤ)

/-- What a put has done so far: it is in flight from its accepted check to its
index update or its failure. -/
structure PutTrack where
  record : Record
  inFlight : Bool

def observe (t : PutTrack) : (o : S3Op) → S3Ans o → PutTrack
  | .check .., .ok () => { t with inFlight := true }
  | .check .., .error _ => t
  | .putObject .., .ok () => t
  | .putObject .., .error _ => { t with inFlight := false }
  | .indexAdd .., () => { t with inFlight := false }

abbrev S3Pool : Type := Pool S3Op S3Ans (Except Err Unit) PutTrack World

abbrev S3Event : Type := Event S3Op S3Ans PutTrack

/-- A thread of the pool is a put of any record. -/
def StartPut (_ : World) (t : PutTrack) (p : Prog S3Op S3Ans (Except Err Unit)) : Prop :=
  t.inFlight = false ∧ p = S3Store.putWithin idOf t.record identityCap totalCap

/-- The bytes of a thread's put while it is in flight for an owner. -/
def flight (owner : IdentityID) (th : Thread S3Op S3Ans (Except Err Unit) PutTrack) : ℤ :=
  if th.track.inFlight ∧ idOf th.track.record.identity = owner then th.track.record.size else 0

/-- The bytes of a thread's put while it is in flight. -/
def flightAll (th : Thread S3Op S3Ans (Except Err Unit) PutTrack) : ℤ :=
  if th.track.inFlight then th.track.record.size else 0

/-- The bytes in flight for an owner. -/
def inFlight (x : S3Pool) (owner : IdentityID) : ℤ :=
  total x.threads fun _ th => flight idOf owner th

def inFlightAll (x : S3Pool) : ℤ := total x.threads fun _ th => flightAll th

/-- An accepted check counts the puts in flight: with them and the new record
the owner and the store stay within the caps. -/
def CountsInFlight (x : S3Pool) : S3Event → Prop
  | .op _ (.check id _ size _ _) (.ok ()) =>
      (x.shared.mem.accounts.usageID id).bytes + inFlight idOf x id + size ≤ identityCap ∧
        x.shared.mem.accounts.totalBytes + inFlightAll x + size ≤ totalCap
  | _ => True

variable {idOf identityCap totalCap}

/-- What a put guarantees before each of its operations. -/
def PutGuard (idOf : PubKey → IdentityID) (t : PutTrack) : S3Op → Prop
  | .check id _ size _ _ =>
      t.inFlight = false ∧ id = idOf t.record.identity ∧ size = t.record.size
  | .putObject .. => t.inFlight = true
  | .indexAdd id _ e => t.inFlight = true ∧ id = idOf t.record.identity ∧ e.size = t.record.size

theorem putWithin_guarantees (t : PutTrack) (ht : t.inFlight = false) :
    Holds (Observes observe) (PutGuard idOf) (fun _ t => t.inFlight = false)
      (S3Store.putWithin idOf t.record identityCap totalCap) t := by
  refine ⟨⟨ht, rfl, rfl⟩, fun checked t₁ ht₁ => ?_⟩
  cases checked with
  | error e =>
      have hsame : t₁ = t := ht₁
      rw [hsame]
      exact ht
  | ok =>
      have hflight : t₁ = { t with inFlight := true } := ht₁
      subst hflight
      refine ⟨rfl, fun stored t₂ ht₂ => ?_⟩
      cases stored with
      | error e =>
          have hdone : t₂ = { t with inFlight := false } := ht₂
          rw [hdone]
          rfl
      | ok =>
          have hsame : t₂ = { t with inFlight := true } := ht₂
          subst hsame
          refine ⟨⟨rfl, rfl, rfl⟩, fun _ t₃ ht₃ => ?_⟩
          have hdone : t₃ = { t with inFlight := false } := ht₃
          rw [hdone]
          rfl

/-- The stored bytes together with the bytes in flight are within the caps. -/
structure Reserved (idOf : PubKey → IdentityID) (identityCap totalCap : ℤ) (x : S3Pool) : Prop where
  identity : ∀ id, (x.shared.mem.accounts.usageID id).bytes + inFlight idOf x id ≤ identityCap
  total : x.shared.mem.accounts.totalBytes + inFlightAll x ≤ totalCap

theorem inFlight_insert (x : S3Pool) (w : World) {n : ℕ}
    {th th' : Thread S3Op S3Ans (Except Err Unit) PutTrack} (h : x.threads.lookup n = some th)
    (owner : IdentityID) :
    inFlight idOf ⟨w, x.threads.insert n th'⟩ owner =
      inFlight idOf x owner - flight idOf owner th + flight idOf owner th' := by
  rw [inFlight, inFlight, total_insert, h, Option.elim_some]

theorem inFlightAll_insert (x : S3Pool) (w : World) {n : ℕ}
    {th th' : Thread S3Op S3Ans (Except Err Unit) PutTrack} (h : x.threads.lookup n = some th) :
    inFlightAll ⟨w, x.threads.insert n th'⟩ =
      inFlightAll x - flightAll th + flightAll th' := by
  rw [inFlightAll, inFlightAll, total_insert, h, Option.elim_some]

/-- A step of a thread that neither changes its flight nor the accounts. -/
theorem Reserved.keep {x : S3Pool} (h : Reserved idOf identityCap totalCap x) {w : World} {n : ℕ}
    {th th' : Thread S3Op S3Ans (Except Err Unit) PutTrack} (hth : x.threads.lookup n = some th)
    (hw : w.mem = x.shared.mem) (hless : ∀ owner, flight idOf owner th' ≤ flight idOf owner th)
    (hlessAll : flightAll th' ≤ flightAll th) :
    Reserved idOf identityCap totalCap ⟨w, x.threads.insert n th'⟩ where
  identity := fun id => by
    have := h.identity id
    have := hless id
    rw [inFlight_insert x w hth, hw]
    omega
  total := by
    have := h.total
    rw [inFlightAll_insert x w hth, hw]
    omega

theorem flight_of_not {t : PutTrack} (ht : t.inFlight = false)
    (p : Prog S3Op S3Ans (Except Err Unit)) (owner : IdentityID) : flight idOf owner ⟨p, t⟩ = 0 := by
  simp [flight, ht]

theorem flight_nonneg (owner : IdentityID)
    (th : Thread S3Op S3Ans (Except Err Unit) PutTrack) : 0 ≤ flight idOf owner th := by
  rw [flight]
  split
  next => exact size_nonneg _
  next => exact le_refl _

theorem flightAll_nonneg (th : Thread S3Op S3Ans (Except Err Unit) PutTrack) :
    0 ≤ flightAll th := by
  rw [flightAll]
  split
  next => exact size_nonneg _
  next => exact le_refl _

/-- Every operation of a put keeps the reservation. -/
theorem Reserved.op {x : S3Pool} (h : Reserved idOf identityCap totalCap x) {n : ℕ} {t : PutTrack}
    {o : S3Op} {next : S3Ans o → Prog S3Op S3Ans (Except Err Unit)} {ans : S3Ans o} {w : World}
    (hth : x.threads.lookup n = some ⟨.call o next, t⟩) (hguard : PutGuard idOf t o)
    (hserves : S3Store.Serves x.shared o ans w)
    (hcounts : CountsInFlight idOf identityCap totalCap x (.op n o ans)) :
    Reserved idOf identityCap totalCap
      ⟨w, x.threads.insert n ⟨next ans, observe t o ans⟩⟩ := by
  have hdone : ∀ p : Prog S3Op S3Ans (Except Err Unit), ∀ owner,
      flight idOf owner ⟨p, { t with inFlight := false }⟩ ≤ flight idOf owner ⟨.call o next, t⟩ :=
    fun p owner => by
      rw [flight_of_not rfl]
      exact flight_nonneg _ _
  have hdoneAll : ∀ p : Prog S3Op S3Ans (Except Err Unit),
      flightAll ⟨p, { t with inFlight := false }⟩ ≤ flightAll ⟨.call o next, t⟩ :=
    fun p => flightAll_nonneg _
  cases hserves with
  | check _ id bid size _ _ =>
      obtain ⟨hnot, hid, hsize⟩ := hguard
      cases hcheck : x.shared.mem.accounts.check id bid size _ _ with
      | error e => exact h.keep hth rfl (fun _ => le_refl _) (le_refl _)
      | ok =>
          rw [hcheck] at hcounts
          obtain ⟨hidentity, htotal⟩ := hcounts
          refine ⟨fun owner => ?_, ?_⟩
          · rw [inFlight_insert x _ hth, flight_of_not hnot]
            simp only [flight, observe, true_and, ← hid]
            split
            next howner =>
              subst howner
              rw [← hsize]
              linarith
            next =>
              have := h.identity owner
              linarith
          · rw [inFlightAll_insert x _ hth]
            simp only [flightAll, observe, hnot, if_true, ← hsize]
            have hfalse : ¬ (false = true) := Bool.false_ne_true
            rw [if_neg hfalse]
            linarith
  | putObject => exact h.keep hth rfl (fun _ => le_refl _) (le_refl _)
  | putFailed => exact h.keep hth rfl (hdone _) (hdoneAll _)
  | putLost => exact h.keep hth rfl (hdone _) (hdoneAll _)
  | indexAdd _ id bid e =>
      obtain ⟨hflight, hid, hsize⟩ := hguard
      refine ⟨fun owner => ?_, ?_⟩
      · have := h.identity owner
        rw [inFlight_insert x _ hth]
        simp only [S3.indexAdd, Accounts.usageID_add, flight, observe, hflight, true_and, ← hid,
          Bool.false_eq_true, false_and, if_false]
        by_cases howner : owner = id
        · subst howner
          simp only [if_true, hsize]
          linarith
        · simp only [howner, Ne.symm howner, if_false]
          linarith
      · have := h.total
        rw [inFlightAll_insert x _ hth]
        simp only [S3.indexAdd, Accounts.add, flightAll, observe, hflight, if_true, hsize,
          Bool.false_eq_true, if_false]
        linarith

theorem withinCaps_of_reserved {x : S3Pool} (h : Reserved idOf identityCap totalCap x) :
    WithinCaps identityCap totalCap x.shared.mem.accounts where
  identity := fun id => by
    have hnonneg : 0 ≤ inFlight idOf x id := total_nonneg _ _ fun _ _ _ => flight_nonneg _ _
    have := h.identity id
    omega
  total := by
    have hnonneg : 0 ≤ inFlightAll x := total_nonneg _ _ fun _ _ _ => flightAll_nonneg _
    have := h.total
    omega

/-- Any interleaving of puts keeps the store within its caps when every accepted
check counts the puts in flight. -/
theorem s3Puts_withinCaps {w : World} {es : List S3Event} {y : S3Pool}
    (h : WithinCaps identityCap totalCap w.mem.accounts)
    (hrun : Runs (fun x e y => Step S3Store.Serves observe (StartPut idOf identityCap totalCap) x e y ∧
      CountsInFlight idOf identityCap totalCap x e) ⟨w, ∅⟩ es y) :
    WithinCaps identityCap totalCap y.shared.mem.accounts := by
  have hstart : ∀ (s : World) t p, StartPut idOf identityCap totalCap s t p →
      Holds (Observes observe) (PutGuard idOf) (fun _ t => t.inFlight = false) p t := by
    rintro s t p ⟨ht, rfl⟩
    exact putWithin_guarantees t ht
  have hreserved : Reserved idOf identityCap totalCap ⟨w, ∅⟩ :=
    ⟨fun id => by simpa [inFlight] using h.identity id, by simpa [inFlightAll] using h.total⟩
  refine withinCaps_of_reserved (invariant hstart ?_ ?_ hrun (guarantees_empty w) hreserved).2
  · rintro x n t p hx hfree ⟨ht, rfl⟩ -
    refine ⟨fun id => ?_, ?_⟩
    · rw [inFlight, total_insert, hfree, flight_of_not ht]
      simpa [inFlight] using hx.identity id
    · rw [inFlightAll, total_insert, hfree]
      simpa [inFlightAll, flightAll, ht] using hx.total
  · intro x n t o next ans s' hx hth hguard hserves hcounts
    exact hx.op hth hguard hserves hcounts

end S3

/-- The caps hold in both backends, from every state within them and for any
order of concurrent puts: in the file-system store when an owner's first put is
no larger than the identity cap, in the object store when every accepted check
counts the puts in flight. -/
theorem putWithin_withinCaps (idOf : PubKey → IdentityID) (identityCap totalCap : ℤ) :
    (∀ (s s' : FS) (es : List (Record × Except Err Unit)),
      WithinCaps identityCap totalCap s.accounts →
      Runs (fun s e s' => FsPut idOf identityCap totalCap s e s' ∧
        FirstPutFits idOf identityCap s e) s es s' →
      WithinCaps identityCap totalCap s'.accounts) ∧
    (∀ (w : S3Store.World) (y : S3Pool) (es : List S3Event),
      WithinCaps identityCap totalCap w.mem.accounts →
      Runs (fun x e y =>
        Step S3Store.Serves observe (StartPut idOf identityCap totalCap) x e y ∧
          CountsInFlight idOf identityCap totalCap x e) ⟨w, ∅⟩ es y →
      WithinCaps identityCap totalCap y.shared.mem.accounts) := by
  refine ⟨fun s s' es hs hrun => ?_, fun w y es hw hrun => s3Puts_withinCaps hw hrun⟩
  have hstep : ∀ s e s', WithinCaps identityCap totalCap s.accounts →
      (FsPut idOf identityCap totalCap s e s' ∧ FirstPutFits idOf identityCap s e) →
        WithinCaps identityCap totalCap s'.accounts :=
    fun _ _ _ hs hput => fsPut_withinCaps hs hput.1 hput.2
  exact hrun.invariant hstep hs

/-- A world whose store holds one blob of 148 bytes of the all-zero identity. -/
def oneBlob : S3Store.World where
  mem :=
    { maxPayload := 64
      accounts := Accounts.empty.add (zeroDigest zeroKey) (zeroRecord []).id
        { key := S3Store.s3Key (zeroDigest zeroKey) (zeroRecord []), expiresAt := 1, size := 148,
          sig := (zeroRecord []).sig } 148 }
  bucket := ∅

/-- A record of 200 bytes of the all-zero identity. -/
def smallRecord (b : UInt8) : Record :=
  { zeroRecord (List.replicate 52 0) with id := ⟨List.replicate 32 b, List.length_replicate⟩ }

theorem withinCaps_oneBlob : WithinCaps 400 1000 oneBlob.mem.accounts where
  identity := fun id => by
    rw [oneBlob, Accounts.usageID_add]
    split
    next => exact (by decide : (0 : ℤ) + 148 ≤ 400)
    next => exact (by decide : (0 : ℤ) ≤ 400)
  total := by decide

theorem withinCaps_fresh (identityCap totalCap maxPayload : ℤ) (hi : 0 ≤ identityCap)
    (ht : 0 ≤ totalCap) : WithinCaps identityCap totalCap (FS.fresh maxPayload).accounts :=
  ⟨fun _ => hi, ht⟩

/-- The record's check, write and index update, by one thread. -/
def putEvents (n : ℕ) (r : Record) : List S3Event :=
  [.op n (.putObject (S3Store.s3Key (zeroDigest zeroKey) r) (marshal r)) (.ok ()),
    .op n (.indexAdd (zeroDigest zeroKey) r.id
      { key := S3Store.s3Key (zeroDigest zeroKey) r, expiresAt := r.expiresAt, size := r.size,
        sig := r.sig }) ()]

theorem serves_check_ok {w : S3Store.World} {id : IdentityID} {bid : BlobID}
    {size identityCap totalCap : ℤ}
    (h : w.mem.accounts.check id bid size identityCap totalCap = .ok ()) :
    S3Store.Serves w (.check id bid size identityCap totalCap) (.ok ()) w := by
  have hserves := S3Store.Serves.check w id bid size identityCap totalCap
  rw [h] at hserves
  exact hserves

theorem putWithin_withinCaps_one_put :
    (∃ s', FsPut zeroDigest 200 1000 (FS.fresh 64) (zeroRecord [], .ok ()) s' ∧
      WithinCaps 200 1000 s'.accounts) ∧
    (∃ y : S3Pool, y.shared.mem.accounts.totalBytes = 348 ∧
      WithinCaps 400 1000 y.shared.mem.accounts) := by
  constructor
  · have hput : FsPut zeroDigest 200 1000 (FS.fresh 64) (zeroRecord [], .ok ()) _ :=
      fsPut_of_check (by decide)
    refine ⟨_, hput, (putWithin_withinCaps zeroDigest 200 1000).1 _ _
      [(zeroRecord [], .ok ())] ?_ (.single ⟨hput, fun _ => by decide⟩)⟩
    exact withinCaps_fresh _ _ _ (by decide) (by decide)
  · let id := zeroDigest zeroKey
    let es : List S3Event :=
      [.start 1 ⟨smallRecord 1, false⟩,
        .op 1 (.check id (smallRecord 1).id (smallRecord 1).size 400 1000) (.ok ())] ++
        putEvents 1 (smallRecord 1)
    have hrun : ∃ y, Runs (fun x e y =>
        Step S3Store.Serves observe (StartPut zeroDigest 400 1000) x e y ∧
          CountsInFlight zeroDigest 400 1000 x e) ⟨oneBlob, ∅⟩ es y ∧
        y.shared.mem.accounts.totalBytes = 348 := by
      refine ⟨_, .cons ⟨.start rfl ⟨rfl, rfl⟩, trivial⟩ <|
        .cons ⟨.op rfl (serves_check_ok (by decide)), by decide, by decide⟩ <|
        .cons ⟨.op rfl (.putObject _ _ _), trivial⟩ <|
        .cons ⟨.op rfl (.indexAdd _ _ _ _), trivial⟩ <| .nil _, by decide⟩
    obtain ⟨y, hruns, htotal⟩ := hrun
    exact ⟨y, htotal, (putWithin_withinCaps zeroDigest 400 1000).2 _ _ _ withinCaps_oneBlob hruns⟩

/-- A first put larger than the identity cap is accepted, and two concurrent
puts that each fit are accepted together. -/
theorem putWithin_exceeds_caps :
    (∃ s', WithinCaps 100 1000 (FS.fresh 64).accounts ∧
      FsPut zeroDigest 100 1000 (FS.fresh 64) (zeroRecord [], .ok ()) s' ∧
      ¬ WithinCaps 100 1000 s'.accounts) ∧
    (∃ (y : S3Pool) (es : List S3Event), WithinCaps 400 1000 oneBlob.mem.accounts ∧
      Runs (Step S3Store.Serves observe (StartPut zeroDigest 400 1000)) ⟨oneBlob, ∅⟩ es y ∧
      (∃ t, y.threads.lookup 2 = some ⟨.ret (.ok ()), t⟩) ∧
      ¬ WithinCaps 400 1000 y.shared.mem.accounts) := by
  constructor
  · refine ⟨_, withinCaps_fresh _ _ _ (by decide) (by decide), fsPut_of_check (by decide),
      fun h => ?_⟩
    exact absurd (h.identity (zeroDigest zeroKey)) (by decide)
  · let id := zeroDigest zeroKey
    let es : List S3Event :=
      [.start 1 ⟨smallRecord 1, false⟩, .start 2 ⟨smallRecord 2, false⟩,
        .op 1 (.check id (smallRecord 1).id (smallRecord 1).size 400 1000) (.ok ()),
        .op 2 (.check id (smallRecord 2).id (smallRecord 2).size 400 1000) (.ok ())] ++
        (putEvents 1 (smallRecord 1) ++ putEvents 2 (smallRecord 2))
    have hrun : ∃ y, Runs (Step S3Store.Serves observe (StartPut zeroDigest 400 1000))
        ⟨oneBlob, ∅⟩ es y ∧ (∃ t, y.threads.lookup 2 = some ⟨.ret (.ok ()), t⟩) ∧
        (y.shared.mem.accounts.usageID id).bytes = 548 := by
      refine ⟨_, .cons (.start rfl ⟨rfl, rfl⟩) <| .cons (.start rfl ⟨rfl, rfl⟩) <|
        .cons (.op rfl (serves_check_ok (by decide))) <|
        .cons (.op rfl (serves_check_ok (by decide))) <|
        .cons (.op rfl (.putObject _ _ _)) <| .cons (.op rfl (.indexAdd _ _ _ _)) <|
        .cons (.op rfl (.putObject _ _ _)) <| .cons (.op rfl (.indexAdd _ _ _ _)) <| .nil _,
        ⟨_, rfl⟩, by decide⟩
    obtain ⟨y, hruns, hret, hbytes⟩ := hrun
    refine ⟨y, es, withinCaps_oneBlob, hruns, hret, fun h => ?_⟩
    have := h.identity id
    omega

end Tactile.Relay.Caps

import Tactile.Relay.FsThreads
import Tactile.Relay.S3Accounts

/-!
Live blobs stay in both backends, as long as a put stores its record only while
no other request is set to store or remove the key.
-/

namespace Tactile.Relay.LiveBlobs

open Tactile.Lib.Program Tactile.Lib.FiniteMap Tactile.Lib.ByteString
open Tactile.Lib.Transition Tactile.Lib.Threads
open Tactile.Relay.Blob Tactile.Relay.Index Tactile.Relay.Oracle Tactile.Relay.FsRefinement
open Tactile.Relay.S3Store Tactile.Relay.Requests Tactile.Relay.S3Calls Tactile.Relay.S3Accounts

/-- A put passes its check only while no other request is set to store or remove
its key or asks for an object of the key. -/
def Undisturbed (x : S3Pool) : S3Event → Prop
  | .op n (.part (.check id bid ..)) (.ok ()) =>
      ∀ m th, m ≠ n → x.threads.lookup m = some th →
        (id, bid) ∉ th.track.pending ∧ ∀ key, th.track.reading ≠ some ((id, bid), key)
  | _ => True

section Protection

variable (idOf : PubKey → IdentityID) (r : Record)

def Early (x : S3Pool) : Prop :=
  ∀ n th, x.threads.lookup n = some th → th.track.request.pastExpiry r.expiresAt = false

/-- An entry that a request has found names an object of its key. -/
def WindowsKeyed (x : S3Pool) : Prop :=
  ∀ n th v e, x.threads.lookup n = some th → th.track.window = some v → v.entry = some e →
    ∃ expiresAt, e.key = objectKey v.key expiresAt

structure Base (x : S3Pool) : Prop where
  keyed : Keyed x.shared
  windows : WindowsKeyed x
  early : Early r x

/-- The index entry of the record's key: the record's once it is found there. -/
def indexed (found : Bool) : Option S3Entry := if found then some (entryOf idOf r) else none

/-- A request is not set to store or remove the key, and asks for no object of
it but the record's. -/
structure Spared (found : Bool) (t : S3Track) : Prop where
  pending : keyOf idOf r ∉ t.pending
  reading : ∀ key, t.reading = some (keyOf idOf r, key) →
    found = true ∧ key = objectKey (keyOf idOf r) r.expiresAt

/-- The bucket has the record's object. -/
def Stored (w : World) : Prop :=
  w.bucket.lookup (objectKey (keyOf idOf r) r.expiresAt) = some (marshal r)

variable {idOf r} {x : S3Pool} {n : ℕ} {t : S3Track} {w : World} {found : Bool}

theorem observe_request (t : S3Track) (o : ObjOp) (ans : ObjAns o) :
    (observe t o ans).request = t.request := by
  unfold observe
  split <;> try rfl
  · rename_i id bid e
    cases e with
    | none =>
        rw [S3Track.reads]
        split <;> rfl
    | some e =>
        rw [S3Track.reads]
        split
        next => rfl
        next =>
          split
          next => rfl
          next => split <;> rfl
  · rw [S3Track.misses]
    split <;> rfl

theorem indexed_some {e : S3Entry} (h : indexed idOf r found = some e) :
    found = true ∧ e = entryOf idOf r := by
  rw [indexed] at h
  split at h
  next hfound => exact ⟨hfound, (Option.some.inj h).symm⟩
  next => cases h

theorem Spared.reads (h : Spared idOf r found t) {k : Key} {e : Option S3Entry}
    (hentry : k = keyOf idOf r → e = indexed idOf r found)
    (hearly : t.request.pastExpiry r.expiresAt = false) : Spared idOf r found (t.reads k e) := by
  cases e with
  | none =>
      rw [S3Track.reads]
      split
      next => exact ⟨fun hmem => h.pending (List.mem_of_mem_erase hmem), h.reading⟩
      next => exact h
  | some e =>
      rw [S3Track.reads]
      split
      next => exact ⟨h.pending, h.reading⟩
      next =>
        split
        next hexpired =>
          refine ⟨fun hmem => ?_, h.reading⟩
          obtain ⟨-, rfl⟩ := indexed_some (hentry (List.mem_singleton.mp hmem).symm).symm
          change t.request.pastExpiry r.expiresAt = true at hexpired
          rw [hearly] at hexpired
          cases hexpired
        next =>
          split
          next =>
            refine ⟨h.pending, fun key hkey => ?_⟩
            cases hkey
            obtain ⟨hfound, rfl⟩ := indexed_some (hentry rfl).symm
            exact ⟨hfound, rfl⟩
          next => exact h

/-- An operation of a request that is not set to store or remove the key leaves
its entry and its object. -/
theorem Spared.op (h : Spared idOf r found t) (hwindows : WindowsKeyed x)
    (hentry : entryAt x.shared (keyOf idOf r) = indexed idOf r found)
    (hstored : found = true → Stored idOf r x.shared) {o : ObjOp}
    {next : ObjAns o → ObjProg Result} {ans : ObjAns o}
    (hth : x.threads.lookup n = some ⟨.call o next, t⟩) (hguard : Guard idOf t o)
    (hserves : Serves x.shared o ans w) (hundisturbed : Undisturbed x (.op n o ans))
    (hearly : t.request.pastExpiry r.expiresAt = false)
    (hput : found = false → ∃ m th, m ≠ n ∧ x.threads.lookup m = some th ∧
      keyOf idOf r ∈ th.track.pending) :
    entryAt w (keyOf idOf r) = indexed idOf r found ∧ (Stored idOf r x.shared → Stored idOf r w) ∧
      Spared idOf r found (observe t o ans) := by
  have hother : ∀ {k : Key}, k ∈ t.pending → keyOf idOf r ≠ k := by
    rintro k hk rfl
    exact h.pending hk
  cases hserves with
  | part hpart hlands =>
      cases hpart with
      | check _ id bid size _ _ =>
          cases hcheck : x.shared.mem.accounts.check id bid size _ _ with
          | error e => exact ⟨hentry, fun hs => hs, h⟩
          | ok =>
              rw [hcheck] at hundisturbed
              refine ⟨hentry, fun hs => hs, fun hmem => ?_, h.reading⟩
              have hkey := List.mem_singleton.mp hmem
              cases found with
              | true =>
                  have hnone : entryAt x.shared (id, bid) = none := (Accounts.check_eq_ok hcheck).1
                  rw [← hkey, hentry] at hnone
                  cases hnone
              | false =>
                  obtain ⟨m, th, hm, hth', hpending⟩ := hput rfl
                  exact (hundisturbed m th hm hth').1 (hkey ▸ hpending)
      | putObject _ key body =>
          obtain ⟨-, k, r', -, hmem, rfl, -, -⟩ := hguard
          refine ⟨hentry, fun hs => ?_, h.pending, h.reading⟩
          rw [Stored, lookup_insert_eq, if_neg]
          · exact hs
          · exact fun heq => hother hmem (objectKey_inj heq)
      | putFailed | putLost => cases hlands
      | indexAdd _ id bid e =>
          obtain ⟨-, r', -, hmem, -, -⟩ := hguard
          refine ⟨?_, fun hs => hs, List.not_mem_nil, h.reading⟩
          rw [entryAt_add x.shared (id, bid), if_neg (hother hmem)]
          exact hentry
  | readEntry _ id bid =>
      refine ⟨hentry, fun hs => hs, h.reads (fun hkey => ?_) hearly⟩
      rw [← hentry, ← hkey]
      rfl
  | getObject _ key range =>
      refine ⟨hentry, fun hs => hs, ?_⟩
      cases hbody : (x.shared.bucket.lookup key).map fun body => sliceOf body range with
      | some body => exact ⟨h.pending, fun _ hread => by cases hread⟩
      | none =>
          change Spared idOf r found t.misses
          rw [S3Track.misses]
          split
          next k key' hreading =>
            refine ⟨fun hmem => ?_, fun _ hread => by cases hread⟩
            have hkey := List.mem_singleton.mp hmem
            subst hkey
            obtain ⟨hfound, hobject⟩ := h.reading key' hreading
            rw [hguard.2 _ key' hreading] at hobject
            rw [hobject, hstored hfound] at hbody
            cases hbody
          next => exact h
  | deleteObject _ key =>
      obtain ⟨k, e, hmem, rfl, hwindow⟩ := hguard
      refine ⟨hentry, fun hs => ?_, h.pending, h.reading⟩
      obtain ⟨expiresAt, hkey⟩ := hwindows n _ _ e hth hwindow rfl
      rw [Stored, lookup_erase_eq, if_neg]
      · exact hs
      · rw [hkey]
        exact fun heq => hother hmem (objectKey_inj heq)
  | indexDrop _ id bid size =>
      obtain ⟨hmem, -⟩ := hguard
      refine ⟨?_, fun hs => hs, fun hmem' => h.pending (List.mem_of_mem_erase hmem'), h.reading⟩
      rw [entryAt_drop x.shared (id, bid), if_neg (hother hmem)]
      exact hentry
  | expired _ now dead hperm =>
      refine ⟨hentry, fun hs => hs, fun hmem => ?_, h.reading⟩
      obtain ⟨e, he, hexpired⟩ := Accounts.mem_keysWhere.mp (hperm.subset hmem)
      change entryAt x.shared (keyOf idOf r) = some e at he
      rw [hentry] at he
      obtain ⟨-, rfl⟩ := indexed_some he
      rw [hguard.2.2] at hearly
      exact of_decide_eq_false hearly (of_decide_eq_true hexpired)

end Protection

section Kept

variable {idOf : PubKey → IdentityID} {r : Record} {x : S3Pool} {n : ℕ} {t : S3Track} {w : World}

/-- The window of a thread after an operation: the one before, a new object in
it, one that a put opens, or one on an entry that has been read. -/
theorem window_observe {o : ObjOp} {ans : ObjAns o} {v : Window} {e : S3Entry}
    (hv : (observe t o ans).window = some v) (he : v.entry = some e)
    (hserves : Serves x.shared o ans w) :
    (∃ v', t.window = some v' ∧ v'.key = v.key ∧ v'.entry = v.entry) ∨
      entryAt x.shared v.key = some e := by
  have hsetObject : ∀ object, (t.setObject object).window = some v →
      ∃ v', t.window = some v' ∧ v'.key = v.key ∧ v'.entry = v.entry := by
    intro object hset
    obtain ⟨v', hv', rfl⟩ := Option.map_eq_some_iff.mp hset
    exact ⟨v', hv', rfl, rfl⟩
  cases hserves with
  | part hpart hlands =>
      cases hpart with
      | check _ id bid size _ _ =>
          cases hcheck : x.shared.mem.accounts.check id bid size _ _ with
          | error e =>
              rw [hcheck] at hv
              exact .inl ⟨v, hv, rfl, rfl⟩
          | ok =>
              rw [hcheck] at hv
              cases hv
              cases he
      | putObject => exact .inl (hsetObject _ hv)
      | putFailed | putLost => cases hlands
      | indexAdd => cases hv
  | readEntry _ id bid =>
      change (t.reads (id, bid) _).window = some v at hv
      cases hentry : x.shared.mem.accounts.entry id bid with
      | none =>
          rw [hentry, S3Track.reads] at hv
          split at hv
          next => exact .inl ⟨v, hv, rfl, rfl⟩
          next => exact .inl ⟨v, hv, rfl, rfl⟩
      | some e' =>
          rw [hentry, S3Track.reads] at hv
          split at hv
          next =>
            cases hv
            cases he
            exact .inr hentry
          next =>
            split at hv
            next => exact .inl ⟨v, hv, rfl, rfl⟩
            next =>
              split at hv
              next => exact .inl ⟨v, hv, rfl, rfl⟩
              next => exact .inl ⟨v, hv, rfl, rfl⟩
  | getObject _ key range =>
      cases hbody : (x.shared.bucket.lookup key).map fun body => sliceOf body range with
      | some body =>
          rw [hbody] at hv
          exact .inl ⟨v, hv, rfl, rfl⟩
      | none =>
          rw [hbody] at hv
          change t.misses.window = some v at hv
          rw [S3Track.misses] at hv
          split at hv
          next => exact .inl ⟨v, hv, rfl, rfl⟩
          next => exact .inl ⟨v, hv, rfl, rfl⟩
  | deleteObject => exact .inl (hsetObject _ hv)
  | indexDrop => cases hv
  | expired => exact .inl ⟨v, hv, rfl, rfl⟩

theorem keyed_op (h : Keyed x.shared) {o : ObjOp} {ans : ObjAns o} (hguard : Guard idOf t o)
    (hserves : Serves x.shared o ans w) : Keyed w := by
  cases hserves with
  | part hpart hlands =>
      cases hpart with
      | check | putObject => exact h
      | putFailed | putLost => cases hlands
      | indexAdd _ id bid e =>
          obtain ⟨-, r', ⟨hkey, -⟩, -, rfl, -⟩ := hguard
          intro k e he
          rw [entryAt_add x.shared (id, bid)] at he
          split at he
          next heq =>
            cases he
            exact ⟨r'.expiresAt, by rw [heq, hkey]; rfl⟩
          next => exact h k e he
  | readEntry | getObject | deleteObject | expired => exact h
  | indexDrop _ id bid size =>
      intro k e he
      rw [entryAt_drop x.shared (id, bid)] at he
      split at he
      next => cases he
      next => exact h k e he

theorem Base.op (h : Base r x) {o : ObjOp} {next : ObjAns o → ObjProg Result} {ans : ObjAns o}
    (hth : x.threads.lookup n = some ⟨.call o next, t⟩) (hguard : Guard idOf t o)
    (hserves : Serves x.shared o ans w) :
    Base r ⟨w, x.threads.insert n ⟨next ans, observe t o ans⟩⟩ := by
  refine ⟨keyed_op h.keyed hguard hserves, fun m th v e hm hv he => ?_, fun m th hm => ?_⟩
  · rw [lookup_insert_eq] at hm
    split at hm
    next =>
      cases hm
      rcases window_observe hv he hserves with ⟨v', hv', hkey, hentry⟩ | hfound
      · rw [← hkey]
        exact h.windows n _ v' e hth hv' (hentry.trans he)
      · exact h.keyed _ e hfound
    next => exact h.windows m th v e hm hv he
  · rw [lookup_insert_eq] at hm
    split at hm
    next =>
      cases hm
      rw [observe_request]
      exact h.early n _ hth
    next => exact h.early m th hm

theorem Base.launch (h : Base r x) {q : Request} (hq : q.pastExpiry r.expiresAt = false) (n : ℕ)
    (program : Request → ObjProg Result) : Base r (launch program (track idOf) x n q) := by
  refine ⟨h.keyed, fun m th v e hm hv he => ?_, fun m th hm => ?_⟩
  · rw [lookup_insert_eq] at hm
    split at hm
    next =>
      cases hm
      cases hv
    next => exact h.windows m th v e hm hv he
  · rw [lookup_insert_eq] at hm
    split at hm
    next =>
      cases hm
      exact hq
    next => exact h.early m th hm

end Kept

section Put

variable (idOf : PubKey → IdentityID) (r : Record)

/-- The put is between its sections: nothing is found under its key, and no other
request is set to store or remove it. -/
structure InFlight (p : ℕ) (t : S3Track) (v : Window) (x : S3Pool) : Prop where
  pending : keyOf idOf r ∈ t.pending
  window : v.entry = none
  missing : entryAt x.shared (keyOf idOf r) = indexed idOf r false
  stored : v.object ≠ none → Stored idOf r x.shared
  spared : ∀ m th, m ≠ p → x.threads.lookup m = some th → Spared idOf r false th.track

/-- The record is stored, and no request is set to store or remove its key. -/
structure Protected (x : S3Pool) : Prop where
  found : entryAt x.shared (keyOf idOf r) = indexed idOf r true
  stored : Stored idOf r x.shared
  spared : ∀ m th, x.threads.lookup m = some th → Spared idOf r true th.track

/-- Where the put of the record is. -/
structure PutAt (p : ℕ) (t : S3Track) (x : S3Pool) : Prop where
  request : ∃ identityCap totalCap, t.request = .put r identityCap totalCap
  idle : t.stored = false → t.window = none → t.pending = [] ∧ t.reading = none
  inFlight : t.stored = false → ∀ v, t.window = some v → InFlight idOf r p t v x
  done : t.stored = true → Protected idOf r x

structure Follows (p : ℕ) (x : S3Pool) : Prop where
  base : Base r x
  put : ∃ th, x.threads.lookup p = some th ∧ PutAt idOf r p th.track x

variable {idOf r} {x : S3Pool} {n p : ℕ} {t : S3Track} {w : World}

theorem InFlight.op {tp : S3Track} {v : Window} {th : Thread ObjOp ObjAns Result S3Track}
    (h : InFlight idOf r p tp v x) (hp : x.threads.lookup p = some th) (htp : th.track = tp)
    (hbase : Base r x) (hn : n ≠ p) {o : ObjOp} {next : ObjAns o → ObjProg Result} {ans : ObjAns o}
    (hth : x.threads.lookup n = some ⟨.call o next, t⟩) (hguard : Guard idOf t o)
    (hserves : Serves x.shared o ans w) (hundisturbed : Undisturbed x (.op n o ans)) :
    InFlight idOf r p tp v ⟨w, x.threads.insert n ⟨next ans, observe t o ans⟩⟩ := by
  have hput : false = false → ∃ m th', m ≠ n ∧ x.threads.lookup m = some th' ∧
      keyOf idOf r ∈ th'.track.pending := fun _ =>
    ⟨p, th, Ne.symm hn, hp, by rw [htp]; exact h.pending⟩
  obtain ⟨hmissing, hkept, hspared⟩ := (h.spared n _ hn hth).op hbase.windows h.missing nofun hth
    hguard hserves hundisturbed (hbase.early n _ hth) hput
  refine ⟨h.pending, h.window, hmissing, fun hobject => hkept (h.stored hobject),
    fun m th' hm hm' => ?_⟩
  rw [lookup_insert_eq] at hm'
  split at hm'
  next =>
    cases hm'
    exact hspared
  next => exact h.spared m th' hm hm'

theorem Protected.op (h : Protected idOf r x) (hbase : Base r x) {o : ObjOp}
    {next : ObjAns o → ObjProg Result} {ans : ObjAns o}
    (hth : x.threads.lookup n = some ⟨.call o next, t⟩) (hguard : Guard idOf t o)
    (hserves : Serves x.shared o ans w) (hundisturbed : Undisturbed x (.op n o ans)) :
    Protected idOf r ⟨w, x.threads.insert n ⟨next ans, observe t o ans⟩⟩ := by
  obtain ⟨hfound, hkept, hspared⟩ := (h.spared n _ hth).op hbase.windows h.found
    (fun _ => h.stored) hth hguard hserves hundisturbed (hbase.early n _ hth) nofun
  refine ⟨hfound, hkept h.stored, fun m th' hm => ?_⟩
  rw [lookup_insert_eq] at hm
  split at hm
  next =>
    cases hm
    exact hspared
  next => exact h.spared m th' hm

/-- A step of another request. -/
theorem PutAt.other {th : Thread ObjOp ObjAns Result S3Track} (h : PutAt idOf r p th.track x)
    (hp : x.threads.lookup p = some th) (hbase : Base r x) (hn : n ≠ p) {o : ObjOp}
    {next : ObjAns o → ObjProg Result} {ans : ObjAns o}
    (hth : x.threads.lookup n = some ⟨.call o next, t⟩) (hguard : Guard idOf t o)
    (hserves : Serves x.shared o ans w) (hundisturbed : Undisturbed x (.op n o ans)) :
    PutAt idOf r p th.track ⟨w, x.threads.insert n ⟨next ans, observe t o ans⟩⟩ where
  request := h.request
  idle := h.idle
  inFlight := fun hnot v hv =>
    (h.inFlight hnot v hv).op hp rfl hbase hn hth hguard hserves hundisturbed
  done := fun hdone => (h.done hdone).op hbase hth hguard hserves hundisturbed

theorem stored_observe {o : ObjOp} {ans : ObjAns o} (h : t.stored = true) :
    (observe t o ans).stored = true := by
  unfold observe
  split <;> try exact h
  · rfl
  · rename_i id bid e
    cases e with
    | none =>
        rw [S3Track.reads]
        split <;> exact h
    | some e =>
        rw [S3Track.reads]
        split
        next => exact h
        next =>
          split
          next => exact h
          next => split <;> exact h
  · rw [S3Track.misses]
    split <;> exact h

/-- A put that has not passed its check. -/
theorem putAt_idle (hrequest : ∃ identityCap totalCap, t.request = .put r identityCap totalCap)
    (hstored : t.stored = false) (hwindow : t.window = none) (hpending : t.pending = [])
    (hreading : t.reading = none) (x : S3Pool) : PutAt idOf r p t x where
  request := hrequest
  idle := fun _ _ => ⟨hpending, hreading⟩
  inFlight := fun _ v hv => by
    rw [hwindow] at hv
    cases hv
  done := fun hdone => by
    rw [hstored] at hdone
    cases hdone

theorem puts_eq {identityCap totalCap : ℤ} (hrequest : t.request = .put r identityCap totalCap)
    {k : Key} {r' : Record} (h : Puts idOf t k r') : k = keyOf idOf r ∧ r' = r := by
  obtain ⟨hk, _, _, hr'⟩ := h
  rw [hrequest] at hr'
  cases hr'
  exact ⟨hk, rfl⟩

/-- The check of the put. -/
theorem PutAt.check (h : PutAt idOf r p t x) (hstored : t.stored = false) {o : ObjOp}
    {next : ObjAns o → ObjProg Result} {ans : ObjAns o}
    (hth : x.threads.lookup p = some ⟨.call o next, t⟩) (hguard : Guard idOf t o)
    (hwindow : t.window = none) (hserves : Serves x.shared o ans w)
    (hundisturbed : Undisturbed x (.op p o ans)) :
    PutAt idOf r p (observe t o ans) ⟨w, x.threads.insert p ⟨next ans, observe t o ans⟩⟩ := by
  obtain ⟨hpending, hreading⟩ := h.idle hstored hwindow
  obtain ⟨identityCap, totalCap, hrequest⟩ := h.request
  have hsame : ∀ t' : S3Track, t' = t → ∀ y, PutAt idOf r p t' y := by
    rintro t' rfl y
    exact putAt_idle ⟨identityCap, totalCap, hrequest⟩ hstored hwindow hpending hreading y
  cases hserves with
  | part hpart hlands =>
      cases hpart with
      | check _ id bid size _ _ =>
          obtain ⟨-, -, -, r', hput, -⟩ := hguard
          obtain ⟨hkey, -⟩ := puts_eq hrequest hput
          cases hcheck : x.shared.mem.accounts.check id bid size _ _ with
          | error e => exact hsame t rfl _
          | ok =>
              rw [hcheck] at hundisturbed
              have hmissing : entryAt x.shared (id, bid) = none := (Accounts.check_eq_ok hcheck).1
              rw [hkey] at hmissing
              refine ⟨⟨identityCap, totalCap, hrequest⟩, (fun _ hnone => nomatch hnone),
                fun _ v hv => ?_, fun hdone => ?_⟩
              · cases hv
                refine ⟨?_, rfl, hmissing, fun hobject => absurd rfl hobject, fun m th hm hm' => ?_⟩
                · rw [← hkey]
                  exact List.mem_singleton_self _
                · rw [lookup_insert_eq, if_neg hm] at hm'
                  obtain ⟨hnot, hnone⟩ := hundisturbed m th hm hm'
                  rw [hkey] at hnot hnone
                  exact ⟨hnot, fun key hread => absurd hread (hnone key)⟩
              · change t.stored = true at hdone
                rw [hstored] at hdone
                cases hdone
      | putObject =>
          obtain ⟨-, k, r', -, -, -, -, hopen⟩ := hguard
          rw [hwindow] at hopen
          cases hopen
      | putFailed | putLost => cases hlands
      | indexAdd =>
          obtain ⟨-, r', -, -, -, hopen⟩ := hguard
          rw [hwindow] at hopen
          cases hopen
  | readEntry _ id bid =>
      refine hsame _ ?_ _
      change t.reads (id, bid) _ = t
      have hnot : (id, bid) ∉ t.pending := by
        rw [hpending]
        exact List.not_mem_nil
      cases x.shared.mem.accounts.entry id bid with
      | none => rw [S3Track.reads, if_neg hnot]
      | some e =>
          rw [S3Track.reads, if_neg hnot, hrequest]
          rfl
  | getObject _ key range =>
      refine hsame _ ?_ _
      cases (x.shared.bucket.lookup key).map fun body => sliceOf body range with
      | some body =>
          change { t with reading := none } = t
          rw [← hreading]
      | none =>
          change t.misses = t
          rw [S3Track.misses, hreading]
  | deleteObject =>
      obtain ⟨k, e, -, -, hopen⟩ := hguard
      rw [hwindow] at hopen
      cases hopen
  | indexDrop =>
      obtain ⟨-, e, -, hopen⟩ := hguard
      rw [hwindow] at hopen
      cases hopen
  | expired =>
      have hsweep := hguard.2.2
      rw [hrequest] at hsweep
      cases hsweep

/-- The sections of the put behind its check. -/
theorem PutAt.store (h : PutAt idOf r p t x) (hstored : t.stored = false) {o : ObjOp}
    {next : ObjAns o → ObjProg Result} {ans : ObjAns o}
    (hth : x.threads.lookup p = some ⟨.call o next, t⟩) (hguard : Guard idOf t o) {v : Window}
    (hwindow : t.window = some v) (hserves : Serves x.shared o ans w) :
    PutAt idOf r p (observe t o ans) ⟨w, x.threads.insert p ⟨next ans, observe t o ans⟩⟩ := by
  have hflight := h.inFlight hstored v hwindow
  obtain ⟨identityCap, totalCap, hrequest⟩ := h.request
  have hclosed : t.window ≠ none := by
    rw [hwindow]
    intro hnone
    cases hnone
  cases hserves with
  | part hpart hlands =>
      cases hpart with
      | check => exact absurd hguard.1 hclosed
      | putObject _ key body =>
          obtain ⟨-, k, r', hput, -, rfl, rfl, hopen⟩ := hguard
          obtain ⟨rfl, rfl⟩ := puts_eq hrequest hput
          refine ⟨⟨identityCap, totalCap, hrequest⟩, fun _ hnone => ?_, fun _ v' hv' => ?_,
            fun hdone => ?_⟩
          · change (t.setObject _).window = none at hnone
            rw [S3Track.setObject, hopen] at hnone
            cases hnone
          · change (t.setObject _).window = some v' at hv'
            rw [S3Track.setObject, hopen] at hv'
            cases hv'
            refine ⟨hflight.pending, rfl, hflight.missing, fun _ => AList.lookup_insert _,
              fun m th hm hm' => ?_⟩
            rw [lookup_insert_eq, if_neg hm] at hm'
            exact hflight.spared m th hm hm'
          · change t.stored = true at hdone
            rw [hstored] at hdone
            cases hdone
      | putFailed | putLost => cases hlands
      | indexAdd _ id bid e =>
          obtain ⟨hreading, r', hput, -, rfl, hopen⟩ := hguard
          obtain ⟨hkey, rfl⟩ := puts_eq hrequest hput
          refine ⟨⟨identityCap, totalCap, hrequest⟩, (fun hfalse => by cases hfalse),
            (fun _ _ hnone => by cases hnone), fun _ => ?_⟩
          rw [hwindow] at hopen
          cases hopen
          refine ⟨?_, hflight.stored (fun hfalse => by cases hfalse), fun m th hm => ?_⟩
          · rw [entryAt_add x.shared (id, bid), hkey, if_pos rfl]
            rfl
          · rw [lookup_insert_eq] at hm
            split at hm
            next =>
              cases hm
              refine ⟨List.not_mem_nil, fun key hread => ?_⟩
              change t.reading = _ at hread
              rw [hreading] at hread
              cases hread
            next hne =>
              have hspared := hflight.spared m th hne hm
              exact ⟨hspared.pending, fun key hread => ⟨rfl, (hspared.reading key hread).2⟩⟩
  | readEntry => exact absurd hguard.1 hclosed
  | getObject => exact absurd hguard.1 hclosed
  | deleteObject =>
      obtain ⟨k, e, -, -, hopen⟩ := hguard
      rw [hwindow] at hopen
      cases hopen
      cases hflight.window
  | indexDrop =>
      obtain ⟨-, e, -, hopen⟩ := hguard
      rw [hwindow] at hopen
      cases hopen
      cases hflight.window
  | expired => exact absurd hguard.1 hclosed

/-- A step of the put itself. -/
theorem PutAt.own (h : PutAt idOf r p t x) (hbase : Base r x) {o : ObjOp}
    {next : ObjAns o → ObjProg Result} {ans : ObjAns o}
    (hth : x.threads.lookup p = some ⟨.call o next, t⟩) (hguard : Guard idOf t o)
    (hserves : Serves x.shared o ans w) (hundisturbed : Undisturbed x (.op p o ans)) :
    PutAt idOf r p (observe t o ans) ⟨w, x.threads.insert p ⟨next ans, observe t o ans⟩⟩ := by
  cases hstored : t.stored with
  | true =>
      have hdone : (observe t o ans).stored = true := stored_observe hstored
      refine ⟨?_, fun hnot => ?_, fun hnot => ?_, fun _ => ?_⟩
      · rw [observe_request]
        exact h.request
      · rw [hdone] at hnot
        cases hnot
      · rw [hdone] at hnot
        cases hnot
      · exact (h.done hstored).op hbase hth hguard hserves hundisturbed
  | false =>
      cases hwindow : t.window with
      | none => exact h.check hstored hth hguard hwindow hserves hundisturbed
      | some v => exact h.store hstored hth hguard hwindow hserves

theorem Follows.op (h : Follows idOf r p x) {o : ObjOp} {next : ObjAns o → ObjProg Result}
    {ans : ObjAns o} (hth : x.threads.lookup n = some ⟨.call o next, t⟩) (hguard : Guard idOf t o)
    (hserves : Serves x.shared o ans w) (hundisturbed : Undisturbed x (.op n o ans)) :
    Follows idOf r p ⟨w, x.threads.insert n ⟨next ans, observe t o ans⟩⟩ := by
  obtain ⟨th, hp, hput⟩ := h.put
  refine ⟨h.base.op hth hguard hserves, ?_⟩
  by_cases hn : n = p
  · subst hn
    rw [hth] at hp
    cases hp
    exact ⟨_, AList.lookup_insert _, hput.own h.base hth hguard hserves hundisturbed⟩
  · refine ⟨th, ?_, hput.other hp h.base hn hth hguard hserves hundisturbed⟩
    rw [lookup_insert_eq, if_neg (Ne.symm hn)]
    exact hp

theorem spared_launch {found : Bool} {q : Request} (hq : keyOf idOf r ∉ q.removes idOf) :
    Spared idOf r found (track idOf q) :=
  ⟨hq, nofun⟩

theorem Follows.launch (h : Follows idOf r p x) {q : Request} (hfree : x.threads.lookup n = none)
    (hq : q.pastExpiry r.expiresAt = false) (hspares : keyOf idOf r ∉ q.removes idOf)
    (program : Request → ObjProg Result) :
    Follows idOf r p (launch program (track idOf) x n q) := by
  obtain ⟨th, hp, hput⟩ := h.put
  have hne : p ≠ n := by
    rintro rfl
    rw [hfree] at hp
    cases hp
  refine ⟨h.base.launch hq n program, th, ?_, hput.request, hput.idle, fun hnot v hv => ?_,
    fun hdone => ?_⟩
  · rw [lookup_insert_eq, if_neg hne]
    exact hp
  · obtain ⟨hpending, hwindow, hmissing, hstored, hspared⟩ := hput.inFlight hnot v hv
    refine ⟨hpending, hwindow, hmissing, hstored, fun m th' hm hm' => ?_⟩
    rw [lookup_insert_eq] at hm'
    split at hm'
    next =>
      cases hm'
      exact spared_launch hspares
    next => exact hspared m th' hm hm'
  · obtain ⟨hfound, hstored, hspared⟩ := hput.done hdone
    refine ⟨hfound, hstored, fun m th' hm => ?_⟩
    rw [lookup_insert_eq] at hm
    split at hm
    next =>
      cases hm
      exact spared_launch hspares
    next => exact hspared m th' hm

/-- What a get is answered about the key while the record is protected. -/
def Sound (idOf : PubKey → IdentityID) (r : Record) : (o : ObjOp) → ObjAns o → Prop
  | .readEntry id bid, e => (id, bid) = keyOf idOf r → e = some (entryOf idOf r)
  | .getObject key none, body =>
      key = objectKey (keyOf idOf r) r.expiresAt → body = some (marshal r)
  | _, _ => True

theorem Protected.sound (h : Protected idOf r x) {o : ObjOp} {ans : ObjAns o}
    (hserves : Serves x.shared o ans w) : Sound idOf r o ans := by
  cases hserves with
  | part | deleteObject | indexDrop | expired => exact trivial
  | readEntry _ id bid =>
      intro hkey
      have hfound := h.found
      rw [← hkey] at hfound
      exact hfound
  | getObject _ key range =>
      cases range with
      | some range => exact trivial
      | none =>
          rintro rfl
          rw [h.stored]
          rfl

/-- A get that is answered soundly returns the record. -/
theorem get_sound {maxPayload : ℤ} (hlimit : (r.payload.length : ℤ) ≤ maxPayload)
    (hlt : r.payload.length < 2 ^ 32) {pub : PubKey} {now : Int64}
    (hpub : idOf pub = idOf r.identity) (hlive : ¬ r.expiresAt ≤ now) :
    Holds (Soundly (Sound idOf r)) (fun _ _ => True) (fun res _ => res = .record (.ok r))
      (program idOf maxPayload (.get pub r.id now)) () := by
  rw [program, holds_map]
  refine ⟨trivial, fun e _ he => ?_⟩
  have hentry : e = some (entryOf idOf r) := he (by rw [hpub]; rfl)
  subst hentry
  change Holds _ _ _ ((if r.expiresAt ≤ now then _ else _) >>= _) ()
  rw [if_neg hlive]
  refine ⟨trivial, fun body _ hbody => ?_⟩
  have hfile : body = some (marshal r) := hbody rfl
  subst hfile
  exact congrArg Result.record (unmarshal_marshal_of_lt r maxPayload hlimit hlt)

end Put

theorem protects (idOf : PubKey → IdentityID) (maxPayload : ℤ) (r : Record)
    (hlimit : (r.payload.length : ℤ) ≤ maxPayload) (hlt : r.payload.length < 2 ^ 32) :
    Protects idOf (program idOf maxPayload) (track idOf) observe Serves Undisturbed (Guard idOf)
      Returns r (Base r) (Follows idOf r) (Sound idOf r) where
  guarantee := program_guarantees
  startBase := fun x n q hx _ hq => hx.launch hq n _
  opBase := fun x n t o next ans s' hx hth hguard hserves _ => hx.op hth hguard hserves
  startPut := fun x p identityCap totalCap hx _ =>
    ⟨hx.launch rfl p _, _, AList.lookup_insert _,
      putAt_idle ⟨identityCap, totalCap, rfl⟩ rfl rfl rfl rfl _⟩
  startFollows := fun x p n q h hfree hq hspares => h.launch hfree hq hspares _
  opFollows := fun x p n t o next ans s' h hth hguard hserves hundisturbed =>
    h.op hth hguard hserves hundisturbed
  sound := fun x p t o ans s' h hdone hreturns hserves => by
    obtain ⟨th, hp, hput⟩ := h.put
    rw [hdone] at hp
    cases hp
    obtain ⟨identityCap, totalCap, hrequest⟩ := hput.request
    exact (hput.done (hreturns.2 r identityCap totalCap hrequest rfl)).sound hserves
  getFound := fun pub now hpub hlive => get_sound hlimit hlt hpub hlive

/-- The object store keeps a live blob as long as a put passes its check only
while no other request is set to store or remove its key. -/
theorem s3_liveBlobsStay (idOf : PubKey → IdentityID) (maxPayload : ℤ) :
    LiveBlobsStay idOf maxPayload (program idOf maxPayload) (track idOf) observe Serves Undisturbed
      Consistent := by
  have htrack : Function.Injective (track idOf) := fun _ _ h => congrArg S3Track.request h
  have hinit : ∀ r w, Consistent w → Base r ⟨w, ∅⟩ := fun r w hw =>
    ⟨hw.keyed, fun _ _ _ _ hth => by simp at hth, fun _ _ hth => by simp at hth⟩
  exact liveBlobsStay_of_protects htrack hinit (protects idOf maxPayload)

/-- In both backends a live blob stays, in every run in which a put stores its
record only while no other request is set to store or remove its key. -/
theorem live_blobs_stay (idOf : PubKey → IdentityID) (maxPayload : ℤ) :
    LiveBlobsStay idOf maxPayload (FsThreads.program idOf maxPayload) (FsThreads.track idOf)
      FsThreads.observe (FsThreads.Serves idOf) (FsThreads.Undisturbed idOf) FsThreads.Consistent ∧
    LiveBlobsStay idOf maxPayload (program idOf maxPayload) (track idOf) observe Serves Undisturbed
      Consistent :=
  ⟨FsThreads.fs_liveBlobsStay idOf maxPayload, s3_liveBlobsStay idOf maxPayload⟩

section Examples

theorem timely_start {τ Op : Type} {Ans : Op → Type} {track : Request → τ}
    (htrack : Function.Injective track) {e : Int64} {n : ℕ} {q : Request}
    (h : q.pastExpiry e = false) : Timely track e (.start n (track q) : Event Op Ans τ) := by
  intro m q' heq
  injection heq with _ hq
  rw [← htrack hq]
  exact h

theorem timely_op {τ Op : Type} {Ans : Op → Type} {track : Request → τ} {e : Int64} {n : ℕ} {o : Op}
    {ans : Ans o} : Timely track e (.op n o ans : Event Op Ans τ) := nofun

theorem spares_op {τ Op : Type} {Ans : Op → Type} {idOf : PubKey → IdentityID}
    {track : Request → τ} {k : Key} {n : ℕ} {o : Op} {ans : Ans o} :
    Spares idOf track k (.op n o ans : Event Op Ans τ) := nofun

def zeroKeyOf : Key := keyOf zeroDigest (expiring 1)

theorem serves_readEntry {w : World} {id : IdentityID} {bid : BlobID} {e : Option S3Entry}
    (h : w.mem.accounts.entry id bid = e) : Serves w (.readEntry id bid) e w := by
  subst h
  exact .readEntry w id bid

theorem serves_getObject {w : World} {key : String} {body : Bytes}
    (h : w.bucket.lookup key = some body) : Serves w (.getObject key none) (some body) w := by
  have hserves := Serves.getObject w key none
  rw [h] at hserves
  exact hserves

theorem serves_expired {w : World} {now : Int64} {dead : List Key}
    (h : (w.mem.accounts.keysWhere fun e => e.expiresAt ≤ now) = dead) :
    Serves w (.expired now) dead w :=
  .expired w now dead (by rw [h])

def putEvents (n : ℕ) (r : Record) : List S3Event :=
  checked n r :: storedEvents n r

def getStart (n : ℕ) : S3Event := .start n (track zeroDigest (.get zeroKey (expiring 10).id 5))

/-- A get reads the entry and the object of a record. -/
def getFinds (n : ℕ) (r : Record) : List S3Event :=
  [.op n (.readEntry zeroId r.id) (some (entryOf zeroDigest r)),
    .op n (.getObject (entryOf zeroDigest r).key none) (some (marshal r))]

theorem live_blobs_stay_put_get :
    ∃ z y : S3Pool,
      ReqRuns (program zeroDigest 64) (track zeroDigest) observe Serves Undisturbed
        ⟨emptyWorld, ∅⟩ ([] ++ putStart 1 (expiring 10) :: putEvents 1 (expiring 10)) z ∧
      ReqRuns (program zeroDigest 64) (track zeroDigest) observe Serves Undisturbed z
        (getStart 2 :: getFinds 2 (expiring 10)) y ∧
      ∃ t, y.threads.lookup 2 = some ⟨.ret (.record (.ok (expiring 10))), t⟩ := by
  have hrun : ∃ z y : S3Pool, ∃ res,
      ReqRuns (program zeroDigest 64) (track zeroDigest) observe Serves Undisturbed
        ⟨emptyWorld, ∅⟩ ([] ++ putStart 1 (expiring 10) :: putEvents 1 (expiring 10)) z ∧
      (∃ t, z.threads.lookup 1 = some ⟨.ret (.done (.ok ())), t⟩) ∧
      ReqRuns (program zeroDigest 64) (track zeroDigest) observe Serves Undisturbed z
        (getStart 2 :: getFinds 2 (expiring 10)) y ∧
      ∃ t, y.threads.lookup 2 = some ⟨.ret res, t⟩ := by
    refine ⟨_, _, _,
      .cons ⟨.start rfl ⟨.put (expiring 10) 400 1000, rfl, rfl⟩, trivial⟩ <|
      .cons ⟨.op rfl (serves_check (by decide)), fun m th hne hm => ?_⟩ <|
      .cons ⟨.op rfl (.part (.putObject _ _ _) rfl), trivial⟩ <|
      .cons ⟨.op rfl (.part (.indexAdd _ _ _ _) trivial), trivial⟩ <| .nil _, ⟨_, rfl⟩,
      .cons ⟨.start rfl ⟨.get zeroKey (expiring 10).id 5, rfl, rfl⟩, trivial⟩ <|
      .cons ⟨.op rfl (serves_readEntry (by decide)), trivial⟩ <|
      .cons ⟨.op rfl (serves_getObject (AList.lookup_insert _)), trivial⟩ <| .nil _, ⟨_, rfl⟩⟩
    rw [lookup_insert_eq, if_neg hne] at hm
    cases hm
  obtain ⟨z, y, res, hput, ⟨t, hdone⟩, hget, t', hres⟩ := hrun
  have htrack : Function.Injective (track zeroDigest) := fun _ _ h => congrArg S3Track.request h
  have htimely : ∀ e ∈ [] ++ putStart 1 (expiring 10) :: putEvents 1 (expiring 10),
      Timely (track zeroDigest) 10 e := by
    simp only [putEvents, storedEvents, checked, putStart, List.nil_append, List.forall_mem_cons,
      List.not_mem_nil, false_implies, implies_true, timely_op, and_true]
    exact timely_start htrack rfl
  have htimely' : ∀ e ∈ getStart 2 :: getFinds 2 (expiring 10), Timely (track zeroDigest) 10 e := by
    simp only [getStart, getFinds, List.forall_mem_cons, List.not_mem_nil, false_implies,
      implies_true, timely_op, and_true]
    exact timely_start htrack rfl
  have hspares : ∀ e ∈ putEvents 1 (expiring 10) ++ getFinds 2 (expiring 10),
      Spares zeroDigest (track zeroDigest) (keyOf zeroDigest (expiring 10)) e := by
    simp only [putEvents, storedEvents, checked, getFinds, List.forall_mem_append,
      List.forall_mem_cons, List.not_mem_nil, false_implies, implies_true, spares_op, and_true]
  have hstays := (live_blobs_stay zeroDigest 64).2 emptyWorld z y _ _ _ 1 2 (expiring 10) 400 1000
    zeroKey 5 t t' _ consistent_emptyWorld (by decide) (by decide) rfl hput hdone hget hres htimely
    htimely' hspares
  rw [hstays] at hres
  exact ⟨z, y, hput, hget, t', hres⟩

/-- The sections of a removal that finds the entry of a record. -/
def removalEvents (n : ℕ) (r : Record) : List S3Event :=
  [.op n (.readEntry zeroId r.id) (some (entryOf zeroDigest r)),
    .op n (.deleteObject (entryOf zeroDigest r).key) (),
    .op n (.indexDrop zeroId r.id (entryOf zeroDigest r).size) ()]

/-- A sweep lists an expired blob, and a get removes it. -/
def sweepLists : List S3Event :=
  putStart 1 (expiring 1) :: putEvents 1 (expiring 1) ++
    [.start 2 (track zeroDigest (.sweep 5)), .op 2 (.expired 5) [zeroKeyOf],
      .start 3 (track zeroDigest (.get zeroKey (expiring 1).id 5)),
      .op 3 (.readEntry zeroId (expiring 1).id) (some (entryOf zeroDigest (expiring 1)))] ++
    removalEvents 3 (expiring 1)

/-- The id is put again with a later expiry before the sweep goes on. -/
def sweepGoesOn : List S3Event := putEvents 4 (expiring 10) ++ removalEvents 2 (expiring 10)

def getMisses (n : ℕ) : List S3Event := [.op n (.readEntry zeroId (expiring 10).id) none]

/-- The sweep removes a live blob. -/
theorem s3_sweep_removes_live :
    ¬ LiveBlobsStay zeroDigest 64 (program zeroDigest 64) (track zeroDigest) observe Serves
      (fun _ _ => True) Consistent := by
  intro h
  have hrun : ∃ z y : S3Pool,
      ReqRuns (program zeroDigest 64) (track zeroDigest) observe Serves (fun _ _ => True)
        ⟨emptyWorld, ∅⟩ (sweepLists ++ putStart 4 (expiring 10) :: sweepGoesOn) z ∧
      (∃ t, z.threads.lookup 4 = some ⟨.ret (.done (.ok ())), t⟩) ∧
      ReqRuns (program zeroDigest 64) (track zeroDigest) observe Serves (fun _ _ => True) z
        (getStart 5 :: getMisses 5) y ∧
      ∃ t, y.threads.lookup 5 = some ⟨.ret (.record (.error .notFound)), t⟩ := by
    refine ⟨_, _,
      .cons ⟨.start rfl ⟨.put (expiring 1) 400 1000, rfl, rfl⟩, trivial⟩ <|
      .cons ⟨.op rfl (serves_check (by decide)), trivial⟩ <|
      .cons ⟨.op rfl (.part (.putObject _ _ _) rfl), trivial⟩ <|
      .cons ⟨.op rfl (.part (.indexAdd _ _ _ _) trivial), trivial⟩ <|
      .cons ⟨.start rfl ⟨.sweep 5, rfl, rfl⟩, trivial⟩ <|
      .cons ⟨.op rfl (serves_expired (by decide)), trivial⟩ <|
      .cons ⟨.start rfl ⟨.get zeroKey (expiring 1).id 5, rfl, rfl⟩, trivial⟩ <|
      .cons ⟨.op rfl (serves_readEntry (by decide)), trivial⟩ <|
      .cons ⟨.op rfl (serves_readEntry (by decide)), trivial⟩ <|
      .cons ⟨.op rfl (.deleteObject _ _), trivial⟩ <|
      .cons ⟨.op rfl (.indexDrop _ _ _ _), trivial⟩ <|
      .cons ⟨.start rfl ⟨.put (expiring 10) 400 1000, rfl, rfl⟩, trivial⟩ <|
      .cons ⟨.op rfl (serves_check (by decide)), trivial⟩ <|
      .cons ⟨.op rfl (.part (.putObject _ _ _) rfl), trivial⟩ <|
      .cons ⟨.op rfl (.part (.indexAdd _ _ _ _) trivial), trivial⟩ <|
      .cons ⟨.op rfl (serves_readEntry (by decide)), trivial⟩ <|
      .cons ⟨.op rfl (.deleteObject _ _), trivial⟩ <|
      .cons ⟨.op rfl (.indexDrop _ _ _ _), trivial⟩ <| .nil _, ⟨_, rfl⟩,
      .cons ⟨.start rfl ⟨.get zeroKey (expiring 10).id 5, rfl, rfl⟩, trivial⟩ <|
      .cons ⟨.op rfl (serves_readEntry (by decide)), trivial⟩ <| .nil _, ⟨_, rfl⟩⟩
  obtain ⟨z, y, hput, ⟨t, hdone⟩, hget, t', hres⟩ := hrun
  have htrack : Function.Injective (track zeroDigest) := fun _ _ h => congrArg S3Track.request h
  have htimely : ∀ e ∈ sweepLists ++ putStart 4 (expiring 10) :: sweepGoesOn,
      Timely (track zeroDigest) 10 e := by
    simp only [sweepLists, sweepGoesOn, putEvents, storedEvents, removalEvents, checked, putStart,
      List.forall_mem_append, List.forall_mem_cons, List.not_mem_nil, false_implies, implies_true,
      timely_op, and_true, true_and]
    exact ⟨⟨timely_start htrack rfl, timely_start htrack rfl, timely_start htrack rfl⟩,
      timely_start htrack rfl⟩
  have htimely' : ∀ e ∈ getStart 5 :: getMisses 5, Timely (track zeroDigest) 10 e := by
    simp only [getStart, getMisses, List.forall_mem_cons, List.not_mem_nil, false_implies,
      implies_true, timely_op, and_true]
    exact timely_start htrack rfl
  have hspares : ∀ e ∈ sweepGoesOn ++ getMisses 5,
      Spares zeroDigest (track zeroDigest) (keyOf zeroDigest (expiring 10)) e := by
    simp only [sweepGoesOn, getMisses, putEvents, storedEvents, removalEvents, checked,
      List.forall_mem_append, List.forall_mem_cons, List.not_mem_nil, false_implies, implies_true,
      spares_op, and_true]
  have hstays := h emptyWorld z y _ _ _ 4 5 (expiring 10) 400 1000 zeroKey 5 t t' _
    consistent_emptyWorld (by decide) (by decide) rfl hput hdone hget hres htimely htimely' hspares
  cases hstays

end Examples

end Tactile.Relay.LiveBlobs

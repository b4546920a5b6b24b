import Tactile.Relay.S3Calls

/-!
The accounting of the object store under concurrent requests: the counters are
the sums over the index and the bucket holds the indexed objects, as long as no
two requests are between their lock-held sections on one key.
-/

namespace Tactile.Relay.S3Accounts

open Tactile.Lib.Program Tactile.Lib.FiniteMap Tactile.Lib.ByteString
open Tactile.Lib.Transition Tactile.Lib.Threads
open Tactile.Relay.Blob Tactile.Relay.Index Tactile.Relay.Oracle Tactile.Relay.FsRefinement
open Tactile.Relay.S3Store Tactile.Relay.Requests Tactile.Relay.S3Calls

section Statement

/-- The index entry of a key. -/
def entryAt (w : World) (k : Key) : Option S3Entry := w.mem.accounts.entry k.1 k.2

def hasObject (w : World) (key : String) : Bool := (w.bucket.lookup key).isSome

/-- The counters are the sums over the index, every index entry has its object,
and no key has a second one. -/
structure Consistent (w : World) : Prop where
  exact : w.mem.accounts.Exact S3Entry.size
  keyed : ∀ k e, entryAt w k = some e → ∃ expiresAt, e.key = objectKey k expiresAt
  backed : ∀ k e, entryAt w k = some e → hasObject w e.key
  only : ∀ k expiresAt, hasObject w (objectKey k expiresAt) →
    ∃ e, entryAt w k = some e ∧ e.key = objectKey k expiresAt

/-- No other request is between its sections on the key. -/
def Alone (x : S3Pool) (n : ℕ) (k : Key) : Prop :=
  ∀ m th v, m ≠ n → x.threads.lookup m = some th → th.track.window = some v → v.key ≠ k

/-- A put passes its check, and a removal finds its entry, only while no other
request is between its sections on the key. -/
def Exclusive (x : S3Pool) : S3Event → Prop
  | .op n (.part (.check id bid ..)) (.ok ()) => Alone x n (id, bid)
  | .op n (.readEntry id bid) (some _) =>
      ∀ th, x.threads.lookup n = some th → (id, bid) ∈ th.track.pending → Alone x n (id, bid)
  | _ => True

end Statement

section KeyState

/-- The index entry and the only object of a key. -/
structure KeyState (w : World) (k : Key) (entry : Option S3Entry) (object : Option String) :
    Prop where
  entry : entryAt w k = entry
  object : ∀ expiresAt, hasObject w (objectKey k expiresAt) ↔ object = some (objectKey k expiresAt)

/-- The key has exactly the object that its index entry names. -/
def Closed (w : World) (k : Key) : Prop := KeyState w k (entryAt w k) ((entryAt w k).map S3Entry.key)

def Keyed (w : World) : Prop :=
  ∀ k e, entryAt w k = some e → ∃ expiresAt, e.key = objectKey k expiresAt

variable {w : World} {k k' : Key} {e : S3Entry}

theorem Consistent.closed (h : Consistent w) (k : Key) : Closed w k := by
  refine ⟨rfl, fun expiresAt => ⟨fun hobject => ?_, fun hobject => ?_⟩⟩
  · obtain ⟨e, he, hkey⟩ := h.only k expiresAt hobject
    rw [he, Option.map_some, hkey]
  · obtain ⟨e, he, hkey⟩ := Option.map_eq_some_iff.mp hobject
    rw [← hkey]
    exact h.backed k e he

theorem consistent_of_closed (hexact : w.mem.accounts.Exact S3Entry.size) (hkeyed : Keyed w)
    (hclosed : ∀ k, Closed w k) : Consistent w where
  exact := hexact
  keyed := hkeyed
  backed := fun k e he => by
    obtain ⟨expiresAt, hkey⟩ := hkeyed k e he
    rw [hkey, (hclosed k).object, he, Option.map_some, hkey]
  only := fun k expiresAt hobject => by
    obtain ⟨e, he, hkey⟩ := Option.map_eq_some_iff.mp (((hclosed k).object expiresAt).mp hobject)
    exact ⟨e, he, hkey⟩

theorem hasObject_insert (w : World) (key key' : String) (body : Bytes) :
    hasObject { w with bucket := w.bucket.insert key body } key' =
      (decide (key' = key) || hasObject w key') := by
  rw [hasObject, hasObject, lookup_insert_eq]
  split <;> simp_all

theorem hasObject_erase (w : World) (key key' : String) :
    hasObject { w with bucket := w.bucket.erase key } key' =
      (!decide (key' = key) && hasObject w key') := by
  rw [hasObject, hasObject, lookup_erase_eq]
  split <;> simp_all

theorem entryAt_add (w : World) (k k' : Key) (e : S3Entry) :
    entryAt { w with mem := w.mem.indexAdd k.1 k.2 e } k' = if k' = k then some e else entryAt w k' := by
  rw [entryAt, S3.indexAdd, Accounts.entry_add]
  simp only [Prod.ext_iff]
  rfl

theorem entryAt_drop (w : World) (k k' : Key) (size : ℤ) :
    entryAt { w with mem := { w.mem with accounts := w.mem.accounts.drop k.1 k.2 size } } k' =
      if k' = k then none else entryAt w k' := by
  rw [entryAt, Accounts.entry_drop]
  simp only [Prod.ext_iff]
  rfl

/-- What an operation on the objects of one key leaves of the other keys. -/
theorem KeyState.insert_other {entry : Option S3Entry} {object : Option String}
    (h : KeyState w k' entry object) (hne : k' ≠ k) (expiresAt : Int64) (body : Bytes) :
    KeyState { w with bucket := w.bucket.insert (objectKey k expiresAt) body } k' entry object where
  entry := h.entry
  object := fun expiresAt' => by
    have hother : objectKey k' expiresAt' ≠ objectKey k expiresAt := fun h => hne (objectKey_inj h)
    rw [hasObject_insert, decide_eq_false hother, Bool.false_or]
    exact h.object expiresAt'

theorem KeyState.erase_other {entry : Option S3Entry} {object : Option String}
    (h : KeyState w k' entry object) (hne : k' ≠ k) (expiresAt : Int64) :
    KeyState { w with bucket := w.bucket.erase (objectKey k expiresAt) } k' entry object where
  entry := h.entry
  object := fun expiresAt' => by
    have hother : objectKey k' expiresAt' ≠ objectKey k expiresAt := fun h => hne (objectKey_inj h)
    rw [hasObject_erase, decide_eq_false hother, Bool.not_false, Bool.true_and]
    exact h.object expiresAt'

theorem KeyState.of_index {w' : World} {entry entry' : Option S3Entry} {object : Option String}
    (h : KeyState w k entry object) (hentry : entryAt w' k = entry')
    (hbucket : w'.bucket = w.bucket) : KeyState w' k entry' object where
  entry := hentry
  object := fun expiresAt => by
    rw [hasObject, hbucket]
    exact h.object expiresAt

theorem KeyState.insert (h : KeyState w k none none) (expiresAt : Int64) (body : Bytes) :
    KeyState { w with bucket := w.bucket.insert (objectKey k expiresAt) body } k none
      (some (objectKey k expiresAt)) where
  entry := h.entry
  object := fun expiresAt' => by
    have hnone : hasObject w (objectKey k expiresAt') = false := by
      rw [Bool.eq_false_iff, ne_eq, h.object]
      nofun
    rw [hasObject_insert, hnone, Bool.or_false, decide_eq_true_eq, Option.some.injEq]
    exact eq_comm

theorem KeyState.erase {expiresAt : Int64}
    (h : KeyState w k (some e) (some (objectKey k expiresAt))) :
    KeyState { w with bucket := w.bucket.erase (objectKey k expiresAt) } k (some e) none where
  entry := h.entry
  object := fun expiresAt' => by
    rw [hasObject_erase]
    simp only [Bool.and_eq_true, Bool.not_eq_true', decide_eq_false_iff_not, h.object,
      Option.some.injEq, reduceCtorEq, iff_false, not_and]
    exact fun hne heq => hne heq.symm

end KeyState

section Invariant

/-- The accounts are exact in every state, and every key is closed except those
of open windows, which are as their windows say. -/
structure Accounted (x : S3Pool) : Prop where
  exact : x.shared.mem.accounts.Exact S3Entry.size
  keyed : Keyed x.shared
  opened : ∀ n th v, x.threads.lookup n = some th → th.track.window = some v →
    KeyState x.shared v.key v.entry v.object
  closed : ∀ k, (∀ n th v, x.threads.lookup n = some th → th.track.window = some v → v.key ≠ k) →
    Closed x.shared k
  exclusive : ∀ n th v, x.threads.lookup n = some th → th.track.window = some v → Alone x n v.key

variable {idOf : PubKey → IdentityID} {x : S3Pool} {n : ℕ} {p p' : ObjProg Result} {t t' : S3Track}
variable {w : World}

theorem window_of_insert {v : Window} {m : ℕ} {th : Thread ObjOp ObjAns Result S3Track}
    (hm : (x.threads.insert n ⟨p', t'⟩).lookup m = some th) (hv : th.track.window = some v) :
    (m = n ∧ t'.window = some v) ∨ (m ≠ n ∧ x.threads.lookup m = some th) := by
  rw [lookup_insert_eq] at hm
  split at hm
  next heq =>
    cases hm
    exact .inl ⟨heq, hv⟩
  next hne => exact .inr ⟨hne, hm⟩

/-- A step that changes neither the store nor the window. -/
theorem Accounted.keep (h : Accounted x) (hth : x.threads.lookup n = some ⟨p, t⟩)
    (hwindow : t'.window = t.window) : Accounted ⟨x.shared, x.threads.insert n ⟨p', t'⟩⟩ := by
  have hback : ∀ m th v, (x.threads.insert n ⟨p', t'⟩).lookup m = some th →
      th.track.window = some v → ∃ th', x.threads.lookup m = some th' ∧ th'.track.window = some v := by
    intro m th v hm hv
    rcases window_of_insert hm hv with ⟨rfl, hv'⟩ | ⟨-, hm'⟩
    · exact ⟨_, hth, hwindow ▸ hv'⟩
    · exact ⟨th, hm', hv⟩
  refine ⟨h.exact, h.keyed, fun m th v hm hv => ?_, fun k hk => ?_, fun m th v hm hv => ?_⟩
  · obtain ⟨th', hm', hv'⟩ := hback m th v hm hv
    exact h.opened m th' v hm' hv'
  · refine h.closed k fun m th v hm hv => ?_
    by_cases heq : m = n
    · subst heq
      rw [hth] at hm
      cases hm
      exact hk m _ v (AList.lookup_insert _) (hwindow.trans hv)
    · exact hk m th v (by rw [lookup_insert_eq, if_neg heq, hm]) hv
  · obtain ⟨th', hm', hv'⟩ := hback m th v hm hv
    intro m₁ th₁ v₁ hne hm₁ hv₁
    obtain ⟨th₁', hm₁', hv₁'⟩ := hback m₁ th₁ v₁ hm₁ hv₁
    exact h.exclusive m th' v hm' hv' m₁ th₁' v₁ hne hm₁' hv₁'

/-- A window opens on a key on which no other is open. -/
theorem Accounted.open (h : Accounted x) (hth : x.threads.lookup n = some ⟨p, t⟩)
    (hnone : t.window = none) {v : Window} (hwindow : t'.window = some v) (halone : Alone x n v.key)
    (hstate : KeyState x.shared v.key v.entry v.object) :
    Accounted ⟨x.shared, x.threads.insert n ⟨p', t'⟩⟩ := by
  refine ⟨h.exact, h.keyed, fun m th v' hm hv => ?_, fun k hk => ?_, fun m th v' hm hv => ?_⟩
  · rcases window_of_insert hm hv with ⟨-, hv'⟩ | ⟨-, hm'⟩
    · rw [hwindow] at hv'
      cases hv'
      exact hstate
    · exact h.opened m th v' hm' hv
  · refine h.closed k fun m th v' hm hv => ?_
    by_cases heq : m = n
    · subst heq
      rw [hth] at hm
      cases hm
      rw [hnone] at hv
      cases hv
    · exact hk m th v' (by rw [lookup_insert_eq, if_neg heq, hm]) hv
  · intro m₁ th₁ v₁ hne hm₁ hv₁
    rcases window_of_insert hm hv with ⟨rfl, hv'⟩ | ⟨hmn, hm'⟩
    · rw [hwindow] at hv'
      cases hv'
      rcases window_of_insert hm₁ hv₁ with ⟨rfl, -⟩ | ⟨-, hm₁'⟩
      · exact absurd rfl hne
      · exact halone m₁ th₁ v₁ hne hm₁' hv₁
    · rcases window_of_insert hm₁ hv₁ with ⟨rfl, hv₁'⟩ | ⟨-, hm₁'⟩
      · rw [hwindow] at hv₁'
        cases hv₁'
        exact fun heq => halone m th v' hmn hm' hv heq.symm
      · exact h.exclusive m th v' hm' hv m₁ th₁ v₁ hne hm₁' hv₁

/-- A step of an open window: it stays open on its key or closes, and the other
keys are as they were. -/
theorem Accounted.move (h : Accounted x) (hth : x.threads.lookup n = some ⟨p, t⟩) {v : Window}
    (hwindow : t.window = some v) (hexact : w.mem.accounts.Exact S3Entry.size) (hkeyed : Keyed w)
    (hother : ∀ k entry object, k ≠ v.key → KeyState x.shared k entry object →
      KeyState w k entry object)
    (hnext : match t'.window with
      | some v' => v'.key = v.key ∧ KeyState w v.key v'.entry v'.object
      | none => Closed w v.key) : Accounted ⟨w, x.threads.insert n ⟨p', t'⟩⟩ := by
  have halone := h.exclusive n _ v hth hwindow
  refine ⟨hexact, hkeyed, fun m th v' hm hv => ?_, fun k hk => ?_, fun m th v' hm hv => ?_⟩
  · rcases window_of_insert hm hv with ⟨-, hv'⟩ | ⟨hmn, hm'⟩
    · rw [hv'] at hnext
      rw [hnext.1]
      exact hnext.2
    · exact hother _ _ _ (halone m th v' hmn hm' hv) (h.opened m th v' hm' hv)
  · by_cases hkey : k = v.key
    · subst hkey
      cases hv' : t'.window with
      | none =>
          rw [hv'] at hnext
          exact hnext
      | some v' =>
          rw [hv'] at hnext
          exact absurd hnext.1 (hk n _ v' (AList.lookup_insert _) hv')
    · have hclosed : Closed x.shared k := by
        refine h.closed k fun m th v' hm hv => ?_
        by_cases heq : m = n
        · subst heq
          rw [hth] at hm
          cases hm
          rw [hwindow] at hv
          cases hv
          exact Ne.symm hkey
        · exact hk m th v' (by rw [lookup_insert_eq, if_neg heq, hm]) hv
      have hstate := hother k _ _ hkey hclosed
      rw [Closed, hstate.entry]
      exact hstate
  · intro m₁ th₁ v₁ hne hm₁ hv₁
    have hkeyOf : ∀ m th v', (x.threads.insert n ⟨p', t'⟩).lookup m = some th →
        th.track.window = some v' →
        ∃ th' v'', x.threads.lookup m = some th' ∧ th'.track.window = some v'' ∧ v''.key = v'.key := by
      intro m th v' hm hv
      rcases window_of_insert hm hv with ⟨rfl, hv'⟩ | ⟨-, hm'⟩
      · rw [hv'] at hnext
        exact ⟨_, v, hth, hwindow, hnext.1.symm⟩
      · exact ⟨th, v', hm', hv, rfl⟩
    obtain ⟨th', v'', hm', hv'', hkey⟩ := hkeyOf m th v' hm hv
    obtain ⟨th₁', v₁'', hm₁', hv₁'', hkey₁⟩ := hkeyOf m₁ th₁ v₁ hm₁ hv₁
    rw [← hkey, ← hkey₁]
    exact h.exclusive m th' v'' hm' hv'' m₁ th₁' v₁'' hne hm₁' hv₁''

/-- A request starts with no window. -/
theorem Accounted.launch (h : Accounted x) (hfree : x.threads.lookup n = none)
    (hnone : t'.window = none) : Accounted { x with threads := x.threads.insert n ⟨p', t'⟩ } := by
  have hback : ∀ m th v, (x.threads.insert n ⟨p', t'⟩).lookup m = some th →
      th.track.window = some v → x.threads.lookup m = some th := by
    intro m th v hm hv
    rcases window_of_insert hm hv with ⟨-, hv'⟩ | ⟨-, hm'⟩
    · rw [hnone] at hv'
      cases hv'
    · exact hm'
  refine ⟨h.exact, h.keyed, fun m th v hm hv => h.opened m th v (hback m th v hm hv) hv,
    fun k hk => ?_, fun m th v hm hv m₁ th₁ v₁ hne hm₁ hv₁ => ?_⟩
  · refine h.closed k fun m th v hm hv => hk m th v ?_ hv
    rw [lookup_insert_eq, if_neg]
    · exact hm
    · rintro rfl
      rw [hfree] at hm
      cases hm
  · exact h.exclusive m th v (hback m th v hm hv) hv m₁ th₁ v₁ hne (hback m₁ th₁ v₁ hm₁ hv₁) hv₁

/-- Every operation keeps the accounts exact. -/
theorem Accounted.op (h : Accounted x) {o : ObjOp} {next : ObjAns o → ObjProg Result}
    {ans : ObjAns o} (hth : x.threads.lookup n = some ⟨.call o next, t⟩) (hguard : Guard idOf t o)
    (hserves : Serves x.shared o ans w) (hexclusive : Exclusive x (.op n o ans)) :
    Accounted ⟨w, x.threads.insert n ⟨next ans, observe t o ans⟩⟩ := by
  cases hserves with
  | part hpart hlands =>
      cases hpart with
      | check _ id bid size _ _ =>
          obtain ⟨hwindow, -⟩ := hguard
          cases hcheck : x.shared.mem.accounts.check id bid size _ _ with
          | error e => exact h.keep hth rfl
          | ok =>
              rw [hcheck] at hexclusive
              have hentry : entryAt x.shared (id, bid) = none := (Accounts.check_eq_ok hcheck).1
              have hclosed : Closed x.shared (id, bid) := by
                refine h.closed _ fun m th v hm hv => ?_
                by_cases heq : m = n
                · subst heq
                  rw [hth] at hm
                  cases hm
                  rw [hwindow] at hv
                  cases hv
                · exact hexclusive m th v heq hm hv
              rw [Closed, hentry] at hclosed
              exact h.open hth hwindow rfl hexclusive hclosed
      | putObject _ key body =>
          obtain ⟨-, k, r, -, -, rfl, -, hwindow⟩ := hguard
          have hstate := h.opened n _ _ hth hwindow
          refine h.move hth hwindow h.exact h.keyed
            (fun k' _ _ hne hk' => hk'.insert_other hne _ _) ?_
          rw [observe, S3Track.setObject, hwindow]
          exact ⟨rfl, hstate.insert r.expiresAt body⟩
      | putFailed | putLost => cases hlands
      | indexAdd _ id bid e =>
          obtain ⟨-, r, ⟨hkey, -⟩, -, rfl, hwindow⟩ := hguard
          have hstate := h.opened n _ _ hth hwindow
          have hadd : ∀ k', entryAt _ k' = _ :=
            fun k' => entryAt_add x.shared (id, bid) k' (entryOf idOf r)
          have hnew := (hadd (id, bid)).trans (if_pos rfl)
          refine h.move hth hwindow (h.exact.add hstate.entry) (fun k' e he => ?_)
            (fun k' _ _ hne hk' => hk'.of_index ?_ rfl) ?_
          · rw [hadd] at he
            split at he
            next heq =>
              cases he
              exact ⟨r.expiresAt, by rw [heq, hkey]; rfl⟩
            next => exact h.keyed k' e he
          · rw [hadd, if_neg hne]
            exact hk'.entry
          · change Closed _ _
            rw [Closed, hnew]
            exact hstate.of_index hnew rfl
  | readEntry _ id bid =>
      cases hentry : x.shared.mem.accounts.entry id bid with
      | none =>
          refine h.keep hth ?_
          change (t.reads (id, bid) none).window = t.window
          rw [S3Track.reads]
          split <;> rfl
      | some e =>
          by_cases hmem : (id, bid) ∈ t.pending
          · rw [hentry] at hexclusive
            have halone : Alone x n (id, bid) := hexclusive _ hth hmem
            have hclosed : Closed x.shared (id, bid) := by
              refine h.closed _ fun m th v hm hv => ?_
              by_cases heq : m = n
              · subst heq
                rw [hth] at hm
                cases hm
                rw [hguard.1] at hv
                cases hv
              · exact halone m th v heq hm hv
            have hsome : entryAt x.shared (id, bid) = some e := hentry
            rw [Closed, hsome] at hclosed
            refine h.open hth hguard.1 (v := ⟨(id, bid), some e, some e.key⟩) ?_ halone hclosed
            change (t.reads (id, bid) (some e)).window = _
            rw [S3Track.reads, if_pos hmem]
          · refine h.keep hth ?_
            change (t.reads (id, bid) (some e)).window = t.window
            rw [S3Track.reads, if_neg hmem]
            split
            next => rfl
            next => split <;> rfl
  | getObject _ key range =>
      refine h.keep hth ?_
      cases (x.shared.bucket.lookup key).map fun body => sliceOf body range with
      | some body => rfl
      | none =>
          change t.misses.window = t.window
          rw [S3Track.misses]
          split <;> rfl
  | deleteObject _ key =>
      obtain ⟨k, e, -, rfl, hwindow⟩ := hguard
      have hstate := h.opened n _ _ hth hwindow
      obtain ⟨expiresAt, hkey⟩ := h.keyed k e hstate.entry
      dsimp only at hstate
      rw [hkey] at hstate ⊢
      refine h.move hth hwindow h.exact h.keyed (fun k' _ _ hne hk' => hk'.erase_other hne _) ?_
      rw [observe, S3Track.setObject, hwindow]
      exact ⟨rfl, hstate.erase⟩
  | indexDrop _ id bid size =>
      obtain ⟨-, e, rfl, hwindow⟩ := hguard
      have hstate := h.opened n _ _ hth hwindow
      have hdrop : ∀ k', entryAt _ k' = _ := fun k' => entryAt_drop x.shared (id, bid) k' e.size
      have hgone := (hdrop (id, bid)).trans (if_pos rfl)
      refine h.move hth hwindow (h.exact.drop hstate.entry) (fun k' e' he => ?_)
        (fun k' _ _ hne hk' => hk'.of_index ?_ rfl) ?_
      · rw [hdrop] at he
        split at he
        next => cases he
        next => exact h.keyed k' e' he
      · rw [hdrop, if_neg hne]
        exact hk'.entry
      · change Closed _ _
        rw [Closed, hgone]
        exact hstate.of_index hgone rfl
  | expired => exact h.keep hth rfl

end Invariant

/-- Once all requests have returned, the counters are the sums over the index,
every index entry has its object and no key a second one, in every run in which
no two requests are between their sections on one key. -/
theorem s3_accounts_exact (idOf : PubKey → IdentityID) (maxPayload : ℤ) (w : World)
    (es : List S3Event) (y : S3Pool) (hw : Consistent w)
    (hrun : ReqRuns (program idOf maxPayload) (track idOf) observe Serves Exclusive ⟨w, ∅⟩ es y)
    (hdone : ∀ n th, y.threads.lookup n = some th → ∃ res, th.left = .ret res) :
    Consistent y.shared := by
  have hstart : ∀ (s : World) t p, Starts (program idOf maxPayload) (track idOf) s t p →
      Holds (Observes observe) (Guard idOf) Returns p t := by
    rintro s t p ⟨q, rfl, rfl⟩
    exact program_guarantees q
  have hinit : Accounted ⟨w, ∅⟩ :=
    ⟨hw.exact, hw.keyed, fun _ _ _ hth => by simp at hth, fun k _ => hw.closed k,
      fun _ _ _ hth => by simp at hth⟩
  have hboth := invariant hstart (fun x n t p hx hfree hp _ => ?_)
    (fun x n t o next ans s' hx hth hguard hserves hC => hx.op hth hguard hserves hC) hrun
    (guarantees_empty w) hinit
  · obtain ⟨hguar, haccounted⟩ := hboth
    refine consistent_of_closed haccounted.exact haccounted.keyed fun k => ?_
    refine haccounted.closed k fun n th v hth hv => ?_
    obtain ⟨res, hres⟩ := hdone n th hth
    have hreturns := hguar n th hth
    rw [hres] at hreturns
    rw [hreturns.1] at hv
    cases hv
  · obtain ⟨q, rfl, rfl⟩ := hp
    exact hx.launch hfree rfl

section Examples

def emptyWorld : World := ⟨⟨64, Accounts.empty⟩, ∅⟩

theorem consistent_emptyWorld : Consistent emptyWorld where
  exact := Accounts.exact_empty
  keyed := fun _ _ he => nomatch he
  backed := fun _ _ he => nomatch he
  only := fun _ _ hobject => by simp [hasObject, emptyWorld] at hobject

/-- A record of the all-zero identity with an expiry of its own. -/
def expiring (expiresAt : Int64) : Record := { zeroRecord [] with expiresAt := expiresAt }

def zeroId : IdentityID := zeroDigest zeroKey

/-- The check of a put, and the rest of it. -/
def checked (n : ℕ) (r : Record) : S3Event :=
  .op n (.part (.check zeroId r.id r.size 400 1000)) (.ok ())

def storedEvents (n : ℕ) (r : Record) : List S3Event :=
  [.op n (.part (.putObject (s3Key zeroId r) (marshal r))) (.ok ()),
    .op n (.part (.indexAdd zeroId r.id (entryOf zeroDigest r))) ()]

def putStart (n : ℕ) (r : Record) : S3Event := .start n (track zeroDigest (.put r 400 1000))

theorem serves_check {w : World} {id : IdentityID} {bid : BlobID}
    {size identityCap totalCap : ℤ}
    (h : w.mem.accounts.check id bid size identityCap totalCap = .ok ()) :
    Serves w (.part (.check id bid size identityCap totalCap)) (.ok ()) w := by
  have hserves := S3Store.Serves.check w id bid size identityCap totalCap
  rw [h] at hserves
  exact .part hserves trivial

theorem s3_accounts_exact_put :
    ∃ y : S3Pool, (y.shared.mem.accounts.usageID zeroId).count = 1 ∧ Consistent y.shared := by
  have hrun : ∃ y : S3Pool, ReqRuns (program zeroDigest 64) (track zeroDigest) observe Serves
      Exclusive ⟨emptyWorld, ∅⟩
      (putStart 1 (expiring 1) :: checked 1 (expiring 1) :: storedEvents 1 (expiring 1)) y ∧
      (y.shared.mem.accounts.usageID zeroId).count = 1 ∧
      ∀ n th, y.threads.lookup n = some th → ∃ res, th.left = .ret res := by
    refine ⟨_,
      .cons ⟨.start rfl ⟨.put (expiring 1) 400 1000, rfl, rfl⟩, trivial⟩ <|
      .cons ⟨.op rfl (serves_check (by decide)), fun m th v hne hm => ?_⟩ <|
      .cons ⟨.op rfl (.part (.putObject _ _ _) rfl), trivial⟩ <|
      .cons ⟨.op rfl (.part (.indexAdd _ _ _ _) trivial), trivial⟩ <| .nil _, by decide, ?_⟩
    · rw [lookup_insert_eq, if_neg hne] at hm
      cases hm
    · intro n th hth
      by_cases hn : n = 1
      · subst hn
        rw [AList.lookup_insert] at hth
        cases hth
        exact ⟨_, rfl⟩
      · simp only [lookup_insert_eq, hn, if_false, AList.lookup_empty, reduceCtorEq] at hth
  obtain ⟨y, hruns, hcount, hdone⟩ := hrun
  exact ⟨y, hcount, s3_accounts_exact zeroDigest 64 _ _ y consistent_emptyWorld hruns hdone⟩

/-- Two puts of one id that pass their checks together are counted twice and
leave an object that no entry names. -/
theorem s3_accounts_count_twice :
    ∃ (es : List S3Event) (y : S3Pool), Consistent emptyWorld ∧
      ReqRuns (program zeroDigest 64) (track zeroDigest) observe Serves (fun _ _ => True)
        ⟨emptyWorld, ∅⟩ es y ∧
      (∀ n th, y.threads.lookup n = some th → ∃ res, th.left = .ret res) ∧
      ¬ Consistent y.shared := by
  have hrun : ∃ y : S3Pool, ReqRuns (program zeroDigest 64) (track zeroDigest) observe Serves
      (fun _ _ => True) ⟨emptyWorld, ∅⟩
      (putStart 1 (expiring 1) :: putStart 2 (expiring 2) :: checked 1 (expiring 1) ::
        checked 2 (expiring 2) :: (storedEvents 1 (expiring 1) ++ storedEvents 2 (expiring 2))) y ∧
      (y.shared.mem.accounts.usageID zeroId).count = 2 ∧
      (total (y.shared.mem.accounts.inner zeroId) fun _ _ => 1) = 1 ∧
      ∀ n th, y.threads.lookup n = some th → ∃ res, th.left = .ret res := by
    refine ⟨_,
      .cons ⟨.start rfl ⟨.put (expiring 1) 400 1000, rfl, rfl⟩, trivial⟩ <|
      .cons ⟨.start rfl ⟨.put (expiring 2) 400 1000, rfl, rfl⟩, trivial⟩ <|
      .cons ⟨.op rfl (serves_check (by decide)), trivial⟩ <|
      .cons ⟨.op rfl (serves_check (by decide)), trivial⟩ <|
      .cons ⟨.op rfl (.part (.putObject _ _ _) rfl), trivial⟩ <|
      .cons ⟨.op rfl (.part (.indexAdd _ _ _ _) trivial), trivial⟩ <|
      .cons ⟨.op rfl (.part (.putObject _ _ _) rfl), trivial⟩ <|
      .cons ⟨.op rfl (.part (.indexAdd _ _ _ _) trivial), trivial⟩ <| .nil _,
      by decide, by decide, ?_⟩
    intro n th hth
    by_cases hn : n = 2
    · subst hn
      rw [AList.lookup_insert] at hth
      cases hth
      exact ⟨_, rfl⟩
    · by_cases hn' : n = 1
      · subst hn'
        simp only [lookup_insert_eq, hn, if_false, if_true, Option.some.injEq] at hth
        exact ⟨_, by rw [← hth]; rfl⟩
      · simp only [lookup_insert_eq, hn, hn', if_false, AList.lookup_empty, reduceCtorEq] at hth
  obtain ⟨y, hruns, hcount, hsum, hdone⟩ := hrun
  refine ⟨_, y, consistent_emptyWorld, hruns, hdone, fun h => ?_⟩
  have husage := congrArg Usage.count (h.exact.usage zeroId)
  rw [hcount, hsum] at husage
  cases husage

end Examples

end Tactile.Relay.S3Accounts

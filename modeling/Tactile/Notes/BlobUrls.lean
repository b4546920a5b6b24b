import Tactile.Lib.FiniteMap
import Tactile.Lib.Transition
import Tactile.Notes.Links

/-!
The cache of object URLs for attachments, which counts the references to its entries, and
when a URL that a view shows is revoked.
-/

namespace Tactile.Notes.BlobUrls

open Tactile.Lib.CodeUnits Tactile.Lib.FiniteMap Tactile.Lib.Transition
open Tactile.Notes.Links (upperAscii)

inductive Url
  | pending
  | created
  | failed
  deriving DecidableEq

/-- An entry, with the revocations that wait for its URL, whether one was done, and whether
the failure of its promise was handled. -/
structure CacheEntry where
  path : JsString
  refs : ℤ
  url : Url
  waiting : ℕ
  revoked : Bool
  handled : Bool
  deriving DecidableEq

/-- An acquire, with what happened since: its release, or a clear. -/
structure Handle where
  src : JsString
  entry : Option ℕ
  released : Bool
  cleared : Bool
  deriving DecidableEq

structure State where
  collection : JsString
  entries : List CacheEntry
  urlCache : Dict JsString ℕ
  handles : List Handle

def initial : State := ⟨[], [], ∅, []⟩

/-- `/^(https?:|data:|blob:|mailto:)/i` -/
def isExternalSrc (src : JsString) : Bool :=
  ["HTTP:", "HTTPS:", "DATA:", "BLOB:", "MAILTO:"].any fun scheme =>
    (js scheme.toList).isPrefixOf (src.map upperAscii)

def State.pathOf (s : State) (src : JsString) : JsString := s.collection ++ unit '/' :: src

namespace CacheEntry

def addRef (x : CacheEntry) : CacheEntry := { x with refs := x.refs + 1 }

def dropRef (x : CacheEntry) : CacheEntry := { x with refs := x.refs - 1 }

/-- Revokes the URL once it is there. -/
def revokeLater (x : CacheEntry) : CacheEntry := { x with waiting := x.waiting + 1 }

end CacheEntry

/-- The entry at a path, a new one where there is none. -/
def State.entryAt (s : State) (path : JsString) : ℕ × State :=
  match s.urlCache.lookup path with
  | some e => (e, s)
  | none =>
    (s.entries.length,
      { s with
        entries := s.entries ++ [⟨path, 0, .pending, 0, false, false⟩]
        urlCache := s.urlCache.insert path s.entries.length })

def acquireAttachmentUrl (src : JsString) (s : State) : State :=
  if isExternalSrc src then { s with handles := s.handles ++ [⟨src, none, false, false⟩] }
  else
    let found := s.entryAt (s.pathOf src)
    { found.2 with
      entries := found.2.entries.modify found.1 CacheEntry.addRef
      handles := s.handles ++ [⟨src, some found.1, false, false⟩] }

def releaseAttachmentUrl (src : JsString) (s : State) : State :=
  if isExternalSrc src then s
  else
    -- the entry is looked up by the collection of now, which may not be that of the acquire
    match s.urlCache.lookup (s.pathOf src) with
    | none => s
    | some e =>
      let dropped := s.entries.modify e CacheEntry.dropRef
      if (dropped[e]?.map CacheEntry.refs).any fun refs => 0 < refs then
        { s with entries := dropped }
      else
        { s with
          entries := dropped.modify e CacheEntry.revokeLater
          urlCache := s.urlCache.erase (s.pathOf src) }

def clearAttachmentCache (s : State) : State :=
  { s with
    entries := (values s.urlCache).foldl (fun es e => es.modify e CacheEntry.revokeLater) s.entries
    urlCache := ∅ }

/-- What happens: the calls of views, of which a release is that of an acquire, another
collection, and what becomes of promises and of the handlers that wait for them. -/
inductive Event
  | acquire (src : JsString)
  | release (h : ℕ)
  | clear
  | switch (collection : JsString)
  | settle (e : ℕ) (created : Bool)
  | caught (e : ℕ)
  | revoke (e : ℕ)
  deriving DecidableEq

def Handle.release (a : Handle) : Handle := { a with released := true }

def Handle.clear (a : Handle) : Handle := { a with cleared := true }

def CacheEntry.settle (created : Bool) (x : CacheEntry) : CacheEntry :=
  { x with url := if created then .created else .failed }

def CacheEntry.handle (x : CacheEntry) : CacheEntry := { x with handled := true }

def CacheEntry.revoke (x : CacheEntry) : CacheEntry :=
  { x with waiting := x.waiting - 1, revoked := true }

/-- The next state, where the event can happen. -/
def next (s : State) : Event → Option State
  | .acquire src => some (acquireAttachmentUrl src s)
  | .release h =>
    match s.handles[h]? with
    | some a =>
      if a.released then none
      else
        let after := releaseAttachmentUrl a.src s
        some { after with handles := after.handles.modify h Handle.release }
    | none => none
  | .clear =>
    let after := clearAttachmentCache s
    some { after with handles := after.handles.map Handle.clear }
  | .switch collection => some { s with collection := collection }
  | .settle e created =>
    match s.entries[e]? with
    | some x =>
      if x.url = .pending then
        some { s with entries := s.entries.modify e (CacheEntry.settle created) }
      else none
    | none => none
  | .caught e =>
    match s.entries[e]? with
    | some x =>
      if x.url = .failed ∧ !x.handled then
        some { s with
          entries := s.entries.modify e CacheEntry.handle
          urlCache := s.urlCache.erase x.path }
      else none
    | none => none
  | .revoke e =>
    match s.entries[e]? with
    | some x =>
      if x.url = .created ∧ 0 < x.waiting then
        some { s with entries := s.entries.modify e CacheEntry.revoke }
      else none
    | none => none

def step (s : State) (ev : Event) (s' : State) : Prop := next s ev = some s'

/-- No URL is revoked that an acquire has been given, unless it was released or there was a
clear since. -/
def Shown (s : State) : Prop :=
  ∀ a ∈ s.handles, ∀ e, a.entry = some e → ∀ x ∈ s.entries[e]?, x.revoked = true →
    a.released = true ∨ a.cleared = true

/-- Once every acquire is released, every URL is revoked or a revocation waits. -/
def Freed (s : State) : Prop :=
  (∀ a ∈ s.handles, a.released = true) →
    ∀ x ∈ s.entries, x.url = .created → x.waiting = 0 → x.revoked = true

def State.cached (s : State) (e : ℕ) : Bool :=
  match s.entries[e]? with
  | some x => s.urlCache.lookup x.path == some e
  | none => false

/-- A release finds the entry of its acquire, or none where that is not in the cache, and the
handler of a failure finds its own entry or none. -/
def proper (s : State) : Event → Bool
  | .release h =>
    match s.handles[h]? with
    | some a =>
      match a.entry with
      | some e => s.urlCache.lookup (s.pathOf a.src) == if s.cached e then some e else none
      | none => true
    | none => true
  | .caught e =>
    match s.entries[e]? with
    | some x => s.urlCache.lookup x.path == some e || s.urlCache.lookup x.path == none
    | none => true
  | _ => true

section Invariant

variable {s : State} {fresh : Option ℕ} {e : ℕ} {x : CacheEntry} {path : JsString}

/-- The acquires of an entry that are not released. -/
def holders (handles : List Handle) (e : ℕ) : ℕ :=
  handles.countP fun a => a.entry == some e && !a.released

/-- An entry in the cache counts its holders, of which there are some unless it is the fresh
one, and nothing revokes its URL. -/
structure Live (s : State) (fresh : Option ℕ) (path : JsString) (e : ℕ) (x : CacheEntry) : Prop where
  path : x.path = path
  refs : x.refs = holders s.handles e
  held : 0 < holders s.handles e ∨ fresh = some e
  kept : x.waiting = 0 ∧ x.revoked = false

structure Inv (s : State) (fresh : Option ℕ) : Prop where
  live : ∀ path e, s.urlCache.lookup path = some e →
    ∃ x, s.entries[e]? = some x ∧ Live s fresh path e x
  gone : ∀ e x, s.entries[e]? = some x → s.urlCache.lookup x.path ≠ some e →
    x.url = .failed ∨ 0 < x.waiting ∨ x.revoked = true
  lost : ∀ e x, s.entries[e]? = some x → 0 < x.waiting ∨ x.revoked = true →
    ∀ a ∈ s.handles, a.entry = some e → a.released = true ∨ a.cleared = true
  bound : ∀ a ∈ s.handles, ∀ e, a.entry = some e → e < s.entries.length
  external : ∀ a ∈ s.handles, a.entry = none ↔ isExternalSrc a.src = true

theorem inv_initial : Inv initial none where
  live path e h := by
    rw [initial, AList.lookup_empty] at h
    cases h
  gone e x h := by cases h
  lost e x h := by cases h
  bound a h := by cases h
  external a h := by cases h

theorem holders_append (handles : List Handle) (a : Handle) (e : ℕ) :
    holders (handles ++ [a]) e =
      holders handles e + if a.entry = some e ∧ a.released = false then 1 else 0 := by
  rw [holders, List.countP_append, List.countP_singleton]
  simp [holders]

theorem holders_eq_zero {handles : List Handle} :
    holders handles e = 0 ↔ ∀ a ∈ handles, a.entry = some e → a.released = true := by
  rw [holders, List.countP_eq_zero]
  simp

theorem holders_release {handles : List Handle} {h : ℕ} {a : Handle} (ha : handles[h]? = some a)
    (hheld : a.released = false) (e : ℕ) :
    holders handles e =
      holders (handles.modify h Handle.release) e + if a.entry = some e then 1 else 0 := by
  obtain ⟨hlt, hget⟩ := List.getElem?_eq_some_iff.mp ha
  obtain ⟨pre, b, post, hsplit, hlen, hmodify⟩ := List.exists_of_modify Handle.release hlt
  have hb : b = a := by
    rw [← hget]
    simp only [hsplit, ← hlen, List.getElem_append_right (le_refl _), Nat.sub_self,
      List.getElem_cons_zero]
  subst hb
  rw [hmodify, hsplit, holders, holders]
  simp only [List.countP_append, List.countP_cons, Handle.release, hheld]
  simp
  omega

theorem mem_modify_release {handles : List Handle} {h : ℕ} {a : Handle}
    (ha : a ∈ handles.modify h Handle.release) :
    a ∈ handles ∨ ∃ b ∈ handles, a = b.release := by
  obtain ⟨i, hi⟩ := List.getElem?_of_mem ha
  rw [List.getElem?_modify] at hi
  obtain ⟨b, hb, rfl⟩ := Option.map_eq_some_iff.mp hi
  split
  · exact .inr ⟨b, List.mem_of_getElem? hb, rfl⟩
  · exact .inl (List.mem_of_getElem? hb)

theorem of_getElem?_modify {entries : List CacheEntry} {f : CacheEntry → CacheEntry} {e' : ℕ}
    (h : (entries.modify e f)[e']? = some x) :
    ∃ y, entries[e']? = some y ∧ x = if e = e' then f y else y := by
  rw [List.getElem?_modify] at h
  obtain ⟨y, hy, rfl⟩ := Option.map_eq_some_iff.mp h
  exact ⟨y, hy, by split <;> rfl⟩

theorem of_getElem?_concat {entries : List CacheEntry} {y : CacheEntry}
    (h : (entries ++ [y])[e]? = some x) :
    entries[e]? = some x ∨ e = entries.length ∧ x = y := by
  rcases Nat.lt_trichotomy e entries.length with hlt | rfl | hlt
  · rw [List.getElem?_append_left hlt] at h
    exact .inl h
  · rw [List.getElem?_concat_length] at h
    exact .inr ⟨rfl, (Option.some.inj h).symm⟩
  · have hbound := (List.getElem?_eq_some_iff.mp h).1
    rw [List.length_append, List.length_singleton] at hbound
    omega

theorem getElem?_modify_self {entries : List CacheEntry} (f : CacheEntry → CacheEntry)
    (h : entries[e]? = some x) : (entries.modify e f)[e]? = some (f x) := by
  rw [List.getElem?_modify, h]
  simp

theorem getElem?_modify_ne {entries : List CacheEntry} (f : CacheEntry → CacheEntry) {e' : ℕ}
    (hne : e ≠ e') : (entries.modify e f)[e']? = entries[e']? := by
  rw [List.getElem?_modify]
  simp [hne]

/-- An entry is in the cache at most once. -/
theorem Inv.path_eq (h : Inv s fresh) {path' : JsString} (hpath : s.urlCache.lookup path = some e)
    (hpath' : s.urlCache.lookup path' = some e) : path = path' := by
  obtain ⟨x, hx, hlive⟩ := h.live path e hpath
  obtain ⟨y, hy, hlive'⟩ := h.live path' e hpath'
  rw [hx] at hy
  cases hy
  exact hlive.path.symm.trans hlive'.path

/-- An acquire that is logged for an entry, or for none, which is then fresh no more. -/
theorem Inv.bound_append (h : Inv s fresh) {a : Handle} (ha : ∀ e, a.entry = some e → e < s.entries.length) :
    ∀ b ∈ s.handles ++ [a], ∀ e, b.entry = some e → e < s.entries.length := by
  intro b hb e hentry
  rcases List.mem_append.mp hb with hb | hb
  · exact h.bound b hb e hentry
  · exact ha e (List.mem_singleton.mp hb ▸ hentry)

theorem Inv.external_append (h : Inv s fresh) {a : Handle}
    (ha : a.entry = none ↔ isExternalSrc a.src = true) :
    ∀ b ∈ s.handles ++ [a], b.entry = none ↔ isExternalSrc b.src = true := by
  intro b hb
  rcases List.mem_append.mp hb with hb | hb
  · exact h.external b hb
  · rw [List.mem_singleton.mp hb]
    exact ha

theorem inv_acquire_external {src : JsString} (h : Inv s none) (hsrc : isExternalSrc src = true) :
    Inv { s with handles := s.handles ++ [⟨src, none, false, false⟩] } none where
  live path e hpath := by
    obtain ⟨x, hx, hlive⟩ := h.live path e hpath
    have hsame : holders (s.handles ++ [⟨src, none, false, false⟩]) e = holders s.handles e := by
      simp [holders_append]
    exact ⟨x, hx, hlive.path, hsame ▸ hlive.refs, hsame ▸ hlive.held, hlive.kept⟩
  gone := h.gone
  lost e x hx hrevoked a ha hentry := by
    rcases List.mem_append.mp ha with ha | ha
    · exact h.lost e x hx hrevoked a ha hentry
    · cases List.mem_singleton.mp ha
      cases hentry
  bound := h.bound_append nofun
  external := h.external_append ⟨fun _ => hsrc, fun _ => rfl⟩

/-- The entry at a path is in the cache afterwards, where it may have no holder. -/
theorem inv_entryAt (h : Inv s none) (path : JsString) :
    Inv (s.entryAt path).2 (some (s.entryAt path).1) ∧
      (s.entryAt path).2.urlCache.lookup path = some (s.entryAt path).1 ∧
      (s.entryAt path).2.handles = s.handles ∧
      (s.entryAt path).2.collection = s.collection := by
  rw [State.entryAt]
  cases hfound : s.urlCache.lookup path with
  | some e =>
      refine ⟨⟨fun path' e' hpath => ?_, h.gone, h.lost, h.bound, h.external⟩, hfound, rfl, rfl⟩
      obtain ⟨x, hx, hlive⟩ := h.live path' e' hpath
      exact ⟨x, hx, hlive.path, hlive.refs, .inl (hlive.held.resolve_right nofun), hlive.kept⟩
  | none =>
      have hnew : ∀ a ∈ s.handles, a.entry ≠ some s.entries.length :=
        fun a ha hentry => absurd (h.bound a ha _ hentry) (lt_irrefl _)
      refine ⟨⟨?_, ?_, ?_, ?_, h.external⟩, by simp, rfl, rfl⟩
      · intro path' e hpath
        dsimp only at hpath ⊢
        rw [lookup_insert_eq] at hpath
        split at hpath
        next heq =>
          cases hpath
          have hnone : holders s.handles s.entries.length = 0 :=
            holders_eq_zero.mpr fun a ha hentry => absurd hentry (hnew a ha)
          -- nobody holds the new entry yet
          refine ⟨_, List.getElem?_concat_length .., heq.symm, ?_, .inr rfl, rfl, rfl⟩
          exact (congrArg Nat.cast hnone).symm
        next =>
          obtain ⟨x, hx, hlive⟩ := h.live path' e hpath
          have hlt := (List.getElem?_eq_some_iff.mp hx).1
          exact ⟨x, by rw [List.getElem?_append_left hlt, hx], hlive.path, hlive.refs,
            .inl (hlive.held.resolve_right nofun), hlive.kept⟩
      · intro e x hx hnot
        rcases of_getElem?_concat hx with hx | ⟨rfl, rfl⟩
        · refine h.gone e x hx fun hcached => hnot ?_
          dsimp only
          rw [lookup_insert_eq, if_neg, hcached]
          intro heq
          rw [heq, hfound] at hcached
          cases hcached
        · exact absurd (AList.lookup_insert ..) hnot
      · intro e x hx hrevoked
        rcases of_getElem?_concat hx with hx | ⟨rfl, rfl⟩
        · exact h.lost e x hx hrevoked
        · simp at hrevoked
      · intro a ha e hentry
        have hlt := h.bound a ha e hentry
        rw [List.length_append]
        omega

/-- An acquire of an entry that is in the cache. -/
theorem inv_addRef {src : JsString} (h : Inv s (some e)) (hpath : s.urlCache.lookup path = some e)
    (hsrc : isExternalSrc src = false) :
    Inv { s with
      entries := s.entries.modify e CacheEntry.addRef
      handles := s.handles ++ [⟨src, some e, false, false⟩] } none := by
  obtain ⟨x, hx, hlive⟩ := h.live path e hpath
  have hlt := (List.getElem?_eq_some_iff.mp hx).1
  have hself : holders (s.handles ++ [⟨src, some e, false, false⟩]) e = holders s.handles e + 1 := by
    simp [holders_append]
  have hother : ∀ e', e ≠ e' →
      holders (s.handles ++ [⟨src, some e, false, false⟩]) e' = holders s.handles e' := by
    intro e' hne
    simp [holders_append, hne]
  refine ⟨?_, ?_, ?_, ?_, h.external_append (by simp [hsrc])⟩
  · intro path' e' hpath'
    by_cases he : e = e'
    · subst he
      obtain rfl := h.path_eq hpath hpath'
      refine ⟨x.addRef, getElem?_modify_self _ hx, hlive.path, ?_, .inl ?_, hlive.kept⟩
      · show x.refs + 1 = _
        rw [hlive.refs]
        simp [hself]
      · show 0 < holders (s.handles ++ [⟨src, some e, false, false⟩]) e
        rw [hself]
        exact Nat.succ_pos _
    · obtain ⟨y, hy, hlive'⟩ := h.live path' e' hpath'
      refine ⟨y, (getElem?_modify_ne _ he).trans hy, hlive'.path, ?_, .inl ?_, hlive'.kept⟩
      · exact (hother e' he).symm ▸ hlive'.refs
      · have hheld := hlive'.held.resolve_right fun heq => he (Option.some.inj heq)
        exact (hother e' he).symm ▸ hheld
  · intro e' x' hx' hnot
    obtain ⟨y, hy, rfl⟩ := of_getElem?_modify hx'
    by_cases he : e = e'
    · rw [if_pos he] at hnot ⊢
      exact h.gone e' y hy hnot
    · rw [if_neg he] at hnot ⊢
      exact h.gone e' y hy hnot
  · intro e' x' hx' hrevoked a ha hentry
    obtain ⟨y, hy, rfl⟩ := of_getElem?_modify hx'
    by_cases he : e = e'
    · subst he
      rw [hx] at hy
      cases hy
      rw [if_pos rfl] at hrevoked
      obtain ⟨hwaiting, hkept⟩ := hlive.kept
      rcases hrevoked with hpos | hdone
      · exact absurd hpos (hwaiting.symm ▸ lt_irrefl 0)
      · exact absurd (hkept.symm.trans hdone) (by decide)
    · rw [if_neg he] at hrevoked
      rcases List.mem_append.mp ha with ha | ha
      · exact h.lost e' y hy hrevoked a ha hentry
      · cases List.mem_singleton.mp ha
        exact absurd (Option.some.inj hentry) he
  · intro b hb e' hentry
    show e' < (s.entries.modify e CacheEntry.addRef).length
    rw [List.length_modify]
    exact h.bound_append (fun e' (heq : some e = some e') => Option.some.inj heq ▸ hlt) b hb e' hentry

theorem inv_acquire (h : Inv s none) (src : JsString) : Inv (acquireAttachmentUrl src s) none := by
  rw [acquireAttachmentUrl]
  split
  next hsrc => exact inv_acquire_external h hsrc
  next hsrc =>
    obtain ⟨hfresh, hfound, hhandles, -⟩ := inv_entryAt h (s.pathOf src)
    have hadded := inv_addRef hfresh hfound (Bool.eq_false_of_not_eq_true hsrc)
    rw [hhandles] at hadded
    exact hadded

/-- Handles of which one is released. -/
theorem Inv.lost_release (h : Inv s fresh) {k : ℕ} (e : ℕ) (x : CacheEntry) (hx : s.entries[e]? = some x)
    (hrevoked : 0 < x.waiting ∨ x.revoked = true) :
    ∀ a ∈ s.handles.modify k Handle.release, a.entry = some e →
      a.released = true ∨ a.cleared = true := by
  intro a ha hentry
  rcases mem_modify_release ha with ha | ⟨b, hb, rfl⟩
  · exact h.lost e x hx hrevoked a ha hentry
  · exact .inl rfl

theorem Inv.bound_release (h : Inv s fresh) (k : ℕ) :
    ∀ a ∈ s.handles.modify k Handle.release, ∀ e, a.entry = some e → e < s.entries.length := by
  intro a ha e hentry
  rcases mem_modify_release ha with ha | ⟨b, hb, rfl⟩
  · exact h.bound a ha e hentry
  · exact h.bound b hb e hentry

theorem Inv.external_release (h : Inv s fresh) (k : ℕ) :
    ∀ a ∈ s.handles.modify k Handle.release, a.entry = none ↔ isExternalSrc a.src = true := by
  intro a ha
  rcases mem_modify_release ha with ha | ⟨b, hb, rfl⟩
  · exact h.external a ha
  · exact h.external b hb

theorem cached_of_lookup (hx : s.entries[e]? = some x) (hpath : s.urlCache.lookup x.path = some e) :
    s.cached e = true := by
  rw [State.cached, hx]
  exact beq_iff_eq.mpr hpath

/-- A release whose entry is not in the cache any more, or that has none. -/
theorem inv_release_none (h : Inv s none) {k : ℕ} {a : Handle} (ha : s.handles[k]? = some a)
    (hheld : a.released = false) (hgone : ∀ e, a.entry = some e → s.cached e = false) :
    Inv { s with handles := s.handles.modify k Handle.release } none where
  live path e hpath := by
    obtain ⟨x, hx, hlive⟩ := h.live path e hpath
    have hsame : holders s.handles e = holders (s.handles.modify k Handle.release) e := by
      rw [holders_release ha hheld e, if_neg, Nat.add_zero]
      intro hentry
      have hcached := cached_of_lookup hx (hlive.path.symm ▸ hpath)
      rw [hgone e hentry] at hcached
      cases hcached
    exact ⟨x, hx, hlive.path, hsame ▸ hlive.refs, hsame ▸ hlive.held, hlive.kept⟩
  gone := h.gone
  lost e x hx hrevoked := h.lost_release e x hx hrevoked
  bound := h.bound_release k
  external := h.external_release k

/-- A release of an entry that is in the cache, where others hold it. -/
theorem inv_release_shared (h : Inv s none) {k : ℕ} {a : Handle} (ha : s.handles[k]? = some a)
    (hheld : a.released = false) (hentry : a.entry = some e) (hothers : 1 < holders s.handles e) :
    Inv { s with
      entries := s.entries.modify e CacheEntry.dropRef
      handles := s.handles.modify k Handle.release } none where
  live path' e' hpath' := by
    obtain ⟨y, hy, hlive⟩ := h.live path' e' hpath'
    have hcount := holders_release ha hheld e'
    by_cases he : e = e'
    · subst he
      rw [if_pos hentry] at hcount
      refine ⟨y.dropRef, getElem?_modify_self _ hy, hlive.path, ?_, .inl ?_, hlive.kept⟩
      · show y.refs - 1 = _
        rw [hlive.refs, hcount]
        simp
      · show 0 < holders (s.handles.modify k Handle.release) e
        omega
    · rw [if_neg fun heq => he (Option.some.inj (hentry.symm.trans heq)), Nat.add_zero] at hcount
      exact ⟨y, (getElem?_modify_ne _ he).trans hy, hlive.path, hcount ▸ hlive.refs,
        hcount ▸ hlive.held, hlive.kept⟩
  gone e' x' hx' hnot := by
    obtain ⟨y, hy, rfl⟩ := of_getElem?_modify hx'
    by_cases he : e = e'
    · rw [if_pos he] at hnot ⊢
      exact h.gone e' y hy hnot
    · rw [if_neg he] at hnot ⊢
      exact h.gone e' y hy hnot
  lost e' x' hx' hrevoked := by
    obtain ⟨y, hy, rfl⟩ := of_getElem?_modify hx'
    refine h.lost_release e' y hy ?_
    by_cases he : e = e'
    · rw [if_pos he] at hrevoked
      exact hrevoked
    · rw [if_neg he] at hrevoked
      exact hrevoked
  bound b hb e' hentry' := by
    show e' < (s.entries.modify e CacheEntry.dropRef).length
    rw [List.length_modify]
    exact h.bound_release k b hb e' hentry'
  external := h.external_release k

/-- The last release of an entry takes it out of the cache, and revokes its URL. -/
theorem inv_release_last (h : Inv s none) {k : ℕ} {a : Handle} (ha : s.handles[k]? = some a)
    (hheld : a.released = false) (hentry : a.entry = some e) (hpath : s.urlCache.lookup path = some e)
    (hlast : holders s.handles e = 1) :
    Inv { s with
      entries := (s.entries.modify e CacheEntry.dropRef).modify e CacheEntry.revokeLater
      urlCache := s.urlCache.erase path
      handles := s.handles.modify k Handle.release } none := by
  have hcount := holders_release ha hheld e
  rw [if_pos hentry, hlast] at hcount
  have hnone : ∀ b ∈ s.handles.modify k Handle.release, b.entry = some e → b.released = true :=
    holders_eq_zero.mp (by omega)
  have hapart : ∀ {path' e'}, s.urlCache.lookup path' = some e' → e ≠ e' → path' ≠ path := by
    rintro path' e' hpath' hne rfl
    rw [hpath] at hpath'
    exact hne (Option.some.inj hpath')
  refine ⟨?_, ?_, ?_, ?_, h.external_release k⟩
  · intro path' e' hpath'
    dsimp only at hpath' ⊢
    rw [lookup_erase_eq] at hpath'
    split at hpath'
    next => cases hpath'
    next hne =>
      have he : e ≠ e' := by
        rintro rfl
        exact hne (h.path_eq hpath' hpath)
      obtain ⟨y, hy, hlive⟩ := h.live path' e' hpath'
      have hcount := holders_release ha hheld e'
      rw [if_neg fun heq => he (Option.some.inj (hentry.symm.trans heq)), Nat.add_zero] at hcount
      exact ⟨y, (getElem?_modify_ne _ he).trans ((getElem?_modify_ne _ he).trans hy), hlive.path,
        hcount ▸ hlive.refs, hcount ▸ hlive.held, hlive.kept⟩
  · intro e' x' hx' hnot
    obtain ⟨y', hy', rfl⟩ := of_getElem?_modify hx'
    obtain ⟨y, hy, rfl⟩ := of_getElem?_modify hy'
    by_cases he : e = e'
    · rw [if_pos he]
      exact .inr (.inl (Nat.succ_pos _))
    · rw [if_neg he, if_neg he] at hnot ⊢
      refine h.gone e' y hy fun hcached => hnot ?_
      dsimp only
      rw [lookup_erase_eq, if_neg (hapart hcached he), hcached]
  · intro e' x' hx' hrevoked b hb hentry'
    obtain ⟨y', hy', rfl⟩ := of_getElem?_modify hx'
    obtain ⟨y, hy, rfl⟩ := of_getElem?_modify hy'
    by_cases he : e = e'
    · subst he
      exact .inl (hnone b hb hentry')
    · rw [if_neg he, if_neg he] at hrevoked
      exact h.lost_release e' y hy hrevoked b hb hentry'
  · intro b hb e' hentry'
    show e' < ((s.entries.modify e CacheEntry.dropRef).modify e CacheEntry.revokeLater).length
    rw [List.length_modify, List.length_modify]
    exact h.bound_release k b hb e' hentry'

theorem inv_release (h : Inv s none) {k : ℕ} {a : Handle} (ha : s.handles[k]? = some a)
    (hheld : a.released = false) (hproper : proper s (.release k) = true) :
    Inv { releaseAttachmentUrl a.src s with
      handles := (releaseAttachmentUrl a.src s).handles.modify k Handle.release } none := by
  rw [releaseAttachmentUrl]
  split
  next hsrc =>
    apply inv_release_none h ha hheld
    intro e hentry
    rw [(h.external a (List.mem_of_getElem? ha)).mpr hsrc] at hentry
    cases hentry
  next hsrc =>
    have hsome : ∃ e, a.entry = some e := by
      refine Option.ne_none_iff_exists'.mp fun hnone => hsrc ?_
      exact (h.external a (List.mem_of_getElem? ha)).mp hnone
    obtain ⟨e, hentry⟩ := hsome
    rw [proper, ha] at hproper
    dsimp only at hproper
    rw [hentry] at hproper
    have hfound := beq_iff_eq.mp hproper
    by_cases hthere : s.cached e = true
    · rw [if_pos hthere] at hfound
      obtain ⟨x, hx, hlive⟩ := h.live _ e hfound
      have hrefs : (((s.entries.modify e CacheEntry.dropRef)[e]?).map CacheEntry.refs).any
          (fun refs => 0 < refs) = decide (1 < holders s.handles e) := by
        rw [getElem?_modify_self _ hx, Option.map_some, Option.any_some, CacheEntry.dropRef,
          hlive.refs]
        simp
      rw [hfound]
      dsimp only
      rw [hrefs]
      split
      next hmany => exact inv_release_shared h ha hheld hentry (of_decide_eq_true hmany)
      next hfew =>
        have hpos := hlive.held.resolve_right nofun
        have hle := not_lt.mp (fun hlt => hfew (decide_eq_true hlt))
        exact inv_release_last h ha hheld hentry hfound (by omega)
    · rw [if_neg hthere] at hfound
      rw [hfound]
      apply inv_release_none h ha hheld
      intro e' hentry'
      rw [hentry] at hentry'
      cases hentry'
      exact Bool.eq_false_of_not_eq_true hthere

theorem getElem?_revokeAll (es : List ℕ) (entries : List CacheEntry) (e : ℕ) :
    (es.foldl (fun l e => l.modify e CacheEntry.revokeLater) entries)[e]? =
      entries[e]?.map fun x => { x with waiting := x.waiting + es.count e } := by
  induction es generalizing entries with
  | nil =>
      rw [List.foldl_nil, List.count_nil]
      exact Option.map_id'.symm
  | cons d es ih =>
      rw [List.foldl_cons, ih]
      by_cases hd : d = e
      · subst hd
        rw [List.getElem?_modify, List.count_cons_self]
        simp only [if_pos, Option.map_eq_map, Option.map_map]
        congr 1
        funext x
        simp [CacheEntry.revokeLater]
        omega
      · rw [getElem?_modify_ne _ hd, List.count_cons_of_ne hd]

/-- After a clear nothing is in the cache, and every acquire so far is before a clear. -/
theorem inv_clear (h : Inv s none) :
    Inv { clearAttachmentCache s with
      handles := (clearAttachmentCache s).handles.map Handle.clear } none := by
  rw [clearAttachmentCache]
  refine ⟨?_, ?_, ?_, ?_, ?_⟩
  · intro path e hpath
    rw [AList.lookup_empty] at hpath
    cases hpath
  · intro e x' hx' _
    dsimp only at hx'
    rw [getElem?_revokeAll] at hx'
    obtain ⟨x, hx, rfl⟩ := Option.map_eq_some_iff.mp hx'
    by_cases hcached : s.urlCache.lookup x.path = some e
    · have hcount := List.count_pos_iff.mpr (mem_values.mpr ⟨x.path, hcached⟩)
      exact .inr (.inl (Nat.add_pos_right _ hcount))
    · exact (h.gone e x hx hcached).imp id (Or.imp (Nat.add_pos_left · _) id)
  · intro e x _ _ a ha _
    obtain ⟨b, -, rfl⟩ := List.mem_map.mp ha
    exact .inr rfl
  · intro a ha e hentry
    obtain ⟨b, hb, rfl⟩ := List.mem_map.mp ha
    have hlt := h.bound b hb e hentry
    have hsome : (s.entries[e]?).isSome := by rw [List.getElem?_eq_getElem hlt]; rfl
    dsimp only
    by_contra hge
    have hnone := List.getElem?_eq_none (not_lt.mp hge)
    rw [getElem?_revokeAll, Option.map_eq_none_iff] at hnone
    rw [hnone] at hsome
    cases hsome
  · intro a ha
    obtain ⟨b, hb, rfl⟩ := List.mem_map.mp ha
    exact h.external b hb

/-- A change of one entry that keeps what the cache says of it. -/
theorem inv_modify (h : Inv s none) (hx : s.entries[e]? = some x) {f : CacheEntry → CacheEntry}
    (hpath : (f x).path = x.path) (hrefs : (f x).refs = x.refs)
    (hkept : x.waiting = 0 ∧ x.revoked = false → (f x).waiting = 0 ∧ (f x).revoked = false)
    (hgone : x.url = .failed ∨ 0 < x.waiting ∨ x.revoked = true →
      (f x).url = .failed ∨ 0 < (f x).waiting ∨ (f x).revoked = true)
    (hlost : 0 < (f x).waiting ∨ (f x).revoked = true → 0 < x.waiting ∨ x.revoked = true) :
    Inv { s with entries := s.entries.modify e f } none := by
  have hof : ∀ {e' x'}, (s.entries.modify e f)[e']? = some x' →
      e = e' ∧ x' = f x ∨ e ≠ e' ∧ s.entries[e']? = some x' := by
    intro e' x' hx'
    obtain ⟨y, hy, rfl⟩ := of_getElem?_modify hx'
    by_cases he : e = e'
    · subst he
      rw [hx] at hy
      cases hy
      exact .inl ⟨rfl, if_pos rfl⟩
    · rw [if_neg he]
      exact .inr ⟨he, hy⟩
  refine ⟨?_, ?_, ?_, ?_, h.external⟩
  · intro path' e' hcached
    obtain ⟨y, hy, hlive⟩ := h.live path' e' hcached
    by_cases he : e = e'
    · subst he
      rw [hx] at hy
      cases hy
      exact ⟨f x, getElem?_modify_self f hx, hpath.trans hlive.path, hrefs.trans hlive.refs,
        hlive.held, hkept hlive.kept⟩
    · exact ⟨y, (getElem?_modify_ne f he).trans hy, hlive.path, hlive.refs, hlive.held, hlive.kept⟩
  · intro e' x' hx' hnot
    rcases hof hx' with ⟨rfl, rfl⟩ | ⟨-, hy⟩
    · rw [hpath] at hnot
      exact hgone (h.gone e x hx hnot)
    · exact h.gone e' x' hy hnot
  · intro e' x' hx' hrevoked
    rcases hof hx' with ⟨rfl, rfl⟩ | ⟨-, hy⟩
    · exact h.lost e x hx (hlost hrevoked)
    · exact h.lost e' x' hy hrevoked
  · intro a ha e' hentry
    show e' < (s.entries.modify e f).length
    rw [List.length_modify]
    exact h.bound a ha e' hentry

/-- An entry whose promise failed is taken out of the cache. -/
theorem inv_erase (h : Inv s none) (hx : s.entries[e]? = some x) (hfailed : x.url = .failed)
    (hown : ∀ e', s.urlCache.lookup x.path = some e' → e' = e) :
    Inv { s with urlCache := s.urlCache.erase x.path } none := by
  refine ⟨?_, ?_, h.lost, h.bound, h.external⟩
  · intro path e' hpath
    dsimp only at hpath
    rw [lookup_erase_eq] at hpath
    split at hpath
    next => cases hpath
    next =>
      obtain ⟨y, hy, hlive⟩ := h.live path e' hpath
      exact ⟨y, hy, hlive.path, hlive.refs, hlive.held, hlive.kept⟩
  · intro e' y hy hnot
    by_cases he : e' = e
    · rw [he] at hy
      rw [Option.some.inj (hy.symm.trans hx)]
      exact .inl hfailed
    · refine h.gone e' y hy fun hcached => hnot ?_
      dsimp only
      rw [lookup_erase_eq, if_neg, hcached]
      intro heq
      rw [heq] at hcached
      exact he (hown e' hcached)

theorem inv_next {ev : Event} {s' : State} (h : Inv s none) (hstep : next s ev = some s')
    (hproper : proper s ev = true) : Inv s' none := by
  cases ev with
  | acquire src =>
      cases hstep
      exact inv_acquire h src
  | release k =>
      rw [next] at hstep
      split at hstep
      next a ha =>
        split at hstep
        next => cases hstep
        next hheld =>
          cases hstep
          exact inv_release h ha (Bool.eq_false_of_not_eq_true hheld) hproper
      next => cases hstep
  | clear =>
      cases hstep
      exact inv_clear h
  | switch collection =>
      cases hstep
      refine ⟨fun path e hpath => ?_, h.gone, h.lost, h.bound, h.external⟩
      obtain ⟨x, hx, hlive⟩ := h.live path e hpath
      exact ⟨x, hx, hlive.path, hlive.refs, hlive.held, hlive.kept⟩
  | settle e created =>
      rw [next] at hstep
      split at hstep
      next x hx =>
        split at hstep
        next hpending =>
          cases hstep
          refine inv_modify h hx rfl rfl id (fun hgone => .inr ?_) id
          refine hgone.resolve_left fun hfailed => ?_
          rw [hpending] at hfailed
          cases hfailed
        next => cases hstep
      next => cases hstep
  | caught e =>
      rw [next] at hstep
      split at hstep
      next x hx =>
        split at hstep
        next hfailed =>
          cases hstep
          -- only here the handler's own check is needed: it takes away whatever is at the path
          have hown : ∀ e', s.urlCache.lookup x.path = some e' → e' = e := by
            intro e' he'
            rw [proper, hx] at hproper
            simpa [he'] using hproper
          have herased := inv_erase h hx hfailed.1 hown
          exact inv_modify herased hx rfl rfl id id id
        next => cases hstep
      next => cases hstep
  | revoke e =>
      rw [next] at hstep
      split at hstep
      next x hx =>
        split at hstep
        next hwaiting =>
          cases hstep
          refine inv_modify h hx rfl rfl (fun hkept => ?_) (fun _ => .inr (.inr rfl))
            fun _ => .inl hwaiting.2
          exact absurd hkept.1 (Nat.pos_iff_ne_zero.mp hwaiting.2)
        next => cases hstep
      next => cases hstep

end Invariant

theorem Inv.shown {s : State} (h : Inv s none) : Shown s :=
  fun a ha e hentry x hx hrevoked => h.lost e x hx (.inr hrevoked) a ha hentry

theorem Inv.freed {s : State} (h : Inv s none) : Freed s := by
  intro hall x hmem hcreated hwaiting
  obtain ⟨e, hx⟩ := List.getElem?_of_mem hmem
  by_cases hcached : s.urlCache.lookup x.path = some e
  · obtain ⟨y, -, hlive⟩ := h.live _ e hcached
    have hnone := holders_eq_zero.mpr fun a ha (_ : a.entry = some e) => hall a ha
    have hheld := hlive.held.resolve_right nofun
    omega
  · rcases h.gone e x hx hcached with hfailed | hpos | hrevoked
    · rw [hcreated] at hfailed
      cases hfailed
    · omega
    · exact hrevoked

/-- In every state of a run whose releases and handlers of failures find their own entries, no
URL that is shown is revoked, and after all releases none is left. -/
theorem urls_kept_and_freed {s : State} {events : List Event}
    (hrun : Runs (fun s ev s' => step s ev s' ∧ proper s ev = true) initial events s) :
    Shown s ∧ Freed s := by
  have hstep : ∀ s ev s', Inv s none → step s ev s' ∧ proper s ev = true → Inv s' none :=
    fun _ _ _ h hstep => inv_next h hstep.1 hstep.2
  have hinv := hrun.invariant hstep inv_initial
  exact ⟨hinv.shown, hinv.freed⟩

section Samples

def image : JsString := js "attachments/x.png".toList

/-- Two views show one image, one after the other, and both are destroyed. -/
def sharedEvents : List Event :=
  [.acquire image, .settle 0 true, .acquire image, .release 0, .release 1, .revoke 0]

/-- A view that is older than a clear is destroyed while another one shows the image. -/
def staleEvents : List Event :=
  [.acquire image, .settle 0 true, .clear, .revoke 0, .acquire image, .settle 1 true, .release 0,
    .revoke 1]

/-- The state after events, if they can all happen and pass a check. -/
def after (check : State → Event → Bool) (s : State) : List Event → Option State
  | [] => some s
  | ev :: events => if check s ev then (next s ev).bind fun s' => after check s' events else none

theorem runs_of_after {check : State → Event → Bool} {s t : State} {events : List Event}
    (h : after check s events = some t) :
    Runs (fun s ev s' => step s ev s' ∧ check s ev = true) s events t := by
  induction events generalizing s with
  | nil =>
      cases h
      exact .nil _
  | cons ev events ih =>
      rw [after] at h
      split at h
      next hcheck =>
        obtain ⟨s', hs', hrest⟩ := Option.bind_eq_some_iff.mp h
        exact .cons ⟨hs', hcheck⟩ (ih hrest)
      next => cases h

theorem urls_kept_and_freed_shared :
    ∃ s, Runs (fun s ev s' => step s ev s' ∧ proper s ev = true) initial sharedEvents s ∧
      Shown s ∧ Freed s := by
  have hsome : (after proper initial sharedEvents).isSome = true := by decide +kernel
  obtain ⟨s, hs⟩ := Option.isSome_iff_exists.mp hsome
  exact ⟨s, runs_of_after hs, urls_kept_and_freed (runs_of_after hs)⟩

/-- The release of the older view revokes the URL of the other one. -/
theorem shown_url_revoked :
    ¬ ∀ (events : List Event) (s : State), Runs step initial events s → Shown s ∧ Freed s := by
  intro h
  have hlast : (after (fun _ _ => true) initial staleEvents).map
      (fun s => (s.handles[1]?, s.entries[1]?.map CacheEntry.revoked)) =
        some (some ⟨image, some 1, false, false⟩, some true) := by decide +kernel
  obtain ⟨s, hs, hpair⟩ := Option.map_eq_some_iff.mp hlast
  obtain ⟨hhandle, hentry⟩ := Prod.mk.inj hpair
  obtain ⟨x, hx, hrevoked⟩ := Option.map_eq_some_iff.mp hentry
  have hrun : Runs step initial staleEvents s :=
    (runs_of_after hs).mono fun _ _ _ hstep => hstep.1
  have hshown := (h staleEvents s hrun).1 _ (List.mem_of_getElem? hhandle) 1 rfl x
    (Option.mem_def.mpr hx) hrevoked
  exact absurd hshown (by decide)

end Samples

end Tactile.Notes.BlobUrls

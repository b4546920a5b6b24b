import Tactile.Lib.Transition
import Tactile.Relay.FsRecovery

/-!
The file-system store refines the map: on every run, with stops at any file
operation and reopenings, its results are those of the map.
-/

namespace Tactile.Relay.FsRefinement

open Tactile.Lib.Program Tactile.Lib.Script Tactile.Lib.FiniteMap Tactile.Lib.ByteString
open Tactile.Lib.Transition
open Tactile.Relay.Blob Tactile.Relay.FileSystem Tactile.Relay.FsStore Tactile.Relay.Oracle
open Tactile.Relay.Index Tactile.Relay.FsIndex Tactile.Relay.FsFiles Tactile.Relay.FsMethods
open Tactile.Relay.FsRecovery

/-- A call on the store, with its arguments. -/
inductive Call
  | put (r : Record)
  | get (pub : PubKey) (bid : BlobID) (now : Int64)
  | getRange (pub : PubKey) (bid : BlobID) (start stop : ℤ) (now : Int64)
  | list (pub : PubKey) (now : Int64)
  | delete (pub : PubKey) (bid : BlobID)
  | sweep (now : Int64)
  | usage (pub : PubKey)
  | totalBytes
  deriving DecidableEq

/-- What a call returns. -/
inductive Result
  | done (out : Except Err Unit)
  | record (out : Except Err Record)
  | range (out : RangeResult)
  | metas (out : List ListMeta)
  | count (out : ℕ)
  | usage (out : Usage)
  | bytes (out : ℤ)

/-- The program of a method call, with its outcome as a result. -/
def returning {α : Type} (f : Except Err α → Result) (method : FsMethod α) (s : FS) :
    Prog DiskOp DiskAns (Result × FS) :=
  (fun out => (f out.1, out.2)) <$> method.call s

def rangeResult : Except Err RangeResult → Result
  | .ok r => .range r
  | .error e => .done (.error e)

def countResult : Except Err ℕ → Result
  | .ok n => .count n
  | .error e => .done (.error e)

section Runs

variable (idOf : PubKey → IdentityID) (maxPayload : ℤ)

/-- The programs that a call may run: a sweep visits the expired entries in any
order. -/
inductive Starts (s : FS) : Call → Prog DiskOp DiskAns (Result × FS) → Prop
  | put (r : Record) : Starts s (.put r) (returning .done (put idOf r) s)
  | get (pub : PubKey) (bid : BlobID) (now : Int64) :
      Starts s (.get pub bid now) (returning .record (FsStore.get idOf pub bid now) s)
  | getRange (pub : PubKey) (bid : BlobID) (start stop : ℤ) (now : Int64) :
      Starts s (.getRange pub bid start stop now)
        (returning rangeResult (getRange idOf pub bid start stop now) s)
  | list (pub : PubKey) (now : Int64) :
      Starts s (.list pub now) (.ret (.metas (list idOf s pub now), s))
  | delete (pub : PubKey) (bid : BlobID) :
      Starts s (.delete pub bid) (returning .done (delete idOf pub bid) s)
  | sweep (now : Int64) (dead : List (IdentityID × BlobID)) :
      dead.Perm (expired s now) →
      Starts s (.sweep now) (returning countResult (sweep dead) s)
  | usage (pub : PubKey) : Starts s (.usage pub) (.ret (.usage (s.usageID (idOf pub)), s))
  | totalBytes : Starts s .totalBytes (.ret (.bytes s.totalBytes, s))

/-- What a stop leaves on disk: the operation under way may be cut short. -/
def Cut {α : Type} (q : Prog DiskOp DiskAns α) (d d' : Disk) : Prop :=
  match q with
  | .ret _ => d' = d
  | .call o _ => Torn d o d'

/-- Opening the store from a directory, after any number of openings that were
stopped themselves. -/
inductive Reopens : Disk → FS × Disk → Prop
  | opened {d d' : Disk} {s : FS} :
      Exec Serves d (openFS idOf maxPayload) (.ok (), s) d' → Reopens d (s, d')
  | stopped {d d₁ d₂ : Disk} {q : Prog DiskOp DiskAns (Except Err Unit × FS)} {x : FS × Disk} :
      Steps Serves d (openFS idOf maxPayload) d₁ q → Cut q d₁ d₂ → Reopens d₂ x → Reopens d x

/-- One event of a run: a call with its result, a call during which the process
stops and the store is reopened, or a stop between calls. -/
inductive Event
  | call (c : Call) (result : Result)
  | stopped (c : Call)
  | restarted

/-- The store, as its memory and its disk, taking one event. -/
inductive Step : FS × Disk → Event → FS × Disk → Prop
  | call {s s' : FS} {d d' : Disk} {c : Call} {p : Prog DiskOp DiskAns (Result × FS)}
      {result : Result} :
      Starts idOf s c p → Exec Serves d p (result, s') d' →
      Step (s, d) (.call c result) (s', d')
  | stopped {s : FS} {d d₁ d₂ : Disk} {c : Call} {p q : Prog DiskOp DiskAns (Result × FS)}
      {x : FS × Disk} :
      Starts idOf s c p → Steps Serves d p d₁ q → Cut q d₁ d₂ → Reopens idOf maxPayload d₂ x →
      Step (s, d) (.stopped c) x
  | restarted {s : FS} {d : Disk} {x : FS × Disk} :
      Reopens idOf maxPayload d x → Step (s, d) .restarted x

variable {idOf}

/-- What the map answers to a call, and the map after it. -/
def answer (m : Model idOf) : Call → Result × Model idOf
  | .put r => (.done (m.put r).1, (m.put r).2)
  | .get pub bid now => (.record (m.get (idOf pub, bid) now).1, (m.get (idOf pub, bid) now).2)
  | .getRange pub bid start stop now =>
      (.range (m.getRange (idOf pub, bid) start stop now).1,
        (m.getRange (idOf pub, bid) start stop now).2)
  | .list pub now => (.metas (m.list (idOf pub) now), m)
  | .delete pub bid => (.done (m.delete (idOf pub, bid)).1, (m.delete (idOf pub, bid)).2)
  | .sweep now => (.count (m.sweep now).1, (m.sweep now).2)
  | .usage pub => (.usage (usageOf m.held (idOf pub)), m)
  | .totalBytes => (.bytes (totalBytesOf m.held), m)

/-- What a stopped call may leave of the map: the map from before, the map from
after, and for a sweep the map without some of the expired records. -/
inductive Leaves (m : Model idOf) : Call → Model idOf → Prop
  | before (c : Call) : Leaves m c m
  | after (c : Call) : Leaves m c (answer m c).2
  | swept (now : Int64) (ks : List Key) :
      (∀ k ∈ ks, k ∈ m.expiredKeys now) → Leaves m (.sweep now) (m.eraseAll ks)

/-- The map taking one event. -/
inductive ModelStep : Model idOf → Event → Model idOf → Prop
  | call (m : Model idOf) (c : Call) : ModelStep m (.call c (answer m c).1) (answer m c).2
  | stopped {m m' : Model idOf} {c : Call} : Leaves m c m' → ModelStep m (.stopped c) m'
  | restarted (m : Model idOf) : ModelStep m .restarted m

end Runs

/-- The payload of a put is within the store's limit. -/
def Event.WithinLimit (maxPayload : ℤ) : Event → Prop
  | .call (.put r) _ => (r.payload.length : ℤ) ≤ maxPayload
  | .stopped (.put r) => (r.payload.length : ℤ) ≤ maxPayload
  | _ => True

/-- The length of a put's payload fits the 32 bits of the header. -/
def Event.FitsHeader : Event → Prop
  | .call (.put r) _ => r.payload.length < 2 ^ 32
  | .stopped (.put r) => r.payload.length < 2 ^ 32
  | _ => True

def Call.Fits (maxPayload : ℤ) : Call → Prop
  | .put r => (r.payload.length : ℤ) ≤ maxPayload ∧ r.payload.length < 2 ^ 32
  | _ => True

variable {idOf : PubKey → IdentityID} {maxPayload : ℤ} {m : Model idOf} {s : FS} {d : Disk}

theorem behaves_returning {α : Type} {method : FsMethod α} {out : Except Err α × Model idOf}
    (h : Behaves idOf maxPayload m out method s d) (f : Except Err α → Result) :
    Holds Serves (Guard fun h => h = m.held ∨ h = out.2.held)
      (fun res d' => res.1 = f out.1 ∧ Refines idOf maxPayload res.2 d' out.2)
      (returning f method s) d := by
  rw [returning, holds_map]
  refine Holds.imp h fun res d' hres => ?_
  rcases res with ⟨e | a, s'⟩
  · exact ⟨congrArg f hres.1.symm, hres.2⟩
  · exact ⟨congrArg f hres.1.symm, hres.2⟩

/-- Every program of a call returns the map's answer, and wherever it is cut
the disk holds what the map may be left with. -/
theorem starts_holds (h : Refines idOf maxPayload s d m) {c : Call}
    {p : Prog DiskOp DiskAns (Result × FS)} (hstart : Starts idOf s c p)
    (hfits : c.Fits maxPayload) :
    Holds Serves (Guard fun h => ∃ m', Leaves m c m' ∧ h = m'.held)
      (fun res d' => res.1 = (answer m c).1 ∧ Refines idOf maxPayload res.2 d' (answer m c).2)
      p d := by
  have hleaves : ∀ o d, Guard (fun h => h = m.held ∨ h = (answer m c).2.held) d o →
      Guard (fun h => ∃ m', Leaves m c m' ∧ h = m'.held) d o := by
    rintro o d ⟨⟨held, hor, hstores⟩, hwrite⟩
    refine ⟨⟨held, ?_, hstores⟩, hwrite⟩
    rcases hor with rfl | rfl
    · exact ⟨m, .before c, rfl⟩
    · exact ⟨_, .after c, rfl⟩
  cases hstart with
  | put r =>
      exact (behaves_returning (put_behaves h r hfits) .done).mono (fun d o => hleaves o d)
        fun _ _ hres => hres
  | get pub bid now =>
      exact (behaves_returning (get_behaves h pub bid now) .record).mono (fun d o => hleaves o d)
        fun _ _ hres => hres
  | getRange pub bid start stop now =>
      exact (behaves_returning (getRange_behaves h pub bid start stop now) rangeResult).mono
        (fun d o => hleaves o d) fun _ _ hres => hres
  | list pub now => exact ⟨congrArg Result.metas (list_eq h pub now), h⟩
  | delete pub bid =>
      exact (behaves_returning (delete_behaves h pub bid) .done).mono (fun d o => hleaves o d)
        fun _ _ hres => hres
  | sweep now dead hdead =>
      rw [returning, holds_map]
      refine Holds.mono (sweep_meets h now hdead) ?_ fun res d' hres => ?_
      · rintro d o ⟨⟨held, ⟨ks, hks, rfl⟩, hstores⟩, hwrite⟩
        exact ⟨⟨_, ⟨_, .swept now ks hks, rfl⟩, hstores⟩, hwrite⟩
      · rcases res with ⟨e | n, s'⟩
        · exact hres.elim
        · exact ⟨congrArg Result.count hres.1.symm, hres.2⟩
  | usage pub => exact ⟨congrArg Result.usage (h.counts.usage _), h⟩
  | totalBytes => exact ⟨congrArg Result.bytes h.counts.total, h⟩

theorem Cut.stores {α : Type} {Q : α → Disk → Prop} {allowed : Held → Prop}
    {p q : Prog DiskOp DiskAns α} {d₁ d₂ : Disk} (hp : Holds Serves (Guard allowed) Q p d)
    (hret : ∀ a d', Q a d' → ∃ held, allowed held ∧ Stores d' held)
    (hsteps : Steps Serves d p d₁ q) (hcut : Cut q d₁ d₂) :
    ∃ held, allowed held ∧ Stores d₂ held := by
  rcases hp.cut hsteps with ⟨o, next, rfl, hguard⟩ | ⟨a, rfl, hQ⟩
  · exact hguard.torn hcut
  · have hsame : d₂ = d₁ := hcut
    rw [hsame]
    exact hret a d₁ hQ

theorem Reopens.refines {x : FS × Disk} (h : Reopens idOf maxPayload d x)
    (hstores : Stores d m.held) (hfits : Fits maxPayload m) :
    Refines idOf maxPayload x.1 x.2 m := by
  induction h with
  | opened hexec => exact (openFS_holds hstores hfits).exec hexec
  | stopped hsteps hcut _ ih =>
      refine ih ?_
      obtain ⟨held, rfl, hstores'⟩ := Cut.stores (openFS_holds hstores hfits) (fun a d' hQ => by
        rcases a with ⟨_ | _, s'⟩
        · exact hQ.elim
        · exact ⟨_, rfl, hQ.stores⟩) hsteps hcut
      exact hstores'

private theorem lookup_erase_some {k k' : Key} {r : Record}
    (h : (m.erase k).held.lookup k' = some r) : m.held.lookup k' = some r := by
  rw [Model.erase, lookup_erase_eq] at h
  split at h
  next => cases h
  next => exact h

private theorem lookup_eraseAll_some {ks : List Key} {k' : Key} {r : Record}
    (h : (m.eraseAll ks).held.lookup k' = some r) : m.held.lookup k' = some r := by
  rw [lookup_eraseAll] at h
  split at h
  next => cases h
  next => exact h

private theorem lookup_get_some {k k' : Key} {now : Int64} {r : Record}
    (h : (m.get k now).2.held.lookup k' = some r) : m.held.lookup k' = some r := by
  rw [Model.get] at h
  split at h
  next => exact h
  next =>
    split at h
    next => exact lookup_erase_some h
    next => exact h

/-- A record held after a call was held before it or has been put by it. -/
theorem answer_held (c : Call) {k : Key} {r : Record}
    (h : (answer m c).2.held.lookup k = some r) : m.held.lookup k = some r ∨ c = .put r := by
  cases c with
  | put r' =>
      rw [answer, Model.put] at h
      split at h
      next => exact .inl h
      next =>
        simp only [Model.insert, lookup_insert_eq] at h
        split at h
        next => exact .inr (by rw [Option.some.inj h])
        next => exact .inl h
  | get pub bid now => exact .inl (lookup_get_some h)
  | getRange pub bid start stop now =>
      rw [answer, Model.getRange] at h
      split at h <;> next heq =>
        exact .inl (lookup_get_some (by rw [heq]; exact h))
  | list | usage | totalBytes => exact .inl h
  | delete pub bid =>
      rw [answer, Model.delete] at h
      split at h
      next => exact .inl (lookup_erase_some h)
      next => exact .inl h
  | sweep now => exact .inl (lookup_eraseAll_some h)

theorem Leaves.fits {m' : Model idOf} {c : Call} (h : Leaves m c m') (hfits : Fits maxPayload m)
    (hc : c.Fits maxPayload) : Fits maxPayload m' := by
  intro k r hr
  cases h with
  | before => exact hfits k r hr
  | after =>
      rcases answer_held c hr with hr | rfl
      · exact hfits k r hr
      · exact hc
  | swept now ks _ => exact hfits k r (lookup_eraseAll_some hr)

/-- One event of the store is the same event of the map. -/
theorem step_simulates {x y : FS × Disk} {e : Event} (h : Refines idOf maxPayload x.1 x.2 m)
    (he : e.WithinLimit maxPayload ∧ e.FitsHeader) (hstep : Step idOf maxPayload x e y) :
    ∃ m', ModelStep m e m' ∧ Refines idOf maxPayload y.1 y.2 m' := by
  cases hstep with
  | @call s s' d d' c p result hstart hexec =>
      have hc : c.Fits maxPayload := by
        cases c <;> first | exact he | exact trivial
      obtain ⟨hresult, hrefines⟩ := (starts_holds h hstart hc).exec hexec
      have hresult : result = (answer m c).1 := hresult
      rw [hresult]
      exact ⟨_, .call m c, hrefines⟩
  | @stopped s d d₁ d₂ c p q _ hstart hsteps hcut hreopens =>
      have hc : c.Fits maxPayload := by
        cases c <;> first | exact he | exact trivial
      obtain ⟨_, ⟨m', hleaves, rfl⟩, hstores⟩ := Cut.stores (starts_holds h hstart hc)
        (fun a d' hQ => ⟨_, ⟨_, .after c, rfl⟩, hQ.2.stores⟩) hsteps hcut
      exact ⟨m', .stopped hleaves, hreopens.refines hstores (hleaves.fits h.fits hc)⟩
  | restarted hreopens => exact ⟨m, .restarted m, hreopens.refines h.stores h.fits⟩

/-- Every call of a store that holds a map's records returns. -/
theorem call_returns (h : Refines idOf maxPayload s d m) (c : Call) (hc : c.Fits maxPayload) :
    ∃ y, Step idOf maxPayload (s, d) (.call c (answer m c).1) y ∧
      Refines idOf maxPayload y.1 y.2 (answer m c).2 := by
  have hstart : ∃ p, Starts idOf s c p := by
    cases c with
    | put r => exact ⟨_, .put r⟩
    | get pub bid now => exact ⟨_, .get pub bid now⟩
    | getRange pub bid start stop now => exact ⟨_, .getRange pub bid start stop now⟩
    | list pub now => exact ⟨_, .list pub now⟩
    | delete pub bid => exact ⟨_, .delete pub bid⟩
    | sweep now => exact ⟨_, .sweep now _ (List.Perm.refl _)⟩
    | usage pub => exact ⟨_, .usage pub⟩
    | totalBytes => exact ⟨_, .totalBytes⟩
  obtain ⟨p, hp⟩ := hstart
  obtain ⟨res, d', hexec, hresult, hrefines⟩ :=
    (starts_holds h hp hc).exists_exec fun s o _ => serves_total s o
  refine ⟨(res.2, d'), .call hp ?_, hrefines⟩
  rw [← hresult]
  exact hexec

/-- The store refines the map: opened on a directory without blobs, every run of
calls, stops and reopenings whose payloads fit the 32 bits of the header has
the results that the map gives. -/
theorem fsStore_refines_map {d₀ : Disk} {x y : FS × Disk} {events : List Event}
    (hfresh : ∀ path ∈ d₀.files, ¬ IsBlob path) (hopen : Reopens idOf maxPayload d₀ x)
    (hrun : Runs (Step idOf maxPayload) x events y)
    (hlimit : ∀ e ∈ events, e.WithinLimit maxPayload) (hheader : ∀ e ∈ events, e.FitsHeader) :
    ∃ m : Model idOf, Runs ModelStep .empty events m ∧ Refines idOf maxPayload y.1 y.2 m := by
  have hstores : Stores d₀ (Model.empty : Model idOf).held :=
    { present := fun _ _ h => by simp [Model.empty] at h
      only := fun path hblob hsome => absurd hblob (hfresh path (AList.lookup_isSome.mp hsome)) }
  have hx : Refines idOf maxPayload x.1 x.2 Model.empty :=
    hopen.refines hstores fun _ _ h => by simp [Model.empty] at h
  have hsim : ∀ (x : FS × Disk) (m : Model idOf) (e : Event) (y : FS × Disk),
      Refines idOf maxPayload x.1 x.2 m → (e.WithinLimit maxPayload ∧ e.FitsHeader) →
        Step idOf maxPayload x e y → ∃ m', ModelStep m e m' ∧ Refines idOf maxPayload y.1 y.2 m' :=
    fun _ _ _ _ hrel he hstep => step_simulates hrel he hstep
  exact hrun.simulate hsim (fun e he => ⟨hlimit e he, hheader e he⟩) hx

/-- A directory without files. -/
def emptyDisk : Disk := ⟨[], ∅⟩

/-- A store opens on an empty directory. -/
theorem reopens_emptyDisk (idOf : PubKey → IdentityID) (maxPayload : ℤ) :
    ∃ x, Reopens idOf maxPayload emptyDisk x ∧
      Refines idOf maxPayload x.1 x.2 (Model.empty : Model idOf) := by
  have hstores : Stores emptyDisk (Model.empty : Model idOf).held :=
    { present := fun _ _ h => by simp [Model.empty] at h
      only := fun _ _ h => by simp [emptyDisk] at h }
  have hfits : Fits maxPayload (Model.empty : Model idOf) := fun _ _ h => by
    simp [Model.empty] at h
  obtain ⟨⟨out, s⟩, d, hexec, hQ⟩ := (openFS_holds hstores hfits).exists_exec fun s o _ => serves_total s o
  cases out with
  | error e => exact hQ.elim
  | ok => exact ⟨(s, d), .opened hexec, hQ⟩

/-- A get of a record whose file has been written returns the part of its
payload that the header's length covers. -/
theorem get_written (r : Record) (now : Int64)
    (hentry : s.entry (idOf r.identity) r.id = some (entryOf r))
    (hfile : d.files.lookup (blobPath (idOf r.identity) r.id) = some (marshal r))
    (hlimit : (r.payload.length : ℤ) ≤ s.maxPayload) (hlive : ¬ r.expiresAt ≤ now) :
    Meets Serves (fun _ _ => True)
      (fun r' _ _ => r' = { r with payload := r.payload.take (r.payload.length % 2 ^ 32) })
      (fun _ _ _ => False) (FsStore.get idOf r.identity r.id now) s d := by
  have hlive' : ¬ (entryOf r).expiresAt ≤ now := hlive
  rw [FsStore.get, meets_bind, meets_read, meets_bind, openBlob, meets_bind, meets_read]
  simp only [hentry, hlive', if_false]
  rw [meets_bind]
  refine ⟨trivial, fun ans d' hserves => ?_⟩
  cases hserves with
  | readFile _ _ data hdata =>
      rw [hfile] at hdata
      cases hdata
      change Meets Serves _ _ _ (Method.ofExcept (fun e => e) (unmarshal (marshal r) s.maxPayload)) s d
      rw [unmarshal_marshal r s.maxPayload hlimit]
      rfl
  | readMissing _ _ hmissing =>
      rw [hfile] at hmissing
      cases hmissing

/-- A put and a get of a record, on a new directory. -/
theorem put_then_get (idOf : PubKey → IdentityID) (maxPayload : ℤ) (r : Record) (now : Int64)
    (hlimit : (r.payload.length : ℤ) ≤ maxPayload) (hlive : ¬ r.expiresAt ≤ now) :
    ∃ x y, Reopens idOf maxPayload emptyDisk x ∧
      Runs (Step idOf maxPayload) x
        [.call (.put r) (.done (.ok ())),
          .call (.get r.identity r.id now)
            (.record (.ok { r with payload := r.payload.take (r.payload.length % 2 ^ 32) }))] y := by
  obtain ⟨⟨s, d⟩, hopen, hx⟩ := reopens_emptyDisk idOf maxPayload
  have hnone : s.entry (idOf r.identity) r.id = none := hx.entry_none (by simp [Model.empty])
  have hput : Meets Serves (Guard fun _ => True)
      (fun _ s' d' => s' = s.indexAdd (idOf r.identity) r.id (entryOf r) ∧
        Stores d' ((Model.empty : Model idOf).held.insert (keyOf idOf r) r))
      (fun _ _ _ => False) (put idOf r) s d := by
    rw [put, meets_bind, meets_read, hnone]
    exact (putLocked_meets hx.stores r (idOf r.identity)).mono
      (fun _ _ hguard => ⟨hguard.1.imp fun _ h => ⟨trivial, h.2⟩, hguard.2⟩) (fun _ _ _ h => h)
      fun _ _ _ h => h
  obtain ⟨⟨out₁, s₁⟩, d₁, hexec₁, hQ₁⟩ := Holds.exists_exec hput fun s o _ => serves_total s o
  cases out₁ with
  | error e => exact hQ₁.elim
  | ok =>
      obtain ⟨rfl, hstores⟩ := hQ₁
      have hentry : (s.indexAdd (idOf r.identity) r.id (entryOf r)).entry (idOf r.identity) r.id =
          some (entryOf r) := by
        rw [FS.entry, FS.indexAdd, Accounts.entry_add, if_pos ⟨rfl, rfl⟩]
      have hfile := hstores.present (keyOf idOf r) r (AList.lookup_insert _)
      have hget := get_written r now hentry hfile (by rw [← hx.limit] at hlimit; exact hlimit) hlive
      obtain ⟨⟨out₂, s₂⟩, d₂, hexec₂, hQ₂⟩ := Holds.exists_exec hget fun s o _ => serves_total s o
      cases out₂ with
      | error e => exact hQ₂.elim
      | ok r' =>
          have hr' : r' = _ := hQ₂
          subst hr'
          have hdone := Exec.map (fun out => (Result.done out.1, out.2)) hexec₁
          have hgot := Exec.map (fun out => (Result.record out.1, out.2)) hexec₂
          exact ⟨(s, d), (s₂, d₂), hopen, .cons (.call (.put r) hdone)
            (.single (.call (.get r.identity r.id now) hgot))⟩

/-- The map returns the record that was put. -/
theorem modelRuns_put_get {r r' : Record} {now : Int64}
    (h : Runs ModelStep (.empty : Model idOf) [.call (.put r) (.done (.ok ())),
      .call (.get r.identity r.id now) (.record (.ok r'))] m)
    (hlive : ¬ r.expiresAt ≤ now) : r' = r := by
  cases h with
  | cons hput hrest =>
      cases hrest with
      | cons hget _ =>
          generalize hres : Result.record (.ok r') = res at hget
          cases hput with
          | call =>
              cases hget with
              | call =>
                  have hheld : ((answer (.empty : Model idOf) (.put r)).2.held).lookup
                      (keyOf idOf r) = some r := by
                    simp only [answer, Model.put, Model.empty, AList.lookup_empty,
                      Option.isSome_none, Bool.false_eq_true, if_false, Model.insert,
                      AList.lookup_insert]
                  change Result.record (.ok r') = Result.record
                    ((answer (.empty : Model idOf) (.put r)).2.get (keyOf idOf r) now).1 at hres
                  rw [Model.get, hheld] at hres
                  simp only [hlive, if_false] at hres
                  injection hres with hres
                  injection hres

theorem fsStore_refines_map_put_get :
    ∃ (y : FS × Disk) (m : Model zeroDigest),
      Runs ModelStep .empty
        [.call (.put (zeroRecord [7, 8, 9])) (.done (.ok ())),
          .call (.get zeroKey (zeroRecord []).id 0) (.record (.ok (zeroRecord [7, 8, 9])))] m ∧
      Refines zeroDigest 64 y.1 y.2 m := by
  obtain ⟨x, y, hopen, hrun⟩ :=
    put_then_get zeroDigest 64 (zeroRecord [7, 8, 9]) 0 (by decide) (by decide)
  obtain ⟨m, hm⟩ := fsStore_refines_map (fun _ h => by simp [emptyDisk] at h) hopen hrun
    (by simp [Event.WithinLimit, zeroRecord]) (by simp [Event.FitsHeader, zeroRecord])
  exact ⟨y, m, hm⟩

/-- A payload of `2 ^ 32` bytes is put without an error and comes back empty. -/
theorem fsStore_truncates_long_payload :
    ∃ (x y : FS × Disk) (events : List Event),
      Reopens zeroDigest (2 ^ 32) emptyDisk x ∧ Runs (Step zeroDigest (2 ^ 32)) x events y ∧
      events = [.call (.put (zeroRecord (List.replicate (2 ^ 32) 0))) (.done (.ok ())),
        .call (.get zeroKey (zeroRecord []).id 0) (.record (.ok (zeroRecord [])))] ∧
      (∀ e ∈ events, e.WithinLimit (2 ^ 32)) ∧
      ¬ ∃ m : Model zeroDigest, Runs ModelStep .empty events m := by
  let long := zeroRecord (List.replicate (2 ^ 32) 0)
  have hlen : long.payload.length = 2 ^ 32 := List.length_replicate
  obtain ⟨x, y, hopen, hrun⟩ := put_then_get zeroDigest (2 ^ 32) long 0 (by rw [hlen]; norm_num)
    (by change ¬ (1 : Int64) ≤ 0; decide)
  have hempty : { long with payload := long.payload.take (long.payload.length % 2 ^ 32) } =
      zeroRecord [] := by
    rw [hlen, Nat.mod_self, List.take_zero]
    rfl
  rw [hempty] at hrun
  refine ⟨x, y, _, hopen, hrun, rfl, ?_, ?_⟩
  · intro e he
    rcases List.mem_cons.mp he with rfl | he
    · change (long.payload.length : ℤ) ≤ 2 ^ 32
      rw [hlen]
      norm_num
    · rw [List.mem_singleton.mp he]
      trivial
  · rintro ⟨m, hm⟩
    have hsame := modelRuns_put_get hm (by change ¬ (1 : Int64) ≤ 0; decide)
    have hpayload := congrArg (fun r => r.payload.length) hsame
    simp only [hlen] at hpayload
    exact absurd hpayload (by simp [zeroRecord])

end Tactile.Relay.FsRefinement

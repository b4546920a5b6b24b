import Tactile.Publish.SiteThreads

/-!
Requests on sites that run on one node in any order: who holds a site's lock, and
what a request that holds it knows of the site.
-/

namespace Tactile.Publish.SiteLocks

open Tactile.Lib.Program Tactile.Lib.FiniteMap Tactile.Lib.Transition Tactile.Lib.Threads
open Tactile.Publish.Records Tactile.Publish.NodeOps Tactile.Publish.Handlers
open Tactile.Publish.SiteThreads
open Tactile.Publish.Quota (Own)
open Tactile.Publish.Sweep (getSite_putSite putSite_cases served_lock)
open Tactile.Publish.Retention (Quiet serves_quiet)

abbrev SitePool : Type := Pool NodeOp NodeAns Response Track Node

abbrev SiteEvent : Type := Event NodeOp NodeAns Track

/-- The threads that may start: requests on sites, at any time. -/
def StartSite (srv : Server) (_ : Node) (t : Track) (p : NodeM Response) : Prop :=
  ∃ req call, t = .start srv req call ∧ p = call.program srv req

/-- One step of concurrent requests on sites. -/
abbrev SiteStep (b : Backend) (srv : Server) : SitePool → SiteEvent → SitePool → Prop :=
  Step (Serves b srv.fileOf) observe (StartSite srv)

theorem startSite_guarded {srv : Server} (n : Node) (t : Track) (p : NodeM Response)
    (h : StartSite srv n t p) : Guarded srv (fun _ _ => True) p t := by
  obtain ⟨req, call, rfl, rfl⟩ := h
  exact program_guarded srv req call

/-- A request's lock is held, and the site's record is as it has seen it. -/
structure Holding (n : Node) (t : Track) : Prop where
  held : ∀ slug, t.locked = some slug → slug ∈ n.locks
  seen : ∀ slug found, t.locked = some slug → t.seen.site = some found →
    n.store.getSite slug = found

/-- Every site's lock has one holder at most, and the holders know the site. -/
structure Locked (x : SitePool) : Prop where
  own : Own x.shared.store
  threads : ∀ n th, x.threads.lookup n = some th → Holding x.shared th.track
  alone : ∀ n n' th th' slug, x.threads.lookup n = some th → x.threads.lookup n' = some th' →
    th.track.locked = some slug → th'.track.locked = some slug → n = n'

section Effects

variable {b : Backend} {fileOf : String → String} {srv : Server}

theorem sites_deleteSite (s : Store) (slug : String) :
    (s.deleteSite b fileOf slug).disk.sites = s.disk.sites.erase slug := by
  cases b with
  | fs => rfl
  | s3 =>
      change (Store.S3.deleteSite fileOf slug s).disk.sites = _
      rw [Store.S3.deleteSite]
      cases s.getSite slug with
      | none => rfl
      | some m => rfl

theorem getSite_deleteSite (s : Store) (slug slug' : String) :
    (s.deleteSite b fileOf slug).getSite slug' = if slug' = slug then none else s.getSite slug' := by
  rw [Store.getSite, sites_deleteSite]
  exact lookup_erase_eq ..

/-- What an operation does to the site records: it leaves them, writes one or
removes one. -/
theorem served_records {n n' : Node} {o : NodeOp} {ans : NodeAns o}
    (hserves : Serves b fileOf n o ans n') :
    n'.store.disk.sites = n.store.disk.sites ∨
      (∃ m, (⟨o, ans⟩ : Call NodeOp NodeAns) = ⟨.putSite m, .ok ()⟩ ∧ m.slug ≠ "" ∧
        n'.store = (n.store.putSite b m true).2) ∨
      ∃ slug, o = .deleteSite slug ∧ n'.store = n.store.deleteSite b fileOf slug := by
  cases hserves with
  | putSite _ m written =>
      rcases putSite_cases (b := b) n.store m written with hsame | ⟨hslug, hput⟩
      · rw [hsame]
        exact .inl rfl
      · rw [hput]
        exact .inr (.inl ⟨m, rfl, hslug, rfl⟩)
  | deleteSite _ slug => exact .inr (.inr ⟨slug, rfl, rfl⟩)
  | putDeploy _ d written =>
      cases written with
      | false => exact .inl rfl
      | true => exact .inl rfl
  | deleteDeploy _ slug id deleted =>
      cases deleted with
      | false => exact .inl rfl
      | true => exact .inl rfl
  | setDomain _ domain slug written =>
      have hserves : Serves b fileOf n (.setDomain domain slug) _ _ :=
        .setDomain n domain slug written
      exact .inl (serves_quiet (o := .setDomain domain slug) trivial hserves).1
  | putObject _ hash data written =>
      have hserves : Serves b fileOf n (.putObject hash data) _ _ := .putObject n hash data written
      exact .inl (serves_quiet (o := .putObject hash data) trivial hserves).1
  | _ => exact .inl rfl

/-- A request writes the record of the site that it has locked. -/
theorem Holding.locked_put {n : Node} {t : Track} (h : Holding n t) (hown : Own n.store)
    {m : SiteMeta} (hguard : Guard srv t (.putSite m)) : t.locked = some m.slug := by
  obtain ⟨slug, hlocked, _, hcreates | ⟨m₀, hupdates⟩⟩ := hguard
  · rw [hcreates.slug]
    exact hlocked
  · have hm₀ := h.seen slug (some m₀) hlocked hupdates.seen
    rw [hupdates.slug, hown slug m₀ hm₀]
    exact hlocked

/-- The site of a record that a request writes: free, or as the request has seen
it. -/
theorem guard_putSite {n : Node} {t : Track} {m : SiteMeta} (hown : Own n.store)
    (hholding : Holding n t) (hguard : Guard srv t (.putSite m)) :
    (Creates srv t m.slug m ∧ n.store.getSite m.slug = none) ∨
      ∃ m₀, Updates srv t m₀ m ∧ n.store.getSite m.slug = some m₀ := by
  have hlocked := hholding.locked_put hown hguard
  obtain ⟨slug, hl, _, hcreates | ⟨m₀, hupdates⟩⟩ := hguard
  · have hslug : slug = m.slug := hcreates.slug.symm
    subst hslug
    exact .inl ⟨hcreates, hholding.seen m.slug none hl hcreates.free⟩
  · exact .inr ⟨m₀, hupdates, hholding.seen m.slug (some m₀) hlocked hupdates.seen⟩

/-- An operation leaves the records of the sites that its request has not
locked. -/
theorem Holding.getSite_other {n n' : Node} {t : Track} {o : NodeOp} {ans : NodeAns o}
    (h : Holding n t) (hown : Own n.store) (hguard : Guard srv t o)
    (hserves : Serves b fileOf n o ans n') {slug : String} (hne : t.locked ≠ some slug) :
    n'.store.getSite slug = n.store.getSite slug := by
  rcases served_records hserves with hsites | ⟨m, hcall, hslug, hput⟩ | ⟨slug', rfl, hdel⟩
  · rw [Store.getSite, hsites, Store.getSite]
  · cases hcall
    rw [hput, getSite_putSite hslug, if_neg]
    rintro rfl
    exact hne (h.locked_put hown hguard)
  · rw [hdel, getSite_deleteSite, if_neg]
    rintro rfl
    exact hne hguard.1

theorem served_own {n n' : Node} {o : NodeOp} {ans : NodeAns o} (hown : Own n.store)
    (hserves : Serves b fileOf n o ans n') : Own n'.store := by
  intro slug x hx
  rcases served_records hserves with hsites | ⟨m, _, hslug, hput⟩ | ⟨slug', _, hdel⟩
  · rw [Store.getSite, hsites] at hx
    exact hown slug x hx
  · rw [hput, getSite_putSite hslug] at hx
    split at hx
    next heq =>
      cases hx
      exact heq.symm
    next => exact hown slug x hx
  · rw [hdel, getSite_deleteSite] at hx
    split at hx
    next => cases hx
    next => exact hown slug x hx

theorem observe_fixed (t : Track) (o : NodeOp) (ans : NodeAns o) :
    (observe t o ans).call = t.call ∧ (observe t o ans).signer = t.signer := by
  cases o with
  | getSite slug =>
      rw [observe]
      split
      next => exact ⟨rfl, rfl⟩
      next =>
        split
        next => exact ⟨rfl, rfl⟩
        next => exact ⟨rfl, rfl⟩
  | listSites =>
      cases ans with
      | error e => exact ⟨rfl, rfl⟩
      | ok sites => exact ⟨rfl, rfl⟩
  | setDomain =>
      cases ans with
      | error e => exact ⟨rfl, rfl⟩
      | ok => exact ⟨rfl, rfl⟩
  | _ => exact ⟨rfl, rfl⟩

theorem observe_locked {t : Track} {o : NodeOp} {ans : NodeAns o} {slug : String}
    (hlocked : (observe t o ans).locked = some slug) : t.locked = some slug ∨ o = .lock slug := by
  cases o with
  | lock slug' =>
      cases hlocked
      exact .inr rfl
  | unlock => cases hlocked
  | getSite slug' =>
      rw [observe] at hlocked
      split at hlocked
      next => exact .inl hlocked
      next =>
        split at hlocked
        next => exact .inl hlocked
        next => exact .inl hlocked
  | listSites =>
      cases ans with
      | error e => exact .inl hlocked
      | ok sites => exact .inl hlocked
  | setDomain =>
      cases ans with
      | error e => exact .inl hlocked
      | ok => exact .inl hlocked
  | _ => exact .inl hlocked

/-- A lock that another request holds stays held. -/
theorem served_locks {n n' : Node} {t : Track} {o : NodeOp} {ans : NodeAns o}
    (hguard : Guard srv t o) (hserves : Serves b fileOf n o ans n') {slug : String}
    (hlocked : slug ∈ n.locks) (hne : t.locked ≠ some slug) : slug ∈ n'.locks := by
  cases hserves with
  | lock => exact List.mem_cons_of_mem _ hlocked
  | unlock _ slug' =>
      refine List.mem_filter.mpr ⟨hlocked, decide_eq_true fun heq => hne ?_⟩
      rw [heq]
      exact hguard.locked
  | _ => exact hlocked

/-- The request of an operation, after it. -/
theorem Holding.self {n n' : Node} {t : Track} {o : NodeOp} {ans : NodeAns o} (h : Holding n t)
    (hserves : Serves b fileOf n o ans n') : Holding n' (observe t o ans) := by
  have hquiet : ∀ {o : NodeOp} {ans : NodeAns o} {n' : Node}, Quiet o →
      Serves b fileOf n o ans n' → ∀ slug, n'.store.getSite slug = n.store.getSite slug := by
    intro o ans n' ho hserves slug
    rw [Store.getSite, (serves_quiet ho hserves).1, Store.getSite]
  cases hserves with
  | lock _ slug _ =>
      refine ⟨fun slug' hl => ?_, fun _ _ _ hs => by cases hs⟩
      cases hl
      exact List.mem_cons_self
  | unlock => exact ⟨(fun _ hl => by cases hl), fun _ _ hl => by cases hl⟩
  | getSite _ slug =>
      rw [observe]
      split
      next heq =>
        refine ⟨h.held, fun slug' found hl hs => ?_⟩
        have hsame : slug' = slug := Option.some.inj (hl.symm.trans heq)
        rw [hsame]
        exact Option.some.inj hs
      next =>
        split
        next => exact ⟨h.held, h.seen⟩
        next => exact h
  | putSite _ m written => exact ⟨fun slug hl => h.held slug hl, fun _ _ _ hs => by cases hs⟩
  | deleteSite _ slug => exact ⟨fun slug hl => h.held slug hl, fun _ _ _ hs => by cases hs⟩
  | setDomain _ domain slug written =>
      have hsame := hquiet (o := .setDomain domain slug) trivial (.setDomain n domain slug written)
      cases hans : (n.store.setDomain fileOf domain slug written).1 with
      | error e => exact ⟨h.held, fun sl found hl hs => (hsame sl).trans (h.seen sl found hl hs)⟩
      | ok => exact ⟨h.held, fun sl found hl hs => (hsame sl).trans (h.seen sl found hl hs)⟩
  | putDeploy _ d written =>
      refine ⟨h.held, fun sl found hl hs => ?_⟩
      rw [← h.seen sl found hl hs]
      cases written with
      | false => rfl
      | true => rfl
  | deleteDeploy _ slug id deleted =>
      refine ⟨h.held, fun sl found hl hs => ?_⟩
      rw [← h.seen sl found hl hs]
      cases deleted with
      | false => rfl
      | true => rfl
  | putObject _ hash data written =>
      have hsame := hquiet (o := .putObject hash data) trivial (.putObject n hash data written)
      exact ⟨h.held, fun sl found hl hs => (hsame sl).trans (h.seen sl found hl hs)⟩
  | _ => exact ⟨h.held, h.seen⟩

end Effects

section Steps

variable {b : Backend} {srv : Server}

theorem Locked.start {x : SitePool} (h : Locked x) {n : ℕ} {t : Track} {p : NodeM Response}
    (hstart : StartSite srv x.shared t p) :
    Locked { x with threads := x.threads.insert n ⟨p, t⟩ } := by
  obtain ⟨req, call, rfl, _⟩ := hstart
  refine ⟨h.own, fun n' th hth => ?_, fun n₁ n₂ th₁ th₂ slug h₁ h₂ hl₁ hl₂ => ?_⟩
  · rw [lookup_insert_eq] at hth
    split at hth
    next =>
      cases hth
      exact ⟨(fun _ hl => nomatch hl), fun _ _ hl => nomatch hl⟩
    next => exact h.threads n' th hth
  · rw [lookup_insert_eq] at h₁ h₂
    split at h₁
    next =>
      cases h₁
      cases hl₁
    next =>
      split at h₂
      next =>
        cases h₂
        cases hl₂
      next => exact h.alone n₁ n₂ th₁ th₂ slug h₁ h₂ hl₁ hl₂

theorem Locked.op {x : SitePool} (h : Locked x) {n : ℕ} {t : Track} {o : NodeOp}
    {next : NodeAns o → NodeM Response} {ans : NodeAns o} {s' : Node}
    (hthread : x.threads.lookup n = some ⟨.call o next, t⟩) (hguard : Guard srv t o)
    (hserves : Serves b srv.fileOf x.shared o ans s') :
    Locked { shared := s', threads := x.threads.insert n ⟨next ans, observe t o ans⟩ } := by
  have hself : Holding x.shared t := h.threads n _ hthread
  -- no other request has the lock that this one has after the operation
  have hothers : ∀ n' th slug, n' ≠ n → x.threads.lookup n' = some th →
      th.track.locked = some slug → (observe t o ans).locked ≠ some slug := by
    intro n' th slug hne hth hlocked hobs
    rcases observe_locked hobs with hold | rfl
    · exact hne (h.alone n' n th _ slug hth hthread hlocked hold)
    · exact served_lock hserves ((h.threads n' th hth).held slug hlocked)
  refine ⟨served_own h.own hserves, fun n' th hth => ?_, fun n₁ n₂ th₁ th₂ slug h₁ h₂ hl₁ hl₂ => ?_⟩
  · rw [lookup_insert_eq] at hth
    split at hth
    next =>
      cases hth
      exact hself.self hserves
    next hne =>
      have hkept := h.threads n' th hth
      have hlocked : ∀ slug, th.track.locked = some slug → t.locked ≠ some slug :=
        fun slug hl ht => hne (h.alone n' n th _ slug hth hthread hl ht)
      refine ⟨fun slug hl => ?_, fun slug found hl hs => ?_⟩
      · exact served_locks hguard hserves (hkept.held slug hl) (hlocked slug hl)
      · exact (hself.getSite_other h.own hguard hserves (hlocked slug hl)).trans
          (hkept.seen slug found hl hs)
  · rw [lookup_insert_eq] at h₁ h₂
    split at h₁
    next heq₁ =>
      split at h₂
      next heq₂ => exact heq₁.trans heq₂.symm
      next hne₂ =>
        cases h₁
        exact absurd hl₁ (hothers n₂ th₂ slug hne₂ h₂ hl₂)
    next hne₁ =>
      split at h₂
      next =>
        cases h₂
        exact absurd hl₂ (hothers n₁ th₁ slug hne₁ h₁ hl₁)
      next => exact h.alone n₁ n₂ th₁ th₂ slug h₁ h₂ hl₁ hl₂

theorem locked_empty {n : Node} (hown : Own n.store) : Locked (⟨n, ∅⟩ : SitePool) where
  own := hown
  threads := fun _ _ hth => by simp at hth
  alone := fun _ _ _ _ _ hth => by simp at hth

end Steps

end Tactile.Publish.SiteLocks

import Tactile.Publish.SiteLocks

/-!
The caps on how many sites an identity has and how many domains its sites list,
under concurrent requests.
-/

namespace Tactile.Publish.Counts

open Tactile.Lib.Program Tactile.Lib.FiniteMap Tactile.Lib.Transition Tactile.Lib.Threads
open Tactile.Publish.Records Tactile.Publish.NodeOps Tactile.Publish.Handlers
open Tactile.Publish.SiteThreads Tactile.Publish.SiteLocks
open Tactile.Publish.Quota (Own)
open Tactile.Publish.Sweep (getSite_putSite)
open Tactile.Publish.Routing (sampleServer sampleReq sampleKey sampleSite)

/-- How many sites the identity owns. -/
def ownedSites (s : Store) (owner : PubKey) : ℤ := sitesOf owner (values s.disk.sites)

/-- How many domains the identity's sites list. -/
def attachedDomains (s : Store) (owner : PubKey) : ℤ := domainsOf owner (values s.disk.sites)

/-- Every identity is within the caps on sites and domains. -/
def WithinCaps (srv : Server) (s : Store) : Prop :=
  ∀ owner, ownedSites s owner ≤ srv.cfg.maxSites ∧ attachedDomains s owner ≤ srv.cfg.maxDomains

/-- The node knows every site of its store. -/
def Indexed (b : Backend) (s : Store) : Prop :=
  b = .s3 → ∀ slug m, s.getSite slug = some m → slug ∈ s.mem.sites

/-- When a request of this kind counts, no other one by its signer is between its
count and its write. -/
def Apart (raises : SiteCall → Bool) (x : SitePool) : SiteEvent → Prop
  | .op n .listSites _ => ∀ th n' th', x.threads.lookup n = some th →
      x.threads.lookup n' = some th' → n' ≠ n → th'.track.signer = th.track.signer →
      raises th.track.call = true → raises th'.track.call = true → th'.track.seen.listed = none
  | _ => True

/-- No two creations by one identity, and no two attachments, overlap between the
count and the write. -/
def CountsApart (x : SitePool) (e : SiteEvent) : Prop :=
  Apart SiteCall.creates x e ∧ Apart SiteCall.attaches x e

/-- A cap: the requests that raise what is counted, how much a site counts for
and the limit. -/
structure Cap where
  raises : SiteCall → Bool
  weigh : SiteMeta → ℤ
  limit : ℤ
  nonneg : ∀ m, 0 ≤ weigh m

def siteCap (srv : Server) : Cap :=
  ⟨SiteCall.creates, fun _ => 1, srv.cfg.maxSites, fun _ => Int.one_nonneg⟩

def domainCap (srv : Server) : Cap :=
  ⟨SiteCall.attaches, fun m => m.domains.length, srv.cfg.maxDomains, fun _ => Int.natCast_nonneg _⟩

namespace Cap

variable (cap : Cap)

/-- What a site counts for under an identity. -/
def weight (owner : PubKey) (m : SiteMeta) : ℤ := if m.owner = owner then cap.weigh m else 0

def count (owner : PubKey) (sites : List SiteMeta) : ℤ := (sites.map (cap.weight owner)).sum

/-- What an identity has in the store. -/
def owned (s : Store) (owner : PubKey) : ℤ := cap.count owner (values s.disk.sites)

variable {cap}

theorem weight_nonneg (owner : PubKey) (m : SiteMeta) : 0 ≤ cap.weight owner m := by
  rw [weight]
  split
  next => exact cap.nonneg m
  next => exact le_rfl

theorem owned_eq_total (s : Store) (owner : PubKey) :
    cap.owned s owner = total s.disk.sites fun _ m => cap.weight owner m :=
  (total_eq_sum_values s.disk.sites (cap.weight owner)).symm

theorem count_filter (owner : PubKey) (sites : List SiteMeta) :
    cap.count owner sites = ((sites.filter fun m => m.owner = owner).map cap.weigh).sum := by
  induction sites with
  | nil => rfl
  | cons m sites ih =>
      have hcons : cap.count owner (m :: sites) = cap.weight owner m + cap.count owner sites :=
        List.sum_cons
      rw [hcons, ih, weight, List.filter_cons]
      split
      next howner => simp [howner]
      next hother => simp [hother]

theorem siteCap_count (srv : Server) (owner : PubKey) (sites : List SiteMeta) :
    (siteCap srv).count owner sites = sitesOf owner sites := by
  rw [count_filter, sitesOf]
  simp [siteCap]

theorem domainCap_count (srv : Server) (owner : PubKey) (sites : List SiteMeta) :
    (domainCap srv).count owner sites = domainsOf owner sites := by
  rw [count_filter]
  rfl

/-- A listing of the sites counts all that the identity has. -/
theorem owned_le_count {b : Backend} {s : Store} (hindexed : Indexed b s) {sites : List SiteMeta}
    (hperm : sites.Perm (s.listSites b)) (owner : PubKey) :
    cap.owned s owner ≤ cap.count owner sites := by
  rw [count, (hperm.map _).sum_eq]
  cases b with
  | fs => exact le_rfl
  | s3 =>
      rw [owned_eq_total]
      exact total_le_sum_lookups _ _ (weight_nonneg owner) _ (hindexed rfl)

/-- The write of a site's record that keeps the site's owner. -/
theorem owned_putSite {b : Backend} {s : Store} {m : SiteMeta} (hslug : m.slug ≠ "")
    (owner : PubKey) : cap.owned (s.putSite b m true).2 owner =
      cap.owned s owner - (s.getSite m.slug).elim 0 (cap.weight owner) + cap.weight owner m := by
  rw [owned_eq_total, owned_eq_total, Store.putSite, if_neg hslug, if_neg (by decide)]
  exact total_insert ..

theorem owned_deleteSite {b : Backend} {fileOf : String → String} (s : Store) (slug : String)
    (owner : PubKey) : cap.owned (s.deleteSite b fileOf slug) owner ≤ cap.owned s owner := by
  rw [owned_eq_total, owned_eq_total, sites_deleteSite, total_erase]
  have hweight : 0 ≤ (s.disk.sites.lookup slug).elim 0 (cap.weight owner) := by
    cases s.disk.sites.lookup slug with
    | none => exact le_rfl
    | some m => exact weight_nonneg owner m
  exact sub_le_self _ hweight

end Cap

/-- What the write of a record does to a count: the site counts for no more than
it did, or the request raises the count by one and has counted less than the
limit. -/
structure Fits (cap : Cap) (s : Store) (t : Track) (m : SiteMeta) : Prop where
  kept : ∀ m₀, s.getSite m.slug = some m₀ → m₀.owner = m.owner
  weighs : cap.weigh m ≤ (s.getSite m.slug).elim 0 cap.weigh ∨
    (cap.raises t.call = true ∧ cap.weigh m = (s.getSite m.slug).elim 0 cap.weigh + 1 ∧
      ∃ sites, t.seen.listed = some sites ∧ cap.count m.owner sites < cap.limit)

/-- The writes that the guard admits fit the cap. -/
def Guards (srv : Server) (cap : Cap) : Prop :=
  ∀ n t m, Own n.store → Holding n t → Guard srv t (.putSite m) → Fits cap n.store t m

section Writes

variable {srv : Server}

theorem siteCap_guards : Guards srv (siteCap srv) := by
  intro n t m hown hholding hguard
  rcases guard_putSite hown hholding hguard with ⟨hcreates, hfree⟩ | ⟨m₀, hupdates, hm₀⟩
  · refine ⟨fun m₀ hm₀ => ?_, .inr ⟨hcreates.call, ?_, ?_⟩⟩
    · rw [hfree] at hm₀
      cases hm₀
    · rw [hfree]
      rfl
    · obtain ⟨sites, hlisted, hless⟩ := hcreates.counted
      exact ⟨sites, hlisted, (Cap.siteCap_count ..).symm ▸ hless⟩
  · refine ⟨fun m₁ hm₁ => ?_, .inl ?_⟩
    · rw [hm₀] at hm₁
      cases hm₁
      exact hupdates.owner.symm
    · rw [hm₀]
      exact le_rfl

theorem domainCap_guards : Guards srv (domainCap srv) := by
  intro n t m hown hholding hguard
  rcases guard_putSite hown hholding hguard with ⟨hcreates, hfree⟩ | ⟨m₀, hupdates, hm₀⟩
  · refine ⟨fun m₀ hm₀ => ?_, .inl ?_⟩
    · rw [hfree] at hm₀
      cases hm₀
    · rw [hfree]
      change (m.domains.length : ℤ) ≤ 0
      rw [hcreates.domains]
      exact le_rfl
  · refine ⟨fun m₁ hm₁ => ?_, ?_⟩
    · rw [hm₀] at hm₁
      cases hm₁
      exact hupdates.owner.symm
    · rw [hm₀]
      rcases hupdates.domains with hle | ⟨hone, hcall, sites, hlisted, hless⟩
      · exact .inl (Int.ofNat_le.mpr hle)
      · refine .inr ⟨hcall, ?_, sites, hlisted, (Cap.domainCap_count ..).symm ▸ hless⟩
        change (m.domains.length : ℤ) = m₀.domains.length + 1
        rw [hone]
        exact Int.natCast_succ _

end Writes

/-- The invariant of concurrent requests for a cap: what has been counted is not
outdated, and one request of an identity at most has counted and not written. -/
structure Capped (b : Backend) (cap : Cap) (x : SitePool) : Prop where
  locked : Locked x
  indexed : Indexed b x.shared.store
  within : ∀ owner, cap.owned x.shared.store owner ≤ cap.limit
  counted : ∀ n th sites owner, x.threads.lookup n = some th → cap.raises th.track.call = true →
    th.track.seen.listed = some sites → th.track.signer = some owner →
    cap.owned x.shared.store owner ≤ cap.count owner sites
  alone : ∀ n n' th th', x.threads.lookup n = some th → x.threads.lookup n' = some th' →
    cap.raises th.track.call = true → cap.raises th'.track.call = true →
    th.track.seen.listed ≠ none → th'.track.seen.listed ≠ none →
    th.track.signer = th'.track.signer → n = n'

section Steps

variable {b : Backend} {srv : Server} {cap : Cap}

theorem Indexed.of_same {s s' : Store} (h : Indexed b s) (hsites : s'.disk.sites = s.disk.sites)
    (hpresent : s'.mem.sites = s.mem.sites) : Indexed b s' := by
  intro hb slug m hm
  rw [hpresent]
  rw [Store.getSite, hsites] at hm
  exact h hb slug m hm

theorem served_indexed {fileOf : String → String} {n n' : Node} {o : NodeOp} {ans : NodeAns o}
    (h : Indexed b n.store) (hserves : Serves b fileOf n o ans n') : Indexed b n'.store := by
  cases hserves with
  | putSite _ m written =>
      rcases Sweep.putSite_cases (b := b) n.store m written with hsame | ⟨hslug, hput⟩
      · rw [hsame]
        exact h
      · rw [hput]
        rintro rfl slug x hx
        rw [getSite_putSite hslug] at hx
        rw [Store.putSite, if_neg hslug, if_neg (by decide)]
        change slug ∈ Store.withSlug .s3 m.slug n.store.mem.sites
        rw [Store.withSlug]
        split at hx
        next heq =>
          rw [heq]
          split
          next hin => exact hin
          next => exact List.mem_cons_self
        next =>
          have hold := h rfl slug x hx
          split
          next => exact hold
          next => exact List.mem_cons_of_mem _ hold
  | deleteSite _ slug =>
      rintro rfl slug' x hx
      rw [getSite_deleteSite] at hx
      split at hx
      next => cases hx
      next hne =>
        have hold := h rfl slug' x hx
        change slug' ∈ (Store.S3.deleteSite fileOf slug n.store).mem.sites
        rw [Store.S3.deleteSite]
        cases n.store.getSite slug with
        | none => exact hold
        | some m => exact List.mem_filter.mpr ⟨hold, decide_eq_true hne⟩
  | putDeploy _ d written =>
      cases written with
      | false => exact h
      | true => exact h.of_same rfl rfl
  | deleteDeploy _ slug id deleted =>
      cases deleted with
      | false => exact h
      | true => exact h.of_same rfl rfl
  | setDomain _ domain slug written =>
      rw [Store.setDomain]
      split
      next => exact h
      next =>
        split
        next => exact h
        next => exact h.of_same rfl rfl
  | putObject _ hash data written =>
      rw [Store.putObject]
      split
      next => exact h
      next =>
        split
        next => exact h
        next =>
          refine h.of_same rfl ?_
          dsimp only
          split
          next => rfl
          next => rfl
  | deleteObject _ hash =>
      refine h.of_same rfl ?_
      rw [Store.deleteObject]
      dsimp only
      split
      next => rfl
      next => rfl
  | deleteDomain _ domain => exact h.of_same rfl rfl
  | _ => exact h

/-- What an operation does to what an identity has: nothing more, or one more for
the signer of a request that has counted less than the limit. -/
theorem served_owned {n n' : Node} {t : Track} {o : NodeOp} {ans : NodeAns o}
    (hguards : Guards srv cap) (hown : Own n.store) (hholding : Holding n t)
    (hguard : Guard srv t o) (hserves : Serves b srv.fileOf n o ans n') (owner : PubKey) :
    cap.owned n'.store owner ≤ cap.owned n.store owner ∨
      (cap.owned n'.store owner = cap.owned n.store owner + 1 ∧ t.signer = some owner ∧
        cap.raises t.call = true ∧ (∃ m, o = .putSite m) ∧
        ∃ sites, t.seen.listed = some sites ∧ cap.count owner sites < cap.limit) := by
  rcases served_records hserves with hsites | ⟨m, hcall, hslug, hput⟩ | ⟨slug, _, hdel⟩
  · left
    rw [Cap.owned, hsites]
    exact le_rfl
  · cases hcall
    have hfits := hguards n t m hown hholding hguard
    rw [hput, Cap.owned_putSite hslug]
    obtain ⟨_, _, hsigner, _⟩ := hguard
    rcases Decidable.em (m.owner = owner) with rfl | hother
    · have hold : (n.store.getSite m.slug).elim 0 (cap.weight m.owner) =
          (n.store.getSite m.slug).elim 0 cap.weigh := by
        cases hm₀ : n.store.getSite m.slug with
        | none => rfl
        | some m₀ => exact if_pos (hfits.kept m₀ hm₀)
      have hnew : cap.weight m.owner m = cap.weigh m := if_pos rfl
      rw [hold, hnew]
      rcases hfits.weighs with hle | ⟨hraises, hone, hcounted⟩
      · left
        omega
      · refine .inr ⟨?_, hsigner, hraises, ⟨m, rfl⟩, hcounted⟩
        omega
    · left
      have hold : (n.store.getSite m.slug).elim 0 (cap.weight owner) = 0 := by
        cases hm₀ : n.store.getSite m.slug with
        | none => rfl
        | some m₀ => exact if_neg (by rw [hfits.kept m₀ hm₀]; exact hother)
      have hnew : cap.weight owner m = 0 := if_neg hother
      rw [hold, hnew, sub_zero, add_zero]
  · left
    rw [hdel]
    exact Cap.owned_deleteSite n.store slug owner

/-- What a request has listed after an operation: what it had, and it has not
written a record, or the listing that the operation is. -/
theorem observe_listed {t : Track} {o : NodeOp} {ans : NodeAns o} {sites : List SiteMeta}
    (h : (observe t o ans).seen.listed = some sites) :
    (t.seen.listed = some sites ∧ ∀ m, o ≠ .putSite m) ∨
      (⟨o, ans⟩ : Call NodeOp NodeAns) = ⟨.listSites, .ok sites⟩ := by
  cases o with
  | lock | unlock | putSite | deleteSite => cases h
  | getSite slug =>
      rw [observe] at h
      split at h
      next => exact .inl ⟨h, fun _ ho => by cases ho⟩
      next =>
        split at h
        next => exact .inl ⟨h, fun _ ho => by cases ho⟩
        next => exact .inl ⟨h, fun _ ho => by cases ho⟩
  | listSites =>
      cases ans with
      | error e => exact .inl ⟨h, fun _ ho => by cases ho⟩
      | ok sites' =>
          cases h
          exact .inr rfl
  | setDomain =>
      cases ans with
      | error e => exact .inl ⟨h, fun _ ho => by cases ho⟩
      | ok => exact .inl ⟨h, fun _ ho => by cases ho⟩
  | _ => exact .inl ⟨h, fun _ ho => by cases ho⟩

theorem Capped.start {x : SitePool} (h : Capped b cap x) {n : ℕ} {t : Track}
    {p : NodeM Response} (hstart : StartSite srv x.shared t p) :
    Capped b cap { x with threads := x.threads.insert n ⟨p, t⟩ } := by
  have hlisted : t.seen.listed = none := by
    obtain ⟨req, call, rfl, _⟩ := hstart
    rfl
  refine ⟨h.locked.start hstart, h.indexed, h.within, fun n' th sites owner hth hr hl hs => ?_,
    fun n₁ n₂ th₁ th₂ h₁ h₂ hr₁ hr₂ hl₁ hl₂ hs => ?_⟩
  · rw [lookup_insert_eq] at hth
    split at hth
    next =>
      cases hth
      rw [hlisted] at hl
      cases hl
    next => exact h.counted n' th sites owner hth hr hl hs
  · rw [lookup_insert_eq] at h₁ h₂
    split at h₁
    next =>
      cases h₁
      exact absurd hlisted hl₁
    next =>
      split at h₂
      next =>
        cases h₂
        exact absurd hlisted hl₂
      next => exact h.alone n₁ n₂ th₁ th₂ h₁ h₂ hr₁ hr₂ hl₁ hl₂ hs

/-- What was counted is not outdated after an operation of a request. -/
theorem Capped.counted_op {x : SitePool} (h : Capped b cap x) (hguards : Guards srv cap) {n : ℕ}
    {t : Track} {o : NodeOp} {next : NodeAns o → NodeM Response} {ans : NodeAns o} {s' : Node}
    (hthread : x.threads.lookup n = some ⟨.call o next, t⟩) (hguard : Guard srv t o)
    (hserves : Serves b srv.fileOf x.shared o ans s') {n' : ℕ}
    {th : Thread NodeOp NodeAns Response Track} (hth : x.threads.lookup n' = some th)
    {sites : List SiteMeta} {owner : PubKey} (hraises : cap.raises th.track.call = true)
    (hlisted : th.track.seen.listed = some sites) (hsigner : th.track.signer = some owner)
    (hwrote : n' = n → ∀ m, o ≠ .putSite m) : cap.owned s'.store owner ≤ cap.count owner sites := by
  have hold := h.counted n' th sites owner hth hraises hlisted hsigner
  rcases served_owned hguards h.locked.own (h.locked.threads n _ hthread) hguard hserves owner with
    hle | ⟨_, ht, hr, ⟨m, rfl⟩, sites', hl, _⟩
  · exact le_trans hle hold
  · -- the request that writes is the only one of its signer that has counted
    have hsame : n' = n := by
      refine h.alone n' n th _ hth hthread hraises hr ?_ ?_ (hsigner.trans ht.symm)
      · rw [hlisted]
        exact fun h => nomatch h
      · change t.seen.listed ≠ none
        rw [hl]
        exact fun h => nomatch h
    exact absurd rfl (hwrote hsame m)

theorem Capped.op {x : SitePool} (h : Capped b cap x) (hguards : Guards srv cap) {n : ℕ}
    {t : Track} {o : NodeOp} {next : NodeAns o → NodeM Response} {ans : NodeAns o} {s' : Node}
    (hthread : x.threads.lookup n = some ⟨.call o next, t⟩) (hguard : Guard srv t o)
    (hserves : Serves b srv.fileOf x.shared o ans s') (hapart : Apart cap.raises x (.op n o ans)) :
    Capped b cap { shared := s', threads := x.threads.insert n ⟨next ans, observe t o ans⟩ } := by
  obtain ⟨hcall, hsigned⟩ := observe_fixed t o ans
  -- no other request of the signer has counted when this one has after the operation
  have hothers : ∀ n' th, n' ≠ n → x.threads.lookup n' = some th →
      cap.raises th.track.call = true → cap.raises t.call = true →
      th.track.signer = t.signer → (observe t o ans).seen.listed ≠ none →
      th.track.seen.listed = none := by
    intro n' th hne hth hr hrt hs hl
    obtain ⟨sites, hsites⟩ := Option.ne_none_iff_exists'.mp hl
    rcases observe_listed hsites with ⟨hold, _⟩ | hlist
    · refine Decidable.of_not_not fun hl' => hne ?_
      refine h.alone n' n th _ hth hthread hr hrt hl' ?_ hs
      change t.seen.listed ≠ none
      rw [hold]
      exact fun h => nomatch h
    · cases hlist
      exact hapart _ n' th hthread hth hne hs hrt hr
  refine ⟨h.locked.op hthread hguard hserves, served_indexed h.indexed hserves, fun owner => ?_,
    fun n' th sites owner hth hr hl hs => ?_, fun n₁ n₂ th₁ th₂ h₁ h₂ hr₁ hr₂ hl₁ hl₂ hs => ?_⟩
  · rcases served_owned hguards h.locked.own (h.locked.threads n _ hthread) hguard hserves owner
      with hle | ⟨hone, ht, hr, _, sites, hl, hless⟩
    · exact le_trans hle (h.within owner)
    · have hcounted := h.counted n _ sites owner hthread hr hl ht
      change cap.owned s'.store owner ≤ cap.limit
      omega
  · rw [lookup_insert_eq] at hth
    split at hth
    next heq =>
      cases hth
      subst heq
      dsimp only at hr hl hs
      rw [hcall] at hr
      rw [hsigned] at hs
      rcases observe_listed hl with ⟨hold, hwrote⟩ | hlist
      · exact h.counted_op hguards hthread hguard hserves hthread hr hold hs fun _ => hwrote
      · cases hlist
        cases hserves with
        | listSites _ _ hperm => exact Cap.owned_le_count h.indexed hperm owner
    next hne =>
      exact h.counted_op hguards hthread hguard hserves hth hr hl hs fun heq => absurd heq hne
  · rw [lookup_insert_eq] at h₁ h₂
    split at h₁
    next heq₁ =>
      split at h₂
      next heq₂ => exact heq₁.trans heq₂.symm
      next hne₂ =>
        cases h₁
        dsimp only at hr₁ hl₁ hs
        rw [hcall] at hr₁
        rw [hsigned] at hs
        exact absurd (hothers n₂ th₂ hne₂ h₂ hr₂ hr₁ hs.symm hl₁) hl₂
    next hne₁ =>
      split at h₂
      next =>
        cases h₂
        dsimp only at hr₂ hl₂ hs
        rw [hcall] at hr₂
        rw [hsigned] at hs
        exact absurd (hothers n₁ th₁ hne₁ h₁ hr₁ hr₂ hs hl₂) hl₁
      next => exact h.alone n₁ n₂ th₁ th₂ h₁ h₂ hr₁ hr₂ hl₁ hl₂ hs

end Steps

section Runs

variable {b : Backend} {srv : Server}

theorem Capped.runs {cap : Cap} (hguards : Guards srv cap) {n : Node} {x : SitePool}
    {es : List SiteEvent} (hown : Own n.store) (hindexed : Indexed b n.store)
    (hwithin : ∀ owner, cap.owned n.store owner ≤ cap.limit)
    (hrun : Runs (fun x e y => SiteStep b srv x e y ∧ Apart cap.raises x e) ⟨n, ∅⟩ es x) :
    Capped b cap x := by
  have hinit : Capped b cap (⟨n, ∅⟩ : SitePool) :=
    ⟨locked_empty hown, hindexed, hwithin, fun _ _ _ _ hth => by simp at hth,
      fun _ _ _ _ hth => by simp at hth⟩
  have hstart : ∀ (x : SitePool) n t p, Capped b cap x → x.threads.lookup n = none →
      StartSite srv x.shared t p → Apart cap.raises x (.start n t) →
      Capped b cap { x with threads := x.threads.insert n ⟨p, t⟩ } :=
    fun x n t p hx _ hp _ => hx.start hp
  refine (invariant startSite_guarded hstart ?_ hrun (guarantees_empty n) hinit).2
  intro x n t o next ans s' hx hthread hguard hserves hapart
  exact hx.op hguards hthread hguard hserves hapart

/-- In every run of concurrent requests in which no two creations by one identity
overlap between count and write, and no two attachments, every identity is within
the caps in every state reached. -/
theorem counts_within_caps (b : Backend) (srv : Server) (n : Node) (x : SitePool)
    (es : List SiteEvent) (hown : Own n.store) (hindexed : Indexed b n.store)
    (hwithin : WithinCaps srv n.store)
    (hrun : Runs (fun x e y => SiteStep b srv x e y ∧ CountsApart x e) ⟨n, ∅⟩ es x) :
    WithinCaps srv x.shared.store := by
  intro owner
  constructor
  · have hcapped : Capped b (siteCap srv) x := by
      refine Capped.runs siteCap_guards hown hindexed (fun owner => ?_)
        (hrun.mono fun _ _ _ h => ⟨h.1, h.2.1⟩)
      rw [Cap.owned, Cap.siteCap_count]
      exact (hwithin owner).1
    rw [ownedSites, ← Cap.siteCap_count srv]
    exact hcapped.within owner
  · have hcapped : Capped b (domainCap srv) x := by
      refine Capped.runs domainCap_guards hown hindexed (fun owner => ?_)
        (hrun.mono fun _ _ _ h => ⟨h.1, h.2.2⟩)
      rw [Cap.owned, Cap.domainCap_count]
      exact (hwithin owner).2
    rw [attachedDomains, ← Cap.domainCap_count srv]
    exact hcapped.within owner

end Runs

/-- The sample server with a cap of one site. -/
def oneSiteServer : Server :=
  { sampleServer with cfg := { sampleServer.cfg with maxSites := 1 } }

/-- A request on a site by the holder of the sample key. -/
def requestOn (slug : String) : Request := { sampleReq with slug := slug }

/-- The event that starts the creation of a site. -/
def createStart (n : ℕ) (slug : String) : SiteEvent :=
  .start n (.start oneSiteServer (requestOn slug) (.putSite (some "") false))

/-- The node that has just opened an empty store. -/
def emptyNode : Node := Node.start .fs ⟨∅, ∅, ∅, ∅⟩

theorem withinCaps_emptyNode : WithinCaps oneSiteServer emptyNode.store := by
  intro owner
  constructor
  · exact Int.one_nonneg
  · change (0 : ℤ) ≤ 5
    decide

theorem counts_within_caps_create : ∃ es x,
    Runs (fun x e y => SiteStep .fs oneSiteServer x e y ∧ CountsApart x e) ⟨emptyNode, ∅⟩ es x ∧
    x.shared.store.getSite "a" = some (sampleSite []) ∧
    WithinCaps oneSiteServer x.shared.store := by
  have hrun : ∃ x, Runs (fun x e y => SiteStep .fs oneSiteServer x e y ∧ CountsApart x e)
      ⟨emptyNode, ∅⟩
      [createStart 1 "a", .op 1 (.lock "a") (), .op 1 (.getSite "a") none,
        .op 1 .listSites (.ok []), .op 1 .now (0 : ℤ), .op 1 .now (0 : ℤ),
        .op 1 (.putSite (sampleSite [])) (.ok ())] x ∧
      x.shared.store.getSite "a" = some (sampleSite []) := by
    refine ⟨_, .cons ⟨.start rfl ⟨requestOn "a", _, rfl, rfl⟩, trivial, trivial⟩ <|
      .cons ⟨.op rfl (.lock _ _ (by decide)), trivial, trivial⟩ <|
      .cons ⟨.op rfl (.getSite _ _), trivial, trivial⟩ <|
      .cons ⟨.op rfl (.listSites _ _ (List.Perm.refl _)), ?_, ?_⟩ <|
      .cons ⟨.op rfl (.now _ _), trivial, trivial⟩ <|
      .cons ⟨.op rfl (.now _ _), trivial, trivial⟩ <|
      .cons ⟨.op rfl (.putSite _ _ true), trivial, trivial⟩ <| .nil _, rfl⟩
    all_goals
      intro th n' th' _ hth' hne
      simp only [lookup_insert_eq, if_neg hne, AList.lookup_empty] at hth'
      cases hth'
  obtain ⟨x, hrun, ha⟩ := hrun
  refine ⟨_, x, hrun, ha, counts_within_caps .fs oneSiteServer emptyNode x _ ?_ nofun
    withinCaps_emptyNode hrun⟩
  intro slug m hm
  simp [emptyNode, Node.start, Store.load, Store.getSite] at hm

/-- Two creations by one identity that both count before either writes give it two
sites with a cap of one. -/
theorem creations_exceed_cap : ∃ es x,
    Runs (SiteStep .fs oneSiteServer) ⟨emptyNode, ∅⟩ es x ∧
    WithinCaps oneSiteServer emptyNode.store ∧ ownedSites x.shared.store sampleKey = 2 ∧
    ¬ WithinCaps oneSiteServer x.shared.store := by
  have hrun : ∃ x, Runs (SiteStep .fs oneSiteServer) ⟨emptyNode, ∅⟩
      [createStart 1 "a", createStart 2 "b", .op 1 (.lock "a") (), .op 1 (.getSite "a") none,
        .op 1 .listSites (.ok []), .op 2 (.lock "b") (), .op 2 (.getSite "b") none,
        .op 2 .listSites (.ok []), .op 2 .now (0 : ℤ), .op 2 .now (0 : ℤ),
        .op 2 (.putSite { sampleSite [] with slug := "b" }) (.ok ()), .op 1 .now (0 : ℤ),
        .op 1 .now (0 : ℤ), .op 1 (.putSite (sampleSite [])) (.ok ())] x ∧
      ownedSites x.shared.store sampleKey = 2 := by
    refine ⟨_, .cons (.start rfl ⟨requestOn "a", _, rfl, rfl⟩) <|
      .cons (.start rfl ⟨requestOn "b", _, rfl, rfl⟩) <|
      .cons (.op rfl (.lock _ _ (by decide))) <| .cons (.op rfl (.getSite _ _)) <|
      .cons (.op rfl (.listSites _ _ (List.Perm.refl _))) <|
      .cons (.op rfl (.lock _ _ (by decide))) <| .cons (.op rfl (.getSite _ _)) <|
      .cons (.op rfl (.listSites _ _ (List.Perm.refl _))) <| .cons (.op rfl (.now _ _)) <|
      .cons (.op rfl (.now _ _)) <| .cons (.op rfl (.putSite _ _ true)) <|
      .cons (.op rfl (.now _ _)) <| .cons (.op rfl (.now _ _)) <|
      .cons (.op rfl (.putSite _ _ true)) <| .nil _, ?_⟩
    decide
  obtain ⟨x, hrun, htwo⟩ := hrun
  refine ⟨_, x, hrun, withinCaps_emptyNode, htwo, fun h => ?_⟩
  have hle := (h sampleKey).1
  rw [htwo] at hle
  exact absurd hle (by decide)

end Tactile.Publish.Counts

import Tactile.Publish.SiteLocks

/-!
Who changes a site: under concurrent requests, the identity that owns it when the
change is written.
-/

namespace Tactile.Publish.Owners

open Tactile.Lib.Program Tactile.Lib.FiniteMap Tactile.Lib.Transition Tactile.Lib.Threads
open Tactile.Publish.Records Tactile.Publish.NodeOps Tactile.Publish.Handlers
open Tactile.Publish.SiteThreads Tactile.Publish.SiteLocks
open Tactile.Publish.Domains (setDomain_cases)
open Tactile.Publish.Quota (Own claimedNode)
open Tactile.Publish.Sweep (getSite_putSite putSite_answers)
open Tactile.Publish.Routing (sampleServer sampleReq sampleKey sampleSite)

/-- The site's record, its manifests and the domains that resolve to it are as
they were. -/
structure Untouched (s s' : Store) (slug : String) : Prop where
  record : s'.getSite slug = s.getSite slug
  deploys : ∀ id, s'.getDeploy slug id = s.getDeploy slug id
  domains : ∀ d, s'.resolveDomain d = some slug ↔ s.resolveDomain d = some slug

/-- The identity that owns a site when a change is written: the owner in the
site's record, or in its new record when the change creates the site. -/
def ownerAt (s s' : Store) (slug : String) : Option PubKey :=
  ((s.getSite slug).or (s'.getSite slug)).map SiteMeta.owner

/-- The event is an operation of a request that the identity has signed. -/
def SignedBy (x : SitePool) (e : SiteEvent) (owner : PubKey) : Prop :=
  ∃ n o ans th, e = .op n o ans ∧ x.threads.lookup n = some th ∧ th.track.signer = some owner

/-- Every site that a step changes belongs to the signer of the request. -/
def ByOwner (x : SitePool) (e : SiteEvent) (y : SitePool) : Prop :=
  ∀ slug owner, ownerAt x.shared.store y.shared.store slug = some owner →
    Untouched x.shared.store y.shared.store slug ∨ SignedBy x e owner

/-- No site is claimed while a deletion of it by another identity, which has found
the site to be its signer's, has yet to remove it. -/
def Unclaimed (x : SitePool) : SiteEvent → Prop
  | .op _ (.putSite m) _ => x.shared.store.getSite m.slug = none →
      ∀ n th, x.threads.lookup n = some th → th.track.pending = some m.slug →
        th.track.signer = some m.owner
  | _ => True

/-- The write of a site's record that follows the deletion of a domain's mapping
does not fail. -/
def Removes (x : SitePool) : SiteEvent → Prop
  | .op n (.putSite _) (.error _) => ∀ th, x.threads.lookup n = some th →
      th.track.seen.dropped = none
  | _ => True

def Orderly (x : SitePool) (e : SiteEvent) : Prop := Unclaimed x e ∧ Removes x e

/-- A site that lists a domain as verified is the one the domain resolves to. -/
def Mapped (s : Store) : Prop :=
  ∀ slug m, s.getSite slug = some m → ∀ e ∈ m.domains, e.verified = true →
    s.resolveDomain e.name = some slug

/-- A request holds the site's lock and has deleted the domain's mapping. -/
def Dropping (x : SitePool) (slug domain : String) : Prop :=
  ∃ n th, x.threads.lookup n = some th ∧ th.track.locked = some slug ∧
    th.track.seen.dropped = some domain

/-- The invariant of concurrent requests on sites: a site whose deletion is
pending is its signer's, the domain that a request has mapped resolves to its
site, and a domain that a site lists as verified does unless a request is about to
remove it from the record. -/
structure Owned (x : SitePool) : Prop where
  locked : Locked x
  pending : ∀ n th slug, x.threads.lookup n = some th → th.track.pending = some slug →
    ∀ m, x.shared.store.getSite slug = some m → th.track.signer = some m.owner
  mapped : ∀ n th slug d, x.threads.lookup n = some th → th.track.locked = some slug →
    th.track.seen.mapped = some d → x.shared.store.resolveDomain d = some slug
  verified : ∀ slug m, x.shared.store.getSite slug = some m → ∀ e ∈ m.domains,
    e.verified = true → x.shared.store.resolveDomain e.name = some slug ∨ Dropping x slug e.name

section Effects

variable {b : Backend} {fileOf : String → String} {srv : Server}

theorem Untouched.refl (s : Store) (slug : String) : Untouched s s slug :=
  ⟨rfl, fun _ => rfl, fun _ => Iff.rfl⟩

/-- The operations that change no site. -/
def Still : NodeOp → Prop
  | .putSite _ | .deleteSite _ | .setDomain .. | .deleteDomain _ | .putDeploy _
  | .deleteDeploy .. => False
  | _ => True

theorem served_still {n n' : Node} {o : NodeOp} {ans : NodeAns o} (ho : Still o)
    (hserves : Serves b fileOf n o ans n') (slug : String) :
    Untouched n.store n'.store slug := by
  cases hserves with
  | putSite | deleteSite | setDomain | deleteDomain | putDeploy | deleteDeploy => exact ho.elim
  | putObject _ hash data written =>
      rw [Store.putObject]
      split
      next => exact .refl _ _
      next =>
        split
        next => exact .refl _ _
        next =>
          refine ⟨rfl, fun _ => rfl, fun d => ?_⟩
          rw [Store.resolveDomain]
          dsimp only
          split
          next => exact Iff.rfl
          next => exact Iff.rfl
  | deleteObject _ hash =>
      refine ⟨rfl, fun _ => rfl, fun d => ?_⟩
      rw [Store.deleteObject, Store.resolveDomain]
      dsimp only
      split
      next => exact Iff.rfl
      next => exact Iff.rfl
  | _ => exact .refl _ _

theorem deleteSite_other (s : Store) {slug slug' : String} (hne : slug' ≠ slug) :
    Untouched s (s.deleteSite b fileOf slug) slug' := by
  have hselect : ∀ d, (select s.mem.domains fun _ sl => sl ≠ slug).lookup d = some slug' ↔
      s.resolveDomain d = some slug' := by
    intro d
    rw [lookup_select, Option.filter_eq_some_iff]
    exact ⟨fun h => h.1, fun h => ⟨h, decide_eq_true hne⟩⟩
  refine ⟨by rw [getSite_deleteSite, if_neg hne], fun id => ?_, fun d => ?_⟩
  · cases b with
    | fs =>
        change (select s.disk.deploys fun k _ => k.1 ≠ slug).lookup (slug', id) = _
        rw [lookup_select]
        cases hd : s.disk.deploys.lookup (slug', id) with
        | none => exact hd.symm
        | some deploy =>
            rw [Option.filter_some, if_pos (decide_eq_true hne)]
            exact hd.symm
    | s3 =>
        change (Store.S3.deleteSite fileOf slug s).getDeploy slug' id = _
        rw [Store.S3.deleteSite]
        cases s.getSite slug with
        | none => rfl
        | some m =>
            have herase : ∀ (ids : List String) (d : Dict (String × String) Deploy),
                (ids.foldl (fun d id => d.erase (slug, id)) d).lookup (slug', id) =
                  d.lookup (slug', id) := by
              intro ids
              induction ids with
              | nil => exact fun _ => rfl
              | cons i ids ih =>
                  intro d
                  rw [List.foldl_cons, ih, lookup_erase_eq, if_neg]
                  exact fun heq => hne (congrArg Prod.fst heq)
            exact herase m.deploys s.disk.deploys
  · cases b with
    | fs => exact hselect d
    | s3 =>
        change (Store.S3.deleteSite fileOf slug s).resolveDomain d = some slug' ↔ _
        rw [Store.S3.deleteSite]
        cases s.getSite slug with
        | none => exact Iff.rfl
        | some m => exact hselect d

theorem resolve_deleteDomain (s : Store) (domain d : String) :
    (s.deleteDomain fileOf domain).resolveDomain d =
      if d = domain then none else s.resolveDomain d :=
  lookup_erase_eq ..

theorem getDeploy_putDeploy_other {s : Store} {d : Deploy} {slug : String} (hne : slug ≠ d.slug)
    (written : Bool) (id : String) :
    (s.putDeploy d written).2.getDeploy slug id = s.getDeploy slug id := by
  cases written with
  | false => rfl
  | true =>
      rw [Store.putDeploy, if_neg (by decide)]
      change (s.disk.deploys.insert (d.slug, d.id) d).lookup (slug, id) = _
      rw [lookup_insert_eq, if_neg]
      · rfl
      · exact fun heq => hne (congrArg Prod.fst heq)

theorem getDeploy_deleteDeploy_other {s : Store} {slug slug' : String} (hne : slug' ≠ slug)
    (id id' : String) : (s.deleteDeploy slug id).getDeploy slug' id' = s.getDeploy slug' id' := by
  change (s.disk.deploys.erase (slug, id)).lookup (slug', id') = _
  rw [lookup_erase_eq, if_neg]
  · rfl
  · exact fun heq => hne (congrArg Prod.fst heq)

end Effects

section Steps

variable {b : Backend} {srv : Server} {x : SitePool} {n : ℕ} {t : Track} {o : NodeOp}
  {next : NodeAns o → NodeM Response} {ans : NodeAns o} {s' : Node}

/-- What a site lists as verified, as the holder of its lock knows it. -/
theorem Owned.verified_locked (h : Owned x) {p : NodeM Response}
    (hthread : x.threads.lookup n = some ⟨p, t⟩) {slug : String} (hlocked : t.locked = some slug)
    {m : SiteMeta} (hm : x.shared.store.getSite slug = some m) {e : DomainEntry}
    (he : e ∈ m.domains) (hv : e.verified = true) :
    x.shared.store.resolveDomain e.name = some slug ∨ t.seen.dropped = some e.name := by
  refine (h.verified slug m hm e he hv).imp_right fun ⟨n', th, hth, hl, hd⟩ => ?_
  have hsame := h.locked.alone n' n th _ slug hth hthread hl hlocked
  subst hsame
  rw [hthread] at hth
  cases hth
  exact hd

theorem Owned.mapping_own (h : Owned x) {p : NodeM Response}
    (hthread : x.threads.lookup n = some ⟨p, t⟩) {domain : String}
    (hguard : Guard srv t (.deleteDomain domain)) :
    ∃ slug m, Owns t slug m ∧ t.seen.dropped = none ∧
      x.shared.store.resolveDomain domain = some slug := by
  obtain ⟨slug, m, howns, hdropped, _, e, he, rfl, hv⟩ := hguard
  have hm := (h.locked.threads n _ hthread).seen slug (some m) howns.locked howns.site
  refine ⟨slug, m, howns, hdropped, ?_⟩
  refine (h.verified_locked hthread howns.locked hm he hv).resolve_right fun hd => ?_
  rw [hdropped] at hd
  cases hd

/-- An operation leaves the sites that its request has not locked. -/
theorem Owned.untouched (h : Owned x) (hthread : x.threads.lookup n = some ⟨.call o next, t⟩)
    (hguard : Guard srv t o) (hserves : Serves b srv.fileOf x.shared o ans s') {slug : String}
    (hne : t.locked ≠ some slug) : Untouched x.shared.store s'.store slug := by
  have hrecord := (h.locked.threads n _ hthread).getSite_other h.locked.own hguard hserves hne
  have hstill : Still o → Untouched x.shared.store s'.store slug := fun ho =>
    served_still ho hserves slug
  cases hserves with
  | putSite _ m written =>
      refine ⟨hrecord, fun id => ?_, fun d => ?_⟩
      all_goals
        rcases putSite_answers b x.shared.store m written with ⟨_, hsame⟩ | ⟨hslug, hput⟩
        · rw [hsame]
        · rw [hput, Store.putSite, if_neg hslug, if_neg (by decide)]
          rfl
  | deleteSite _ slug' =>
      refine deleteSite_other _ fun heq => hne ?_
      rw [heq]
      exact hguard.1
  | setDomain _ domain slug' written =>
      obtain ⟨m, howns⟩ := hguard
      have hother : slug ≠ slug' := fun heq => hne (heq ▸ howns.locked)
      rcases setDomain_cases srv.fileOf x.shared.store domain slug' written with ⟨e, hsame⟩ |
        ⟨_, hfree, _, hmap, _⟩
      · rw [hsame]
        exact .refl _ _
      · refine ⟨hrecord, fun id => ?_, fun d => ?_⟩
        · rw [Store.setDomain]
          split
          next => rfl
          next =>
            split
            next => rfl
            next => rfl
        · rw [hmap]
          split
          next heq =>
            subst heq
            exact ⟨fun hs => absurd (Option.some.inj hs).symm hother,
              fun hs => absurd (hfree slug hs) hother⟩
          next => exact Iff.rfl
  | deleteDomain _ domain =>
      obtain ⟨slug', m, howns, _, hres⟩ := h.mapping_own hthread hguard
      have hother : slug ≠ slug' := fun heq => hne (heq ▸ howns.locked)
      refine ⟨hrecord, fun _ => rfl, fun d => ?_⟩
      rw [resolve_deleteDomain]
      split
      next heq =>
        rw [heq, hres]
        exact ⟨(fun hs => by cases hs), fun hs => absurd (Option.some.inj hs).symm hother⟩
      next => exact Iff.rfl
  | putDeploy _ d written =>
      obtain ⟨m, howns⟩ := hguard
      have hother : slug ≠ d.slug := fun heq => hne (heq ▸ howns.locked)
      refine ⟨hrecord, getDeploy_putDeploy_other hother written, fun d' => ?_⟩
      cases written with
      | false => exact Iff.rfl
      | true => exact Iff.rfl
  | deleteDeploy _ slug' id deleted =>
      obtain ⟨m, howns⟩ := hguard
      have hother : slug ≠ slug' := fun heq => hne (heq ▸ howns.locked)
      cases deleted with
      | false => exact .refl _ _
      | true => exact ⟨hrecord, getDeploy_deleteDeploy_other hother id, fun _ => Iff.rfl⟩
  | _ => exact hstill trivial

theorem ownerAt_of_some {s s' : Store} {slug : String} {m : SiteMeta}
    (hm : s.getSite slug = some m) : ownerAt s s' slug = some m.owner := by
  rw [ownerAt, hm]
  rfl

theorem signer_of_owns {s s' : Store} {slug : String} {m : SiteMeta} {owner : PubKey}
    (howns : Owns t slug m) (hm : s.getSite slug = some m)
    (howner : ownerAt s s' slug = some owner) : t.signer = some owner := by
  rw [ownerAt_of_some hm] at howner
  rw [howns.signed, howner]

/-- An operation changes sites of its request's signer only. -/
theorem Owned.byOwner (h : Owned x) (hthread : x.threads.lookup n = some ⟨.call o next, t⟩)
    (hguard : Guard srv t o) (hserves : Serves b srv.fileOf x.shared o ans s') {slug : String}
    {owner : PubKey} (howner : ownerAt x.shared.store s'.store slug = some owner) :
    Untouched x.shared.store s'.store slug ∨ t.signer = some owner := by
  have hholding : Holding x.shared t := h.locked.threads n _ hthread
  have hstill : Still o → Untouched x.shared.store s'.store slug := fun ho =>
    served_still ho hserves slug
  refine or_iff_not_imp_left.mpr fun htouched => ?_
  have hlocked : t.locked = some slug := Decidable.of_not_not fun hne =>
    htouched (h.untouched hthread hguard hserves hne)
  have howns : ∀ slug' m, Owns t slug' m → t.signer = some owner := by
    intro slug' m howns
    have hsame : slug' = slug := Option.some.inj (howns.locked.symm.trans hlocked)
    subst hsame
    exact signer_of_owns howns (hholding.seen slug' (some m) howns.locked howns.site) howner
  cases hserves with
  | putSite _ m written =>
      have hslug : m.slug = slug :=
        Option.some.inj ((hholding.locked_put h.locked.own hguard).symm.trans hlocked)
      subst hslug
      rcases guard_putSite h.locked.own hholding hguard with ⟨_, hfree⟩ | ⟨m₀, hupdates, hm₀⟩
      · obtain ⟨_, _, hsigner, _⟩ := hguard
        rcases putSite_answers b x.shared.store m written with ⟨_, hsame⟩ | ⟨hslug, hput⟩
        · rw [hsame] at htouched
          exact absurd (.refl _ _) htouched
        · rw [hput, ownerAt, hfree, getSite_putSite hslug, if_pos rfl] at howner
          rw [hsigner]
          exact howner
      · obtain ⟨_, _, hsigner, _⟩ := hguard
        rw [ownerAt_of_some hm₀] at howner
        rw [hsigner, hupdates.owner]
        exact howner
  | deleteSite _ slug' =>
      obtain ⟨hlocked', hpending⟩ := hguard
      have hsame : slug' = slug := Option.some.inj (hlocked'.symm.trans hlocked)
      subst hsame
      cases hm : x.shared.store.getSite slug' with
      | none =>
          rw [ownerAt, hm, getSite_deleteSite, if_pos rfl] at howner
          cases howner
      | some m =>
          rw [ownerAt_of_some hm] at howner
          rw [h.pending n _ slug' hthread hpending m hm]
          exact howner
  | setDomain _ domain slug' written =>
      obtain ⟨m, hm⟩ := hguard
      exact howns slug' m hm
  | deleteDomain _ domain =>
      obtain ⟨slug', m, hm, _⟩ := hguard
      exact howns slug' m hm
  | putDeploy _ d written =>
      obtain ⟨m, hm⟩ := hguard
      exact howns d.slug m hm
  | deleteDeploy _ slug' id deleted =>
      obtain ⟨m, hm⟩ := hguard
      exact howns slug' m hm
  | _ => exact absurd (hstill trivial) htouched

/-- A site whose deletion is pending is its signer's after an operation. -/
theorem Owned.pending_op (h : Owned x) (hthread : x.threads.lookup n = some ⟨.call o next, t⟩)
    (hguard : Guard srv t o) (hserves : Serves b srv.fileOf x.shared o ans s')
    (hunclaimed : Unclaimed x (.op n o ans)) {n' : ℕ}
    {th : Thread NodeOp NodeAns Response Track} (hth : x.threads.lookup n' = some th)
    {slug : String} (hpending : th.track.pending = some slug) {m' : SiteMeta}
    (hm' : s'.store.getSite slug = some m') : th.track.signer = some m'.owner := by
  have hholding : Holding x.shared t := h.locked.threads n _ hthread
  rcases served_records hserves with hsites | ⟨m, hcall, hslug, hput⟩ | ⟨slug', rfl, hdel⟩
  · rw [Store.getSite, hsites] at hm'
    exact h.pending n' th slug hth hpending m' hm'
  · cases hcall
    rw [hput, getSite_putSite hslug] at hm'
    split at hm'
    next heq =>
      cases hm'
      subst heq
      rcases guard_putSite h.locked.own hholding hguard with ⟨_, hfree⟩ | ⟨m₀, hupdates, hm₀⟩
      · exact hunclaimed hfree n' th hth hpending
      · rw [h.pending n' th _ hth hpending m₀ hm₀, hupdates.owner]
    next => exact h.pending n' th slug hth hpending m' hm'
  · rw [hdel, getSite_deleteSite] at hm'
    split at hm'
    next => cases hm'
    next => exact h.pending n' th slug hth hpending m' hm'

theorem served_getSite {fileOf : String → String} {s : Node} {slug : String}
    {found : Option SiteMeta} (hserves : Serves b fileOf s (.getSite slug) found s') :
    found = s.store.getSite slug ∧ s' = s := by
  cases hserves
  exact ⟨rfl, rfl⟩

theorem observe_pending {slug : String} (h : (observe t o ans).pending = some slug) :
    t.pending = some slug ∨ ∃ m, (⟨o, ans⟩ : Call NodeOp NodeAns) = ⟨.getSite slug, some m⟩ ∧
      t.signer = some m.owner := by
  cases o with
  | getSite slug' =>
      rw [observe] at h
      split at h
      next => exact .inl h
      next =>
        split at h
        next hfound =>
          cases h
          cases ans with
          | none => exact absurd hfound.2 Bool.false_ne_true
          | some m => exact .inr ⟨m, rfl, of_decide_eq_true hfound.2⟩
        next => exact .inl h
  | deleteSite => cases h
  | listSites =>
      cases ans with
      | error e => exact .inl h
      | ok sites => exact .inl h
  | setDomain =>
      cases ans with
      | error e => exact .inl h
      | ok => exact .inl h
  | _ => exact .inl h

/-- The operations that leave the lock of a request and what it knows of domain
mappings. -/
def Plain : NodeOp → Prop
  | .lock _ | .unlock _ | .putSite _ | .deleteSite _ | .setDomain .. | .deleteDomain _ => False
  | _ => True

theorem Plain.observe (ho : Plain o) : (observe t o ans).locked = t.locked ∧
    (observe t o ans).seen.mapped = t.seen.mapped ∧
    (observe t o ans).seen.dropped = t.seen.dropped := by
  cases o with
  | lock | unlock | putSite | deleteSite | setDomain | deleteDomain => exact ho.elim
  | getSite slug =>
      rw [SiteThreads.observe]
      split
      next => exact ⟨rfl, rfl, rfl⟩
      next =>
        split
        next => exact ⟨rfl, rfl, rfl⟩
        next => exact ⟨rfl, rfl, rfl⟩
  | listSites =>
      cases ans with
      | error e => exact ⟨rfl, rfl, rfl⟩
      | ok sites => exact ⟨rfl, rfl, rfl⟩
  | _ => exact ⟨rfl, rfl, rfl⟩

theorem Plain.served {fileOf : String → String} {s : Node} (ho : Plain o)
    (hserves : Serves b fileOf s o ans s') : (∀ slug, s'.store.getSite slug = s.store.getSite slug) ∧
      ∀ d, s'.store.resolveDomain d = s.store.resolveDomain d := by
  have hstill : Still o → (∀ slug, s'.store.getSite slug = s.store.getSite slug) ∧
      ∀ d, s'.store.resolveDomain d = s.store.resolveDomain d := by
    intro ho
    refine ⟨fun slug => (served_still ho hserves slug).record, fun d => ?_⟩
    apply Option.ext
    intro slug
    exact (served_still ho hserves slug).domains d
  cases hserves with
  | lock | unlock | putSite | deleteSite | setDomain | deleteDomain => exact ho.elim
  | putDeploy _ d written =>
      cases written with
      | false => exact ⟨fun _ => rfl, fun _ => rfl⟩
      | true => exact ⟨fun _ => rfl, fun _ => rfl⟩
  | deleteDeploy _ slug id deleted =>
      cases deleted with
      | false => exact ⟨fun _ => rfl, fun _ => rfl⟩
      | true => exact ⟨fun _ => rfl, fun _ => rfl⟩
  | _ => exact hstill trivial

/-- A mapping is refused or the domain resolves to the site. -/
theorem served_setDomain {fileOf : String → String} {s : Node} {domain slug : String}
    {ans : Except Err Unit} (hserves : Serves b fileOf s (.setDomain domain slug) ans s') :
    (s'.store = s.store ∧ ∃ e, ans = .error e) ∨
      (ans = .ok () ∧ (∀ slug', s'.store.getSite slug' = s.store.getSite slug') ∧
        ∀ d, s'.store.resolveDomain d = if d = domain then some slug else s.store.resolveDomain d) := by
  cases hserves with
  | setDomain _ _ _ written =>
      rcases setDomain_cases fileOf s.store domain slug written with ⟨e, hsame⟩ |
        ⟨hok, _, hsites, hmap, _⟩
      · rw [hsame]
        exact .inl ⟨rfl, e, rfl⟩
      · refine .inr ⟨hok, fun slug' => ?_, hmap⟩
        rw [Store.getSite, hsites, Store.getSite]

/-- The domain that the request of an operation has mapped, after it. -/
theorem Owned.mapped_self (h : Owned x) (hthread : x.threads.lookup n = some ⟨.call o next, t⟩)
    (hguard : Guard srv t o) (hserves : Serves b srv.fileOf x.shared o ans s') {slug d : String}
    (hlocked : (observe t o ans).locked = some slug)
    (hmapped : (observe t o ans).seen.mapped = some d) :
    s'.store.resolveDomain d = some slug := by
  have hplain : Plain o → s'.store.resolveDomain d = some slug := by
    intro ho
    have ⟨hl, hm, _⟩ : (observe t o ans).locked = t.locked ∧ _ ∧ _ := ho.observe
    rw [(ho.served hserves).2]
    exact h.mapped n _ slug d hthread (hl ▸ hlocked) (hm ▸ hmapped)
  cases o with
  | lock | unlock | putSite | deleteSite => cases hmapped
  | deleteDomain domain =>
      obtain ⟨_, _, _, _, hnone, _⟩ := hguard
      change t.seen.mapped = some d at hmapped
      rw [hnone] at hmapped
      cases hmapped
  | setDomain domain slug' =>
      obtain ⟨m, howns⟩ := hguard
      rcases served_setDomain hserves with ⟨hsame, e, rfl⟩ | ⟨rfl, _, hmap⟩
      · rw [hsame]
        exact h.mapped n _ slug d hthread hlocked hmapped
      · cases hmapped
        rw [hmap, if_pos rfl]
        exact howns.locked.symm.trans hlocked
  | _ => exact hplain trivial

/-- What the site that the request of an operation has locked lists as verified,
after it. -/
theorem Owned.verified_self (h : Owned x) (hthread : x.threads.lookup n = some ⟨.call o next, t⟩)
    (hguard : Guard srv t o) (hserves : Serves b srv.fileOf x.shared o ans s')
    (hremoves : Removes x (.op n o ans)) {slug : String} (hlocked : t.locked = some slug)
    {m : SiteMeta} (hm : s'.store.getSite slug = some m) {e : DomainEntry} (he : e ∈ m.domains)
    (hv : e.verified = true) : s'.store.resolveDomain e.name = some slug ∨
      ((observe t o ans).locked = some slug ∧ (observe t o ans).seen.dropped = some e.name) := by
  have hholding : Holding x.shared t := h.locked.threads n _ hthread
  have hold : ∀ {m}, x.shared.store.getSite slug = some m → ∀ e ∈ m.domains, e.verified = true →
      x.shared.store.resolveDomain e.name = some slug ∨ t.seen.dropped = some e.name :=
    fun hm e he hv => h.verified_locked hthread hlocked hm he hv
  have hplain : Plain o → s'.store.resolveDomain e.name = some slug ∨
      ((observe t o ans).locked = some slug ∧ (observe t o ans).seen.dropped = some e.name) := by
    intro ho
    have ⟨hl, _, hd⟩ : (observe t o ans).locked = t.locked ∧ _ ∧ _ := ho.observe
    rw [(ho.served hserves).1] at hm
    rw [(ho.served hserves).2, hl, hd]
    exact (hold hm e he hv).imp_right fun hd => ⟨hlocked, hd⟩
  cases o with
  | lock slug' =>
      have hnone : t.locked = none := hguard
      rw [hnone] at hlocked
      cases hlocked
  | unlock slug' =>
      cases hserves
      refine .inl ((hold hm e he hv).resolve_right fun hd => ?_)
      rw [hguard.dropped] at hd
      cases hd
  | deleteSite slug' =>
      cases hserves
      rw [getSite_deleteSite, if_pos (Option.some.inj (hlocked.symm.trans hguard.1))] at hm
      cases hm
  | deleteDomain domain =>
      obtain ⟨_, _, _, hdropped, _⟩ := hguard
      cases hserves
      have hres := (hold hm e he hv).resolve_right fun hd => by rw [hdropped] at hd; cases hd
      rw [resolve_deleteDomain]
      rcases Decidable.em (e.name = domain) with heq | hne
      · exact .inr ⟨hlocked, congrArg some heq.symm⟩
      · rw [if_neg hne]
        exact .inl hres
  | setDomain domain slug' =>
      obtain ⟨m', howns⟩ := hguard
      rcases served_setDomain hserves with ⟨hsame, e', rfl⟩ | ⟨rfl, hsites, hmap⟩
      · rw [hsame] at hm ⊢
        exact (hold hm e he hv).imp_right fun hd => ⟨hlocked, hd⟩
      · rw [hsites] at hm
        rw [hmap]
        split
        next => exact .inl (howns.locked.symm.trans hlocked)
        next => exact (hold hm e he hv).imp_right fun hd => ⟨hlocked, hd⟩
  | putSite m₁ =>
      have hslug : m₁.slug = slug :=
        Option.some.inj ((hholding.locked_put h.locked.own hguard).symm.trans hlocked)
      subst hslug
      have hcases := guard_putSite h.locked.own hholding hguard
      left
      cases hserves with
      | putSite _ _ written =>
          rcases putSite_answers b x.shared.store m₁ written with ⟨e', hfail⟩ | ⟨hslug, hput⟩
          · rw [hfail] at hm hremoves ⊢
            refine (hold hm e he hv).resolve_right fun hd => ?_
            have hnone : t.seen.dropped = none := hremoves _ hthread
            rw [hnone] at hd
            cases hd
          · have hmap : ∀ d, (x.shared.store.putSite b m₁ true).2.resolveDomain d =
                x.shared.store.resolveDomain d := by
              intro d
              rw [Store.putSite, if_neg hslug, if_neg (by decide)]
              rfl
            rw [hput] at hm ⊢
            rw [getSite_putSite hslug, if_pos rfl] at hm
            cases hm
            rw [hmap]
            rcases hcases with ⟨hcreates, _⟩ | ⟨m₀, hupdates, hm₀⟩
            · rw [hcreates.domains] at he
              cases he
            · obtain ⟨hkept, ⟨e', he', hname, hv'⟩ | hmapped⟩ := hupdates.verified e he hv
              · rw [← hname] at hkept ⊢
                exact (hold hm₀ e' he' hv').resolve_right hkept
              · exact h.mapped n _ _ e.name hthread hlocked hmapped
  | _ => exact hplain trivial

theorem Owned.start (h : Owned x) {p : NodeM Response} (hfree : x.threads.lookup n = none)
    (hstart : StartSite srv x.shared t p) :
    Owned { x with threads := x.threads.insert n ⟨p, t⟩ } := by
  have hlocked := h.locked.start (n := n) hstart
  obtain ⟨req, call, rfl, _⟩ := hstart
  refine ⟨hlocked, fun n' th slug hth hp => ?_, fun n' th slug d hth hl hm => ?_,
    fun slug m hm e he hv => (h.verified slug m hm e he hv).imp_right ?_⟩
  · rw [lookup_insert_eq] at hth
    split at hth
    next =>
      cases hth
      cases hp
    next => exact h.pending n' th slug hth hp
  · rw [lookup_insert_eq] at hth
    split at hth
    next =>
      cases hth
      cases hl
    next => exact h.mapped n' th slug d hth hl hm
  · rintro ⟨n', th, hth, hl, hd⟩
    refine ⟨n', th, ?_, hl, hd⟩
    rw [lookup_insert_eq, if_neg]
    · exact hth
    · rintro rfl
      rw [hfree] at hth
      cases hth

theorem Owned.op (h : Owned x) (hthread : x.threads.lookup n = some ⟨.call o next, t⟩)
    (hguard : Guard srv t o) (hserves : Serves b srv.fileOf x.shared o ans s')
    (horderly : Orderly x (.op n o ans)) :
    Owned { shared := s', threads := x.threads.insert n ⟨next ans, observe t o ans⟩ } := by
  obtain ⟨hunclaimed, hremoves⟩ := horderly
  -- the lock of another request is not this one's
  have hother : ∀ {n' th slug}, n' ≠ n → x.threads.lookup n' = some th →
      th.track.locked = some slug → t.locked ≠ some slug :=
    fun hne hth hl ht => hne (h.locked.alone _ n _ _ _ hth hthread hl ht)
  refine ⟨h.locked.op hthread hguard hserves, fun n' th slug hth hp m hm => ?_,
    fun n' th slug d hth hl hm => ?_, fun slug m hm e he hv => ?_⟩
  · rw [lookup_insert_eq] at hth
    split at hth
    next =>
      cases hth
      dsimp only at hp ⊢
      rw [(observe_fixed t o ans).2]
      rcases observe_pending hp with hold | ⟨m', hcall, hsigned⟩
      · exact h.pending_op hthread hguard hserves hunclaimed hthread hold hm
      · cases hcall
        obtain ⟨hfound, rfl⟩ := served_getSite hserves
        rw [hsigned]
        exact congrArg (Option.map SiteMeta.owner) (hfound.trans hm)
    next => exact h.pending_op hthread hguard hserves hunclaimed hth hp hm
  · rw [lookup_insert_eq] at hth
    split at hth
    next =>
      cases hth
      exact h.mapped_self hthread hguard hserves hl hm
    next hne =>
      have huntouched := h.untouched hthread hguard hserves (hother hne hth hl)
      exact (huntouched.domains d).mpr (h.mapped n' th slug d hth hl hm)
  · rcases Decidable.em (t.locked = some slug) with hlocked | hne
    · refine (h.verified_self hthread hguard hserves hremoves hlocked hm he hv).imp_right ?_
      rintro ⟨hl, hd⟩
      exact ⟨n, _, AList.lookup_insert _, hl, hd⟩
    · have huntouched := h.untouched hthread hguard hserves hne
      change s'.store.getSite slug = some m at hm
      rw [huntouched.record] at hm
      refine (h.verified slug m hm e he hv).imp (huntouched.domains e.name).mpr ?_
      rintro ⟨n', th, hth, hl, hd⟩
      refine ⟨n', th, ?_, hl, hd⟩
      rw [lookup_insert_eq, if_neg]
      · exact hth
      · rintro rfl
        rw [hthread] at hth
        cases hth
        exact hne hl

end Steps

section Runs

variable {b : Backend} {srv : Server}

theorem Owned.runs {n : Node} {x : SitePool} {es : List SiteEvent} (hown : Own n.store)
    (hmapped : Mapped n.store)
    (hrun : Runs (fun x e y => SiteStep b srv x e y ∧ Orderly x e) ⟨n, ∅⟩ es x) :
    Guarantees observe (Guard srv) (fun _ _ => True) x ∧ Owned x := by
  have hinit : Owned (⟨n, ∅⟩ : SitePool) :=
    ⟨locked_empty hown, fun _ _ _ hth => by simp at hth, fun _ _ _ _ hth => by simp at hth,
      fun slug m hm e he hv => .inl (hmapped slug m hm e he hv)⟩
  have hstart : ∀ (x : SitePool) n t p, Owned x → x.threads.lookup n = none →
      StartSite srv x.shared t p → Orderly x (.start n t) →
      Owned { x with threads := x.threads.insert n ⟨p, t⟩ } :=
    fun x n t p hx hfree hp _ => hx.start hfree hp
  refine invariant startSite_guarded hstart ?_ hrun (guarantees_empty n) hinit
  intro x n t o next ans s' hx hthread hguard hserves horderly
  exact hx.op hthread hguard hserves horderly

/-- In every run of concurrent requests whose steps are orderly, a step changes
only sites of the identity that has signed its request. -/
theorem changes_by_owner (b : Backend) (srv : Server) (n : Node) (x y : SitePool)
    (es : List SiteEvent) (e : SiteEvent) (hown : Own n.store) (hmapped : Mapped n.store)
    (hrun : Runs (fun x e y => SiteStep b srv x e y ∧ Orderly x e) ⟨n, ∅⟩ es x)
    (hstep : SiteStep b srv x e y) : ByOwner x e y := by
  obtain ⟨hguar, hinv⟩ := Owned.runs hown hmapped hrun
  intro slug owner howner
  cases hstep with
  | start => exact .inl (.refl _ _)
  | op hthread hserves =>
      refine (hinv.byOwner hthread (hguar _ _ hthread).1 hserves howner).imp_right fun hsigner => ?_
      exact ⟨_, _, _, _, rfl, hthread, hsigner⟩

end Runs

/-- A key other than the all-zero key. -/
def otherKey : PubKey := ⟨List.replicate 32 1, List.length_replicate⟩

/-- A request on the site a by the holder of the other key. -/
def otherReq : Request := { sampleReq with authed := fun _ => .ok otherKey }

/-- The site a of the holder of the other key. -/
def otherSite : SiteMeta := { sampleSite [] with owner := otherKey }

/-- The event that starts a request. -/
def startEvent (n : ℕ) (req : Request) (call : SiteCall) : SiteEvent :=
  .start n (.start sampleServer req call)

theorem getSite_claimedNode {slug : String} {m : SiteMeta}
    (hm : claimedNode.store.getSite slug = some m) : slug = "a" ∧ m = sampleSite [] := by
  have hin : (slug, m) ∈ pairs claimedNode.store.disk.sites := mem_pairs.mpr hm
  cases List.mem_singleton.mp hin
  exact ⟨rfl, rfl⟩

theorem own_claimedNode : Own claimedNode.store := by
  intro slug m hm
  obtain ⟨rfl, rfl⟩ := getSite_claimedNode hm
  rfl

theorem mapped_claimedNode : Mapped claimedNode.store := by
  intro slug m hm e he
  obtain ⟨_, rfl⟩ := getSite_claimedNode hm
  cases he

theorem changes_by_owner_deleteSite : ∃ es x y,
    Runs (fun x e y => SiteStep .fs sampleServer x e y ∧ Orderly x e) ⟨claimedNode, ∅⟩ es x ∧
    SiteStep .fs sampleServer x (.op 1 (.deleteSite "a") ()) y ∧
    y.shared.store.getSite "a" = none ∧ ByOwner x (.op 1 (.deleteSite "a") ()) y := by
  have hrun : ∃ x y, Runs (fun x e y => SiteStep .fs sampleServer x e y ∧ Orderly x e)
      ⟨claimedNode, ∅⟩
      [startEvent 1 sampleReq .deleteSite, .op 1 (.getSite "a") (some (sampleSite [])),
        .op 1 (.lock "a") ()] x ∧
      SiteStep .fs sampleServer x (.op 1 (.deleteSite "a") ()) y ∧
      y.shared.store.getSite "a" = none :=
    ⟨_, _, .cons ⟨.start rfl ⟨sampleReq, .deleteSite, rfl, rfl⟩, trivial, trivial⟩ <|
      .cons ⟨.op rfl (.getSite _ _), trivial, trivial⟩ <|
      .cons ⟨.op rfl (.lock _ _ (by decide)), trivial, trivial⟩ <| .nil _,
      .op rfl (.deleteSite _ _), rfl⟩
  obtain ⟨x, y, hrun, hstep, hgone⟩ := hrun
  exact ⟨_, x, y, hrun, hstep, hgone, changes_by_owner .fs sampleServer claimedNode x y _ _
    own_claimedNode mapped_claimedNode hrun hstep⟩

/-- The owner of the site a sends two deletions. The second removes the site, which
another identity then claims, and the first, which has made its check before,
removes the new site. -/
theorem deletion_of_claimed_site : ∃ es x y,
    Runs (SiteStep .fs sampleServer) ⟨claimedNode, ∅⟩ es x ∧
    SiteStep .fs sampleServer x (.op 1 (.deleteSite "a") ()) y ∧
    x.shared.store.getSite "a" = some otherSite ∧ y.shared.store.getSite "a" = none ∧
    ¬ ByOwner x (.op 1 (.deleteSite "a") ()) y := by
  have hrun : ∃ x y p t, Runs (SiteStep .fs sampleServer) ⟨claimedNode, ∅⟩
      [startEvent 1 sampleReq .deleteSite, startEvent 2 sampleReq .deleteSite,
        startEvent 3 otherReq (.putSite (some "") false),
        .op 1 (.getSite "a") (some (sampleSite [])), .op 2 (.getSite "a") (some (sampleSite [])),
        .op 2 (.lock "a") (), .op 2 (.deleteSite "a") (), .op 2 (.unlock "a") (),
        .op 3 (.lock "a") (), .op 3 (.getSite "a") none, .op 3 .listSites (.ok []),
        .op 3 .now (0 : ℤ), .op 3 .now (0 : ℤ), .op 3 (.putSite otherSite) (.ok ()),
        .op 3 (.unlock "a") (), .op 1 (.lock "a") ()] x ∧
      SiteStep .fs sampleServer x (.op 1 (.deleteSite "a") ()) y ∧
      x.shared.store.getSite "a" = some otherSite ∧ y.shared.store.getSite "a" = none ∧
      x.threads.lookup 1 = some ⟨p, t⟩ ∧ t.signer = some sampleKey :=
    ⟨_, _, _, _, .cons (.start rfl ⟨sampleReq, .deleteSite, rfl, rfl⟩) <|
      .cons (.start rfl ⟨sampleReq, .deleteSite, rfl, rfl⟩) <|
      .cons (.start rfl ⟨otherReq, .putSite (some "") false, rfl, rfl⟩) <|
      .cons (.op rfl (.getSite _ _)) <| .cons (.op rfl (.getSite _ _)) <|
      .cons (.op rfl (.lock _ _ (by decide))) <| .cons (.op rfl (.deleteSite _ _)) <|
      .cons (.op rfl (.unlock _ _)) <| .cons (.op rfl (.lock _ _ (by decide))) <|
      .cons (.op rfl (.getSite _ _)) <| .cons (.op rfl (.listSites _ _ (List.Perm.refl _))) <|
      .cons (.op rfl (.now _ _)) <| .cons (.op rfl (.now _ _)) <|
      .cons (.op rfl (.putSite _ _ true)) <| .cons (.op rfl (.unlock _ _)) <|
      .cons (.op rfl (.lock _ _ (by decide))) <| .nil _,
      .op rfl (.deleteSite _ _), rfl, rfl, rfl, rfl⟩
  obtain ⟨x, y, p, t, hrun, hstep, hx, hy, hthread, hsigner⟩ := hrun
  refine ⟨_, x, y, hrun, hstep, hx, hy, fun h => ?_⟩
  rcases h "a" otherKey (ownerAt_of_some hx) with huntouched | ⟨n, o, ans, th, he, hth, hs⟩
  · have hsame := huntouched.record
    rw [hx, hy] at hsame
    cases hsame
  · cases he
    rw [hthread] at hth
    cases hth
    rw [hsigner] at hs
    exact absurd hs (by decide)

end Tactile.Publish.Owners

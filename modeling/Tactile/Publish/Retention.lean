import Tactile.Publish.Quota

/-!
A site and its deploys under requests that create the site, upload deploys and
roll back, when any write may fail.
-/

namespace Tactile.Publish.Retention

open Tactile.Lib.Program Tactile.Lib.FiniteMap Tactile.Lib.Transition Tactile.Lib.ByteString
open Tactile.Publish.Bundle Tactile.Publish.Records Tactile.Publish.NodeOps
open Tactile.Publish.Handlers Tactile.Publish.Deploys
open Tactile.Publish.Quota (Own helloServer helloDigest helloBundle helloDeploy helloSite helloNode
  claimedNode)
open Tactile.Publish.Routing (sampleReq sampleSite)

/-- The requests that change the deploys of a site or its current one. -/
inductive Action
  | create (req : Request) (title : Option String) (powOK : Bool)
  | deploy (req : Request) (stream : TarStream)
  | rollback (req : Request) (body : Option String)

def Action.program (srv : Server) : Action → NodeM Response
  | .create req title powOK => handlePutSite srv req title powOK
  | .deploy req stream => handleDeploy srv req stream
  | .rollback req body => handleRollback req body

abbrev NodeCalls : Type := List (Call NodeOp NodeAns)

/-- A request that has been served, with the calls it made. -/
structure Served where
  action : Action
  response : Response
  calls : NodeCalls

/-- A request from start to end. -/
def Step (b : Backend) (srv : Server) (n : Node) (e : Served) (n' : Node) : Prop :=
  Exec (Logged (Serves b srv.fileOf)) (n, []) (e.action.program srv) e.response (n', e.calls)

/-- A site's record: its current deploy is one of its deploys and has a manifest
in the store, no deploy is listed twice, and no more are listed than are kept. -/
structure Servable (keep : ℤ) (s : Store) (m : SiteMeta) : Prop where
  current : m.current = "" ∨ (m.current ∈ m.deploys ∧ (s.getDeploy m.slug m.current).isSome)
  nodup : m.deploys.Nodup
  length : m.deploys.length ≤ max 1 keep

/-- A deploy to a site has a new id, and the write of the site's record does not
fail when the current deploy has been pruned. -/
structure Commits (n : Node) (slug : String) (calls : NodeCalls) : Prop where
  fresh : ∀ m, n.store.getSite slug = some m →
    ∀ d, ⟨.putDeploy d, .ok ()⟩ ∈ calls → d.id ∉ m.deploys
  written : ∀ m, n.store.getSite slug = some m →
    ∀ m' e, ⟨.putSite m', .error e⟩ ∈ calls → ⟨.deleteDeploy slug m.current, ()⟩ ∉ calls

/-- A deploy commits, and a rollback is to a deploy that has a manifest. -/
def Retains (n : Node) (e : Served) : Prop :=
  match e.action with
  | .create .. => True
  | .deploy req _ => Commits n req.slug e.calls
  | .rollback req body => ∀ id ∈ body, (n.store.getDeploy req.slug id).isSome

section Frame

/-- The operations that change neither site records nor manifests. -/
def Quiet : NodeOp → Prop
  | .putSite _ | .deleteSite _ | .putDeploy _ | .deleteDeploy .. => False
  | _ => True

/-- The records are as they were, and the calls since are on the log. -/
structure Since (n : Node) (calls : NodeCalls) (x : Node × NodeCalls) : Prop where
  sites : x.1.store.disk.sites = n.store.disk.sites
  deploys : x.1.store.disk.deploys = n.store.disk.deploys
  log : calls ⊆ x.2

variable {b : Backend} {fileOf : String → String}

theorem serves_quiet {n n' : Node} {o : NodeOp} {ans : NodeAns o} (ho : Quiet o)
    (h : Serves b fileOf n o ans n') :
    n'.store.disk.sites = n.store.disk.sites ∧ n'.store.disk.deploys = n.store.disk.deploys := by
  cases h with
  | putSite | deleteSite | putDeploy | deleteDeploy => exact ho.elim
  | setDomain _ domain slug written =>
      rw [Store.setDomain]
      split
      next => exact ⟨rfl, rfl⟩
      next =>
        split
        next => exact ⟨rfl, rfl⟩
        next => exact ⟨rfl, rfl⟩
  | putObject _ hash data written =>
      rw [Store.putObject]
      split
      next => exact ⟨rfl, rfl⟩
      next =>
        split
        next => exact ⟨rfl, rfl⟩
        next => exact ⟨rfl, rfl⟩
  | _ => exact ⟨rfl, rfl⟩

theorem Since.quiet {n : Node} {calls : NodeCalls} {α : Type} {p : NodeM α} (hp : p.Only Quiet)
    {x : Node × NodeCalls} (hx : Since n calls x) :
    Holds (Logged (Serves b fileOf)) (fun _ _ => True) (fun _ x' => Since n calls x') p x := by
  have hstep : ∀ (x : Node × NodeCalls) o ans x', Quiet o →
      Logged (Serves b fileOf) x o ans x' → Since n calls x → Since n calls x' := by
    rintro x o ans x' ho ⟨hserves, hcalls⟩ hx
    obtain ⟨hsites, hdeploys⟩ := serves_quiet ho hserves
    refine ⟨hsites.trans hx.sites, hdeploys.trans hx.deploys, ?_⟩
    rw [hcalls]
    exact List.subset_append_of_subset_left _ hx.log
  exact (hp.holds hstep hx).mono (fun _ _ _ => trivial) fun _ _ h => h

theorem quiet_node {o : NodeOp} (ho : Quiet o) : (node o).Only Quiet := Prog.only_op ho

/-- A count of an identity's usage lists the sites and reads manifests. -/
theorem identityUsage_only {P : NodeOp → Prop} (hlist : P .listSites)
    (hread : ∀ slug id, P (.getDeploy slug id)) (owner : PubKey) : (identityUsage owner).Only P := by
  have hdeploy : ∀ slug acc id, (countDeploy slug acc id).Only P := by
    refine fun slug acc id => ⟨hread slug id, fun d => ?_⟩
    cases d with
    | none => trivial
    | some d => trivial
  have hsite : ∀ acc m, (countSite owner acc m).Only P := by
    intro acc m
    rw [countSite]
    split
    next => trivial
    next => exact Prog.Only.foldlM (hdeploy m.slug) _ _
  refine ⟨hlist, fun listed => ?_⟩
  cases listed with
  | error e => trivial
  | ok sites => exact (Prog.Only.foldlM hsite sites _).bind fun _ => trivial

theorem identityUsage_quiet (owner : PubKey) : (identityUsage owner).Only Quiet :=
  identityUsage_only trivial (fun _ _ => trivial) owner

theorem extractEntry_only {P : NodeOp → Prop} {sink : File → Bytes → NodeM (Except String Unit)}
    (hsink : ∀ f data, (sink f data).Only P) (codec : Codec) (lim : Limits) (acc : Extracted)
    (e : TarEntry) : (extractEntry codec lim sink acc e).Only P := by
  rw [extractEntry]
  split
  next => trivial
  next => trivial
  next =>
    split
    next => trivial
    next =>
      split
      next => trivial
      next =>
        split
        next => trivial
        next =>
          split
          next => trivial
          next =>
            dsimp only
            split
            next => trivial
            next =>
              split
              next => trivial
              next =>
                split
                next => trivial
                next =>
                  split
                  next => trivial
                  next =>
                    refine (hsink _ _).bind fun sunk => ?_
                    cases sunk with
                    | error cause => trivial
                    | ok => trivial

/-- An upload calls what its sink calls. -/
theorem extract_only {P : NodeOp → Prop} {sink : File → Bytes → NodeM (Except String Unit)}
    (hsink : ∀ f data, (sink f data).Only P) (codec : Codec) (lim : Limits) (stream : TarStream) :
    (extract codec lim sink stream).Only P := by
  have hentries : ∀ es acc, (extractEntries codec lim sink es acc).Only P := by
    intro es
    induction es with
    | nil => exact fun _ => trivial
    | cons e es ih =>
        intro acc
        refine (extractEntry_only hsink codec lim acc e).bind fun next => ?_
        cases next with
        | error err => trivial
        | ok acc => exact ih acc
  cases stream with
  | unreadable => trivial
  | entries es broken =>
      refine (hentries es .none).bind fun read => ?_
      cases read with
      | error err => trivial
      | ok acc =>
          cases broken with
          | some cause => trivial
          | none => trivial

theorem putFile_quiet (f : File) (data : Bytes) : (putFile f data).Only Quiet := by
  refine ⟨trivial, fun put => ?_⟩
  cases put with
  | error e => trivial
  | ok => trivial

end Frame

section Writes

variable {b : Backend} {keep : ℤ} {s s' : Store}

/-- Every site record is stored under its own slug and is servable. -/
structure Sound (keep : ℤ) (s : Store) : Prop where
  own : Own s
  servable : ∀ slug m, s.getSite slug = some m → Servable keep s m

theorem Servable.of_deploy {m : SiteMeta} (h : Servable keep s m)
    (hdeploy : m.current ∈ m.deploys → (s.getDeploy m.slug m.current).isSome →
      (s'.getDeploy m.slug m.current).isSome) : Servable keep s' m := by
  refine ⟨?_, h.nodup, h.length⟩
  rcases h.current with hempty | ⟨hin, hsome⟩
  · exact .inl hempty
  · exact .inr ⟨hin, hdeploy hin hsome⟩

theorem Sound.of_same (h : Sound keep s) (hsites : s'.disk.sites = s.disk.sites)
    (hdeploys : s'.disk.deploys = s.disk.deploys) : Sound keep s' := by
  have hget : ∀ slug, s'.getSite slug = s.getSite slug := fun slug => by
    rw [Store.getSite, hsites, Store.getSite]
  refine ⟨fun slug m hm => h.own slug m (hget slug ▸ hm), fun slug m hm => ?_⟩
  refine (h.servable slug m (hget slug ▸ hm)).of_deploy fun _ hsome => ?_
  rw [Store.getDeploy, hdeploys]
  exact hsome

/-- The write of a servable record where the other records are servable. -/
theorem sound_putSite {m : SiteMeta} (hslug : m.slug ≠ "") (hown : Own s)
    (hothers : ∀ slug x, slug ≠ m.slug → s.getSite slug = some x → Servable keep s x)
    (hm : Servable keep s m) : Sound keep (s.putSite b m true).2 := by
  have hdisk : (s.putSite b m true).2.disk =
      { s.disk with sites := s.disk.sites.insert m.slug m } := by
    rw [Store.putSite, if_neg hslug, if_neg (by decide)]
  have hget : ∀ slug, (s.putSite b m true).2.getSite slug =
      if slug = m.slug then some m else s.getSite slug := by
    intro slug
    rw [Store.getSite, hdisk]
    exact lookup_insert_eq ..
  have hdeploy : ∀ slug id, (s.putSite b m true).2.getDeploy slug id = s.getDeploy slug id := by
    intro slug id
    rw [Store.getDeploy, hdisk, Store.getDeploy]
  constructor
  · intro slug x hx
    rw [hget] at hx
    split at hx
    next heq =>
      cases hx
      exact heq.symm
    next => exact hown slug x hx
  · intro slug x hx
    rw [hget] at hx
    split at hx
    next =>
      cases hx
      exact hm.of_deploy fun _ hsome => by rw [hdeploy]; exact hsome
    next hne =>
      exact (hothers slug x hne hx).of_deploy fun _ hsome => by rw [hdeploy]; exact hsome

end Writes

section Prune

variable {b : Backend} {fileOf : String → String}

/-- The oldest deploys of a list have been pruned and the rest is kept. -/
structure Pruned (slug : String) (keep : ℤ) (n : Node) (calls : NodeCalls) (pre post : List String)
    (x : Node × NodeCalls) : Prop where
  nonempty : post ≠ []
  length : (post.length : ℤ) ≤ keep
  sites : x.1.store.disk.sites = n.store.disk.sites
  log : calls ⊆ x.2
  deleted : ∀ id ∈ pre, ⟨.deleteDeploy slug id, ()⟩ ∈ x.2
  deploys : ∀ k, (∀ id ∈ pre, k ≠ (slug, id)) →
    x.1.store.disk.deploys.lookup k = n.store.disk.deploys.lookup k

theorem prune_prunes {slug : String} {keep : ℤ} (hkeep : 1 ≤ keep) (ids : List String)
    (hids : ids ≠ []) (n : Node) (calls : NodeCalls) :
    Holds (Logged (Serves b fileOf)) (fun _ _ => True)
      (fun kept x => ∃ pre post, ids = pre ++ post ∧ kept = some post ∧
        Pruned slug keep n calls pre post x) (prune slug keep ids) (n, calls) := by
  induction ids generalizing n calls with
  | nil => exact absurd rfl hids
  | cons old rest ih =>
      rw [prune]
      split
      next hlong =>
        have hrest : rest ≠ [] := by
          rintro rfl
          simp only [List.length_singleton] at hlong
          omega
        refine ⟨trivial, fun _ x hx => ?_⟩
        obtain ⟨n₁, calls₁⟩ := x
        obtain ⟨hserves, hcalls⟩ := hx
        change calls₁ = calls ++ [⟨.deleteDeploy slug old, ()⟩] at hcalls
        refine (ih hrest n₁ calls₁).imp fun kept x hx => ?_
        obtain ⟨pre, post, hsplit, hkept, h⟩ := hx
        refine ⟨old :: pre, post, by rw [hsplit, List.cons_append], hkept, h.nonempty, h.length, ?_, ?_,
          fun id hid => ?_, fun k hk => ?_⟩
        · rw [h.sites]
          cases hserves with
          | deleteDeploy _ _ _ deleted =>
              cases deleted with
              | false => rfl
              | true => rfl
        · exact fun c hc => h.log (hcalls ▸ List.mem_append_left _ hc)
        · rcases List.mem_cons.mp hid with rfl | hold
          · exact h.log (hcalls ▸ List.mem_append_right _ (List.mem_singleton_self _))
          · exact h.deleted id hold
        · rw [h.deploys k fun id hid => hk id (List.mem_cons_of_mem _ hid)]
          cases hserves with
          | deleteDeploy _ _ _ deleted =>
              cases deleted with
              | false => rfl
              | true =>
                  change (n.store.deleteDeploy slug old).disk.deploys.lookup k = _
                  rw [Store.deleteDeploy, lookup_erase_eq, if_neg (hk old List.mem_cons_self)]
      next hshort =>
        exact ⟨[], old :: rest, rfl, rfl, List.cons_ne_nil _ _, not_lt.mp hshort, rfl,
          List.Subset.refl _, fun _ hid => absurd hid List.not_mem_nil, fun _ _ => rfl⟩

/-- What a commit has done before it writes the record of its site. -/
structure Pending (keep : ℤ) (n : Node) (slug : String) (m : SiteMeta) (dep : Deploy)
    (pre post : List String) (s : Store) : Prop where
  split : m.deploys ++ [dep.id] = pre ++ post
  nonempty : post ≠ []
  length : (post.length : ℤ) ≤ keep
  sites : s.disk.sites = n.store.disk.sites
  deploys : ∀ k, (∀ id ∈ pre, k ≠ (slug, id)) →
    s.disk.deploys.lookup k =
      if k = (slug, dep.id) then some dep else n.store.disk.deploys.lookup k

section Commit

variable {b : Backend} {keep : ℤ} {n : Node} {slug : String} {m : SiteMeta} {dep : Deploy}
variable {pre post : List String} {s : Store}

/-- A manifest that has not been pruned is still there. -/
theorem Pending.getDeploy (h : Pending keep n slug m dep pre post s) {slug' id : String}
    (hsome : (n.store.getDeploy slug' id).isSome) (hpre : slug' = slug → id ∉ pre) :
    (s.getDeploy slug' id).isSome := by
  rw [Store.getDeploy, h.deploys]
  · split
    next => rfl
    next => exact hsome
  · rintro id' hid' heq
    cases heq
    exact hpre rfl hid'

theorem Pending.servable (h : Pending keep n slug m dep pre post s) (hs : Sound keep n.store)
    {slug' : String} {x : SiteMeta} (hx : n.store.getSite slug' = some x)
    (hpre : slug' = slug → x.current ∉ pre) : Servable keep s x := by
  refine (hs.servable slug' x hx).of_deploy fun _ hsome => h.getDeploy hsome fun heq => hpre ?_
  rw [← hs.own slug' x hx]
  exact heq

/-- When the write fails, the record is servable if its deploy has not been
pruned. -/
theorem Pending.failed (h : Pending keep n slug m dep pre post s) (hs : Sound keep n.store)
    (hm : n.store.getSite slug = some m) (hpre : m.current ∉ pre) : Sound keep s := by
  have hget : ∀ slug, s.getSite slug = n.store.getSite slug := fun slug => by
    rw [Store.getSite, h.sites, Store.getSite]
  refine ⟨fun slug' x hx => hs.own slug' x (hget slug' ▸ hx), fun slug' x hx => ?_⟩
  rw [hget] at hx
  refine h.servable hs hx ?_
  rintro rfl
  cases hm.symm.trans hx
  exact hpre

theorem Pending.written (h : Pending keep n slug m dep pre post s) (hs : Sound keep n.store)
    (hm : n.store.getSite slug = some m) (hslug : m.slug ≠ "") (hfresh : dep.id ∉ m.deploys)
    (updated : ℤ) :
    Sound keep
      (s.putSite b { m with deploys := post, current := dep.id, updated := updated } true).2 := by
  have hget : ∀ slug, s.getSite slug = n.store.getSite slug := fun slug => by
    rw [Store.getSite, h.sites, Store.getSite]
  have hown : m.slug = slug := hs.own slug m hm
  have hnodup : (pre ++ post).Nodup := by
    rw [← h.split, List.nodup_append]
    refine ⟨(hs.servable slug m hm).nodup, List.nodup_singleton _, fun a ha c hc heq => hfresh ?_⟩
    rw [← List.mem_singleton.mp hc, ← heq]
    exact ha
  have hlast : dep.id ∈ post := by
    have hgl : (m.deploys ++ [dep.id]).getLast? = (pre ++ post).getLast? := by rw [h.split]
    rw [List.getLast?_append, List.getLast?_append, List.getLast?_singleton] at hgl
    cases hpost : post.getLast? with
    | none => exact absurd (List.getLast?_eq_none_iff.mp hpost) h.nonempty
    | some a =>
        rw [hpost] at hgl
        cases hgl
        exact List.mem_of_getLast? hpost
  refine sound_putSite hslug (fun slug' x hx => hs.own slug' x (hget slug' ▸ hx))
    (fun slug' x hne hx => ?_) ⟨.inr ⟨hlast, ?_⟩, ?_, h.length.trans (le_max_right _ _)⟩
  · rw [hget] at hx
    exact h.servable hs hx fun heq => absurd (heq.trans hown.symm) hne
  · change (s.getDeploy m.slug dep.id).isSome
    rw [hown, Store.getDeploy, h.deploys, if_pos rfl]
    · rfl
    · rintro id hid heq
      cases heq
      exact (List.nodup_append.mp hnodup).2.2 _ hid _ hlast rfl
  · exact (List.nodup_append.mp hnodup).2.1

end Commit

end Prune

section Requests

variable {b : Backend} {srv : Server}

/-- The write of a site record that ends a request. -/
theorem holds_putSite {m : SiteMeta} {r r' : Response} {x : Node × NodeCalls}
    {P : Node × NodeCalls → Prop}
    (hfail : ∀ e, P (x.1, x.2 ++ [⟨.putSite m, .error e⟩]))
    (hok : m.slug ≠ "" → P ({ x.1 with store := (x.1.store.putSite b m true).2 },
      x.2 ++ [⟨.putSite m, .ok ()⟩])) :
    Holds (Logged (Serves b srv.fileOf)) (fun _ _ => True) (fun _ x' => P x')
      (do
        let put : Except Err Unit ← node (.putSite m)
        match put with
        | .error _ => pure r
        | .ok () => pure r') x := by
  refine ⟨trivial, fun ans x' hx => ?_⟩
  obtain ⟨n', calls'⟩ := x'
  obtain ⟨hserves, hcalls⟩ := hx
  change calls' = x.2 ++ [⟨.putSite m, ans⟩] at hcalls
  subst hcalls
  have hcases : (∃ e, ans = .error e ∧ n' = x.1) ∨
      (m.slug ≠ "" ∧ ans = .ok () ∧
        n' = { x.1 with store := (x.1.store.putSite b m true).2 }) := by
    cases hserves with
    | putSite _ _ written =>
        rcases Decidable.em (m.slug = "") with hempty | hslug
        · left
          rw [Store.putSite, if_pos hempty]
          exact ⟨_, rfl, rfl⟩
        · cases written with
          | false =>
              left
              rw [Store.putSite, if_neg hslug, if_pos rfl]
              exact ⟨_, rfl, rfl⟩
          | true =>
              right
              rw [Store.putSite, if_neg hslug, if_neg (by decide)]
              exact ⟨hslug, rfl, rfl⟩
  rcases hcases with ⟨e, rfl, rfl⟩ | ⟨hslug, rfl, rfl⟩
  · exact hfail e
  · exact hok hslug

/-- A quiet part of a request, before the rest of it. -/
theorem holds_quiet {α β : Type} {p : NodeM α} (hp : p.Only Quiet) {next : α → NodeM β} {n : Node}
    {calls : NodeCalls} {x : Node × NodeCalls} (hx : Since n calls x)
    {Q : β → Node × NodeCalls → Prop}
    (hnext : ∀ a x', Since n calls x' →
      Holds (Logged (Serves b srv.fileOf)) (fun _ _ => True) Q (next a) x') :
    Holds (Logged (Serves b srv.fileOf)) (fun _ _ => True) Q (p >>= next) x :=
  (holds_bind p next x).mpr ((hx.quiet hp).imp fun a x' hx' => hnext a x' hx')

theorem Since.getSite {n : Node} {calls : NodeCalls} {x : Node × NodeCalls} (hx : Since n calls x)
    (slug : String) : x.1.store.getSite slug = n.store.getSite slug := by
  rw [Store.getSite, hx.sites, Store.getSite]

/-- The look at a site, before the rest of a request. -/
theorem holds_getSite {β : Type} {slug : String} {next : Option SiteMeta → NodeM β} {n : Node}
    {calls : NodeCalls} {x : Node × NodeCalls} (hx : Since n calls x)
    {Q : β → Node × NodeCalls → Prop}
    (hnext : ∀ found x', n.store.getSite slug = found → Since n calls x' →
      Holds (Logged (Serves b srv.fileOf)) (fun _ _ => True) Q (next found) x') :
    Holds (Logged (Serves b srv.fileOf)) (fun _ _ => True) Q (node (.getSite slug) >>= next) x := by
  refine ⟨trivial, fun found x' hfound => ?_⟩
  obtain ⟨n', calls'⟩ := x'
  obtain ⟨hserves, hcalls⟩ := hfound
  change calls' = x.2 ++ [⟨.getSite slug, found⟩] at hcalls
  have hread : n' = x.1 ∧ found = x.1.store.getSite slug := by
    cases hserves
    exact ⟨rfl, rfl⟩
  obtain ⟨rfl, rfl⟩ := hread
  subst hcalls
  refine hnext _ _ (hx.getSite slug).symm ⟨hx.sites, hx.deploys, ?_⟩
  exact List.subset_append_of_subset_left _ hx.log

/-- A request that keeps the store sound when its calls meet a condition. -/
abbrev KeepsSound (b : Backend) (srv : Server) (C : NodeCalls → Prop) {α : Type} (p : NodeM α)
    (x : Node × NodeCalls) : Prop :=
  Holds (Logged (Serves b srv.fileOf)) (fun _ _ => True)
    (fun _ x' => C x'.2 → Sound srv.cfg.keepDeploys x'.1.store) p x

theorem Since.sound {n : Node} {calls : NodeCalls} {x : Node × NodeCalls} (hx : Since n calls x)
    {keep : ℤ} (hs : Sound keep n.store) : Sound keep x.1.store :=
  hs.of_same hx.sites hx.deploys

/-- The end of a commit, from the write of the manifest on. -/
theorem putDeploy_sound {n : Node} (hs : Sound srv.cfg.keepDeploys n.store)
    (hkeep : 1 ≤ srv.cfg.keepDeploys) {slug : String} {m : SiteMeta}
    (hm : n.store.getSite slug = some m) {dep : Deploy} (hslug : dep.slug = slug)
    {x : Node × NodeCalls} (hx : Since n [] x) {r r' r'' : Response} :
    KeepsSound b srv (Commits n slug) (do
      let put : Except Err Unit ← node (.putDeploy dep)
      match put with
      | .error _ => pure r
      | .ok () => do
        let updated : ℤ ← node .now
        let kept ← prune slug srv.cfg.keepDeploys (m.deploys ++ [dep.id])
        match kept with
        | none => pure .aborted
        | some deploys => do
          let put : Except Err Unit ← node (.putSite
            { m with deploys := deploys, current := dep.id, updated := updated })
          match put with
          | .error _ => pure r'
          | .ok () => pure r'') x := by
  refine ⟨trivial, fun put x₁ hput => ?_⟩
  obtain ⟨n₁, calls₁⟩ := x₁
  obtain ⟨hserves, hcalls⟩ := hput
  change calls₁ = x.2 ++ [⟨.putDeploy dep, put⟩] at hcalls
  have hstore : (∃ e, put = .error e ∧ n₁ = x.1) ∨
      (put = .ok () ∧ n₁ = { x.1 with store := (x.1.store.putDeploy dep true).2 }) := by
    cases hserves with
    | putDeploy _ _ written =>
        cases written with
        | false => exact .inl ⟨_, rfl, rfl⟩
        | true => exact .inr ⟨rfl, rfl⟩
  rcases hstore with ⟨e, rfl, rfl⟩ | ⟨rfl, rfl⟩
  · exact fun _ => hx.sound hs
  · have hsince : Since { x.1 with store := (x.1.store.putDeploy dep true).2 } calls₁
        ({ x.1 with store := (x.1.store.putDeploy dep true).2 }, calls₁) :=
      ⟨rfl, rfl, List.Subset.refl _⟩
    refine holds_quiet (quiet_node (o := .now) trivial) hsince fun updated x₂ hx₂ => ?_
    have hids : m.deploys ++ [dep.id] ≠ [] := by simp
    refine (holds_bind _ _ _).mpr ((prune_prunes hkeep _ hids x₂.1 x₂.2).imp fun kept x₃ hx₃ => ?_)
    obtain ⟨pre, post, hsplit, rfl, hpruned⟩ := hx₃
    have hlog : ⟨.putDeploy dep, .ok ()⟩ ∈ x₃.2 := by
      refine hpruned.log (hx₂.log ?_)
      rw [hcalls]
      exact List.mem_append_right _ (List.mem_singleton_self _)
    have hpending : Pending srv.cfg.keepDeploys n slug m dep pre post x₃.1.store := by
      refine ⟨hsplit, hpruned.nonempty, hpruned.length, ?_, fun k hk => ?_⟩
      · rw [hpruned.sites, hx₂.sites]
        exact hx.sites
      · rw [hpruned.deploys k hk, hx₂.deploys]
        change (x.1.store.putDeploy dep true).2.disk.deploys.lookup k = _
        rw [Store.putDeploy, if_neg (by decide), lookup_insert_eq, hslug, hx.deploys]
    refine holds_putSite (fun e hcommits => ?_) fun hne hcommits => ?_
    · refine hpending.failed hs hm fun hpre => ?_
      refine hcommits.written m hm _ e (List.mem_append_right _ (List.mem_singleton_self _)) ?_
      exact List.mem_append_left _ (hpruned.deleted _ hpre)
    · refine hpending.written hs hm hne ?_ updated
      exact hcommits.fresh m hm dep (List.mem_append_left _ hlog)

theorem commitDeploy_sound {n : Node} (hs : Sound srv.cfg.keepDeploys n.store)
    (hkeep : 1 ≤ srv.cfg.keepDeploys) {slug : String} (pub : PubKey) (files : List File)
    {dep : Deploy} (hslug : dep.slug = slug) {x : Node × NodeCalls} (hx : Since n [] x) :
    KeepsSound b srv (Commits n slug) (commitDeploy srv slug pub files dep) x := by
  refine holds_getSite hx fun found x hm hx => ?_
  cases found with
  | none => exact fun _ => hx.sound hs
  | some m =>
      dsimp only
      split
      next => exact fun _ => hx.sound hs
      next =>
        refine holds_quiet (identityUsage_quiet pub) hx fun usage x hx => ?_
        cases usage with
        | error e => exact fun _ => hx.sound hs
        | ok usage =>
            refine holds_quiet (quiet_node (o := .listObjects) trivial) hx fun existing x hx => ?_
            split
            next => exact fun _ => hx.sound hs
            next =>
              refine holds_quiet (quiet_node (o := .totalBytes) trivial) hx fun total x hx => ?_
              split
              next => exact fun _ => hx.sound hs
              next => exact putDeploy_sound hs hkeep hm hslug hx

theorem Commits.of_subset {n : Node} {slug : String} {calls calls' : NodeCalls}
    (hsub : calls ⊆ calls') (h : Commits n slug calls') : Commits n slug calls :=
  ⟨fun m hm d hd => h.fresh m hm d (hsub hd),
    fun m hm m' e hput hdel => h.written m hm m' e (hsub hput) (hsub hdel)⟩

/-- A request that works with the lock of its site held. -/
theorem withSiteLock_sound {C : NodeCalls → Prop}
    (hC : ∀ {calls calls'}, calls ⊆ calls' → C calls' → C calls) {n : Node} {slug : String}
    {body : NodeM Response} {x : Node × NodeCalls} (hx : Since n [] x)
    (hbody : ∀ x, Since n [] x → KeepsSound b srv C body x) :
    KeepsSound b srv C (withSiteLock slug body) x := by
  refine holds_quiet (quiet_node (o := .lock slug) trivial) hx fun _ x hx => ?_
  refine (holds_bind body _ x).mpr ((hbody x hx).imp fun r x₁ hx₁ => ?_)
  refine ⟨trivial, fun _ x₂ hunlock hcommits => ?_⟩
  obtain ⟨n₂, calls₂⟩ := x₂
  obtain ⟨hserves, hcalls⟩ := hunlock
  change calls₂ = x₁.2 ++ [⟨.unlock slug, ()⟩] at hcalls
  have hsub : x₁.2 ⊆ calls₂ := hcalls ▸ List.subset_append_left _ _
  have hsound := hx₁ (hC hsub hcommits)
  cases hserves
  exact hsound

theorem handleDeploy_sound {n : Node} (hs : Sound srv.cfg.keepDeploys n.store)
    (hkeep : 1 ≤ srv.cfg.keepDeploys) (req : Request) (stream : TarStream) :
    KeepsSound b srv (Commits n req.slug) (handleDeploy srv req stream) (n, []) := by
  have hx : Since n [] (n, []) := ⟨rfl, rfl, List.Subset.refl _⟩
  rw [handleDeploy]
  split
  next => exact fun _ => hs
  next =>
    split
    next => exact fun _ => hs
    next pub _ =>
      refine holds_getSite hx fun found x hm hx => ?_
      cases found with
      | none => exact fun _ => hx.sound hs
      | some m =>
          dsimp only
          split
          next => exact fun _ => hx.sound hs
          next =>
            refine holds_quiet (quiet_node (o := .totalBytes) trivial) hx fun total x hx => ?_
            split
            next => exact fun _ => hx.sound hs
            next =>
              refine holds_quiet (extract_only putFile_quiet _ _ stream) hx fun out x hx => ?_
              cases out with
              | error e => exact fun _ => hx.sound hs
              | ok extracted =>
                  obtain ⟨files, opts⟩ := extracted
                  refine holds_quiet (quiet_node (o := .random) trivial) hx fun r4 x hx => ?_
                  refine holds_quiet (quiet_node (o := .now) trivial) hx fun idTime x hx => ?_
                  refine holds_quiet (quiet_node (o := .now) trivial) hx fun created x hx => ?_
                  have hslug : (newDeploy req.slug idTime created r4 files opts).slug = req.slug := rfl
                  exact withSiteLock_sound Commits.of_subset hx fun x hx =>
                    commitDeploy_sound hs hkeep pub files hslug hx

/-- A rollback to a deploy that has a manifest. -/
theorem handleRollback_sound {n : Node} (hs : Sound srv.cfg.keepDeploys n.store) (req : Request)
    (body : Option String)
    (hbody : ∀ id ∈ body, (n.store.getDeploy req.slug id).isSome) :
    KeepsSound b srv (fun _ => True) (handleRollback req body) (n, []) := by
  have hx : Since n [] (n, []) := ⟨rfl, rfl, List.Subset.refl _⟩
  unfold handleRollback
  split
  next => exact fun _ => hs
  next =>
    split
    next => exact fun _ => hs
    next id =>
      split
      next => exact fun _ => hs
      next =>
        split
        next => exact fun _ => hs
        next pub _ =>
          refine withSiteLock_sound (fun _ _ => trivial) hx fun x hx => holds_getSite hx fun found x hm hx => ?_
          cases found with
          | none => exact fun _ => hx.sound hs
          | some m =>
              dsimp only
              split
              next => exact fun _ => hx.sound hs
              next =>
                split
                next => exact fun _ => hx.sound hs
                next hin =>
                  refine holds_quiet (quiet_node (o := .now) trivial) hx fun updated x hx => ?_
                  refine holds_putSite (fun e _ => hx.sound hs) fun hne _ => ?_
                  have hsound := hx.sound hs
                  refine sound_putSite hne hsound.own (fun slug y _ => hsound.servable slug y) ?_
                  have hold := hs.servable req.slug m hm
                  refine ⟨.inr ⟨not_not.mp hin, ?_⟩, hold.nodup, hold.length⟩
                  change (x.1.store.getDeploy m.slug id).isSome
                  rw [hs.own req.slug m hm, Store.getDeploy, hx.deploys]
                  exact hbody id rfl

theorem handlePutSite_sound {n : Node} (hs : Sound srv.cfg.keepDeploys n.store) (req : Request)
    (title : Option String) (powOK : Bool) :
    KeepsSound b srv (fun _ => True) (handlePutSite srv req title powOK) (n, []) := by
  have hx : Since n [] (n, []) := ⟨rfl, rfl, List.Subset.refl _⟩
  rw [handlePutSite]
  split
  next => exact fun _ => hs
  next =>
    split
    next => exact fun _ => hs
    next =>
      split
      next => exact fun _ => hs
      next pub _ =>
        split
        next => exact fun _ => hs
        next title =>
          refine withSiteLock_sound (fun _ _ => trivial) hx fun x hx => holds_getSite hx fun found x hm hx => ?_
          cases found with
          | some m =>
              dsimp only
              split
              next => exact fun _ => hx.sound hs
              next =>
                refine holds_quiet (quiet_node (o := .now) trivial) hx fun updated x hx => ?_
                refine holds_putSite (fun e _ => hx.sound hs) fun hne _ => ?_
                have hsound := hx.sound hs
                refine sound_putSite hne hsound.own (fun slug y _ => hsound.servable slug y) ?_
                have hold := hsound.servable req.slug m ((hx.getSite req.slug).trans hm)
                exact ⟨hold.current, hold.nodup, hold.length⟩
          | none =>
              dsimp only
              split
              next => exact fun _ => hx.sound hs
              next =>
                refine holds_quiet (identityUsage_quiet pub) hx fun usage x hx => ?_
                cases usage with
                | error e => exact fun _ => hx.sound hs
                | ok usage =>
                    dsimp only
                    split
                    next => exact fun _ => hx.sound hs
                    next =>
                      refine holds_quiet (quiet_node (o := .now) trivial) hx fun created x hx => ?_
                      refine holds_quiet (quiet_node (o := .now) trivial) hx fun updated x hx => ?_
                      refine holds_putSite (fun e _ => hx.sound hs) fun hne _ => ?_
                      have hsound := hx.sound hs
                      refine sound_putSite hne hsound.own
                        (fun slug y _ => hsound.servable slug y) ⟨.inl rfl, List.nodup_nil, ?_⟩
                      exact le_max_of_le_left zero_le_one

/-- A request that commits keeps the store sound. -/
theorem step_sound {n n' : Node} {e : Served} (hs : Sound srv.cfg.keepDeploys n.store)
    (hkeep : 1 ≤ srv.cfg.keepDeploys) (hstep : Step b srv n e n') (hretains : Retains n e) :
    Sound srv.cfg.keepDeploys n'.store := by
  obtain ⟨action, response, calls⟩ := e
  cases action with
  | create req title powOK => exact (handlePutSite_sound hs req title powOK).exec hstep trivial
  | deploy req stream => exact (handleDeploy_sound hs hkeep req stream).exec hstep hretains
  | rollback req body => exact (handleRollback_sound hs req body hretains).exec hstep trivial

end Requests

/-- The sample server as it works on uploads of hello, keeping this many deploys. -/
def keepServer (keep : ℤ) : Server :=
  { helloServer 1000 with cfg := { (helloServer 1000).cfg with keepDeploys := keep } }

theorem exec_create (keep : ℤ) : ∃ e, e.action = .create sampleReq (some "") false ∧
    Step .fs (keepServer keep) (Node.start .fs ⟨∅, ∅, ∅, ∅⟩) e claimedNode :=
  ⟨⟨_, _, _⟩, rfl, .logged () (.lock _ _ (by decide)) <| .logged none (.getSite _ _) <|
    .logged (.ok []) (.listSites _ _ (by decide)) <| .logged (0 : ℤ) (.now _ _) <|
    .logged (0 : ℤ) (.now _ _) <| .logged (.ok ()) (.putSite _ _ true) <|
    .logged () (.unlock _ _) <| .refl _ _⟩

/-- The first upload of hello to the site. -/
theorem exec_deploy : ∃ e, Retains claimedNode e ∧
    Step .fs (keepServer 1) claimedNode e helloNode := by
  refine ⟨⟨.deploy sampleReq helloBundle, _, _⟩, ?_,
    .logged (some (sampleSite [])) (.getSite _ _) <| .logged (0 : ℤ) (.totalBytes _) <|
    .logged (.ok ()) (.putObject _ _ _ true) <|
    .logged (⟨[0, 0, 0, 0], rfl⟩ : ByteArr 4) (.random _ _) <| .logged (1 : ℤ) (.now _ _) <|
    .logged (1 : ℤ) (.now _ _) <| .logged () (.lock _ _ (by decide)) <|
    .logged (some (sampleSite [])) (.getSite _ _) <|
    .logged (.ok [sampleSite []]) (.listSites _ _ (List.Perm.refl _)) <|
    .logged ((∅ : Dict Digest ℤ).insert helloDigest 5) (.listObjects _) <|
    .logged (5 : ℤ) (.totalBytes _) <| .logged (.ok ()) (.putDeploy _ _ true) <|
    .logged (1 : ℤ) (.now _ _) <| .logged (.ok ()) (.putSite _ _ true) <|
    .logged () (.unlock _ _) <| .refl _ _⟩
  constructor
  · intro m hm
    cases hm
    exact fun _ _ => List.not_mem_nil
  · intro m hm m' e hput
    simp at hput

/-- A second upload of hello prunes the first; the write of the record fails. -/
theorem exec_deploy_fails : ∃ e n', Step .fs (keepServer 1) helloNode e n' ∧
    n'.store.getSite "a" = some helloSite ∧ n'.store.getDeploy "a" helloSite.current = none := by
  refine ⟨⟨.deploy sampleReq helloBundle, _, _⟩, _,
    .logged (some helloSite) (.getSite _ _) <| .logged (5 : ℤ) (.totalBytes _) <|
    .logged (.ok ()) (.putObject _ _ _ true) <|
    .logged (⟨[0, 0, 0, 1], rfl⟩ : ByteArr 4) (.random _ _) <| .logged (2 : ℤ) (.now _ _) <|
    .logged (2 : ℤ) (.now _ _) <| .logged () (.lock _ _ (by decide)) <|
    .logged (some helloSite) (.getSite _ _) <|
    .logged (.ok [helloSite]) (.listSites _ _ (List.Perm.refl _)) <|
    .logged (some helloDeploy) (.getDeploy _ _ _) <|
    .logged ((∅ : Dict Digest ℤ).insert helloDigest 5) (.listObjects _) <|
    .logged (5 : ℤ) (.totalBytes _) <| .logged (.ok ()) (.putDeploy _ _ true) <|
    .logged (2 : ℤ) (.now _ _) <| .logged () (.deleteDeploy _ _ _ true) <|
    .logged (.error .write) (.putSite _ _ false) <| .logged () (.unlock _ _) <| .refl _ _, rfl, ?_⟩
  decide

/-- An upload of hello when no deploys are kept. -/
theorem exec_deploy_keepNone : ∃ e n', Step .fs (keepServer 0) claimedNode e n' ∧
    n'.store.getSite "a" = some { helloSite with deploys := [] } := by
  exact ⟨⟨.deploy sampleReq helloBundle, _, _⟩, _,
    .logged (some (sampleSite [])) (.getSite _ _) <| .logged (0 : ℤ) (.totalBytes _) <|
    .logged (.ok ()) (.putObject _ _ _ true) <|
    .logged (⟨[0, 0, 0, 0], rfl⟩ : ByteArr 4) (.random _ _) <| .logged (1 : ℤ) (.now _ _) <|
    .logged (1 : ℤ) (.now _ _) <| .logged () (.lock _ _ (by decide)) <|
    .logged (some (sampleSite [])) (.getSite _ _) <|
    .logged (.ok [sampleSite []]) (.listSites _ _ (List.Perm.refl _)) <|
    .logged ((∅ : Dict Digest ℤ).insert helloDigest 5) (.listObjects _) <|
    .logged (5 : ℤ) (.totalBytes _) <| .logged (.ok ()) (.putDeploy _ _ true) <|
    .logged (1 : ℤ) (.now _ _) <| .logged () (.deleteDeploy _ _ _ true) <|
    .logged (.ok ()) (.putSite _ _ true) <| .logged () (.unlock _ _) <| .refl _ _, rfl⟩

/-- In every run of creations, deploys and rollbacks from an empty store that
commit, over both backends and with any number of deploys to keep but
none, every site's record is servable in every state reached. -/
theorem site_stays_servable (b : Backend) (srv : Server) (hkeep : 1 ≤ srv.cfg.keepDeploys)
    (es : List Served) (n : Node)
    (hrun : Runs (fun n e n' => Step b srv n e n' ∧ Retains n e)
      (Node.start b ⟨∅, ∅, ∅, ∅⟩) es n) :
    ∀ slug m, n.store.getSite slug = some m → Servable srv.cfg.keepDeploys n.store m := by
  have hempty : Sound srv.cfg.keepDeploys (Node.start b ⟨∅, ∅, ∅, ∅⟩).store :=
    ⟨(fun _ _ hm => nomatch hm), (fun _ _ hm => nomatch hm)⟩
  have hstep : ∀ n e n', Sound srv.cfg.keepDeploys n.store → (Step b srv n e n' ∧ Retains n e) →
      Sound srv.cfg.keepDeploys n'.store :=
    fun _ _ _ hs h => step_sound hs hkeep h.1 h.2
  exact (hrun.invariant hstep hempty).servable

theorem site_stays_servable_hello : ∃ es,
    Runs (fun n e n' => Step .fs (keepServer 1) n e n' ∧ Retains n e)
      (Node.start .fs ⟨∅, ∅, ∅, ∅⟩) es helloNode ∧
    Servable 1 helloNode.store helloSite := by
  obtain ⟨⟨_, r, calls⟩, rfl, hcreate⟩ := exec_create 1
  obtain ⟨e, hretains, hdeploy⟩ := exec_deploy
  have hrun : Runs (fun n e n' => Step .fs (keepServer 1) n e n' ∧ Retains n e)
      (Node.start .fs ⟨∅, ∅, ∅, ∅⟩) [⟨.create sampleReq (some "") false, r, calls⟩, e] helloNode :=
    .cons ⟨hcreate, trivial⟩ (.single ⟨hdeploy, hretains⟩)
  exact ⟨_, hrun, site_stays_servable .fs (keepServer 1) (le_refl 1) _ _ hrun "a" helloSite rfl⟩

/-- When the write of the record fails after the pruning of the current deploy,
the record names a deploy without a manifest; and when no deploys are kept, it
names one that it does not list. -/
theorem deploy_breaks_site :
    (∃ es n m, Runs (Step .fs (keepServer 1)) (Node.start .fs ⟨∅, ∅, ∅, ∅⟩) es n ∧
      n.store.getSite "a" = some m ∧ ¬ Servable 1 n.store m) ∧
    ∃ es n m, Runs (Step .fs (keepServer 0)) (Node.start .fs ⟨∅, ∅, ∅, ∅⟩) es n ∧
      n.store.getSite "a" = some m ∧ ¬ Servable 0 n.store m := by
  constructor
  · obtain ⟨e₁, _, hcreate⟩ := exec_create 1
    obtain ⟨e₂, _, hdeploy⟩ := exec_deploy
    obtain ⟨e₃, n, hfails, hsite, hgone⟩ := exec_deploy_fails
    refine ⟨_, n, helloSite, .cons hcreate (.cons hdeploy (.single hfails)), hsite, fun h => ?_⟩
    rcases h.current with hempty | ⟨_, hsome⟩
    · exact absurd hempty (by decide)
    · have hnone : n.store.getDeploy helloSite.slug helloSite.current = none := hgone
      rw [hnone] at hsome
      cases hsome
  · obtain ⟨e₁, _, hcreate⟩ := exec_create 0
    obtain ⟨e₂, n, hdeploy, hsite⟩ := exec_deploy_keepNone
    refine ⟨_, n, _, .cons hcreate (.single hdeploy), hsite, fun h => ?_⟩
    rcases h.current with hempty | ⟨hin, _⟩
    · exact absurd hempty (by decide)
    · cases hin

end Tactile.Publish.Retention

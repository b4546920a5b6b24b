import Tactile.Publish.SlugPaths

/-!
Slugs that lead a request out of the files of sites, and the slugs that do not.
-/

namespace Tactile.Publish.SlugEscapes

open Tactile.Lib.Program Tactile.Lib.FiniteMap Tactile.Lib.Transition Tactile.Lib.Threads
open Tactile.Lib.CleanPath
open Tactile.Publish.Bundle Tactile.Publish.Records Tactile.Publish.NodeOps
open Tactile.Publish.Handlers Tactile.Publish.Deploys Tactile.Publish.DeployCache
open Tactile.Publish.FsPaths Tactile.Publish.SlugPaths
open Tactile.Publish.Routing (sampleKey sampleServer sampleReq sampleSite)
open scoped List

section Reaching

variable {α : Type} {dir : Text} {P : FsNode → CacheOp → Prop} {n : FsNode}

theorem onNode_steps {p q : NodeM α} {t : FsNode} (h : Steps (FsServes dir) n p t q) :
    Steps (CacheFsServes dir) n (onNode p) t (onNode q) := by
  induction h with
  | refl => exact .refl _ _
  | step hR _ ih => exact .step (.node hR) ih

theorem onNode_reaches {p : NodeM α}
    (h : Reaches (FsServes dir) (fun n o => P n (.node o)) p n) :
    Reaches (CacheFsServes dir) P (onNode p) n := by
  obtain ⟨t, o, next, hsteps, hP⟩ := h
  exact ⟨t, .node o, _, onNode_steps hsteps, hP⟩

theorem dropping_reaches {slug : String} {p : NodeM Response}
    (h : Reaches (FsServes dir) (fun n o => P n (.node o)) p n) :
    Reaches (CacheFsServes dir) P (dropping slug p) n := by
  obtain ⟨t, o, next, hsteps, hP⟩ := h
  have hlift : ∀ {s t : FsNode} {p q : NodeM Response}, Steps (FsServes dir) s p t q →
      ∀ slug, ∃ slug', Steps (CacheFsServes dir) s (invalidating slug p) t (invalidating slug' q) := by
    intro s t p q hsteps
    induction hsteps with
    | refl => exact fun slug => ⟨slug, .refl _ _⟩
    | @step s s' t o ans next q hR _ ih =>
        intro slug
        obtain ⟨slug', hrest⟩ := ih (lockedSlug slug o)
        refine ⟨slug', .answer ans s' (.node hR) ?_⟩
        split
        next => exact .answer () s' (.invalidate _ _) hrest
        next => exact hrest
  obtain ⟨slug', hrun⟩ := hlift hsteps slug
  exact Reaches.bind ⟨t, .node o, _, hrun, hP⟩ _

/-- A request starts and runs while the others rest. -/
theorem run_request {srv : Server} {lets : Endpoint → String → Prop} {x : SlugPool} {i : ℕ}
    {p q : CacheM Unit} {t : FsNode} (hfree : x.threads.lookup i = none)
    (hstart : StartSlug srv lets x.shared () p) (hsteps : Steps (CacheFsServes dir) x.shared p t q) :
    ∃ es y, Runs (SlugStep srv dir lets) x es y ∧ y.shared = t ∧
      y.threads.lookup i = some ⟨q, ()⟩ ∧
      ∀ j, j ≠ i → y.threads.lookup j = x.threads.lookup j := by
  let x₁ : SlugPool := { x with threads := x.threads.insert i ⟨p, ()⟩ }
  have hwhere : Steps (Where (CacheFsServes dir) fun _ _ _ => True) x.shared p t q :=
    hsteps.mono fun _ _ _ _ hR => ⟨hR, trivial⟩
  obtain ⟨es, y, hrun, hy, ⟨_, hleft⟩, hothers⟩ :=
    @runs_of_steps _ _ _ _ _ _ (fun t _ _ => t) (StartSlug srv lets) (fun _ _ => True) _
      (fun _ _ _ _ _ => trivial) _ _ _ _ _ hwhere x₁ rfl _ (AList.lookup_insert _)
  refine ⟨_, y, .cons (.start hfree hstart) (hrun.mono fun _ _ _ h => h.1), hy, hleft, ?_⟩
  intro j hne
  rw [hothers j hne, lookup_insert_eq, if_neg hne]

/-- Every run of a node, in any directory that has only the files of sites, touches only
sites' own files. -/
def AlwaysOwn (lets : Endpoint → String → Prop) : Prop :=
  ∀ dir srv n es x, OwnFiles dir n → Runs (SlugStep srv dir lets) ⟨n, ∅⟩ es x → KeepsOwn dir x

/-- What a request that is let through reaches is a site's own. -/
theorem AlwaysOwn.reached {lets : Endpoint → String → Prop} (h : AlwaysOwn lets)
    {srv : Server} {e : Endpoint} {inp : Incoming} {p : CleanedPath} (hn : OwnFiles dir n)
    (hlets : ∀ slug, e.slug srv inp = some slug → lets e slug)
    (hreaches : Reaches (CacheFsServes dir) (fun n o => p ∈ touchedBy dir n o)
      (e.program srv inp) n) : Own dir p := by
  obtain ⟨t, o, next, hsteps, hp⟩ := hreaches
  obtain ⟨es, y, hrun, rfl, hleft, -⟩ :=
    run_request (x := ⟨n, ∅⟩) (i := 1) (AList.lookup_empty 1) (.start e inp hlets) hsteps
  exact h dir srv n es y hn hrun 1 o next () hleft p hp

end Reaching

section Requests

/-- A server below a base domain. -/
def hostServer : Server := { sampleServer with cfg := { sampleServer.cfg with baseDomain := "x" } }

/-- An authorised request with a slug. -/
def incoming (slug : String) : Incoming where
  req := { sampleReq with slug := slug }
  title := none
  powOK := true
  stream := .entries [] none
  body := some "a.io"
  domain := "a.io"
  host := slug ++ ".x"

theorem hostSlug_incoming {slug : String} (hslug : '.' ∉ slug.toList) :
    hostSlug "x" (incoming slug).host = some slug := by
  have hhost : (incoming slug).host.toList = slug.toList ++ ['.', 'x'] := String.toList_append
  have hlen : (slug.toList ++ ['.', 'x']).length - ("x".toList.length + 1) = slug.toList.length := by
    rw [List.length_append]
    exact Nat.add_sub_cancel _ _
  rw [hostSlug, hhost, hlen, List.take_left, if_pos, if_neg hslug, String.ofList_toList]
  refine ⟨by decide, ?_⟩
  rw [List.isSuffixOf_iff_suffix]
  exact List.suffix_append _ _

/-- A request below a base domain whose label is not that of the apex. -/
theorem serveHost_incoming {slug : String} (hslug : '.' ∉ slug.toList) (hwww : slug ≠ "www") :
    Endpoint.serveHost.program hostServer (incoming slug) = serveSite slug := by
  have hhost : (incoming slug).host.toList = slug.toList ++ ['.', 'x'] := String.toList_append
  have hbase : (incoming slug).host ≠ "x" := by
    intro h
    have hlen := congrArg List.length (hhost.symm.trans (congrArg String.toList h))
    rw [List.length_append] at hlen
    exact absurd (Nat.le_of_add_left_le hlen.le) (by decide)
  have happex : (incoming slug).host ≠ "www." ++ "x" := by
    intro h
    have hlist := hhost.symm.trans (congrArg String.toList h)
    have hlabel : slug.toList = "www".toList := List.append_cancel_right hlist
    exact hwww (String.toList_inj.mp hlabel)
  change SlugPaths.serveHost "x" (incoming slug).host = _
  rw [SlugPaths.serveHost, if_neg, hostSlug_incoming hslug]
  rintro ⟨-, h | h⟩
  · exact hbase h
  · exact happex h

variable (slug : String) (n : FsNode)

abbrev Touching (p : CleanedPath) : FsNode → CacheOp → Prop := fun n o => p ∈ touchedBy ['.'] n o

/-- A call of the store touches the slug's record. -/
theorem touches_record {α : Type} (next : NodeAns (.getSite slug) → NodeM α) :
    Reaches (FsServes ['.']) (fun n o => Touching (sitePath ['.'] slug) n (.node o))
      (.call (.getSite slug) next) n := reaches_here (List.mem_singleton_self _)

theorem locked_record {α : Type} (next : NodeAns (.getSite slug) → NodeM α) :
    Reaches (FsServes ['.']) (fun n o => Touching (sitePath ['.'] slug) n (.node o))
      (withSiteLock slug (.call (.getSite slug) next)) n :=
  .answer () (.elsewhere n (.lock slug) () trivial) ((touches_record slug n next).bind _)

theorem ownSite_record (act : SiteMeta → String → PubKey → NodeM Response) :
    Reaches (FsServes ['.']) (fun n o => Touching (sitePath ['.'] slug) n (.node o))
      (withOwnSite sampleServer (incoming slug).req (some "a.io") act) n := locked_record slug n _

theorem serveSite_record :
    Reaches (CacheFsServes ['.']) (Touching (sitePath ['.'] slug)) (serveSite slug) n := by
  have hread : Touching (sitePath ['.'] slug) n (.node (.getSite slug)) := List.mem_singleton_self _
  exact .bind (.answer none (.cached n slug none) (reaches_here hread)) _

/-- The endpoints that look up the record of their slug. -/
def Looks : Endpoint → Prop
  | .listSites | .usage | .putSite | .serveHost => False
  | _ => True

theorem reaches_record {e : Endpoint} (he : Looks e) :
    Reaches (CacheFsServes ['.']) (Touching (sitePath ['.'] slug))
      (e.program sampleServer (incoming slug)) n := by
  cases e with
  | listSites | usage | putSite | serveHost => exact he.elim
  | getSite | listDeploys => exact onNode_reaches (touches_record slug n _)
  | deleteSite | deploy => exact dropping_reaches (touches_record slug n _)
  | rollback => exact dropping_reaches (locked_record slug n _)
  | addDomain | verifyDomain | deleteDomain => exact onNode_reaches (ownSite_record slug n _)
  | servePath => exact serveSite_record slug n

end Requests

section Held

/-- The record of the site a, with a deploy and a domain to verify. -/
def heldSite (deploys : List String) : SiteMeta :=
  { sampleSite [⟨"a.io", false⟩] with current := "0", deploys := deploys }

/-- A node that has the record at the path of another slug. -/
def heldNode (slug : String) (deploys : List String) : FsNode :=
  ⟨(∅ : Files).insert (sitePath ['.'] slug) (.site (heldSite deploys)), ∅⟩

variable (slug : String) (deploys : List String)

theorem held_own (hrecord : Own ['.'] (sitePath ['.'] slug)) (hdeploys : ∀ id ∈ deploys, Flat id) :
    OwnFiles ['.'] (heldNode slug deploys) := by
  have hzero : Flat "0" := by
    unfold Flat
    decide
  have hname : NamesSite "a" := namesSite_of_valid (by decide)
  have hsite : SoundFile (.site (heldSite deploys)) := ⟨hname, hzero, hdeploys⟩
  exact ⟨all_empty.insert ⟨hrecord, hsite⟩, all_empty⟩

theorem held_getSite : FsServes ['.'] (heldNode slug deploys) (.getSite slug)
    (some (heldSite deploys)) (heldNode slug deploys) := by
  have hget : getSite ['.'] slug (heldNode slug deploys).files = some (heldSite deploys) := by
    rw [getSite, heldNode, AList.lookup_insert]
    rfl
  rw [← hget]
  exact .getSite _ slug

theorem deleteSite_siteDir :
    Reaches (FsServes ['.']) (fun n o => Touching (siteDir ['.'] slug) n (.node o))
      (handleDeleteSite (incoming slug).req) (heldNode slug deploys) :=
  .answer (some (heldSite deploys)) (held_getSite slug deploys) <|
    .answer () (.elsewhere _ (.lock slug) () trivial) <|
    reaches_here (List.mem_cons_of_mem _ (List.mem_singleton_self _))

theorem listDeploys_deployPath :
    Reaches (FsServes ['.']) (fun n o => Touching (deployPath ['.'] slug "0") n (.node o))
      (handleListDeploys (incoming slug).req) (heldNode slug ["0"]) := by
  refine .answer (some (heldSite ["0"])) (held_getSite slug ["0"]) ?_
  have hread : deployPath ['.'] slug "0" ∈
      touchedBy ['.'] (heldNode slug ["0"]) (.node (.getDeploy slug "0")) := List.mem_singleton_self _
  exact reaches_here hread

theorem serveSite_deployPath {n : FsNode}
    (hget : FsServes ['.'] n (.getSite slug) (some (heldSite deploys)) n) :
    Reaches (CacheFsServes ['.']) (Touching (deployPath ['.'] slug "0")) (serveSite slug) n := by
  have hread : Touching (deployPath ['.'] slug "0") n (.node (.getDeploy slug "0")) :=
    List.mem_singleton_self _
  refine .bind (.answer none (.cached n slug none) ?_) _
  exact .answer (some (heldSite deploys)) (.node hget) (reaches_here hread)

/-- What is counted of sites without deploys has no bytes. -/
theorem countSites_bytes (owner : PubKey) (sites : List SiteMeta) (acc : Counted)
    (hsites : ∀ m ∈ sites, m.deploys = []) :
    ∃ acc', sites.foldlM (countSite owner) acc = .ret acc' ∧ acc'.usage.bytes = acc.usage.bytes := by
  induction sites generalizing acc with
  | nil => exact ⟨acc, rfl, rfl⟩
  | cons m sites ih =>
      rw [List.forall_mem_cons] at hsites
      have hcount : ∃ acc', countSite owner acc m = .ret acc' ∧
          acc'.usage.bytes = acc.usage.bytes := by
        rw [countSite, hsites.1]
        split
        next => exact ⟨acc, rfl, rfl⟩
        next => exact ⟨_, rfl, rfl⟩
      obtain ⟨acc₁, hacc₁, hbytes₁⟩ := hcount
      obtain ⟨acc₂, hacc₂, hbytes₂⟩ := ih acc₁ hsites.2
      refine ⟨acc₂, ?_, hbytes₂.trans hbytes₁⟩
      rw [List.foldlM_cons, hacc₁]
      exact hacc₂

theorem held_listSites {m : SiteMeta} (hm : m ∈ listSites ['.'] (heldNode slug []).files) :
    m.deploys = [] := by
  obtain ⟨f, hf, rfl⟩ := List.mem_map.mp hm
  obtain ⟨p, hp⟩ := mem_values.mp hf
  have hall : All (fun _ f => File.asSite f = heldSite []) (heldNode slug []).files :=
    all_empty.insert rfl
  rw [hall.select _ p f hp]
  rfl

theorem held_identityUsage : ∃ usage, usage.bytes = 0 ∧
    Exec (FsServes ['.']) (heldNode slug []) (identityUsage sampleKey) (.ok usage)
      (heldNode slug []) := by
  obtain ⟨acc, hacc, hbytes⟩ := countSites_bytes sampleKey _ ⟨⟨0, 0, 0⟩, []⟩
    fun m hm => held_listSites slug hm
  refine ⟨acc.usage, hbytes, .answer (.ok _) _ (.listSites _ _ (.refl _)) ?_⟩
  change Steps _ _ ((listSites ['.'] (heldNode slug []).files).foldlM (countSite sampleKey) _ >>= _)
    _ _
  rw [hacc]
  exact .refl _ _

theorem deploy_deploysDir :
    Reaches (FsServes ['.']) (fun n o => Touching (deploysDir ['.'] slug) n (.node o))
      (handleDeploy sampleServer (incoming slug).req (.entries [] none)) (heldNode slug []) := by
  obtain ⟨usage, hbytes, hexec⟩ := held_identityUsage slug
  have helse : ∀ o ans, Elsewhere o → FsServes ['.'] (heldNode slug []) o ans (heldNode slug []) :=
    fun o ans ho => .elsewhere _ o ans ho
  refine .answer (some (heldSite [])) (held_getSite slug []) ?_
  refine .answer (0 : ℤ) (helse .totalBytes (0 : ℤ) trivial) ?_
  refine .answer ⟨[0, 0, 0, 0], rfl⟩ (helse .random _ trivial) ?_
  refine .answer (0 : ℤ) (helse .now (0 : ℤ) trivial) ?_
  refine .answer (0 : ℤ) (helse .now (0 : ℤ) trivial) ?_
  refine .answer () (helse (.lock slug) () trivial) ?_
  refine Reaches.bind (p := commitDeploy sampleServer slug sampleKey [] _) ?_ _
  refine .answer (some (heldSite [])) (held_getSite slug []) ?_
  change Reaches _ _ (identityUsage sampleKey >>= _) _
  refine Reaches.of_exec hexec ?_
  refine .answer (∅ : Dict Digest ℤ) (helse .listObjects (∅ : Dict Digest ℤ) trivial) ?_
  have hquota : ¬ usage.bytes + newBytes ∅ [] > sampleServer.cfg.siteQuota := by
    rw [hbytes]
    decide
  change Reaches _ _ (if usage.bytes + newBytes ∅ [] > sampleServer.cfg.siteQuota then _ else _) _
  rw [if_neg hquota]
  refine .answer (0 : ℤ) (helse .totalBytes (0 : ℤ) trivial) ?_
  exact reaches_here List.mem_cons_self

/-- A verification maps the domain to the slug of its request. -/
theorem verifyDomain_maps : Reaches (FsServes ['.'])
    (fun n _ => n = ⟨(heldNode slug []).files, (∅ : Dict String String).insert "a.io" slug⟩)
    (handleVerifyDomain sampleServer (incoming slug).req (some "a.io")) (heldNode slug []) := by
  have hmapped : FsServes ['.'] (heldNode slug []) (.setDomain "a.io" slug) (.ok ())
      ⟨(heldNode slug []).files, (∅ : Dict String String).insert "a.io" slug⟩ :=
    .setDomain (heldNode slug []) "a.io" slug true
  refine .answer () (.elsewhere _ (.lock slug) () trivial) ?_
  refine .answer (some (heldSite [])) (held_getSite slug []) ?_
  let token := sampleServer.verifyToken slug "a.io"
  refine .answer (.ok [token]) (.elsewhere _ (.lookupTXT _) _ trivial) ?_
  refine Reaches.bind ?_ _
  exact .answer (.ok ()) hmapped (reaches_here rfl)

end Held

section Condition

/-- A request below a domain that has been mapped by a verification reads the deploys of
the slug of that verification. -/
theorem verified_deployPath {lets : Endpoint → String → Prop} (h : AlwaysOwn lets) {slug : String}
    (hlets : lets .verifyDomain slug) (hrecord : Own ['.'] (sitePath ['.'] slug)) :
    Own ['.'] (deployPath ['.'] slug "0") := by
  have hn := held_own slug [] hrecord fun _ hid => nomatch hid
  obtain ⟨_, _, _, hverify, rfl⟩ := verifyDomain_maps slug
  have hverifies : StartSlug sampleServer lets (heldNode slug []) ()
      (Endpoint.verifyDomain.program sampleServer (incoming slug)) := by
    refine .start .verifyDomain (incoming slug) ?_
    rintro _ ⟨⟩
    exact hlets
  obtain ⟨es, y, hrun, hy, -, hothers⟩ := run_request (x := ⟨heldNode slug [], ∅⟩) (i := 1)
    (AList.lookup_empty 1) hverifies (onNode_steps hverify)
  have hserves : StartSlug sampleServer lets y.shared ()
      (Endpoint.serveHost.program sampleServer { incoming slug with host := "a.io" }) := by
    refine .start .serveHost { incoming slug with host := "a.io" } ?_
    rintro _ ⟨⟩
  have hget : FsServes ['.'] y.shared (.getSite slug) (some (heldSite [])) y.shared := by
    have hfound : getSite ['.'] slug y.shared.files = some (heldSite []) := by
      rw [hy, getSite, heldNode, AList.lookup_insert]
      rfl
    rw [← hfound]
    exact .getSite _ slug
  have hresolve : CacheFsServes ['.'] y.shared (.node (.resolveDomain "a.io")) (some slug)
      y.shared := by
    have hfound : y.shared.domains.lookup "a.io" = some slug := by
      rw [hy]
      exact AList.lookup_insert _
    rw [← hfound]
    exact .node (.resolveDomain _ "a.io")
  have hreads : Reaches (CacheFsServes ['.']) (Touching (deployPath ['.'] slug "0"))
      (Endpoint.serveHost.program sampleServer { incoming slug with host := "a.io" }) y.shared :=
    .answer (some slug) hresolve (serveSite_deployPath slug [] hget)
  obtain ⟨t, o, next, hsteps, hp⟩ := hreads
  obtain ⟨es', z, hrun', rfl, hleft, -⟩ := run_request (i := 2)
    ((hothers 2 (by decide)).trans (AList.lookup_empty 2)) hserves hsteps
  exact h ['.'] sampleServer _ _ z hn (hrun.append hrun') 2 o next () hleft _ hp

/-- All requests touch only sites' own files, in any directory and any order, exactly
when only slugs are let through that keep their endpoints to such files. -/
theorem alwaysOwn_iff (lets : Endpoint → String → Prop) :
    AlwaysOwn lets ↔ ∀ e slug, lets e slug → e.Confines slug := by
  constructor
  · intro h e slug hlets
    have hempty : OwnFiles ['.'] ⟨∅, ∅⟩ := ⟨all_empty, all_empty⟩
    have hcarries : Looks e → ∀ slug', e.slug sampleServer (incoming slug) = some slug' →
        lets e slug' := by
      intro he slug' hslug
      cases e with
      | listSites | usage | putSite | serveHost => exact he.elim
      | _ =>
          cases hslug
          exact hlets
    have hrecord : Looks e → Own ['.'] (sitePath ['.'] slug) := fun he =>
      h.reached hempty (hcarries he) (reaches_record slug _ he)
    have hnames : ∀ {p : CleanedPath}, Own ['.'] (sitePath ['.'] slug) → Own ['.'] p →
        (siteDir ['.'] slug).names <:+ p.names → NamesSite slug :=
      fun hsite hp hbelow => namesSite_of_own hsite (stays_of_own hp hbelow)
    have hdeploys : (siteDir ['.'] slug).names <:+ (deploysDir ['.'] slug).names := by
      rw [deploysDir_eq]
      exact List.suffix_cons _ _
    have hzero : ∀ id ∈ (["0"] : List String), Flat id := by
      intro id hid
      cases List.mem_singleton.mp hid
      unfold Flat
      decide
    have hdeploy : (siteDir ['.'] slug).names <:+ (deployPath ['.'] slug "0").names := by
      rw [deployPath_eq ['.'] slug (hzero "0" (List.mem_singleton_self _))]
      exact List.suffix_append [jsonName "0", deploysName] _
    cases e with
    | listSites | usage | putSite => trivial
    | getSite | rollback | addDomain | deleteDomain => exact namesRecord_of_own (hrecord trivial)
    | deleteSite =>
        have hsite := hrecord trivial
        have hn := held_own slug [] hsite fun _ hid => nomatch hid
        refine hnames hsite (h.reached hn (hcarries trivial) ?_) (List.suffix_refl _)
        exact dropping_reaches (deleteSite_siteDir slug [])
    | deploy =>
        have hsite := hrecord trivial
        have hn := held_own slug [] hsite fun _ hid => nomatch hid
        refine hnames hsite (h.reached hn (hcarries trivial) ?_) hdeploys
        exact dropping_reaches (deploy_deploysDir slug)
    | listDeploys =>
        have hsite := hrecord trivial
        have hn := held_own slug ["0"] hsite hzero
        refine hnames hsite (h.reached hn (hcarries trivial) ?_) hdeploy
        exact onNode_reaches (listDeploys_deployPath slug)
    | verifyDomain =>
        have hsite := hrecord trivial
        exact hnames hsite (verified_deployPath h hlets hsite) hdeploy
    | servePath =>
        have hsite := hrecord trivial
        have hn := held_own slug [] hsite fun _ hid => nomatch hid
        refine hnames hsite (h.reached hn (hcarries trivial) ?_) hdeploy
        exact serveSite_deployPath slug [] (held_getSite slug [])
    | serveHost =>
        intro hdot
        rcases Decidable.em (slug = "www") with rfl | hwww
        · exact namesSite_of_valid (by decide)
        · have hhost : ∀ slug', Endpoint.serveHost.slug hostServer (incoming slug) = some slug' →
              lets .serveHost slug' := by
            intro slug' hslug
            cases (hostSlug_incoming hdot).symm.trans hslug
            exact hlets
          have hsite : Own ['.'] (sitePath ['.'] slug) := by
            refine h.reached hempty hhost ?_
            rw [serveHost_incoming hdot hwww]
            exact serveSite_record slug _
          have hn := held_own slug [] hsite fun _ hid => nomatch hid
          refine hnames hsite (h.reached hn hhost ?_) hdeploy
          rw [serveHost_incoming hdot hwww]
          exact serveSite_deployPath slug [] (held_getSite slug [])
  · intro hlets dir srv n es x hn hrun
    exact keepsOwn_of_confines hlets hn hrun

/-- `GET /v1/sites/..%2F..%2F..%2Fx` reads a file beside the data directory. -/
theorem getSite_escapes : ∃ x : SlugPool,
    Runs (SlugStep sampleServer ['.'] fun _ _ => True) ⟨⟨∅, ∅⟩, ∅⟩ [.start 1 ()] x ∧
    x.threads.lookup 1 =
      some ⟨Endpoint.getSite.program sampleServer (incoming "../../../x"), ()⟩ ∧
    OwnFiles ['.'] ⟨∅, ∅⟩ ∧ ¬ KeepsOwn ['.'] x := by
  have hrun : ∃ x : SlugPool,
      Runs (SlugStep sampleServer ['.'] fun _ _ => True) ⟨⟨∅, ∅⟩, ∅⟩ [.start 1 ()] x ∧
      x.threads.lookup 1 =
        some ⟨Endpoint.getSite.program sampleServer (incoming "../../../x"), ()⟩ :=
    ⟨_, .cons (.start rfl (.start .getSite (incoming "../../../x") fun _ _ => trivial)) (.nil _), rfl⟩
  obtain ⟨x, hrun, hthread⟩ := hrun
  refine ⟨x, hrun, hthread, ⟨all_empty, all_empty⟩, fun hkeeps => ?_⟩
  have hown : Own ['.'] (sitePath ['.'] "../../../x") :=
    hkeeps 1 (.node (.getSite "../../../x")) _ () hthread _ (List.mem_singleton_self _)
  have hpath : (sitePath ['.'] "../../../x").names = ["x.json".toList, dotdot] := by decide
  rw [own_iff, clean_dot, hpath] at hown
  obtain ⟨-, t, -, hnames | ⟨above, habove⟩⟩ := hown
  · have hsites : dotdot = sitesName := (List.cons.inj (List.cons.inj hnames).2).1
    exact absurd hsites (by decide)
  · have hlast := congrArg List.getLast? habove
    rw [List.getLast?_append] at hlast
    have hsites : sitesName = dotdot := Option.some.inj hlast
    exact absurd hsites (by decide)

end Condition

end Tactile.Publish.SlugEscapes

import Tactile.Publish.Sweep

/-!
The requests that write to sites, whatever the node answers: what each has
observed when it calls an operation that changes the store.
-/

namespace Tactile.Publish.SiteThreads

open Tactile.Lib.Program Tactile.Lib.FiniteMap Tactile.Lib.Threads Tactile.Lib.ByteString
open Tactile.Publish.Bundle Tactile.Publish.Records Tactile.Publish.NodeOps
open Tactile.Publish.Handlers Tactile.Publish.Deploys
open Tactile.Publish.Retention (extract_only)

/-- The requests that write to a site, with what is read from their bodies. -/
inductive SiteCall
  | putSite (title : Option String) (powOK : Bool)
  | deleteSite
  | deploy (stream : TarStream)
  | rollback (body : Option String)
  | addDomain (body : Option String)
  | verifyDomain (body : Option String)
  | deleteDomain (domain : String)

namespace SiteCall

variable (srv : Server) (req : Request)

def program : SiteCall → NodeM Response
  | .putSite title powOK => handlePutSite srv req title powOK
  | .deleteSite => handleDeleteSite req
  | .deploy stream => handleDeploy srv req stream
  | .rollback body => handleRollback req body
  | .addDomain body => handleAddDomain srv req body
  | .verifyDomain body => handleVerifyDomain srv req body
  | .deleteDomain domain => handleDeleteDomain srv req domain

/-- What the signature of a request covers beside its method and time. -/
def subject : SiteCall → Option String
  | .putSite .. | .deleteSite | .deploy _ => some req.slug
  | .rollback body => body.map fun id => req.slug ++ "|" ++ id
  | .addDomain body | .verifyDomain body =>
    (body.bind srv.normalizeDomain).map fun domain => req.slug ++ "|" ++ domain
  | .deleteDomain domain =>
    (srv.normalizeDomain domain).map fun domain => req.slug ++ "|" ++ domain

/-- The key whose signature over the request is accepted. -/
def signer (call : SiteCall) : Option PubKey :=
  (call.subject srv req).bind fun subject => (req.authed subject).toOption

def creates : SiteCall → Bool
  | .putSite .. => true
  | _ => false

def deletes : SiteCall → Bool
  | .deleteSite => true
  | _ => false

def attaches : SiteCall → Bool
  | .addDomain _ => true
  | _ => false

end SiteCall

/-- What a request has seen since it took its lock or wrote a record: the site's
record, its listing of the sites, the domain it has mapped to the site and the
domain whose mapping it has deleted. -/
structure Seen where
  site : Option (Option SiteMeta)
  listed : Option (List SiteMeta)
  mapped : Option String
  dropped : Option String

def Seen.nothing : Seen := ⟨none, none, none, none⟩

/-- A request with its signer, the lock it holds, the site that it has found to
be its signer's and is going to delete, and what it has seen. -/
structure Track where
  call : SiteCall
  signer : Option PubKey
  locked : Option String
  pending : Option String
  seen : Seen

def Track.start (srv : Server) (req : Request) (call : SiteCall) : Track :=
  ⟨call, call.signer srv req, none, none, .nothing⟩

def observe (t : Track) : (o : NodeOp) → NodeAns o → Track
  | .lock slug, _ => { t with locked := some slug, seen := .nothing }
  | .unlock _, _ => { t with locked := none, seen := .nothing }
  | .getSite slug, found =>
    if t.locked = some slug then { t with seen := { t.seen with site := some found } }
    else if t.call.deletes ∧ found.any fun m => t.signer = some m.owner then
      { t with pending := some slug }
    else t
  | .listSites, .ok sites => { t with seen := { t.seen with listed := some sites } }
  | .setDomain domain _, .ok () => { t with seen := { t.seen with mapped := some domain } }
  | .deleteDomain domain, _ => { t with seen := { t.seen with dropped := some domain } }
  | .putSite _, _ => { t with seen := .nothing }
  | .deleteSite _, _ => { t with pending := none, seen := .nothing }
  | _, _ => t

/-- How many of the sites have this owner. -/
def sitesOf (owner : PubKey) (sites : List SiteMeta) : ℤ :=
  ((sites.filter fun m => m.owner = owner).length : ℤ)

/-- How many domains the sites with this owner list. -/
def domainsOf (owner : PubKey) (sites : List SiteMeta) : ℤ :=
  ((sites.filter fun m => m.owner = owner).map fun m => (m.domains.length : ℤ)).sum

/-- The request has found the slug free and less than the most sites its signer
may have, and the record is of a new site. -/
structure Creates (srv : Server) (t : Track) (slug : String) (m : SiteMeta) : Prop where
  call : t.call.creates = true
  free : t.seen.site = some none
  slug : m.slug = slug
  domains : m.domains = []
  counted : ∃ sites, t.seen.listed = some sites ∧ sitesOf m.owner sites < srv.cfg.maxSites

/-- The record is that of the site that the request has seen, with other data: a
domain that is verified in it was or has been mapped to the site, and one more
domain comes with a count of less than the most domains the signer may have. -/
structure Updates (srv : Server) (t : Track) (m₀ m : SiteMeta) : Prop where
  seen : t.seen.site = some (some m₀)
  slug : m.slug = m₀.slug
  owner : m.owner = m₀.owner
  verified : ∀ e ∈ m.domains, e.verified = true → t.seen.dropped ≠ some e.name ∧
    ((∃ e' ∈ m₀.domains, e'.name = e.name ∧ e'.verified = true) ∨ t.seen.mapped = some e.name)
  domains : m.domains.length ≤ m₀.domains.length ∨
    (m.domains.length = m₀.domains.length + 1 ∧ t.call.attaches = true ∧
      ∃ sites, t.seen.listed = some sites ∧ domainsOf m.owner sites < srv.cfg.maxDomains)

/-- The request holds the site's lock and has seen that the site is its
signer's. -/
structure Owns (t : Track) (slug : String) (m : SiteMeta) : Prop where
  locked : t.locked = some slug
  site : t.seen.site = some (some m)
  signed : t.signer = some m.owner

/-- The request holds the site's lock and has deleted no mapping of a domain that
the site's record still lists. -/
structure Finished (t : Track) (slug : String) : Prop where
  locked : t.locked = some slug
  dropped : t.seen.dropped = none

/-- What a request has observed before each of its operations. -/
def Guard (srv : Server) (t : Track) : NodeOp → Prop
  | .lock _ => t.locked = none
  | .unlock slug => Finished t slug
  | .putSite m => ∃ slug, t.locked = some slug ∧ t.signer = some m.owner ∧
      (Creates srv t slug m ∨ ∃ m₀, Updates srv t m₀ m)
  | .deleteSite slug => t.locked = some slug ∧ t.pending = some slug
  | .setDomain _ slug => ∃ m, Owns t slug m
  | .deleteDomain domain => ∃ slug m, Owns t slug m ∧ t.seen.dropped = none ∧
      t.seen.mapped = none ∧ ∃ e ∈ m.domains, e.name = domain ∧ e.verified = true
  | .putDeploy d => ∃ m, Owns t d.slug m
  | .deleteDeploy slug _ => ∃ m, Owns t slug m
  | .now | .random | .lookupTXT _ | .getSite _ | .listSites | .resolveDomain _ | .getDeploy ..
  | .putObject .. | .deleteObject _ | .listObjects | .totalBytes | .marked | .setMarked _ => True

abbrev Guarded (srv : Server) {α : Type} (Q : α → Track → Prop) (p : NodeM α) (t : Track) : Prop :=
  Holds (Observes observe) (Guard srv) Q p t

section Rules

variable {srv : Server} {α β : Type}

/-- A call that the guard admits. -/
theorem guarded_node {o : NodeOp} {next : NodeAns o → NodeM α} {Q : α → Track → Prop} {t : Track}
    (hguard : Guard srv t o) (hnext : ∀ ans, Guarded srv Q (next ans) (observe t o ans)) :
    Guarded srv Q (node o >>= next) t :=
  ⟨hguard, fun ans _ ht => ht ▸ hnext ans⟩

theorem guarded_bind {p : NodeM β} {f : β → NodeM α} {Q' : β → Track → Prop}
    {Q : α → Track → Prop} {t : Track} (hp : Guarded srv Q' p t)
    (hf : ∀ a t', Q' a t' → Guarded srv Q (f a) t') : Guarded srv Q (p >>= f) t :=
  (holds_bind p f t).mpr (hp.imp hf)

/-- The operations that any request may call and that leave its track. -/
def Silent : NodeOp → Prop
  | .now | .random | .lookupTXT _ | .resolveDomain _ | .getDeploy .. | .putObject ..
  | .deleteObject _ | .listObjects | .totalBytes | .marked | .setMarked _ => True
  | _ => False

theorem Silent.guard {o : NodeOp} (ho : Silent o) (t : Track) : Guard srv t o := by
  cases o with
  | lock | unlock | putSite | deleteSite | setDomain | deleteDomain | putDeploy | deleteDeploy =>
      exact ho.elim
  | _ => exact trivial

theorem Silent.observe {o : NodeOp} (ho : Silent o) (t : Track) (ans : NodeAns o) :
    observe t o ans = t := by
  cases o with
  | lock | unlock | putSite | deleteSite | setDomain | deleteDomain | getSite | listSites =>
      exact ho.elim
  | _ => rfl

theorem guarded_silent {p : NodeM α} (hp : p.Only Silent) (t : Track) :
    Guarded srv (fun _ t' => t' = t) p t := by
  have hstep : ∀ t₁ o ans t₂, Silent o → Observes SiteThreads.observe t₁ o ans t₂ →
      t₁ = t → t₂ = t := by
    rintro t₁ o ans t₂ ho hobs rfl
    exact hobs.trans (ho.observe t₁ ans)
  exact (hp.holds hstep rfl).mono (fun t₁ o ho => ho.guard t₁) fun _ _ h => h

/-- A silent call goes on with the same track. -/
theorem guarded_silent_node {o : NodeOp} (ho : Silent o) {next : NodeAns o → NodeM α}
    {Q : α → Track → Prop} {t : Track} (hnext : ∀ ans, Guarded srv Q (next ans) t) :
    Guarded srv Q (node o >>= next) t :=
  guarded_node (ho.guard t) fun ans => (ho.observe t ans).symm ▸ hnext ans

/-- What a request does with its site's lock held, from its look at the site on. -/
theorem guarded_withSiteLock {slug : String} {body : Option SiteMeta → NodeM α} {t : Track}
    (hlocked : t.locked = none)
    (hbody : ∀ found, Guarded srv (fun _ t' => Finished t' slug) (body found)
      { t with locked := some slug, seen := { Seen.nothing with site := some found } }) :
    Guarded srv (fun _ _ => True)
      (withSiteLock slug do let found : Option SiteMeta ← node (.getSite slug); body found) t := by
  refine guarded_node hlocked fun _ => ?_
  refine guarded_bind (guarded_node trivial fun found => ?_) fun r t' ht' =>
    guarded_node ht' fun _ => trivial
  have hobs : observe (observe t (.lock slug) ()) (.getSite slug) found =
      { t with locked := some slug, seen := { Seen.nothing with site := some found } } :=
    if_pos rfl
  rw [hobs]
  exact hbody found

end Rules

section Usage

theorem countFile_sites (acc : Counted) (f : FileEntry) :
    (countFile acc f).usage.sites = acc.usage.sites := by
  rw [countFile]
  split
  next => rfl
  next =>
    split
    next => rfl
    next => rfl

theorem countFiles_sites (files : List FileEntry) (acc : Counted) :
    (files.foldl countFile acc).usage.sites = acc.usage.sites := by
  induction files generalizing acc with
  | nil => rfl
  | cons f files ih => rw [List.foldl_cons, ih, countFile_sites]

variable {srv : Server}

theorem countDeploy_guarded (slug : String) (acc : Counted) (id : String) (t : Track) :
    Guarded srv (fun acc' t' => t' = t ∧ acc'.usage.sites = acc.usage.sites)
      (countDeploy slug acc id) t := by
  refine guarded_silent_node (o := .getDeploy slug id) trivial fun d => ?_
  cases d with
  | none => exact ⟨rfl, rfl⟩
  | some d => exact ⟨rfl, countFiles_sites d.files acc⟩

theorem countSite_guarded (owner : PubKey) (acc : Counted) (m : SiteMeta) (t : Track) :
    Guarded srv (fun acc' t' => t' = t ∧
      acc'.usage.sites = acc.usage.sites + if m.owner = owner then 1 else 0)
      (countSite owner acc m) t := by
  rcases Decidable.em (m.owner = owner) with howner | hother
  · rw [countSite, if_neg (not_not_intro howner), if_pos howner]
    refine holds_foldlM (countDeploy m.slug) (fun _ acc' t' => t' = t ∧
      acc'.usage.sites = acc.usage.sites + 1) m.deploys _ t ⟨rfl, rfl⟩ ?_
    rintro pre id post _ acc' t' ⟨rfl, hacc⟩
    exact (countDeploy_guarded m.slug acc' id t').imp fun acc'' t'' h => ⟨h.1, h.2.trans hacc⟩
  · rw [countSite, if_pos hother, if_neg hother, add_zero]
    exact ⟨rfl, rfl⟩

theorem sitesOf_append (owner : PubKey) (sites sites' : List SiteMeta) :
    sitesOf owner (sites ++ sites') = sitesOf owner sites + sitesOf owner sites' := by
  rw [sitesOf, List.filter_append, List.length_append]
  exact Int.natCast_add _ _

theorem sitesOf_singleton (owner : PubKey) (m : SiteMeta) :
    sitesOf owner [m] = if m.owner = owner then 1 else 0 := by
  rw [sitesOf]
  split
  next h => simp [h]
  next h => simp [h]

/-- The track of a request that has listed the sites. -/
def Track.listing (t : Track) (sites : List SiteMeta) : Track :=
  { t with seen := { t.seen with listed := some sites } }

/-- A count of an identity's usage counts its sites in a new listing. -/
theorem identityUsage_guarded (owner : PubKey) (t : Track) :
    Guarded srv (fun out t' => (t' = t ∧ ∃ e, out = .error e) ∨
      ∃ sites u, t' = t.listing sites ∧ out = .ok u ∧ u.sites = sitesOf owner sites)
      (identityUsage owner) t := by
  refine guarded_node trivial fun listed => ?_
  cases listed with
  | error e => exact .inl ⟨rfl, e, rfl⟩
  | ok sites =>
      have hcount : Guarded srv (fun acc t' => t' = t.listing sites ∧
          acc.usage.sites = sitesOf owner sites)
          (sites.foldlM (countSite owner) ⟨⟨0, 0, 0⟩, []⟩) (t.listing sites) := by
        refine holds_foldlM (countSite owner) (fun pre acc t' => t' = t.listing sites ∧
          acc.usage.sites = sitesOf owner pre) sites _ _ ⟨rfl, rfl⟩ ?_
        rintro pre m post _ acc t' ⟨rfl, hacc⟩
        refine (countSite_guarded owner acc m _).imp fun acc' t' h => ⟨h.1, ?_⟩
        rw [h.2, hacc, sitesOf_append, sitesOf_singleton]
      exact guarded_bind hcount fun acc t' ht' => .inr ⟨sites, _, ht'.1, rfl, ht'.2⟩

end Usage

section Sites

variable {srv : Server}

/-- A record that lists the domains of the site as the request has seen it. -/
theorem Updates.same {t : Track} {m₀ m : SiteMeta} (hseen : t.seen.site = some (some m₀))
    (hdropped : t.seen.dropped = none) (hslug : m.slug = m₀.slug) (howner : m.owner = m₀.owner)
    (hdomains : m.domains = m₀.domains) : Updates srv t m₀ m where
  seen := hseen
  slug := hslug
  owner := howner
  verified := fun e he hv => by
    rw [hdropped]
    exact ⟨(fun h => nomatch h), .inl ⟨e, hdomains ▸ he, rfl, hv⟩⟩
  domains := .inl (le_of_eq (congrArg List.length hdomains))

theorem handlePutSite_guarded (req : Request) (title : Option String) (powOK : Bool) :
    Guarded srv (fun _ _ => True) (handlePutSite srv req title powOK)
      (.start srv req (.putSite title powOK)) := by
  rw [handlePutSite]
  split
  next => trivial
  next =>
    split
    next => trivial
    next =>
      split
      next => trivial
      next pub hauthed =>
        have hsigner : (SiteCall.putSite title powOK).signer srv req = some pub := by
          simp [SiteCall.signer, SiteCall.subject, hauthed, Except.toOption]
        split
        next => trivial
        next title =>
          refine guarded_withSiteLock rfl fun found => ?_
          cases found with
          | some m =>
              dsimp only
              split
              next => exact ⟨rfl, rfl⟩
              next howner =>
                refine guarded_silent_node (o := .now) trivial fun updated => ?_
                refine guarded_node ⟨req.slug, rfl, ?_, .inr ⟨m, .same rfl rfl rfl rfl rfl⟩⟩
                  fun put => ?_
                · rw [not_not.mp howner]
                  exact hsigner
                · cases put with
                  | error e => exact ⟨rfl, rfl⟩
                  | ok => exact ⟨rfl, rfl⟩
          | none =>
              dsimp only
              split
              next => exact ⟨rfl, rfl⟩
              next =>
                refine guarded_bind (identityUsage_guarded pub _) fun usage t' ht' => ?_
                rcases ht' with ⟨rfl, e, rfl⟩ | ⟨sites, u, rfl, rfl, hcount⟩
                · exact ⟨rfl, rfl⟩
                · dsimp only
                  split
                  next => exact ⟨rfl, rfl⟩
                  next hless =>
                    refine guarded_silent_node (o := .now) trivial fun created => ?_
                    refine guarded_silent_node (o := .now) trivial fun updated => ?_
                    refine guarded_node ⟨req.slug, rfl, hsigner,
                      .inl ⟨rfl, rfl, rfl, rfl, sites, rfl, ?_⟩⟩ fun put => ?_
                    · rw [← hcount]
                      exact not_le.mp hless
                    · cases put with
                      | error e => exact ⟨rfl, rfl⟩
                      | ok => exact ⟨rfl, rfl⟩

theorem handleDeleteSite_guarded (req : Request) :
    Guarded srv (fun _ _ => True) (handleDeleteSite req) (.start srv req .deleteSite) := by
  rw [handleDeleteSite]
  split
  next => trivial
  next =>
    split
    next => trivial
    next pub hauthed =>
      have hsigner : SiteCall.deleteSite.signer srv req = some pub := by
        simp [SiteCall.signer, SiteCall.subject, hauthed, Except.toOption]
      refine guarded_node trivial fun found => ?_
      cases found with
      | none => trivial
      | some m =>
          dsimp only
          split
          next => trivial
          next howner =>
            have hobs : observe (.start srv req .deleteSite) (.getSite req.slug) (some m) =
                { Track.start srv req .deleteSite with pending := some req.slug } := by
              rw [observe, if_neg (fun h => by cases h), if_pos]
              refine ⟨rfl, decide_eq_true ?_⟩
              rw [not_not.mp howner]
              exact hsigner
            rw [hobs]
            refine guarded_node rfl fun _ => ?_
            exact guarded_node ⟨rfl, rfl⟩ fun _ => guarded_node ⟨rfl, rfl⟩ fun _ => trivial

end Sites

section Deploys

variable {srv : Server}

/-- A request that does not delete sites looks at a site before it takes a
lock. -/
theorem observe_look {t : Track} {slug : String} {found : Option SiteMeta}
    (hlocked : t.locked = none) (hdeletes : t.call.deletes = false) :
    observe t (.getSite slug) found = t := by
  rw [observe, if_neg, if_neg]
  · rintro ⟨h, _⟩
    rw [hdeletes] at h
    cases h
  · rw [hlocked]
    exact fun h => nomatch h

theorem putFile_silent (f : File) (data : Bytes) : (putFile f data).Only Silent := by
  refine ⟨trivial, fun put => ?_⟩
  cases put with
  | error e => trivial
  | ok => trivial

theorem prune_guarded {t : Track} {slug : String} {m : SiteMeta} (howns : Owns t slug m) (keep : ℤ)
    (ids : List String) : Guarded srv (fun _ t' => t' = t) (prune slug keep ids) t := by
  induction ids with
  | nil =>
      rw [prune]
      split
      next => rfl
      next => rfl
  | cons old rest ih =>
      rw [prune]
      split
      next => exact guarded_node ⟨m, howns⟩ fun _ => ih
      next => rfl

/-- What a deploy does once it has seen under the lock that the site is its
signer's. -/
theorem commitDeploy_guarded {slug : String} {pub : PubKey} (files : List File) {dep : Deploy}
    (hslug : dep.slug = slug) {t : Track} (hsigner : t.signer = some pub)
    (hlocked : t.locked = none) :
    Guarded srv (fun _ _ => True) (withSiteLock slug (commitDeploy srv slug pub files dep)) t := by
  refine guarded_withSiteLock hlocked fun found => ?_
  cases found with
  | none => exact ⟨rfl, rfl⟩
  | some m =>
      dsimp only
      split
      next => exact ⟨rfl, rfl⟩
      next howner =>
        have hsigned : t.signer = some m.owner := by rw [hsigner, not_not.mp howner]
        refine guarded_bind (identityUsage_guarded pub _) fun usage t' ht' => ?_
        have howns : Owns t' slug m ∧ t'.seen.dropped = none := by
          rcases ht' with ⟨rfl, _⟩ | ⟨sites, u, rfl, _⟩
          · exact ⟨⟨rfl, rfl, hsigned⟩, rfl⟩
          · exact ⟨⟨rfl, rfl, hsigned⟩, rfl⟩
        obtain ⟨howns, hdropped⟩ := howns
        cases usage with
        | error e => exact ⟨howns.locked, hdropped⟩
        | ok usage =>
            refine guarded_silent_node (o := .listObjects) trivial fun existing => ?_
            split
            next => exact ⟨howns.locked, hdropped⟩
            next =>
              refine guarded_silent_node (o := .totalBytes) trivial fun total => ?_
              split
              next => exact ⟨howns.locked, hdropped⟩
              next =>
                refine guarded_node (o := .putDeploy dep) ⟨m, hslug ▸ howns⟩ fun put => ?_
                cases put with
                | error e => exact ⟨howns.locked, hdropped⟩
                | ok =>
                    refine guarded_silent_node (o := .now) trivial fun updated => ?_
                    refine guarded_bind (prune_guarded howns _ _) fun kept t'' ht'' => ?_
                    cases ht''
                    cases kept with
                    | none => exact ⟨howns.locked, hdropped⟩
                    | some deploys =>
                        refine guarded_node ⟨slug, howns.locked, howns.signed,
                          .inr ⟨m, .same howns.site hdropped rfl rfl rfl⟩⟩ fun put => ?_
                        cases put with
                        | error e => exact ⟨howns.locked, rfl⟩
                        | ok => exact ⟨howns.locked, rfl⟩

theorem handleDeploy_guarded (req : Request) (stream : TarStream) :
    Guarded srv (fun _ _ => True) (handleDeploy srv req stream)
      (.start srv req (.deploy stream)) := by
  rw [handleDeploy]
  split
  next => trivial
  next =>
    split
    next => trivial
    next pub hauthed =>
      have hsigner : (SiteCall.deploy stream).signer srv req = some pub := by
        simp [SiteCall.signer, SiteCall.subject, hauthed, Except.toOption]
      refine guarded_node trivial fun found => ?_
      rw [observe_look rfl rfl]
      cases found with
      | none => trivial
      | some m =>
          dsimp only
          split
          next => trivial
          next =>
            refine guarded_silent_node (o := .totalBytes) trivial fun total => ?_
            split
            next => trivial
            next =>
              refine guarded_bind (guarded_silent (extract_only putFile_silent _ _ stream) _)
                fun extracted t' ht' => ?_
              cases ht'
              cases extracted with
              | error e => trivial
              | ok extracted =>
                  obtain ⟨files, opts⟩ := extracted
                  refine guarded_silent_node (o := .random) trivial fun r4 => ?_
                  refine guarded_silent_node (o := .now) trivial fun idTime => ?_
                  refine guarded_silent_node (o := .now) trivial fun created => ?_
                  refine commitDeploy_guarded files ?_ hsigner ?_
                  · rfl
                  · rfl

theorem handleRollback_guarded (req : Request) (body : Option String) :
    Guarded srv (fun _ _ => True) (handleRollback req body)
      (.start srv req (.rollback body)) := by
  unfold handleRollback
  split
  next => trivial
  next =>
    split
    next => trivial
    next id =>
      split
      next => trivial
      next =>
        split
        next => trivial
        next pub hauthed =>
          have hsigner : (SiteCall.rollback (some id)).signer srv req = some pub := by
            simp [SiteCall.signer, SiteCall.subject, hauthed, Except.toOption]
          refine guarded_withSiteLock rfl fun found => ?_
          cases found with
          | none => exact ⟨rfl, rfl⟩
          | some m =>
              dsimp only
              split
              next => exact ⟨rfl, rfl⟩
              next howner =>
                split
                next => exact ⟨rfl, rfl⟩
                next =>
                  refine guarded_silent_node (o := .now) trivial fun updated => ?_
                  refine guarded_node ⟨req.slug, rfl, ?_, .inr ⟨m, .same rfl rfl rfl rfl rfl⟩⟩
                    fun put => ?_
                  · rw [not_not.mp howner]
                    exact hsigner
                  · cases put with
                    | error e => exact ⟨rfl, rfl⟩
                    | ok => exact ⟨rfl, rfl⟩

end Deploys

section Domains

variable {srv : Server}

/-- A domain request, from its look at the caller's site on. -/
theorem withOwnSite_guarded {req : Request} {body : Option String} {t : Track}
    {act : SiteMeta → String → PubKey → NodeM Response} (hlocked : t.locked = none)
    (hsigner : t.signer = ((body.bind srv.normalizeDomain).map fun domain =>
      req.slug ++ "|" ++ domain).bind fun subject => (req.authed subject).toOption)
    (hact : ∀ m domain, t.signer = some m.owner →
      Guarded srv (fun _ t' => Finished t' req.slug) (act m domain m.owner)
        { t with locked := some req.slug, seen := { Seen.nothing with site := some (some m) } }) :
    Guarded srv (fun _ _ => True) (withOwnSite srv req body act) t := by
  unfold withOwnSite
  split
  next => trivial
  next =>
    split
    next => trivial
    next raw =>
      split
      next => trivial
      next domain hdomain =>
        split
        next => trivial
        next pub hauthed =>
          refine guarded_withSiteLock hlocked fun found => ?_
          cases found with
          | none => exact ⟨rfl, rfl⟩
          | some m =>
              dsimp only
              split
              next => exact ⟨rfl, rfl⟩
              next howner =>
                have hown := not_not.mp howner
                subst hown
                refine hact m domain ?_
                rw [hsigner]
                simp [hdomain, hauthed, Except.toOption]

theorem handleAddDomain_guarded (req : Request) (body : Option String) :
    Guarded srv (fun _ _ => True) (handleAddDomain srv req body)
      (.start srv req (.addDomain body)) := by
  refine withOwnSite_guarded rfl rfl fun m domain hsigned => ?_
  split
  next => exact ⟨rfl, rfl⟩
  next =>
    refine guarded_node trivial fun listed => ?_
    cases listed with
    | error e => exact ⟨rfl, rfl⟩
    | ok sites =>
        dsimp only
        split
        next => exact ⟨rfl, rfl⟩
        next hless =>
          refine guarded_silent_node (o := .resolveDomain domain) trivial fun other => ?_
          split
          next => exact ⟨rfl, rfl⟩
          next =>
            refine guarded_silent_node (o := .now) trivial fun updated => ?_
            refine guarded_node ⟨req.slug, rfl, hsigned, .inr ⟨m, rfl, rfl, rfl, ?_, .inr ⟨?_, rfl,
              sites, rfl, not_le.mp hless⟩⟩⟩ fun put => ?_
            · intro e he hv
              refine ⟨(fun h => nomatch h), .inl ⟨e, ?_, rfl, hv⟩⟩
              rcases List.mem_append.mp he with hold | hnew
              · exact hold
              · rw [List.mem_singleton.mp hnew] at hv
                cases hv
            · rw [List.length_append, List.length_singleton]
            · cases put with
              | error e => exact ⟨rfl, rfl⟩
              | ok => exact ⟨rfl, rfl⟩

theorem handleVerifyDomain_guarded (req : Request) (body : Option String) :
    Guarded srv (fun _ _ => True) (handleVerifyDomain srv req body)
      (.start srv req (.verifyDomain body)) := by
  refine withOwnSite_guarded rfl rfl fun m domain hsigned => ?_
  split
  next => exact ⟨rfl, rfl⟩
  next entry _ =>
    split
    next => exact ⟨rfl, rfl⟩
    next =>
      dsimp only
      refine guarded_silent_node (o := .lookupTXT _) trivial fun txts => ?_
      cases txts with
      | error cause => exact ⟨rfl, rfl⟩
      | ok txts =>
          dsimp only
          split
          next => exact ⟨rfl, rfl⟩
          next =>
            refine guarded_node ⟨m, rfl, rfl, hsigned⟩ fun mapped => ?_
            cases mapped with
            | error e => exact ⟨rfl, rfl⟩
            | ok =>
                refine guarded_silent_node (o := .now) trivial fun updated => ?_
                refine guarded_node ⟨req.slug, rfl, hsigned, .inr ⟨m, rfl, rfl, rfl, ?_, .inl ?_⟩⟩
                  fun put => ?_
                · intro e he hv
                  refine ⟨(fun h => nomatch h), ?_⟩
                  obtain ⟨e', he', rfl⟩ := List.mem_map.mp he
                  rcases Decidable.em (e'.name = domain) with hname | hname
                  · rw [if_pos hname]
                    exact .inr (congrArg some hname.symm)
                  · rw [if_neg hname] at hv ⊢
                    exact .inl ⟨e', he', rfl, hv⟩
                · exact le_of_eq (List.length_map _)
                · cases put with
                  | error e => exact ⟨rfl, rfl⟩
                  | ok => exact ⟨rfl, rfl⟩

theorem handleDeleteDomain_guarded (req : Request) (domain : String) :
    Guarded srv (fun _ _ => True) (handleDeleteDomain srv req domain)
      (.start srv req (.deleteDomain domain)) := by
  refine withOwnSite_guarded rfl rfl fun m domain hsigned => ?_
  dsimp only
  split
  next => exact ⟨rfl, rfl⟩
  next removed hremoved =>
    refine guarded_silent_node (o := .now) trivial fun updated => ?_
    have hmem := List.mem_filter.mp (List.mem_of_getLast? hremoved)
    have hput : ∀ t : Track, t.locked = some req.slug → t.signer = some m.owner →
        t.seen.site = some (some m) → (t.seen.dropped = none ∨ t.seen.dropped = some domain) →
        Guard srv t (.putSite
          { m with domains := m.domains.filter fun d => d.name ≠ domain, updated := updated }) := by
      intro t hlocked hsigner hsite hdropped
      refine ⟨req.slug, hlocked, hsigner, .inr ⟨m, hsite, rfl, rfl, fun e he hv => ?_,
        .inl (List.length_filter_le _ _)⟩⟩
      obtain ⟨he, hname⟩ := List.mem_filter.mp he
      refine ⟨fun hd => ?_, .inl ⟨e, he, rfl, hv⟩⟩
      rcases hdropped with hnone | hsome
      · rw [hnone] at hd
        cases hd
      · rw [hsome] at hd
        exact of_decide_eq_true hname (Option.some.inj hd).symm
    split
    next hverified =>
      refine guarded_node ⟨req.slug, m, ⟨rfl, rfl, hsigned⟩, rfl, rfl, removed, hmem.1,
        of_decide_eq_true hmem.2, hverified⟩ fun _ => ?_
      refine guarded_node (hput _ rfl hsigned rfl (.inr rfl)) fun put => ?_
      cases put with
      | error e => exact ⟨rfl, rfl⟩
      | ok => exact ⟨rfl, rfl⟩
    next =>
      refine guarded_node (hput _ rfl hsigned rfl (.inl rfl)) fun put => ?_
      cases put with
      | error e => exact ⟨rfl, rfl⟩
      | ok => exact ⟨rfl, rfl⟩

end Domains

/-- Every request keeps to the guard. -/
theorem program_guarded (srv : Server) (req : Request) (call : SiteCall) :
    Guarded srv (fun _ _ => True) (call.program srv req) (.start srv req call) := by
  cases call with
  | putSite title powOK => exact handlePutSite_guarded req title powOK
  | deleteSite => exact handleDeleteSite_guarded req
  | deploy stream => exact handleDeploy_guarded req stream
  | rollback body => exact handleRollback_guarded req body
  | addDomain body => exact handleAddDomain_guarded req body
  | verifyDomain body => exact handleVerifyDomain_guarded req body
  | deleteDomain domain => exact handleDeleteDomain_guarded req domain

end Tactile.Publish.SiteThreads

import Tactile.Lib.Text
import Tactile.Publish.DeployCache
import Tactile.Publish.FsPaths

/-!
The requests of a publish node by the slugs that they carry, and what each asks of the
file-system store.
-/

namespace Tactile.Publish.SlugPaths

open Tactile.Lib.Program Tactile.Lib.FiniteMap Tactile.Lib.Transition Tactile.Lib.Threads
open Tactile.Lib.CleanPath Tactile.Lib.ByteString
open Tactile.Lib.Text (slash_ne_digit slash_notMem_toDigits)
open Tactile.Publish.Bundle Tactile.Publish.Records Tactile.Publish.NodeOps
open Tactile.Publish.Handlers Tactile.Publish.Deploys Tactile.Publish.DeployCache
open Tactile.Publish.FsPaths
open Tactile.Publish.Retention (extract_only)

section Model

/-- `GET /v1/sites`: lists the caller's sites. -/
def handleListSites (req : Request) : NodeM (Except Response (List SiteJSON)) :=
  match req.gate with
  | .error r => pure (.error r)
  | .ok () =>
    match req.authed "" with
    | .error r => pure (.error r)
    | .ok pub => do
      let listed : Except Err (List SiteMeta) ← node .listSites
      match listed with
      | .error _ => pure (.error storeFailed)
      | .ok sites => pure (.ok ((sites.filter fun m => m.owner = pub).map siteJSON))

/-- `GET /v1/usage`: returns the caller's deduplicated usage. -/
def handleUsage (req : Request) : NodeM (Except Response Usage) :=
  match req.gate with
  | .error r => pure (.error r)
  | .ok () =>
    match req.authed "" with
    | .error r => pure (.error r)
    | .ok pub => do
      let usage ← identityUsage pub
      match usage with
      | .error _ => pure (.error storeFailed)
      | .ok usage => pure (.ok usage)

/-- `GET /v1/sites/slug`: returns the record to the owner. -/
def handleGetSite (req : Request) : NodeM Response :=
  match req.gate with
  | .error r => pure r
  | .ok () =>
    match req.authed req.slug with
    | .error r => pure r
    | .ok pub => do
      let found : Option SiteMeta ← node (.getSite req.slug)
      match found with
      | none => pure (notFound "not found")
      | some m =>
        if m.owner ≠ pub then pure notYourSite else pure (.site 200 (siteJSON m))

/-- The data of a deploy in a response. -/
structure DeployJSON where
  id : String
  created : ℤ
  bytes : ℤ
  files : ℕ
  current : Bool

def listDeploy (m : SiteMeta) (slug : String) (out : List DeployJSON) (id : String) :
    NodeM (List DeployJSON) := do
  let d : Option Deploy ← node (.getDeploy slug id)
  match d with
  | none => pure out
  | some d => pure (out ++ [⟨d.id, d.created, d.bytes, d.files.length, decide (d.id = m.current)⟩])

/-- `GET /v1/sites/slug/deploys` -/
def handleListDeploys (req : Request) : NodeM (Except Response (List DeployJSON)) :=
  match req.gate with
  | .error r => pure (.error r)
  | .ok () =>
    match req.authed req.slug with
    | .error r => pure (.error r)
    | .ok pub => do
      let found : Option SiteMeta ← node (.getSite req.slug)
      match found with
      | none => pure (.error (notFound "not found"))
      | some m =>
        if m.owner ≠ pub then pure (.error (notFound "not found"))
        else do
          let out ← m.deploys.foldlM (listDeploy m req.slug) []
          pure (.ok out)

/-- A handler's calls, beside a cache that it leaves alone. -/
def onNode {α : Type} : NodeM α → CacheM Unit
  | .ret _ => .ret ()
  | .call o next => .call (.node o) fun ans => onNode (next ans)

/-- The calls of a handler that drops its site's entry from the cache. -/
def dropping (slug : String) (handler : NodeM Response) : CacheM Unit := do
  let _ ← invalidating slug handler
  pure ()

/-- What a served site reads: records and manifests; the objects have no slug in their
names. -/
def serveSite (slug : String) : CacheM Unit := do
  let _ ← currentDeploy slug
  pure ()

/-- The slug in a host below the base domain: a single label. -/
def hostSlug (base host : String) : Option String :=
  if base ≠ "" ∧ ('.' :: base.toList).isSuffixOf host.toList then
    let slug := host.toList.take (host.toList.length - (base.toList.length + 1))
    if '.' ∈ slug then none else some (String.ofList slug)
  else none

/-- Resolves the host of a request, without its port, to a site. -/
def serveHost (base host : String) : CacheM Unit :=
  if base ≠ "" ∧ (host = base ∨ host = "www." ++ base) then pure ()
  else
    match hostSlug base host with
    | some slug => serveSite slug
    | none => do
      let mapped : Option String ← cacheOp (.node (.resolveDomain host))
      match mapped with
      | some slug => serveSite slug
      | none => pure ()

/-- What a request carries beside its slug, as far as any handler reads it. -/
structure Incoming where
  req : Request
  title : Option String
  powOK : Bool
  stream : TarStream
  body : Option String
  domain : String
  host : String

/-- The endpoints that use sites. -/
inductive Endpoint
  | listSites
  | usage
  | putSite
  | getSite
  | deleteSite
  | deploy
  | listDeploys
  | rollback
  | addDomain
  | verifyDomain
  | deleteDomain
  | servePath
  | serveHost

variable (srv : Server) (inp : Incoming)

def Endpoint.program : Endpoint → CacheM Unit
  | .listSites => onNode (handleListSites inp.req)
  | .usage => onNode (handleUsage inp.req)
  | .putSite => onNode (handlePutSite srv inp.req inp.title inp.powOK)
  | .getSite => onNode (handleGetSite inp.req)
  | .deleteSite => dropping inp.req.slug (handleDeleteSite inp.req)
  | .deploy => dropping inp.req.slug (handleDeploy srv inp.req inp.stream)
  | .listDeploys => onNode (handleListDeploys inp.req)
  | .rollback => dropping inp.req.slug (handleRollback inp.req inp.body)
  | .addDomain => onNode (handleAddDomain srv inp.req inp.body)
  | .verifyDomain => onNode (handleVerifyDomain srv inp.req inp.body)
  | .deleteDomain => onNode (handleDeleteDomain srv inp.req inp.domain)
  | .servePath => serveSite inp.req.slug
  | .serveHost => SlugPaths.serveHost srv.cfg.baseDomain inp.host

/-- The slug in the path or the host of a request. -/
def Endpoint.slug : Endpoint → Option String
  | .listSites | .usage => none
  | .serveHost => hostSlug srv.cfg.baseDomain inp.host
  | _ => some inp.req.slug

/-- The answers of a node over its files with a cache, which may hold anything. -/
inductive CacheFsServes (dir : Text) : Answers CacheOp CacheAns FsNode
  | node {n n' : FsNode} {o : NodeOp} {ans : NodeAns o} :
      FsServes dir n o ans n' → CacheFsServes dir n (.node o) ans n'
  | cached (n : FsNode) (slug : String) (hit : Option CachedDeploy) :
      CacheFsServes dir n (.cached slug) hit n
  | fill (n : FsNode) (slug : String) (entry : CachedDeploy) :
      CacheFsServes dir n (.fill slug entry) () n
  | invalidate (n : FsNode) (slug : String) : CacheFsServes dir n (.invalidate slug) () n

/-- Requests to an endpoint with a slug that is let through may start at any time. -/
inductive StartSlug (lets : Endpoint → String → Prop) : FsNode → Unit → CacheM Unit → Prop
  | start {n : FsNode} (e : Endpoint) (inp : Incoming) :
      (∀ slug, e.slug srv inp = some slug → lets e slug) →
      StartSlug lets n () (e.program srv inp)

abbrev SlugPool : Type := Pool CacheOp CacheAns Unit Unit FsNode

abbrev SlugEvent : Type := Event CacheOp CacheAns Unit

abbrev SlugStep (dir : Text) (lets : Endpoint → String → Prop) :
    SlugPool → SlugEvent → SlugPool → Prop :=
  Step (CacheFsServes dir) (fun t _ _ => t) (StartSlug srv lets)

def touchedBy (dir : Text) (n : FsNode) : CacheOp → List CleanedPath
  | .node o => touched dir n o
  | _ => []

/-- What the requests are about to read, write or remove are sites' own files. -/
def KeepsOwn (dir : Text) (x : SlugPool) : Prop :=
  ∀ i o next t, x.threads.lookup i = some ⟨.call o next, t⟩ →
    ∀ p ∈ touchedBy dir x.shared o, Own dir p

end Model

section Files

def Flat (id : String) : Prop := '/' ∉ id.toList

/-- The record names a site, and no deploy of it has a separator in its name. -/
structure SoundSite (m : SiteMeta) : Prop where
  names : NamesSite m.slug
  current : Flat m.current
  deploys : ∀ id ∈ m.deploys, Flat id

def SoundFile (f : FsPaths.File) : Prop := SoundSite f.asSite

/-- The directory has only the files of sites. -/
structure OwnFiles (dir : Text) (n : FsNode) : Prop where
  files : All (fun p f => Own dir p ∧ SoundFile f) n.files
  domains : All (fun _ slug => NamesSite slug) n.domains

/-- What is asked of a node when it only touches sites' own files. -/
def Stays : NodeOp → Prop
  | .getSite slug => NamesRecord slug
  | .putSite m => SoundSite m
  | .deleteSite slug => NamesSite slug
  | .putDeploy d => NamesSite d.slug ∧ Flat d.id
  | .getDeploy slug id | .deleteDeploy slug id => NamesSite slug ∧ Flat id
  | .setDomain _ slug => NamesSite slug
  | _ => True

/-- What such a node answers. -/
def SoundAns : (o : NodeOp) → NodeAns o → Prop
  | .getSite _, found => ∀ m, found = some m → SoundSite m
  | .listSites, .ok sites => ∀ m ∈ sites, SoundSite m
  | .resolveDomain _, mapped => ∀ slug, mapped = some slug → NamesSite slug
  | _, _ => True

variable {dir : Text} {n n' : FsNode}

theorem SoundSite.same {m m' : SiteMeta} (h : SoundSite m) (hslug : m'.slug = m.slug)
    (hcurrent : m'.current = m.current) (hdeploys : m'.deploys = m.deploys) : SoundSite m' where
  names := by
    rw [hslug]
    exact h.names
  current := by
    rw [hcurrent]
    exact h.current
  deploys := by
    rw [hdeploys]
    exact h.deploys

theorem flat_empty : Flat "" := by unfold Flat; decide

theorem soundSite_manifest {d : Deploy} (h : NamesSite d.slug) : SoundFile (.deploy d) :=
  ⟨h, flat_empty, fun _ hid => nomatch hid⟩

/-- What stays touches only sites' own files. -/
theorem Stays.touched {o : NodeOp} (ho : Stays o) (hn : OwnFiles dir n) :
    ∀ p ∈ touched dir n o, Own dir p := by
  intro p hp
  cases o with
  | getSite slug =>
      cases List.mem_singleton.mp hp
      exact ho.own dir
  | putSite m =>
      rw [FsPaths.touched] at hp
      split at hp
      next => cases hp
      next =>
        cases List.mem_singleton.mp hp
        rw [record_eq]
        exact ho.names.own_sitePath dir
  | deleteSite slug =>
      rcases List.mem_cons.mp hp with rfl | hp
      · exact ho.own_sitePath dir
      · cases List.mem_singleton.mp hp
        exact ho.own_siteDir dir
  | listSites =>
      obtain ⟨f, hf⟩ := Option.isSome_iff_exists.mp (AList.lookup_isSome.mpr hp)
      exact (hn.files.select _ p f hf).1
  | putDeploy d =>
      rcases List.mem_cons.mp hp with rfl | hp
      · exact ho.1.own_deploysDir dir
      · cases List.mem_singleton.mp hp
        rw [manifest_eq]
        exact ho.1.own_deployPath dir ho.2
  | getDeploy slug id | deleteDeploy slug id =>
      cases List.mem_singleton.mp hp
      exact ho.1.own_deployPath dir ho.2
  | _ => cases hp

theorem serves_sound {o : NodeOp} {ans : NodeAns o} (hserves : FsServes dir n o ans n')
    (hn : OwnFiles dir n) : SoundAns o ans := by
  cases hserves with
  | getSite _ slug =>
      intro m hm
      obtain ⟨f, hf, rfl⟩ := Option.map_eq_some_iff.mp hm
      exact (hn.files _ f hf).2
  | listSites _ sites hperm =>
      intro m hm
      obtain ⟨f, hf, rfl⟩ := List.mem_map.mp (hperm.mem_iff.mp hm)
      obtain ⟨p, hp⟩ := mem_values.mp hf
      exact (hn.files.select _ p f hp).2
  | resolveDomain _ domain => exact fun slug hslug => hn.domains domain slug hslug
  | putSite | deleteSite | putDeploy | getDeploy | deleteDeploy | setDomain | deleteDomain =>
      trivial
  | elsewhere _ _ _ ho =>
      cases o with
      | getSite | listSites | resolveDomain => exact ho.elim
      | _ => trivial

/-- What stays leaves only the files of sites. -/
theorem Stays.keeps {o : NodeOp} {ans : NodeAns o} (ho : Stays o)
    (hserves : FsServes dir n o ans n') (hn : OwnFiles dir n) : OwnFiles dir n' := by
  cases hserves with
  | putSite _ m written =>
      refine ⟨?_, hn.domains⟩
      rw [putSite]
      split
      next => exact hn.files
      next =>
        split
        next => exact hn.files
        next =>
          refine hn.files.insert ⟨?_, ho⟩
          rw [record_eq]
          exact ho.names.own_sitePath dir
  | deleteSite _ slug => exact ⟨(hn.files.erase _).select _, hn.domains.select _⟩
  | putDeploy _ d written =>
      refine ⟨?_, hn.domains⟩
      rw [putDeploy]
      split
      next => exact hn.files
      next =>
        refine hn.files.insert ⟨?_, soundSite_manifest ho.1⟩
        rw [manifest_eq]
        exact ho.1.own_deployPath dir ho.2
  | deleteDeploy _ slug id deleted =>
      cases deleted with
      | false => exact hn
      | true => exact ⟨hn.files.erase _, hn.domains⟩
  | setDomain _ domain slug written =>
      refine ⟨hn.files, ?_⟩
      rw [setDomain]
      split
      next => exact hn.domains
      next =>
        split
        next => exact hn.domains
        next => exact hn.domains.insert ho
  | deleteDomain _ domain => exact ⟨hn.files, hn.domains.erase _⟩
  | getSite | listSites | getDeploy | resolveDomain | elsewhere => exact hn

end Files

section Calls

variable {α β : Type}

/-- The program stays whatever sound answers it gets, and returns such results. -/
abbrev Staying (Q : α → Prop) (p : NodeM α) : Prop :=
  Holds (Meets SoundAns) (fun _ o => Stays o) (fun a _ => Q a) p ()

theorem staying_node {o : NodeOp} {next : NodeAns o → NodeM α} {Q : α → Prop} (ho : Stays o)
    (hnext : ∀ ans, SoundAns o ans → Staying Q (next ans)) : Staying Q (node o >>= next) :=
  ⟨ho, fun ans _ hans => hnext ans hans⟩

theorem staying_bind {p : NodeM β} {f : β → NodeM α} {Q' : β → Prop} {Q : α → Prop}
    (hp : Staying Q' p) (hf : ∀ b, Q' b → Staying Q (f b)) : Staying Q (p >>= f) :=
  (holds_bind p f ()).mpr (hp.imp fun b _ hb => hf b hb)

theorem stays_elsewhere {o : NodeOp} (ho : Elsewhere o) : Stays o := by
  cases o with
  | getSite | putSite | deleteSite | putDeploy | getDeploy | deleteDeploy | setDomain =>
      exact ho.elim
  | _ => trivial

theorem staying_elsewhere {p : NodeM α} (hp : p.Only Elsewhere) : Staying (fun _ => True) p :=
  (hp.holds (I := fun _ => True) (fun _ _ _ _ _ _ h => h) trivial).mono
    (fun _ _ ho => stays_elsewhere ho) fun _ _ h => h

theorem staying_withSiteLock {slug : String} {body : NodeM α} {Q : α → Prop}
    (hbody : Staying Q body) : Staying Q (withSiteLock slug body) :=
  staying_node trivial fun _ _ => staying_bind hbody fun _ ha =>
    staying_node trivial fun _ _ => ha

theorem staying_countDeploy {slug id : String} (hslug : NamesSite slug) (hid : Flat id)
    (acc : Counted) : Staying (fun _ => True) (countDeploy slug acc id) := by
  refine staying_node ⟨hslug, hid⟩ fun d _ => ?_
  cases d with
  | none => trivial
  | some d => trivial

theorem staying_countSite (owner : PubKey) (acc : Counted) {m : SiteMeta} (hm : SoundSite m) :
    Staying (fun _ => True) (countSite owner acc m) := by
  rw [countSite]
  split
  next => trivial
  next =>
    refine holds_foldlM (countDeploy m.slug) (fun _ _ _ => True) m.deploys _ () trivial ?_
    intro pre id post hids acc' _ _
    have hid : id ∈ m.deploys := hids ▸ List.mem_append_right _ List.mem_cons_self
    exact staying_countDeploy hm.names (hm.deploys id hid) acc'

theorem staying_identityUsage (owner : PubKey) :
    Staying (fun _ => True) (identityUsage owner) := by
  refine staying_node trivial fun listed hlisted => ?_
  cases listed with
  | error e => trivial
  | ok sites =>
      have hcount : Staying (fun _ => True)
          (sites.foldlM (countSite owner) ⟨⟨0, 0, 0⟩, []⟩) := by
        refine holds_foldlM (countSite owner) (fun _ _ _ => True) sites _ () trivial ?_
        intro pre m post hsites acc _ _
        have hm : m ∈ sites := hsites ▸ List.mem_append_right _ List.mem_cons_self
        exact staying_countSite owner acc (hlisted m hm)
      exact staying_bind hcount fun acc _ => trivial

end Calls

section Handlers

variable {srv : Server} {req : Request}

theorem handleListSites_stays : Staying (fun _ => True) (handleListSites req) := by
  rw [handleListSites]
  split
  next => trivial
  next =>
    split
    next => trivial
    next =>
      refine staying_node trivial fun listed _ => ?_
      cases listed with
      | error e => trivial
      | ok sites => trivial

theorem handleUsage_stays : Staying (fun _ => True) (handleUsage req) := by
  rw [handleUsage]
  split
  next => trivial
  next =>
    split
    next => trivial
    next pub _ =>
      refine staying_bind (staying_identityUsage pub) fun usage _ => ?_
      cases usage with
      | error e => trivial
      | ok usage => trivial

/-- A claim of a slug validates it. -/
theorem handlePutSite_stays (title : Option String) (powOK : Bool) :
    Staying (fun _ => True) (handlePutSite srv req title powOK) := by
  rw [handlePutSite]
  split
  next => trivial
  next =>
    split
    next => trivial
    next hvalid =>
      have hslug : NamesSite req.slug :=
        namesSite_of_valid (eq_true_of_ne_false fun h => hvalid (.inl h))
      split
      next => trivial
      next pub _ =>
        split
        next => trivial
        next title =>
          refine staying_withSiteLock (staying_node hslug.record fun found hfound => ?_)
          cases found with
          | some m =>
              dsimp only
              split
              next => trivial
              next =>
                refine staying_node trivial fun updated _ => ?_
                refine staying_node ((hfound m rfl).same rfl rfl rfl) fun put _ => ?_
                cases put with
                | error e => trivial
                | ok => trivial
          | none =>
              dsimp only
              split
              next => trivial
              next =>
                refine staying_bind (staying_identityUsage pub) fun usage _ => ?_
                cases usage with
                | error e => trivial
                | ok usage =>
                    dsimp only
                    split
                    next => trivial
                    next =>
                      refine staying_node trivial fun created _ => ?_
                      refine staying_node trivial fun updated _ => ?_
                      refine staying_node ⟨hslug, flat_empty, fun _ hid => by cases hid⟩ fun put _ => ?_
                      cases put with
                      | error e => trivial
                      | ok => trivial

theorem handleGetSite_stays (hslug : NamesRecord req.slug) :
    Staying (fun _ => True) (handleGetSite req) := by
  rw [handleGetSite]
  split
  next => trivial
  next =>
    split
    next => trivial
    next =>
      refine staying_node hslug fun found _ => ?_
      cases found with
      | none => trivial
      | some m =>
          dsimp only
          split
          next => trivial
          next => trivial

theorem handleDeleteSite_stays (hslug : NamesSite req.slug) :
    Staying (fun _ => True) (handleDeleteSite req) := by
  rw [handleDeleteSite]
  split
  next => trivial
  next =>
    split
    next => trivial
    next =>
      refine staying_node hslug.record fun found _ => ?_
      cases found with
      | none => trivial
      | some m =>
          dsimp only
          split
          next => trivial
          next =>
            exact staying_withSiteLock (staying_node hslug fun _ _ => trivial)

theorem handleListDeploys_stays (hslug : NamesSite req.slug) :
    Staying (fun _ => True) (handleListDeploys req) := by
  rw [handleListDeploys]
  split
  next => trivial
  next =>
    split
    next => trivial
    next =>
      refine staying_node hslug.record fun found hfound => ?_
      cases found with
      | none => trivial
      | some m =>
          dsimp only
          split
          next => trivial
          next =>
            suffices hall : Staying (fun _ => True)
                (m.deploys.foldlM (listDeploy m req.slug) []) from
              staying_bind hall fun out _ => trivial
            refine holds_foldlM (listDeploy m req.slug) (fun _ _ _ => True) m.deploys _ () trivial ?_
            intro pre id post hids out _ _
            have hid : id ∈ m.deploys := hids ▸ List.mem_append_right _ List.mem_cons_self
            refine staying_node ⟨hslug, (hfound m rfl).deploys id hid⟩ fun d _ => ?_
            cases d with
            | none => trivial
            | some d => trivial

theorem handleRollback_stays (hslug : NamesRecord req.slug) (body : Option String) :
    Staying (fun _ => True) (handleRollback req body) := by
  unfold handleRollback
  split
  next => trivial
  next =>
    split
    next => trivial
    next id =>
      split
      next => trivial
      next =>
        split
        next => trivial
        next =>
          refine staying_withSiteLock (staying_node hslug fun found hfound => ?_)
          cases found with
          | none => trivial
          | some m =>
              dsimp only
              split
              next => trivial
              next =>
                split
                next => trivial
                next hid =>
                  have hm := hfound m rfl
                  refine staying_node trivial fun updated _ => ?_
                  refine staying_node ⟨hm.names, hm.deploys id (not_not.mp hid), hm.deploys⟩
                    fun put _ => ?_
                  cases put with
                  | error e => trivial
                  | ok => trivial

/-- What the domain handlers share. -/
theorem withOwnSite_stays (hslug : NamesRecord req.slug) (body : Option String)
    {act : SiteMeta → String → PubKey → NodeM Response}
    (hact : ∀ m domain pub, SoundSite m → Staying (fun _ => True) (act m domain pub)) :
    Staying (fun _ => True) (withOwnSite srv req body act) := by
  unfold withOwnSite
  split
  next => trivial
  next =>
    split
    next => trivial
    next =>
      split
      next => trivial
      next domain _ =>
        split
        next => trivial
        next pub _ =>
          refine staying_withSiteLock (staying_node hslug fun found hfound => ?_)
          cases found with
          | none => trivial
          | some m =>
              dsimp only
              split
              next => trivial
              next => exact hact m domain pub (hfound m rfl)

theorem handleAddDomain_stays (hslug : NamesRecord req.slug) (body : Option String) :
    Staying (fun _ => True) (handleAddDomain srv req body) := by
  refine withOwnSite_stays hslug body fun m domain pub hm => ?_
  dsimp only
  split
  next => trivial
  next =>
    refine staying_node trivial fun listed _ => ?_
    cases listed with
    | error e => trivial
    | ok sites =>
        dsimp only
        split
        next => trivial
        next =>
          refine staying_node trivial fun other _ => ?_
          split
          next => trivial
          next =>
            refine staying_node trivial fun updated _ => ?_
            refine staying_node (hm.same rfl rfl rfl) fun put _ => ?_
            cases put with
            | error e => trivial
            | ok => trivial

theorem handleVerifyDomain_stays (hslug : NamesSite req.slug) (body : Option String) :
    Staying (fun _ => True) (handleVerifyDomain srv req body) := by
  refine withOwnSite_stays hslug.record body fun m domain _ hm => ?_
  dsimp only
  split
  next => trivial
  next =>
    split
    next => trivial
    next =>
      refine staying_node trivial fun txts _ => ?_
      cases txts with
      | error cause => trivial
      | ok txts =>
          dsimp only
          split
          next => trivial
          next =>
            refine staying_node hslug fun mapped _ => ?_
            cases mapped with
            | error e => trivial
            | ok =>
                refine staying_node trivial fun updated _ => ?_
                refine staying_node (hm.same rfl rfl rfl) fun put _ => ?_
                cases put with
                | error e => trivial
                | ok => trivial

theorem handleDeleteDomain_stays (hslug : NamesRecord req.slug) (domain : String) :
    Staying (fun _ => True) (handleDeleteDomain srv req domain) := by
  refine withOwnSite_stays hslug (some domain) fun m domain _ hm => ?_
  dsimp only
  split
  next => trivial
  next =>
    refine staying_node trivial fun updated _ => ?_
    split
    next =>
      refine staying_node trivial fun _ _ => ?_
      refine staying_node (hm.same rfl rfl rfl) fun put _ => ?_
      cases put with
      | error e => trivial
      | ok => trivial
    next =>
      refine staying_node (hm.same rfl rfl rfl) fun put _ => ?_
      cases put with
      | error e => trivial
      | ok => trivial

theorem slash_notMem_hexEncode (bs : Bytes) : '/' ∉ (hexEncode bs).toList := by
  rw [hexEncode, String.toList_ofList, List.mem_flatMap]
  rintro ⟨b, -, hb⟩
  rcases List.mem_cons.mp hb with heq | hb
  · exact slash_ne_digit _ heq.symm
  · exact slash_ne_digit _ (List.mem_singleton.mp hb).symm

theorem flat_newDeploy (slug : String) (idTime created : ℤ) (r4 : ByteArr 4)
    (files : List Bundle.File) (opts : Options) :
    Flat (newDeploy slug idTime created r4 files opts).id := by
  have hsign : '/' ∉ (if idTime < 0 then "-" else "").toList := by
    split
    · decide
    · decide
  have hdash : '/' ∉ "-".toList := by decide
  rw [Flat, newDeploy, hexInt]
  simp only [String.toList_append, String.toList_ofList, List.mem_append, not_or]
  exact ⟨⟨⟨hsign, slash_notMem_toDigits (by decide) _⟩, hdash⟩, slash_notMem_hexEncode _⟩

theorem staying_prune {slug : String} (hslug : NamesSite slug) (keep : ℤ) {ids : List String}
    (hids : ∀ id ∈ ids, Flat id) :
    Staying (fun kept => ∀ ids, kept = some ids → ∀ id ∈ ids, Flat id) (prune slug keep ids) := by
  induction ids with
  | nil =>
      rw [prune]
      split
      next => exact fun _ h => by cases h
      next =>
        rintro _ ⟨⟩
        exact hids
  | cons old rest ih =>
      rw [prune]
      split
      next =>
        refine staying_node ⟨hslug, hids old List.mem_cons_self⟩ fun _ _ => ?_
        exact ih fun id hid => hids id (List.mem_cons_of_mem _ hid)
      next =>
        rintro _ ⟨⟩
        exact hids

theorem commitDeploy_stays {slug : String} (hslug : NamesSite slug) (pub : PubKey)
    (files : List Bundle.File) {dep : Deploy} (hdep : dep.slug = slug) (hid : Flat dep.id) :
    Staying (fun _ => True) (commitDeploy srv slug pub files dep) := by
  unfold commitDeploy
  refine staying_node hslug.record fun found hfound => ?_
  cases found with
  | none => trivial
  | some m =>
      have hm := hfound m rfl
      dsimp only
      split
      next => trivial
      next =>
        refine staying_bind (staying_identityUsage pub) fun usage _ => ?_
        cases usage with
        | error e => trivial
        | ok usage =>
            refine staying_node trivial fun existing _ => ?_
            split
            next => trivial
            next =>
              refine staying_node trivial fun total _ => ?_
              split
              next => trivial
              next =>
                refine staying_node ⟨hdep ▸ hslug, hid⟩ fun put _ => ?_
                cases put with
                | error e => trivial
                | ok =>
                    refine staying_node trivial fun updated _ => ?_
                    have hids : ∀ id ∈ m.deploys ++ [dep.id], Flat id := by
                      intro id hmem
                      rcases List.mem_append.mp hmem with hold | hnew
                      · exact hm.deploys id hold
                      · cases List.mem_singleton.mp hnew
                        exact hid
                    refine staying_bind (staying_prune hslug _ hids) fun kept hkept => ?_
                    cases kept with
                    | none => trivial
                    | some deploys =>
                        refine staying_node ⟨hm.names, hid, hkept deploys rfl⟩ fun put _ => ?_
                        cases put with
                        | error e => trivial
                        | ok => trivial

theorem putFile_elsewhere (f : Bundle.File) (data : Bytes) : (putFile f data).Only Elsewhere := by
  refine ⟨trivial, fun put => ?_⟩
  cases put with
  | error e => trivial
  | ok => trivial

theorem handleDeploy_stays (hslug : NamesSite req.slug) (stream : TarStream) :
    Staying (fun _ => True) (handleDeploy srv req stream) := by
  rw [handleDeploy]
  split
  next => trivial
  next =>
    split
    next => trivial
    next pub _ =>
      refine staying_node hslug.record fun found _ => ?_
      cases found with
      | none => trivial
      | some m =>
          dsimp only
          split
          next => trivial
          next =>
            refine staying_node trivial fun total _ => ?_
            split
            next => trivial
            next =>
              refine staying_bind (staying_elsewhere (extract_only putFile_elsewhere _ _ stream))
                fun extracted _ => ?_
              cases extracted with
              | error e => trivial
              | ok out =>
                  obtain ⟨files, opts⟩ := out
                  refine staying_node trivial fun r4 _ => ?_
                  refine staying_node trivial fun idTime _ => ?_
                  refine staying_node trivial fun created _ => ?_
                  refine staying_withSiteLock (commitDeploy_stays hslug pub files rfl ?_)
                  exact flat_newDeploy req.slug idTime created r4 files opts

end Handlers

section Endpoints

variable {α : Type}

def CacheStays : CacheOp → Prop
  | .node o => Stays o
  | _ => True

def CacheSoundAns : (o : CacheOp) → CacheAns o → Prop
  | .node o, ans => SoundAns o ans
  | _, _ => True

abbrev CacheStaying (p : CacheM α) : Prop :=
  Holds (Meets CacheSoundAns) (fun _ o => CacheStays o) (fun _ _ => True) p ()

theorem onNode_stays {p : NodeM α} (hp : Staying (fun _ => True) p) : CacheStaying (onNode p) := by
  induction p with
  | ret a => trivial
  | call o next ih => exact ⟨hp.1, fun ans _ hans => ih ans (hp.2 ans () hans)⟩

theorem invalidating_stays {slug : String} {p : NodeM Response}
    (hp : Staying (fun _ => True) p) : CacheStaying (invalidating slug p) := by
  induction p generalizing slug with
  | ret r => trivial
  | call o next ih =>
      refine ⟨hp.1, fun ans _ hans => ?_⟩
      have hnext := hp.2 ans () hans
      change CacheStaying (if commits o ans then _ else _)
      split
      next => exact ⟨trivial, fun _ _ _ => ih ans hnext⟩
      next => exact ih ans hnext

theorem dropping_stays {slug : String} {p : NodeM Response}
    (hp : Staying (fun _ => True) p) : CacheStaying (dropping slug p) :=
  (holds_bind _ _ ()).mpr ((invalidating_stays hp).imp fun _ _ _ => trivial)

theorem serveSite_stays {slug : String} (hslug : NamesSite slug) : CacheStaying (serveSite slug) := by
  refine (holds_bind _ _ ()).mpr (Holds.imp (Q := fun _ _ => True) ?_ fun _ _ _ => trivial)
  refine ⟨trivial, fun hit _ _ => ?_⟩
  cases hit with
  | some c => trivial
  | none =>
      refine ⟨hslug.record, fun site _ hsite => ?_⟩
      cases site with
      | none => trivial
      | some m =>
          change Holds _ _ _ (if m.current = "" then _ else _) _
          split
          next => trivial
          next =>
            refine ⟨⟨hslug, (hsite m rfl).current⟩, fun dep _ _ => ?_⟩
            cases dep with
            | none => trivial
            | some d => exact ⟨trivial, fun _ _ _ => trivial⟩

theorem serveHost_stays {base host : String}
    (hslug : ∀ slug, hostSlug base host = some slug → NamesSite slug) :
    CacheStaying (serveHost base host) := by
  rw [serveHost]
  split
  next => trivial
  next =>
    split
    next slug hhost => exact serveSite_stays (hslug slug hhost)
    next =>
      refine ⟨trivial, fun mapped _ hmapped => ?_⟩
      cases mapped with
      | none => trivial
      | some slug => exact serveSite_stays (hmapped slug rfl)

/-- Which slugs keep an endpoint to sites' own files. The label of a host has no dot. -/
def Endpoint.Confines (slug : String) : Endpoint → Prop
  | .listSites | .usage | .putSite => True
  | .getSite | .rollback | .addDomain | .deleteDomain => NamesRecord slug
  | .deleteSite | .deploy | .listDeploys | .verifyDomain | .servePath => NamesSite slug
  | .serveHost => '.' ∉ slug.toList → NamesSite slug

theorem flat_hostSlug {base host slug : String} (h : hostSlug base host = some slug) :
    '.' ∉ slug.toList := by
  rw [hostSlug] at h
  split at h
  next =>
    dsimp only at h
    split at h
    next => cases h
    next hdot =>
      cases h
      rw [String.toList_ofList]
      exact hdot
  next => cases h

theorem Endpoint.stays {srv : Server} {inp : Incoming} {e : Endpoint}
    (h : ∀ slug, e.slug srv inp = some slug → e.Confines slug) : CacheStaying (e.program srv inp) := by
  cases e with
  | listSites => exact onNode_stays handleListSites_stays
  | usage => exact onNode_stays handleUsage_stays
  | putSite => exact onNode_stays (handlePutSite_stays _ _)
  | getSite => exact onNode_stays (handleGetSite_stays (h _ rfl))
  | deleteSite => exact dropping_stays (handleDeleteSite_stays (h _ rfl))
  | deploy => exact dropping_stays (handleDeploy_stays (h _ rfl) _)
  | listDeploys => exact onNode_stays (handleListDeploys_stays (h _ rfl))
  | rollback => exact dropping_stays (handleRollback_stays (h _ rfl) _)
  | addDomain => exact onNode_stays (handleAddDomain_stays (h _ rfl) _)
  | verifyDomain => exact onNode_stays (handleVerifyDomain_stays (h _ rfl) _)
  | deleteDomain => exact onNode_stays (handleDeleteDomain_stays (h _ rfl) _)
  | servePath => exact serveSite_stays (h _ rfl)
  | serveHost => exact serveHost_stays fun slug hslug => h slug hslug (flat_hostSlug hslug)

/-- While only slugs are let through that keep their endpoints to sites' own files, all
requests touch only such files, in any order. -/
theorem keepsOwn_of_confines {dir : Text} {srv : Server} {lets : Endpoint → String → Prop}
    (hlets : ∀ e slug, lets e slug → e.Confines slug) {n : FsNode} (hn : OwnFiles dir n)
    {es : List SlugEvent} {x : SlugPool} (hrun : Runs (SlugStep srv dir lets) ⟨n, ∅⟩ es x) :
    KeepsOwn dir x := by
  have hstart : ∀ (s : FsNode) t p, StartSlug srv lets s t p → CacheStaying p := by
    rintro s t p ⟨e, inp, hslug⟩
    exact Endpoint.stays fun slug he => hlets e slug (hslug slug he)
  have hop : ∀ s o ans s', OwnFiles dir s → CacheStays o → CacheFsServes dir s o ans s' →
      CacheSoundAns o ans ∧ OwnFiles dir s' := by
    intro s o ans s' hs ho hserves
    cases hserves with
    | node hserves => exact ⟨serves_sound hserves hs, ho.keeps hserves hs⟩
    | cached | fill | invalidate => exact ⟨trivial, hs⟩
  obtain ⟨hthreads, hx⟩ := invariant_relying hstart hop hrun all_empty hn
  intro i o next t hthread p hp
  have ho := (hthreads _ _ hthread).1
  cases o with
  | node o => exact Stays.touched ho hx p hp
  | cached | fill | invalidate => cases hp

end Endpoints

end Tactile.Publish.SlugPaths

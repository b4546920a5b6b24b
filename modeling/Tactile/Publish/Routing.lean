import Tactile.Lib.Transition
import Tactile.Publish.Domains

/-!
Domain routing over whole runs of a publish node: requests in any order, with
failing writes, reloads of the domain map and restarts.
-/

namespace Tactile.Publish.Routing

open Tactile.Lib.Program Tactile.Lib.FiniteMap Tactile.Lib.Transition
open Tactile.Publish.Bundle Tactile.Publish.Records Tactile.Publish.NodeOps
open Tactile.Publish.Handlers Tactile.Publish.Domains

/-- The requests on sites and their domains. -/
inductive Action
  | putSite (req : Request) (title : Option String) (powOK : Bool)
  | deleteSite (req : Request)
  | addDomain (req : Request) (body : Option String)
  | verifyDomain (req : Request) (body : Option String)
  | deleteDomain (req : Request) (domain : String)

namespace Action

variable (srv : Server)

def program : Action → NodeM Response
  | .putSite req title powOK => handlePutSite srv req title powOK
  | .deleteSite req => handleDeleteSite req
  | .addDomain req body => handleAddDomain srv req body
  | .verifyDomain req body => handleVerifyDomain srv req body
  | .deleteDomain req domain => handleDeleteDomain srv req domain

/-- The domain that a request asks for. -/
def domain : Action → Option String
  | .putSite .. | .deleteSite _ => none
  | .addDomain _ body | .verifyDomain _ body => body.bind srv.normalizeDomain
  | .deleteDomain _ domain => srv.normalizeDomain domain

end Action

abbrev NodeCall : Type := Call NodeOp NodeAns

/-- What happens to a node: a request with the calls it made, a reload of the
domain map, a restart. -/
inductive Event
  | request (a : Action) (r : Response) (calls : List NodeCall)
  | refresh
  | restart

/-- The steps of a node whose requests run one after the other. -/
inductive Step (b : Backend) (srv : Server) : Node → Event → Node → Prop
  | request {n n' : Node} {a : Action} {r : Response} {calls : List NodeCall} :
      Exec (Logged (Serves b srv.fileOf)) (n, []) (a.program srv) r (n', calls) →
      Step b srv n (.request a r calls) n'
  | refresh (n : Node) : Step b srv n .refresh { n with store := n.store.refresh b }
  | restart (n : Node) : Step b srv n .restart (Node.start b n.store.disk)

/-- A call that has changed the domain map. -/
def changedMap : NodeCall → Bool
  | ⟨.setDomain .., .ok _⟩ => true
  | ⟨.deleteDomain _, _⟩ => true
  | _ => false

/-- A failed write of a site record. -/
def failedPutSite : NodeCall → Bool
  | ⟨.putSite _, .error _⟩ => true
  | _ => false

/-- The request has changed the domain map and failed to write the site. -/
def Torn (calls : List NodeCall) : Prop :=
  calls.any changedMap = true ∧ calls.any failedPutSite = true

/-- The steps on which the code keeps the routing: no request is torn, and a
file-system store is not reloaded while a domain record is left over. -/
def Keeps (b : Backend) (n : Node) : Event → Prop
  | .request _ _ calls => ¬ Torn calls
  | .refresh | .restart => b = .fs → NoLeftover n.store

/-- The domains that the requests of a run ask for. -/
def askedFor (srv : Server) (es : List Event) : Set String :=
  { d | ∃ a r calls, .request a r calls ∈ es ∧ a.domain srv = some d }

section Handlers

variable {b : Backend} {srv : Server} {D : Set String}

/-- What a request leaves: a consistent store, unless it was torn. -/
def Kept (b : Backend) (fileOf : String → String) (D : Set String) (x : Node × List NodeCall) :
    Prop :=
  Torn x.2 ∨ Consistent b fileOf D x.1.store

/-- Every run of the program on the consistent store `s` leaves what a request
leaves. -/
def KeepsRouting (b : Backend) (srv : Server) (D : Set String) (s : Store) {α : Type}
    (p : NodeM α) : Prop :=
  ∀ n calls, n.store = s →
    Holds (Logged (Serves b srv.fileOf)) (fun _ _ => True)
      (fun _ x => Kept b srv.fileOf D x) p (n, calls)

variable {s : Store} {α : Type}

theorem Torn.append {calls : List NodeCall} (h : Torn calls) (more : List NodeCall) :
    Torn (calls ++ more) := by
  refine ⟨?_, ?_⟩
  · rw [List.any_append, h.1, Bool.true_or]
  · rw [List.any_append, h.2, Bool.true_or]

theorem keepsRouting_pure (h : Consistent b srv.fileOf D s) (a : α) :
    KeepsRouting b srv D s (pure a : NodeM α) :=
  fun _ _ hn => .inr (hn ▸ h)

/-- An operation that does not change the store, with what its answer says. -/
theorem keepsRouting_reads {o : NodeOp} {next : NodeAns o → NodeM α} (P : NodeAns o → Prop)
    (hreads : ∀ n ans n', Serves b srv.fileOf n o ans n' → n.store = s → n'.store = s ∧ P ans)
    (hnext : ∀ ans, P ans → KeepsRouting b srv D s (next ans)) :
    KeepsRouting b srv D s (node o >>= next) := by
  intro n calls hn
  refine ⟨trivial, fun ans x hx => ?_⟩
  obtain ⟨hstore, hans⟩ := hreads n ans x.1 hx.1 hn
  exact hnext ans hans x.1 x.2 hstore

theorem keepsRouting_now {next : ℤ → NodeM α} (hnext : ∀ t, KeepsRouting b srv D s (next t)) :
    KeepsRouting b srv D s (node .now >>= next) := by
  refine keepsRouting_reads (fun _ => True) (fun n ans n' hs hn => ?_) fun t _ => hnext t
  cases hs
  exact ⟨hn, trivial⟩

theorem keepsRouting_getSite {slug : String} {next : Option SiteMeta → NodeM α}
    (hnext : KeepsRouting b srv D s (next (s.getSite slug))) :
    KeepsRouting b srv D s (node (.getSite slug) >>= next) := by
  refine keepsRouting_reads (fun ans => ans = s.getSite slug) (fun n ans n' hs hn => ?_)
    fun ans hans => hans ▸ hnext
  cases hs
  exact ⟨hn, hn ▸ rfl⟩

theorem keepsRouting_withSiteLock {slug : String} {body : NodeM α}
    (h : KeepsRouting b srv D s body) : KeepsRouting b srv D s (withSiteLock slug body) := by
  refine keepsRouting_reads (fun _ => True) (fun n ans n' hs hn => ?_) fun _ _ n calls hn => ?_
  · cases hs
    exact ⟨hn, trivial⟩
  rw [holds_bind]
  refine (h n calls hn).imp fun a x hx => ?_
  refine ⟨trivial, fun ans y hy => ?_⟩
  obtain ⟨n', calls'⟩ := y
  obtain ⟨hserves, hlog⟩ := hy
  have hcalls : calls' = x.2 ++ [_] := hlog
  cases hserves
  rcases hx with htorn | hcons
  · exact .inl (hcalls ▸ htorn.append _)
  · exact .inr hcons

/-- The write of the site's record at the end of a request: when it fails, the
store is consistent or the request is torn. -/
theorem holds_lastPut {m : SiteMeta} {r r' : Response} {n : Node} {calls : List NodeCall}
    (hfail : calls.any changedMap = true ∨ Consistent b srv.fileOf D n.store)
    (hok : Consistent b srv.fileOf D (n.store.putSite b m true).2) :
    Holds (Logged (Serves b srv.fileOf)) (fun _ _ => True) (fun _ x => Kept b srv.fileOf D x)
      (do
        let put : Except Err Unit ← node (.putSite m)
        match put with
        | .error _ => pure r
        | .ok () => pure r') (n, calls) := by
  refine ⟨trivial, fun ans x hx => ?_⟩
  obtain ⟨n', calls'⟩ := x
  obtain ⟨hserves, hlog⟩ := hx
  have hcalls : calls' = calls ++ [_] := hlog
  have hfailed : ∀ e, ans = .error e → calls.any changedMap = true → Torn calls' := by
    rintro e rfl hchanged
    rw [hcalls]
    refine ⟨?_, ?_⟩
    · rw [List.any_append, hchanged, Bool.true_or]
    · rw [List.any_append]
      exact Bool.or_true _
  cases hserves with
  | putSite _ _ written =>
      cases hw : written with
      | true =>
          subst hw
          cases hans : (n.store.putSite b m true).1 with
          | error e => exact .inr hok
          | ok => exact .inr hok
      | false =>
          subst hw
          have herror : ∃ e, n.store.putSite b m false = (.error e, n.store) := by
            rw [Store.putSite]
            split
            next => exact ⟨_, rfl⟩
            next => exact ⟨_, rfl⟩
          obtain ⟨e, he⟩ := herror
          simp only [he] at hfailed ⊢
          rcases hfail with hchanged | hcons
          · exact .inl (hfailed e rfl hchanged)
          · exact .inr hcons

theorem keepsRouting_put {m : SiteMeta} {r r' : Response}
    (h : Consistent b srv.fileOf D s)
    (hsame : ∀ domain, (∃ e ∈ m.domains, e.name = domain ∧ e.verified = true) ↔
      Listed s domain m.slug)
    (hnames : (m.domains.map DomainEntry.name).Nodup) (hasked : ∀ e ∈ m.domains, e.name ∈ D) :
    KeepsRouting b srv D s (do
      let put : Except Err Unit ← node (.putSite m)
      match put with
      | .error _ => pure r
      | .ok () => pure r') := by
  intro n calls hn
  subst hn
  exact holds_lastPut (.inr h) (h.putSite hsame hnames hasked true)

/-- A program that leaves the store as it finds it. -/
def ReadsOnly (b : Backend) (srv : Server) {α : Type} (p : NodeM α) : Prop :=
  ∀ n calls, Holds (Logged (Serves b srv.fileOf)) (fun _ _ => True)
    (fun _ x => x.1.store = n.store) p (n, calls)

theorem keepsRouting_bind {β : Type} {p : NodeM β} {next : β → NodeM α} (hp : ReadsOnly b srv p)
    (hnext : ∀ a, KeepsRouting b srv D s (next a)) : KeepsRouting b srv D s (p >>= next) := by
  intro n calls hn
  rw [holds_bind]
  refine (hp n calls).imp fun a x hx => ?_
  exact hnext a x.1 x.2 (hx.trans hn)

theorem readsOnly_foldlM {β ι : Type} {f : β → ι → NodeM β} (hf : ∀ acc i, ReadsOnly b srv (f acc i))
    (xs : List ι) (acc : β) : ReadsOnly b srv (xs.foldlM f acc) := by
  intro n calls
  refine holds_foldlM f (fun _ _ x => x.1.store = n.store) xs acc (n, calls) rfl ?_
  intro pre i post _ acc x hx
  refine (hf acc i x.1 x.2).imp fun _ y hy => hy.trans hx

theorem readsOnly_bind {β : Type} {p : NodeM β} {next : β → NodeM α} (hp : ReadsOnly b srv p)
    (hnext : ∀ a, ReadsOnly b srv (next a)) : ReadsOnly b srv (p >>= next) := by
  intro n calls
  rw [holds_bind]
  refine (hp n calls).imp fun a x hx => ?_
  exact (hnext a x.1 x.2).imp fun _ y hy => hy.trans hx

theorem readsOnly_pure (a : α) : ReadsOnly b srv (pure a : NodeM α) := fun _ _ => rfl

theorem readsOnly_node {o : NodeOp}
    (hreads : ∀ n ans n', Serves b srv.fileOf n o ans n' → n'.store = n.store) :
    ReadsOnly b srv (node o) :=
  fun n _ => ⟨trivial, fun ans x hx => hreads n ans x.1 hx.1⟩

theorem readsOnly_identityUsage (owner : PubKey) : ReadsOnly b srv (identityUsage owner) := by
  have hdeploy : ∀ slug acc id, ReadsOnly b srv (countDeploy slug acc id) := by
    intro slug acc id
    refine readsOnly_bind (readsOnly_node fun n ans n' hs => by cases hs; rfl) fun d => ?_
    cases d with
    | none => exact readsOnly_pure _
    | some d => exact readsOnly_pure _
  have hsite : ∀ acc m, ReadsOnly b srv (countSite owner acc m) := by
    intro acc m
    rw [countSite]
    split
    next => exact readsOnly_pure _
    next => exact readsOnly_foldlM (hdeploy m.slug) _ _
  refine readsOnly_bind (readsOnly_node fun n ans n' hs => by cases hs; rfl) fun listed => ?_
  cases listed with
  | error e => exact readsOnly_pure _
  | ok sites => exact readsOnly_bind (readsOnly_foldlM hsite _ _) fun _ => readsOnly_pure _

theorem listed_iff {slug domain : String} {m : SiteMeta} (hm : s.getSite slug = some m) :
    Listed s domain slug ↔ ∃ e ∈ m.domains, e.name = domain ∧ e.verified = true := by
  simp [Listed, hm]

theorem handlePutSite_keeps (h : Consistent b srv.fileOf D s) (req : Request)
    (title : Option String) (powOK : Bool) :
    KeepsRouting b srv D s (handlePutSite srv req title powOK) := by
  rw [handlePutSite]
  split
  next => exact keepsRouting_pure h _
  next =>
    split
    next => exact keepsRouting_pure h _
    next =>
      cases req.authed req.slug with
      | error r => exact keepsRouting_pure h _
      | ok pub =>
        cases title with
        | none => exact keepsRouting_pure h _
        | some title =>
          refine keepsRouting_withSiteLock (keepsRouting_getSite ?_)
          cases hsite : s.getSite req.slug with
          | some m =>
              dsimp only
              split
              next => exact keepsRouting_pure h _
              next =>
                have hsite' : s.getSite m.slug = some m := by
                  rw [(h.own req.slug m hsite).1]
                  exact hsite
                exact keepsRouting_now fun updated => keepsRouting_put h
                  (fun domain => (listed_iff hsite').symm) (h.names req.slug m hsite)
                  (h.asked req.slug m hsite)
          | none =>
              dsimp only
              split
              next => exact keepsRouting_pure h _
              next =>
                refine keepsRouting_bind (readsOnly_identityUsage pub) fun usage => ?_
                cases usage with
                | error e => exact keepsRouting_pure h _
                | ok usage =>
                    dsimp only
                    split
                    next => exact keepsRouting_pure h _
                    next =>
                      refine keepsRouting_now fun created => keepsRouting_now fun updated => ?_
                      refine keepsRouting_put h (fun domain => ?_) List.nodup_nil
                        (fun _ he => by cases he)
                      simp [Listed, hsite]

theorem handleDeleteSite_keeps (h : Consistent b srv.fileOf D s) (req : Request) :
    KeepsRouting b srv D s (handleDeleteSite req) := by
  rw [handleDeleteSite]
  split
  next => exact keepsRouting_pure h _
  next =>
    split
    next => exact keepsRouting_pure h _
    next pub _ =>
      refine keepsRouting_getSite ?_
      cases s.getSite req.slug with
      | none => exact keepsRouting_pure h _
      | some m =>
          dsimp only
          split
          next => exact keepsRouting_pure h _
          next =>
            refine keepsRouting_withSiteLock fun n calls hn => ⟨trivial, fun ans x hx => ?_⟩
            obtain ⟨n', calls'⟩ := x
            obtain ⟨hserves, _⟩ := hx
            cases hserves
            refine .inr ?_
            subst hn
            cases b with
            | fs => exact h.drop (dropped_fs n.store req.slug)
            | s3 => exact h.drop (h.dropped_s3 req.slug)

theorem withOwnSite_keeps (h : Consistent b srv.fileOf D s) {req : Request}
    {body : Option String} {act : SiteMeta → String → PubKey → NodeM Response}
    (hact : ∀ m domain pub, s.getSite m.slug = some m → req.slug = m.slug →
      body.bind srv.normalizeDomain = some domain → KeepsRouting b srv D s (act m domain pub)) :
    KeepsRouting b srv D s (withOwnSite srv req body act) := by
  unfold withOwnSite
  cases req.gate with
  | error r => exact keepsRouting_pure h _
  | ok =>
      cases body with
      | none => exact keepsRouting_pure h _
      | some raw =>
          dsimp only
          cases hdomain : srv.normalizeDomain raw with
          | none => exact keepsRouting_pure h _
          | some domain =>
              dsimp only
              cases req.authed (req.slug ++ "|" ++ domain) with
              | error r => exact keepsRouting_pure h _
              | ok pub =>
                  refine keepsRouting_withSiteLock (keepsRouting_getSite ?_)
                  cases hsite : s.getSite req.slug with
                  | none => exact keepsRouting_pure h _
                  | some m =>
                      dsimp only
                      split
                      next => exact keepsRouting_pure h _
                      next =>
                        have hslug := (h.own req.slug m hsite).1
                        exact hact m domain pub (hslug.symm ▸ hsite) hslug.symm hdomain

theorem handleAddDomain_keeps (h : Consistent b srv.fileOf D s) (req : Request)
    (body : Option String) (hD : ∀ d, body.bind srv.normalizeDomain = some d → d ∈ D) :
    KeepsRouting b srv D s (handleAddDomain srv req body) := by
  refine withOwnSite_keeps h fun m domain pub hsite hslug hdomain => ?_
  split
  next => exact keepsRouting_pure h _
  next hfree =>
    have hnew : m.domain domain = none := by simpa using hfree
    refine keepsRouting_reads (fun _ => True) (fun n ans n' hs hn => ?_) fun listed _ => ?_
    · cases hs
      exact ⟨hn, trivial⟩
    cases listed with
    | error e => exact keepsRouting_pure h _
    | ok sites =>
        dsimp only
        split
        next => exact keepsRouting_pure h _
        next =>
          refine keepsRouting_reads (fun _ => True) (fun n ans n' hs hn => ?_) fun other _ => ?_
          · cases hs
            exact ⟨hn, trivial⟩
          split
          next => exact keepsRouting_pure h _
          next =>
            refine keepsRouting_now fun updated => keepsRouting_put h (fun d => ?_) ?_ fun e he => ?_
            · rw [listed_iff hsite]
              simp
            · have hnot : domain ∉ m.domains.map DomainEntry.name := by
                intro hmem
                obtain ⟨e, he, heq⟩ := List.mem_map.mp hmem
                have := List.find?_eq_none.mp hnew e he
                simp [heq] at this
              rw [List.map_append, List.nodup_append]
              refine ⟨h.names _ _ hsite, List.nodup_singleton _, fun a ha c hc heq => hnot ?_⟩
              rw [List.map_singleton, List.mem_singleton] at hc
              have hsame : a = domain := heq.trans hc
              exact hsame ▸ ha
            · rcases List.mem_append.mp he with hold | hnew
              · exact h.asked _ _ hsite e hold
              · rw [List.mem_singleton.mp hnew]
                exact hD domain hdomain

theorem names_verifyEntries (domain : String) (entries : List DomainEntry) :
    (verifyEntries domain entries).map DomainEntry.name = entries.map DomainEntry.name := by
  rw [verifyEntries, List.map_map]
  refine List.map_congr_left fun e _ => ?_
  simp only [Function.comp_apply]
  split <;> rfl

theorem mem_verifyEntries {domain d : String} {entries : List DomainEntry}
    (hin : ∃ e ∈ entries, e.name = domain) :
    (∃ e ∈ verifyEntries domain entries, e.name = d ∧ e.verified = true) ↔
      if d = domain then true = true else ∃ e ∈ entries, e.name = d ∧ e.verified = true := by
  have hmap : (∃ e ∈ verifyEntries domain entries, e.name = d ∧ e.verified = true) ↔
      ∃ e ∈ entries, e.name = d ∧ (e.name = domain ∨ e.verified = true) := by
    constructor
    · rintro ⟨_, hmem, hname, hver⟩
      obtain ⟨e, he, rfl⟩ := List.mem_map.mp hmem
      by_cases hd : e.name = domain
      · exact ⟨e, he, by simpa [hd] using hname, .inl hd⟩
      · rw [if_neg hd] at hname hver
        exact ⟨e, he, hname, .inr hver⟩
    · rintro ⟨e, he, hname, hver⟩
      refine ⟨_, List.mem_map_of_mem he, ?_⟩
      by_cases hd : e.name = domain
      · rw [if_pos hd]
        exact ⟨hname, rfl⟩
      · rw [if_neg hd]
        exact ⟨hname, hver.resolve_left hd⟩
  rw [hmap]
  split
  next heq =>
    obtain ⟨e, he, hname⟩ := hin
    exact ⟨fun _ => rfl, fun _ => ⟨e, he, hname.trans heq.symm, .inl hname⟩⟩
  next hne =>
    refine exists_congr fun e => and_congr_right fun _ => and_congr_right fun hname => ?_
    exact ⟨fun h => h.resolve_left fun heq => hne (hname.symm.trans heq), .inr⟩

theorem asked_verifyEntries {domain : String} {entries : List DomainEntry}
    (h : ∀ e ∈ entries, e.name ∈ D) : ∀ e ∈ verifyEntries domain entries, e.name ∈ D := by
  intro e he
  have hname : e.name ∈ (verifyEntries domain entries).map DomainEntry.name :=
    List.mem_map_of_mem he
  rw [names_verifyEntries] at hname
  obtain ⟨e', he', heq⟩ := List.mem_map.mp hname
  exact heq ▸ h e' he'

theorem handleVerifyDomain_keeps (h : Consistent b srv.fileOf D s) (hinj : Set.InjOn srv.fileOf D)
    (req : Request) (body : Option String)
    (hD : ∀ d, body.bind srv.normalizeDomain = some d → d ∈ D) :
    KeepsRouting b srv D s (handleVerifyDomain srv req body) := by
  refine withOwnSite_keeps h fun m domain pub hsite hslug hdomain => ?_
  cases hentry : m.domain domain with
  | none => exact keepsRouting_pure h _
  | some entry =>
      dsimp only
      split
      next => exact keepsRouting_pure h _
      next =>
        have hin : ∃ e ∈ m.domains, e.name = domain :=
          ⟨entry, List.mem_of_find?_eq_some hentry, by simpa using List.find?_some hentry⟩
        refine keepsRouting_reads (fun _ => True) (fun n ans n' hs hn => ?_) fun txts _ => ?_
        · cases hs
          exact ⟨hn, trivial⟩
        cases txts with
        | error cause => exact keepsRouting_pure h _
        | ok txts =>
            dsimp only
            split
            next => exact keepsRouting_pure h _
            next =>
              intro n calls hn
              refine ⟨trivial, fun ans x hx => ?_⟩
              obtain ⟨n', calls'⟩ := x
              obtain ⟨hserves, hlog⟩ := hx
              have hcalls : calls' = calls ++ [_] := hlog
              cases hserves with
              | setDomain _ _ _ written =>
                  subst hn
                  rcases setDomain_cases srv.fileOf n.store domain req.slug written with
                    ⟨e, he⟩ | ⟨hok, hfree, hsites, hmap, hdisk⟩
                  · simp only [he]
                    exact .inr h
                  · have hchanged : calls'.any changedMap = true := by
                      rw [hcalls, List.any_append]
                      simp only [hok]
                      exact Bool.or_true _
                    simp only [hok]
                    refine ⟨trivial, fun updated y hy => ?_⟩
                    obtain ⟨n₂, calls₂⟩ := y
                    obtain ⟨hserves₂, hlog₂⟩ := hy
                    have hcalls₂ : calls₂ = calls' ++ [_] := hlog₂
                    cases hserves₂
                    refine holds_lastPut (.inl ?_) ?_
                    · rw [hcalls₂, List.any_append, hchanged, Bool.true_or]
                    · rw [hslug] at hfree hsites hmap hdisk ⊢
                      have ha : Assigned srv.fileOf n.store _ domain m.slug true :=
                        ⟨hsites, hmap, hdisk⟩
                      exact h.assign hinj ha (h.own _ _ hsite).2 (hD domain hdomain) hfree
                        (fun d => (mem_verifyEntries hin).trans (by rw [listed_iff hsite]))
                        (by rw [names_verifyEntries]; exact h.names _ _ hsite)
                        (asked_verifyEntries (h.asked _ _ hsite))

theorem handleDeleteDomain_keeps (h : Consistent b srv.fileOf D s) (hinj : Set.InjOn srv.fileOf D)
    (req : Request) (raw : String) (hD : ∀ d, srv.normalizeDomain raw = some d → d ∈ D) :
    KeepsRouting b srv D s (handleDeleteDomain srv req raw) := by
  refine withOwnSite_keeps h fun m domain pub hsite hslug hdomain => ?_
  cases hremoved : (m.domains.filter fun d => d.name = domain).getLast? with
  | none => exact keepsRouting_pure h _
  | some removed =>
      have hmem := List.mem_filter.mp (List.mem_of_getLast? hremoved)
      have hname : removed.name = domain := by simpa using hmem.2
      have hnames : ((m.domains.filter fun d => d.name ≠ domain).map DomainEntry.name).Nodup :=
        (List.filter_sublist.map _).nodup (h.names _ _ hsite)
      have hasked : ∀ e ∈ m.domains.filter fun d => d.name ≠ domain, e.name ∈ D :=
        fun e he => h.asked _ _ hsite e (List.mem_filter.mp he).1
      have hkept : ∀ d, (∃ e ∈ m.domains.filter fun e => e.name ≠ domain,
          e.name = d ∧ e.verified = true) ↔
            if d = domain then false = true else Listed s d m.slug := by
        intro d
        rw [listed_iff hsite]
        split
        next heq =>
          refine ⟨?_, Bool.false_ne_true.elim⟩
          rintro ⟨e, he, hd, _⟩
          exact absurd (hd.trans heq) (by simpa using (List.mem_filter.mp he).2)
        next hne =>
          refine exists_congr fun e => ?_
          rw [List.mem_filter]
          refine ⟨fun he => ⟨he.1.1, he.2⟩, fun he => ⟨⟨he.1, ?_⟩, he.2⟩⟩
          exact decide_eq_true fun heq => hne (he.2.1.symm.trans heq)
      refine keepsRouting_now fun updated => ?_
      split
      next hverified =>
        have hlisted : Listed s domain m.slug :=
          (listed_iff hsite).mpr ⟨removed, hmem.1, hname, hverified⟩
        have hfree : ∀ other, s.resolveDomain domain = some other → other = m.slug := fun _ ho =>
          Option.some.inj (ho.symm.trans ((h.routed domain m.slug).mpr hlisted))
        intro n calls hn
        subst hn
        refine ⟨trivial, fun ans x hx => ?_⟩
        obtain ⟨n', calls'⟩ := x
        obtain ⟨hserves, hlog⟩ := hx
        have hcalls : calls' = calls ++ [_] := hlog
        cases hserves
        refine holds_lastPut (.inl ?_) ?_
        · rw [hcalls, List.any_append]
          exact Bool.or_true _
        · have ha : Assigned srv.fileOf n.store (n.store.deleteDomain srv.fileOf domain) domain
              m.slug false :=
            ⟨rfl, fun _ => lookup_erase_eq .., fun _ => lookup_erase_eq ..⟩
          exact h.assign hinj ha (h.own _ _ hsite).2 (hD domain hdomain) hfree hkept hnames hasked
      next hunverified =>
        refine keepsRouting_put h (fun d => (hkept d).trans ?_) hnames hasked
        split
        next heq =>
          subst heq
          refine ⟨Bool.false_ne_true.elim, fun hl => ?_⟩
          obtain ⟨e, he, hd, hverified⟩ := (listed_iff hsite).mp hl
          have hsame : e = removed :=
            List.inj_on_of_nodup_map (h.names _ _ hsite) he hmem.1 (hd.trans hname.symm)
          exact absurd (hsame ▸ hverified) hunverified
        next => exact Iff.rfl

theorem action_keeps (h : Consistent b srv.fileOf D s) (hinj : Set.InjOn srv.fileOf D) (a : Action)
    (hD : ∀ d, a.domain srv = some d → d ∈ D) : KeepsRouting b srv D s (a.program srv) := by
  cases a with
  | putSite req title powOK => exact handlePutSite_keeps h req title powOK
  | deleteSite req => exact handleDeleteSite_keeps h req
  | addDomain req body => exact handleAddDomain_keeps h req body hD
  | verifyDomain req body => exact handleVerifyDomain_keeps h hinj req body hD
  | deleteDomain req domain => exact handleDeleteDomain_keeps h hinj req domain hD

end Handlers

section Runs

variable {b : Backend} {srv : Server} {D : Set String}

theorem normalizeDomain_ne_empty {raw domain : String} (h : srv.normalizeDomain raw = some domain) :
    domain ≠ "" := by
  rw [Server.normalizeDomain] at h
  split at h
  next => cases h
  next hshape =>
    split at h
    next =>
      cases h
      intro hempty
      exact hshape (.inl (hempty ▸ by decide))
    next => cases h

/-- One step keeps the store consistent. -/
theorem step_consistent {n n' : Node} {e : Event} (h : Consistent b srv.fileOf D n.store)
    (hinj : Set.InjOn srv.fileOf D) (hempty : "" ∉ D)
    (hD : ∀ a r calls, e = .request a r calls → ∀ d, a.domain srv = some d → d ∈ D)
    (hstep : Step b srv n e n') (hkeeps : Keeps b n e) : Consistent b srv.fileOf D n'.store := by
  have hleft : (b = .fs → NoLeftover n.store) → NoLeftover n.store := by
    intro hfs
    cases b with
    | fs => exact hfs rfl
    | s3 => exact h.noLeftover_s3
  cases hstep with
  | @request _ a r calls hexec =>
      have hkept := (action_keeps h hinj _ (hD _ _ _ rfl) n [] rfl).exec hexec
      exact hkept.resolve_left hkeeps
  | refresh =>
      refine Iff.mpr (h.reload_iff hempty ?_ ?_) (hleft hkeeps)
      · rfl
      · rfl
  | restart =>
      refine Iff.mpr (h.reload_iff hempty ?_ ?_) (hleft hkeeps)
      · rfl
      · rfl

theorem Action.domain_ne_empty {a : Action} {d : String} (h : a.domain srv = some d) : d ≠ "" := by
  have hbody : ∀ body : Option String, body.bind srv.normalizeDomain = some d → d ≠ "" := by
    intro body hbody
    obtain ⟨raw, _, hraw⟩ := Option.bind_eq_some_iff.mp hbody
    exact normalizeDomain_ne_empty hraw
  cases a with
  | putSite => cases h
  | deleteSite => cases h
  | addDomain req body => exact hbody body h
  | verifyDomain req body => exact hbody body h
  | deleteDomain req domain => exact normalizeDomain_ne_empty h

/-- A run of such steps keeps the store consistent. -/
theorem runs_consistent {n n' : Node} {es : List Event} (h : Consistent b srv.fileOf D n.store)
    (hinj : Set.InjOn srv.fileOf D) (hempty : "" ∉ D) (hD : askedFor srv es ⊆ D)
    (hrun : Runs (fun n e n' => Step b srv n e n' ∧ Keeps b n e) n es n') :
    Consistent b srv.fileOf D n'.store := by
  have hstep : ∀ n e n', Consistent b srv.fileOf D n.store →
      (∀ a r calls, e = .request a r calls → ∀ d, a.domain srv = some d → d ∈ D) →
        (Step b srv n e n' ∧ Keeps b n e) → Consistent b srv.fileOf D n'.store :=
    fun n e n' h he hs => step_consistent h hinj hempty he hs.1 hs.2
  refine hrun.invariant_of hstep (fun e he a r calls heq d hd => hD ?_) h
  exact ⟨a, r, calls, heq ▸ he, hd⟩

end Runs

/-- The all-zero key. -/
def sampleKey : PubKey := ⟨List.replicate 32 0, Lib.ByteString.length_zeros32⟩

/-- The SHA-256 digest of the domain a.io. -/
def sampleDigest : Digest :=
  ⟨[13, 249, 47, 176, 128, 185, 17, 20, 22, 244, 155, 75, 66, 208, 190, 26, 4, 156, 64, 71, 146,
    176, 151, 58, 205, 70, 215, 181, 171, 164, 35, 255], rfl⟩

/-- A server with the all-zero node key, as it works on the site a and the
domain a.io. -/
def sampleServer : Server where
  cfg :=
    { baseDomain := "", reservedSlugs := ["www"], maxFiles := 10, maxFileBytes := 64
      maxSiteBytes := 640, maxSites := 10, maxDomains := 5, siteQuota := 1000, maxStorage := 10000
      keepDeploys := 10, powBits := 0 }
  codec :=
    { sha256 := fun _ => sampleDigest, mimeOf := fun _ _ => "text/plain"
      parse := fun o _ => .ok o }
  hmac := fun _ =>
    [103, 84, 119, 233, 166, 5, 161, 101, 69, 90, 234, 10, 192, 98, 125, 192, 176, 224, 104, 42,
      224, 4, 175, 127, 93, 48, 60, 194, 139, 208, 37, 231]
  rawURLEncode := fun _ => "Z1R36aYFoWVFWuoKwGJ9wLDgaCrgBK9_XTA8wovQJec"
  toLower := id
  trimSpace := id
  quote := fun s => "\"" ++ s ++ "\""

def sampleReq : Request where
  gate := .ok ()
  authed := fun _ => .ok sampleKey
  slug := "a"

def sampleSite (domains : List DomainEntry) : SiteMeta where
  slug := "a"
  owner := sampleKey
  title := ""
  created := 0
  updated := 0
  current := ""
  deploys := []
  domains := domains

/-- A node whose store holds these sites, domain records and mappings. -/
def sampleNode (sites : Dict String SiteMeta) (files : Dict String DomainRecord)
    (map : Dict String String) : Node where
  store := { disk := ⟨sites, files, ∅, ∅⟩, mem := ⟨∅, 0, map, []⟩ }
  locks := []
  marked := []

/-- The site a with the domain a.io attached. -/
def attached (verified : Bool) : Dict String SiteMeta :=
  (∅ : Dict String SiteMeta).insert "a" (sampleSite [⟨"a.io", verified⟩])

/-- The record of the domain a.io. -/
def recorded : Dict String DomainRecord :=
  (∅ : Dict String DomainRecord).insert (sampleServer.fileOf "a.io") ⟨"a.io", "a"⟩

def routed : Dict String String := (∅ : Dict String String).insert "a.io" "a"

abbrev SampleExec (n : Node) (a : Action) (r : Response) (n' : Node) (calls : List NodeCall) : Prop :=
  Exec (Logged (Serves .fs sampleServer.fileOf)) (n, []) (a.program sampleServer) r (n', calls)

instance (calls : List NodeCall) : Decidable (Torn calls) := inferInstanceAs (Decidable (_ ∧ _))

theorem exec_claim : ∃ r calls, ¬ Torn calls ∧
    SampleExec (sampleNode ∅ ∅ ∅) (.putSite sampleReq (some "") false) r
      (sampleNode ((∅ : Dict String SiteMeta).insert "a" (sampleSite [])) ∅ ∅) calls := by
  refine ⟨_, _, ?_, .logged () (.lock _ _ (by decide)) <| .logged none (.getSite _ _) <|
    .logged (.ok []) (.listSites _ _ (by decide)) <| .logged (0 : ℤ) (.now _ _) <|
    .logged (0 : ℤ) (.now _ _) <| .logged (.ok ()) (.putSite _ _ true) <|
    .logged () (.unlock _ _) <| .refl _ _⟩
  decide

theorem exec_attach : ∃ r calls, ¬ Torn calls ∧
    SampleExec (sampleNode ((∅ : Dict String SiteMeta).insert "a" (sampleSite [])) ∅ ∅)
      (.addDomain sampleReq (some "a.io")) r (sampleNode (attached false) ∅ ∅) calls := by
  refine ⟨_, _, ?_, .logged () (.lock _ _ (by decide)) <|
    .logged (some (sampleSite [])) (.getSite _ _) <|
    .logged (.ok [sampleSite []]) (.listSites _ _ (by decide)) <|
    .logged none (.resolveDomain _ _) <| .logged (0 : ℤ) (.now _ _) <|
    .logged (.ok ()) (.putSite _ _ true) <| .logged () (.unlock _ _) <| .refl _ _⟩
  decide

/-- A verification, with the write of the site record as given. -/
theorem exec_verify (written : Bool) : ∃ r calls, (written = true → ¬ Torn calls) ∧
    SampleExec (sampleNode (attached false) ∅ ∅) (.verifyDomain sampleReq (some "a.io")) r
      (sampleNode (attached written) recorded routed) calls := by
  cases written with
  | true =>
      refine ⟨_, _, fun _ => ?_, .logged () (.lock _ _ (by decide)) <|
        .logged (some (sampleSite [⟨"a.io", false⟩])) (.getSite _ _) <|
        .logged (.ok [sampleServer.verifyToken "a" "a.io"]) (.lookupTXT _ _ _) <|
        .logged (.ok ()) (.setDomain _ _ _ true) <| .logged (0 : ℤ) (.now _ _) <|
        .logged (.ok ()) (.putSite _ _ true) <| .logged () (.unlock _ _) <| .refl _ _⟩
      decide
  | false =>
      exact ⟨_, _, fun h => (Bool.false_ne_true h).elim, .logged () (.lock _ _ (by decide)) <|
        .logged (some (sampleSite [⟨"a.io", false⟩])) (.getSite _ _) <|
        .logged (.ok [sampleServer.verifyToken "a" "a.io"]) (.lookupTXT _ _ _) <|
        .logged (.ok ()) (.setDomain _ _ _ true) <| .logged (0 : ℤ) (.now _ _) <|
        .logged (.error .write) (.putSite _ _ false) <| .logged () (.unlock _ _) <| .refl _ _⟩

theorem exec_delete : ∃ r calls, ¬ Torn calls ∧
    SampleExec (sampleNode (attached true) recorded routed) (.deleteSite sampleReq) r
      (sampleNode ∅ recorded ∅) calls := by
  refine ⟨_, _, ?_, .logged (some (sampleSite [⟨"a.io", true⟩])) (.getSite _ _) <|
    .logged () (.lock _ _ (by decide)) <| .logged () (.deleteSite _ _) <|
    .logged () (.unlock _ _) <| .refl _ _⟩
  decide

/-- The site a is claimed, gets the domain a.io, and the domain is verified. -/
theorem exists_verified (written : Bool) : ∃ es,
    Runs (fun n e n' => Step .fs sampleServer n e n' ∧ (written = true → Keeps .fs n e))
      (Node.start .fs ⟨∅, ∅, ∅, ∅⟩) es (sampleNode (attached written) recorded routed) ∧
    askedFor sampleServer es ⊆ {"a.io"} := by
  obtain ⟨r₁, calls₁, h₁, hexec₁⟩ := exec_claim
  obtain ⟨r₂, calls₂, h₂, hexec₂⟩ := exec_attach
  obtain ⟨r₃, calls₃, h₃, hexec₃⟩ := exec_verify written
  refine ⟨[.request (.putSite sampleReq (some "") false) r₁ calls₁,
    .request (.addDomain sampleReq (some "a.io")) r₂ calls₂,
    .request (.verifyDomain sampleReq (some "a.io")) r₃ calls₃],
    .cons ⟨.request hexec₁, fun _ => h₁⟩ <| .cons ⟨.request hexec₂, fun _ => h₂⟩ <|
      .cons ⟨.request hexec₃, h₃⟩ <| .nil _, ?_⟩
  rintro d ⟨a, r, calls, hmem, hd⟩
  simp only [List.mem_cons, List.not_mem_nil, or_false, Event.request.injEq] at hmem
  rcases hmem with ⟨rfl, _⟩ | ⟨rfl, _⟩ | ⟨rfl, _⟩
  · cases hd
  · exact (Option.some.inj hd).symm
  · exact (Option.some.inj hd).symm

/-- In every run of a node from an empty store, over both backends, whose
requests are not torn and whose reloads find no domain record left over, domain
routing is exactly the verified claims. -/
theorem resolveDomain_iff_verified (b : Backend) (srv : Server) (es : List Event) (n : Node)
    (hinj : Set.InjOn srv.fileOf (askedFor srv es))
    (hrun : Runs (fun n e n' => Step b srv n e n' ∧ Keeps b n e)
      (Node.start b ⟨∅, ∅, ∅, ∅⟩) es n) :
    Routed n.store := by
  have hempty : "" ∉ askedFor srv es := by
    rintro ⟨a, _, _, _, hd⟩
    exact Action.domain_ne_empty hd rfl
  exact (runs_consistent consistent_empty hinj hempty le_rfl hrun).toRouted

theorem noLeftover_verified : NoLeftover (sampleNode (attached true) recorded routed).store := by
  intro file rec hrec
  have hrecord : recorded.lookup file = some rec := hrec
  rw [recorded, lookup_insert_eq] at hrecord
  split at hrecord
  next =>
    cases hrecord
    exact ⟨_, rfl, _, List.mem_singleton_self _, rfl, rfl⟩
  next => simp at hrecord

theorem resolveDomain_iff_verified_restart : ∃ es n,
    Runs (fun n e n' => Step .fs sampleServer n e n' ∧ Keeps .fs n e)
      (Node.start .fs ⟨∅, ∅, ∅, ∅⟩) es n ∧
    n.store.resolveDomain "a.io" = some "a" ∧ Routed n.store := by
  obtain ⟨es, hrun, hasked⟩ := exists_verified true
  have hrestart : Runs (fun n e n' => Step .fs sampleServer n e n' ∧ Keeps .fs n e)
      (Node.start .fs ⟨∅, ∅, ∅, ∅⟩) (es ++ [.restart])
      (Node.start .fs ⟨attached true, recorded, ∅, ∅⟩) :=
    (hrun.mono fun _ _ _ h => ⟨h.1, h.2 rfl⟩).append
      (.single ⟨.restart _, fun _ => noLeftover_verified⟩)
  have hsame : askedFor sampleServer (es ++ [.restart]) ⊆ {"a.io"} := by
    rintro d ⟨a, r, calls, hmem, hd⟩
    have hold : Event.request a r calls ∈ es := by simpa using hmem
    exact hasked ⟨a, r, calls, hold, hd⟩
  refine ⟨_, _, hrestart, rfl, resolveDomain_iff_verified .fs sampleServer _ _ ?_ hrestart⟩
  exact (Set.injOn_singleton _ _).mono hsame

/-- After the deletion of a site with a verified domain a reload routes the domain
to the missing site, and a verification whose write of the site record fails
routes the domain to a site that does not list it as verified. -/
theorem deleteSite_leaves_route :
    (∃ es n, Runs (Step .fs sampleServer) (Node.start .fs ⟨∅, ∅, ∅, ∅⟩) es n ∧
      n.store.resolveDomain "a.io" = some "a" ∧ n.store.getSite "a" = none ∧ ¬ Routed n.store) ∧
    ∃ es n, Runs (Step .fs sampleServer) (Node.start .fs ⟨∅, ∅, ∅, ∅⟩) es n ∧
      n.store.resolveDomain "a.io" = some "a" ∧ ¬ Listed n.store "a.io" "a" ∧
      ¬ Routed n.store := by
  constructor
  · obtain ⟨es, hrun, _⟩ := exists_verified true
    obtain ⟨r, calls, _, hexec⟩ := exec_delete
    have hrefresh : Runs (Step .fs sampleServer) (Node.start .fs ⟨∅, ∅, ∅, ∅⟩)
        (es ++ [.request (.deleteSite sampleReq) r calls, .refresh])
        (sampleNode ∅ recorded routed) :=
      (hrun.mono fun _ _ _ h => h.1).append (.cons (.request hexec) (.single (.refresh _)))
    refine ⟨_, _, hrefresh, rfl, rfl, fun h => ?_⟩
    obtain ⟨m, hm, _⟩ := (h.resolves "a.io" "a").mp rfl
    cases hm
  · obtain ⟨es, hrun, _⟩ := exists_verified false
    have hnot : ¬ Listed (sampleNode (attached false) recorded routed).store "a.io" "a" := by
      rintro ⟨m, hm, e, he, _, hverified⟩
      cases hm
      rw [List.mem_singleton.mp he] at hverified
      cases hverified
    exact ⟨_, _, hrun.mono fun _ _ _ h => h.1, rfl, hnot, fun h => hnot ((h.resolves _ _).mp rfl)⟩

end Tactile.Publish.Routing

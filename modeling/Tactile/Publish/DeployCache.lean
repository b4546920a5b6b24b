import Tactile.Publish.SiteLocks

/-!
The cache of current deploys on a node: public reads that fill it and the requests
that drop entries from it, in any order.
-/

namespace Tactile.Publish.DeployCache

open Tactile.Lib.Program Tactile.Lib.FiniteMap Tactile.Lib.Transition Tactile.Lib.Threads
open Tactile.Publish.Bundle Tactile.Publish.Records Tactile.Publish.NodeOps
open Tactile.Publish.Handlers Tactile.Publish.SiteThreads Tactile.Publish.SiteLocks
open Tactile.Publish.Quota (Own helloNode helloSite helloDeploy)
open Tactile.Publish.Routing (sampleReq sampleServer)
open Tactile.Publish.Sweep (getSite_putSite putSite_answers putSite_cases)
open Tactile.Publish.Retention (serves_quiet)

section Model

/-- A site's record and the manifest of its current deploy. -/
structure CachedDeploy where
  site : SiteMeta
  deploy : Deploy

/-- A node with its `mcache`. -/
structure CachedNode where
  node : Node
  mcache : Dict String CachedDeploy

/-- The operations of the node, and the locked accesses to the cache: a lookup, a
fill, and the drop of an entry. -/
inductive CacheOp
  | node (o : NodeOp)
  | cached (slug : String)
  | fill (slug : String) (entry : CachedDeploy)
  | invalidate (slug : String)

abbrev CacheAns : CacheOp → Type
  | .node o => NodeAns o
  | .cached _ => Option CachedDeploy
  | .fill .. | .invalidate _ => Unit

/-- An entry may have expired whenever it is looked up. -/
inductive CacheServes (b : Backend) (fileOf : String → String) :
    Answers CacheOp CacheAns CachedNode
  | node {x : CachedNode} {o : NodeOp} {ans : NodeAns o} {n' : Node} :
      Serves b fileOf x.node o ans n' →
      CacheServes b fileOf x (.node o) ans { x with node := n' }
  | hit {x : CachedNode} {slug : String} {entry : CachedDeploy} :
      x.mcache.lookup slug = some entry → CacheServes b fileOf x (.cached slug) (some entry) x
  | miss {x : CachedNode} {slug : String} : CacheServes b fileOf x (.cached slug) none x
  | fill {x : CachedNode} {slug : String} {entry : CachedDeploy} :
      CacheServes b fileOf x (.fill slug entry) ()
        { x with mcache := x.mcache.insert slug entry }
  | invalidate {x : CachedNode} {slug : String} :
      CacheServes b fileOf x (.invalidate slug) () { x with mcache := x.mcache.erase slug }

/-- What a lookup of a site's current deploy finds. -/
inductive Found
  | noSite
  | noDeploys (site : SiteMeta)
  | failed (site : SiteMeta)
  | live (site : SiteMeta) (deploy : Deploy)

/-- What a request has returned. -/
inductive Result
  | answered (r : Response)
  | found (f : Found)

abbrev CacheM : Type → Type := Prog CacheOp CacheAns

def cacheOp (o : CacheOp) : CacheM (CacheAns o) := Prog.op o

/-- The current deploy of a site, from the cache or else from the store. -/
def currentDeploy (slug : String) : CacheM Result := do
  let hit : Option CachedDeploy ← cacheOp (.cached slug)
  match hit with
  | some c => pure (.found (.live c.site c.deploy))
  | none => do
    let site : Option SiteMeta ← cacheOp (.node (.getSite slug))
    match site with
    | none => pure (.found .noSite)
    | some m =>
      if m.current = "" then pure (.found (.noDeploys m))
      else do
        let dep : Option Deploy ← cacheOp (.node (.getDeploy slug m.current))
        match dep with
        | none => pure (.found (.failed m))
        | some d => do
          cacheOp (.fill slug ⟨m, d⟩)
          pure (.found (.live m d))

/-- Whether a record has been written or removed. -/
def commits : (o : NodeOp) → NodeAns o → Bool
  | .putSite _, .ok () => true
  | .deleteSite _, _ => true
  | _, _ => false

def lockedSlug (slug : String) : NodeOp → String
  | .lock slug' => slug'
  | _ => slug

/-- A handler with its accesses to the cache: when it has written or removed the
record of its site, it drops the site's entry, with the lock still held. -/
def invalidating (slug : String) : NodeM Response → CacheM Result
  | .ret r => .ret (.answered r)
  | .call o next => .call (.node o) fun ans =>
    if commits o ans then
      .call (.invalidate (lockedSlug slug o)) fun _ =>
        invalidating (lockedSlug slug o) (next ans)
    else invalidating (lockedSlug slug o) (next ans)

/-- The requests that drop entries: deploys, rollbacks and deletions. -/
def invalidates : SiteCall → Bool
  | .deploy _ | .rollback _ | .deleteSite => true
  | _ => false

/-- What is recorded of a request: the slug that it reads, or its work on a site. -/
inductive CacheTrack
  | read (slug : String)
  | write (t : Track)

def observeCache : CacheTrack → (o : CacheOp) → CacheAns o → CacheTrack
  | .write t, .node o, ans => .write (observe t o ans)
  | t, _, _ => t

/-- Reads and the requests that drop entries may start at any time. -/
inductive StartCached (srv : Server) : CachedNode → CacheTrack → CacheM Result → Prop
  | read {x : CachedNode} (slug : String) :
      StartCached srv x (.read slug) (currentDeploy slug)
  | write {x : CachedNode} (req : Request) (call : SiteCall) :
      invalidates call = true →
      StartCached srv x (.write (.start srv req call))
        (invalidating req.slug (call.program srv req))

abbrev CachePool : Type := Pool CacheOp CacheAns Result CacheTrack CachedNode

abbrev CacheEvent : Type := Event CacheOp CacheAns CacheTrack

abbrev CacheStep (b : Backend) (srv : Server) : CachePool → CacheEvent → CachePool → Prop :=
  Step (CacheServes b srv.fileOf) observeCache (StartCached srv)

/-- A node before its first request, with an empty cache. -/
def opened (n : Node) : CachePool := ⟨⟨n, ∅⟩, ∅⟩

end Model

section Pending

/-- What a site's record says is current; `none` is no site. -/
def currentOf (n : Node) (slug : String) : Option String :=
  (n.store.getSite slug).map SiteMeta.current

/-- A request has written or removed the site's record and is about to drop its
entry. -/
def Pending (x : CachePool) (slug : String) (n : ℕ) : Prop :=
  ∃ next t, x.threads.lookup n = some ⟨.call (.invalidate slug) next, t⟩

/-- The deploy is the current one, or the request that has changed it has still to
drop the entry. -/
def Timely (x : CachePool) (slug : String) (entry : CachedDeploy) : Prop :=
  currentOf x.shared.node slug = some entry.site.current ∨ ∃ n, Pending x slug n

/-- The site whose record a step writes or removes, with what it makes current. -/
def commitOf : CacheEvent → Option (String × Option String)
  | .op _ (.node (.putSite m)) (.ok ()) => some (m.slug, some m.current)
  | .op _ (.node (.deleteSite slug)) _ => some (slug, none)
  | _ => none

/-- A fill is timely. -/
def FillsTimely (x : CachePool) : CacheEvent → Prop
  | .op _ (.fill slug entry) _ => Timely x slug entry
  | _ => True

/-- The read uses the deploy that has been made current, or finds no site where the
site has been deleted. -/
def Uses (made : Option String) : Found → Prop
  | .noSite => made = none
  | .noDeploys m => made = some m.current
  | .failed m => made = some m.current
  | .live m d => made = some m.current ∧ d.id = m.current

/-- Once a write has returned, every read of its site that starts later uses what it
has made current, until the next write. -/
def ReadsCurrent (step : CachePool → CacheEvent → CachePool → Prop) (x₀ : CachePool) : Prop :=
  ∀ (pre mid post : List CacheEvent) (write : CacheEvent) (x y : CachePool) (slug : String)
    (made : Option String) (reader : ℕ) (r : Result) (t : CacheTrack),
    Runs step x₀ (pre ++ write :: mid) x → commitOf write = some (slug, made) →
    (∃ r' t', x.threads.lookup write.thread = some ⟨.ret r', t'⟩) →
    Runs step x (.start reader (.read slug) :: post) y →
    (∀ e ∈ mid ++ post, ∀ made', commitOf e ≠ some (slug, made')) →
    y.threads.lookup reader = some ⟨.ret r, t⟩ → ∃ f, r = .found f ∧ Uses made f

abbrev TimelyStep (b : Backend) (srv : Server) : CachePool → CacheEvent → CachePool → Prop :=
  fun x e y => CacheStep b srv x e y ∧ FillsTimely x e

end Pending

section Linking

variable {b : Backend} {srv : Server}

/-- Every manifest is stored under its id. -/
def Named (s : Store) : Prop := ∀ slug id d, s.getDeploy slug id = some d → d.id = id

/-- The manifests of a node whose file has been removed are some of those before. -/
theorem getDeploy_deleteSite {fileOf : String → String} {s : Store} {slug slug' id : String}
    {d : Deploy} (h : (s.deleteSite b fileOf slug).getDeploy slug' id = some d) :
    s.getDeploy slug' id = some d := by
  cases b with
  | fs =>
      change (select s.disk.deploys fun k _ => k.1 ≠ slug).lookup (slug', id) = some d at h
      rw [lookup_select, Option.filter_eq_some_iff] at h
      exact h.1
  | s3 =>
      change (Store.S3.deleteSite fileOf slug s).disk.deploys.lookup (slug', id) = some d at h
      rw [Store.S3.deleteSite] at h
      cases hsite : s.getSite slug with
      | none =>
          rw [hsite] at h
          exact h
      | some m =>
          rw [hsite] at h
          change (m.deploys.foldl (fun d id => d.erase (slug, id)) s.disk.deploys).lookup
            (slug', id) = some d at h
          have hfold : ∀ (ids : List String) (deploys : Dict (String × String) Deploy),
              (ids.foldl (fun d id => d.erase (slug, id)) deploys).lookup (slug', id) = some d →
                deploys.lookup (slug', id) = some d := by
            intro ids
            induction ids with
            | nil => exact fun _ h => h
            | cons id' ids ih =>
                intro deploys h
                have hrest := ih _ h
                rw [lookup_erase_eq] at hrest
                split at hrest
                next => cases hrest
                next => exact hrest
          exact hfold m.deploys s.disk.deploys h

theorem served_named {fileOf : String → String} {n n' : Node} {o : NodeOp} {ans : NodeAns o}
    (hnamed : Named n.store) (hserves : Serves b fileOf n o ans n') : Named n'.store := by
  have hquiet : n'.store.disk.deploys = n.store.disk.deploys → Named n'.store := by
    intro hsame slug id d hd
    rw [Store.getDeploy, hsame] at hd
    exact hnamed slug id d hd
  cases hserves with
  | putSite _ m written =>
      apply hquiet
      rcases putSite_cases (b := b) n.store m written with hsame | ⟨-, hput⟩
      · rw [hsame]
      · rw [hput, Store.putSite]
        split
        · rfl
        · rfl
  | deleteSite _ slug => exact fun slug' id d hd => hnamed slug' id d (getDeploy_deleteSite hd)
  | putDeploy _ d written =>
      cases written with
      | false => exact hnamed
      | true =>
          intro slug id d' hd
          change (n.store.disk.deploys.insert (d.slug, d.id) d).lookup (slug, id) = some d' at hd
          rw [lookup_insert_eq] at hd
          split at hd
          next heq =>
            cases hd
            exact (congrArg Prod.snd heq).symm
          next => exact hnamed slug id d' hd
  | deleteDeploy _ slug id deleted =>
      cases deleted with
      | false => exact hnamed
      | true =>
          intro slug' id' d hd
          change (n.store.disk.deploys.erase (slug, id)).lookup (slug', id') = some d at hd
          rw [lookup_erase_eq] at hd
          split at hd
          next => cases hd
          next => exact hnamed slug' id' d hd
  | setDomain _ domain slug written =>
      have hserves : Serves b fileOf n (.setDomain domain slug) _ _ :=
        .setDomain n domain slug written
      exact hquiet (serves_quiet (o := .setDomain domain slug) trivial hserves).2
  | putObject _ hash data written =>
      have hserves : Serves b fileOf n (.putObject hash data) _ _ := .putObject n hash data written
      exact hquiet (serves_quiet (o := .putObject hash data) trivial hserves).2
  | _ => exact hquiet rfl

/-- What a read may be answered. -/
def ReadWorld : Answers CacheOp CacheAns Unit
  | _, .node (.getDeploy _ id), found, _ => ∀ d, found = some d → d.id = id
  | _, .cached _, hit, _ => ∀ e, hit = some e → e.deploy.id = e.site.current
  | _, _, _, _ => True

/-- The operations of a read. -/
def ReadGuard (slug : String) : Unit → CacheOp → Prop
  | _, .node (.getSite slug') => slug' = slug
  | _, .node (.getDeploy slug' _) => slug' = slug
  | _, .cached slug' => slug' = slug
  | _, .fill slug' entry => slug' = slug ∧ entry.deploy.id = entry.site.current
  | _, _ => False

theorem currentDeploy_reads (slug : String) :
    Holds ReadWorld (ReadGuard slug) (fun _ _ => True) (currentDeploy slug) () := by
  refine ⟨rfl, fun hit _ _ => ?_⟩
  cases hit with
  | some c => exact trivial
  | none =>
      refine ⟨rfl, fun site _ _ => ?_⟩
      cases site with
      | none => exact trivial
      | some m =>
          change Holds _ _ _ (if m.current = "" then _ else _) _
          split
          · exact trivial
          · refine ⟨rfl, fun dep _ hdep => ?_⟩
            cases dep with
            | none => exact trivial
            | some d => exact ⟨⟨rfl, hdep d rfl⟩, fun _ _ _ => trivial⟩

/-- The requests of a node with its cache, beside the same requests without it. -/
structure Linked (b : Backend) (srv : Server) (x : CachePool) (y : SitePool) : Prop where
  node : y.shared = x.shared.node
  free : ∀ n, x.threads.lookup n = none → y.threads.lookup n = none
  writes : ∀ n left t, x.threads.lookup n = some ⟨left, .write t⟩ →
    ∃ p held, y.threads.lookup n = some ⟨p, t⟩ ∧ (∀ slug, t.locked = some slug → held = slug) ∧
      (left = invalidating held p ∨
        (t.locked = some held ∧ left = .call (.invalidate held) fun _ => invalidating held p))
  reads : ∀ n left slug, x.threads.lookup n = some ⟨left, .read slug⟩ →
    Holds ReadWorld (ReadGuard slug) (fun _ _ => True) left ()
  entries : ∀ slug entry, x.shared.mcache.lookup slug = some entry →
    entry.deploy.id = entry.site.current
  named : Named x.shared.node.store
  locked : Locked y
  guarded : Guarantees observe (Guard srv) (fun _ _ => True) y

theorem Linked.start_read {x : CachePool} {y : SitePool} (h : Linked b srv x y) (n : ℕ)
    (slug : String) :
    Linked b srv { x with threads := x.threads.insert n ⟨currentDeploy slug, .read slug⟩ } y := by
  refine ⟨h.node, fun m hm => ?_, fun m left t hm => ?_, fun m left slug' hm => ?_, h.entries,
    h.named, h.locked, h.guarded⟩
  · rw [lookup_insert_eq] at hm
    split at hm
    next => cases hm
    next => exact h.free m hm
  · rw [lookup_insert_eq] at hm
    split at hm
    next => cases hm
    next => exact h.writes m left t hm
  · rw [lookup_insert_eq] at hm
    split at hm
    next =>
      cases hm
      exact currentDeploy_reads slug
    next => exact h.reads m left slug' hm

theorem Linked.start_write {x : CachePool} {y : SitePool} (h : Linked b srv x y) {n : ℕ}
    (hfree : x.threads.lookup n = none) (req : Request) (call : SiteCall) :
    let left := invalidating req.slug (call.program srv req)
    let t := Track.start srv req call
    Linked b srv { x with threads := x.threads.insert n ⟨left, .write t⟩ }
      { y with threads := y.threads.insert n ⟨call.program srv req, t⟩ } := by
  intro left t
  have hstart : StartSite srv y.shared (.start srv req call) (call.program srv req) :=
    ⟨req, call, rfl, rfl⟩
  refine ⟨h.node, fun m hm => ?_, fun m left t hm => ?_, fun m left slug' hm => ?_, h.entries,
    h.named, h.locked.start hstart, ?_⟩
  · change (y.threads.insert n _).lookup m = none
    rw [lookup_insert_eq] at hm ⊢
    split at hm
    next => cases hm
    next hne =>
      rw [if_neg hne]
      exact h.free m hm
  · change ∃ p held, (y.threads.insert n _).lookup m = some ⟨p, t⟩ ∧ _
    rw [lookup_insert_eq] at hm ⊢
    split at hm
    next heq =>
      cases hm
      rw [if_pos heq]
      exact ⟨_, _, rfl, (fun _ hl => nomatch hl), .inl rfl⟩
    next hne =>
      rw [if_neg hne]
      exact h.writes m left t hm
  · rw [lookup_insert_eq] at hm
    split at hm
    next => cases hm
    next => exact h.reads m left slug' hm
  · have hstep : SiteStep b srv y (.start n t) _ := .start (h.free n hfree) hstart
    exact h.guarded.step startSite_guarded hstep

/-- A read leaves the records alone; its fill is of a manifest under its id. -/
theorem Linked.op_read {x : CachePool} {y : SitePool} (h : Linked b srv x y) {n : ℕ}
    {slug : String} {o : CacheOp} {next : CacheAns o → CacheM Result} {ans : CacheAns o}
    {s' : CachedNode} (hthread : x.threads.lookup n = some ⟨.call o next, .read slug⟩)
    (hserves : CacheServes b srv.fileOf x.shared o ans s') :
    s'.node = x.shared.node ∧
      Linked b srv { shared := s', threads := x.threads.insert n ⟨next ans, .read slug⟩ } y := by
  obtain ⟨hguard, hnext⟩ := h.reads n _ slug hthread
  have hlink : s'.node = x.shared.node → ReadWorld () o ans () →
      (∀ slug entry, s'.mcache.lookup slug = some entry → entry.deploy.id = entry.site.current) →
      s'.node = x.shared.node ∧ Linked b srv
        { shared := s', threads := x.threads.insert n ⟨next ans, .read slug⟩ } y := by
    intro hnode hworld hentries
    refine ⟨hnode, h.node.trans hnode.symm, fun m hm => ?_, fun m left t hm => ?_,
      fun m left slug' hm => ?_, hentries, ?_, h.locked, h.guarded⟩
    · rw [lookup_insert_eq] at hm
      split at hm
      next => cases hm
      next => exact h.free m hm
    · rw [lookup_insert_eq] at hm
      split at hm
      next => cases hm
      next => exact h.writes m left t hm
    · rw [lookup_insert_eq] at hm
      split at hm
      next =>
        cases hm
        exact hnext ans () hworld
      next => exact h.reads m left slug' hm
    · change Named s'.node.store
      rw [hnode]
      exact h.named
  cases hserves with
  | @node _ o _ n' hserves =>
      cases hserves with
      | getSite => exact hlink rfl trivial h.entries
      | getDeploy _ slug' id =>
          exact hlink rfl (fun d hd => h.named slug' id d hd) h.entries
      | _ => exact hguard.elim
  | hit hcached =>
      refine hlink rfl (fun e he => ?_) h.entries
      cases he
      exact h.entries _ _ hcached
  | miss => exact hlink rfl (fun _ he => nomatch he) h.entries
  | @fill _ slug' entry =>
      refine hlink rfl trivial fun s e hs => ?_
      rw [lookup_insert_eq] at hs
      split at hs
      next =>
        cases hs
        exact hguard.2
      next => exact h.entries s e hs
  | invalidate => exact hguard.elim

theorem pending_insert {x : CachePool} {n : ℕ} {s' : CachedNode} {left : CacheM Result}
    {t : CacheTrack} {slug : String} :
    Pending { shared := s', threads := x.threads.insert n ⟨left, t⟩ } slug n ↔
      ∃ next, left = .call (.invalidate slug) next := by
  constructor
  · rintro ⟨next, t', hlookup⟩
    have hthread := (AList.lookup_insert (a := n) x.threads).symm.trans hlookup
    cases hthread
    exact ⟨next, rfl⟩
  · rintro ⟨next, rfl⟩
    exact ⟨next, t, AList.lookup_insert _⟩

theorem pending_insert_ne {x : CachePool} {n m : ℕ} (hne : m ≠ n) {s' : CachedNode}
    {th : Thread CacheOp CacheAns Result CacheTrack} {slug : String} :
    Pending { shared := s', threads := x.threads.insert n th } slug m ↔ Pending x slug m := by
  simp only [Pending, lookup_insert_eq, if_neg hne]

theorem invalidating_ne_invalidate {held slug : String} {p : NodeM Response}
    {next : CacheAns (.invalidate slug) → CacheM Result} :
    invalidating held p ≠ .call (.invalidate slug) next := by
  intro h
  cases p with
  | ret _ => cases h
  | call o next' => cases h

/-- The operations that commit, with the site that is locked then. -/
theorem commits_iff {n : ℕ} {o : NodeOp} {ans : NodeAns o} :
    commits o ans = true ↔ ∃ slug made, commitOf (.op n (.node o) ans) = some (slug, made) := by
  cases o with
  | putSite m =>
      cases ans with
      | error e => simp [commits, commitOf]
      | ok => simp [commits, commitOf]
  | deleteSite slug => simp [commits, commitOf]
  | _ => simp [commits, commitOf]

/-- A commit is of the site that its request has locked. -/
theorem commitOf_locked {y : SitePool} (hlocked : Locked y) {n : ℕ} {p : NodeM Response}
    {t : Track} (hthread : y.threads.lookup n = some ⟨p, t⟩) {o : NodeOp} {ans : NodeAns o}
    (hguard : Guard srv t o) {slug : String} {made : Option String}
    (hcommit : commitOf (.op n (.node o) ans) = some (slug, made)) :
    t.locked = some slug ∧ (observe t o ans).locked = some slug ∧
      ∀ held, lockedSlug held o = held := by
  cases o with
  | putSite m =>
      cases ans with
      | error e => cases hcommit
      | ok =>
          cases hcommit
          have ht := (hlocked.threads n _ hthread).locked_put hlocked.own hguard
          exact ⟨ht, ht, fun _ => rfl⟩
  | deleteSite slug' =>
      cases hcommit
      exact ⟨hguard.1, hguard.1, fun _ => rfl⟩
  | _ => cases hcommit

theorem lockedSlug_eq {t : Track} {o : NodeOp} {ans : NodeAns o} {held slug : String}
    (hheld : ∀ slug, t.locked = some slug → held = slug)
    (hlocked : (observe t o ans).locked = some slug) : lockedSlug held o = slug := by
  rcases observe_locked hlocked with hold | rfl
  · cases o with
    | lock slug' => exact Option.some.inj hlocked
    | _ => exact hheld slug hold
  · rfl

/-- What a request that drops entries has left after an operation of its handler: the
drop of the site's entry when it has committed, and the rest of the handler. -/
theorem invalidating_next {y : SitePool} (hlocked : Locked y) {n : ℕ} {t : Track} {o : NodeOp}
    {next : NodeAns o → NodeM Response} (ans : NodeAns o) {held : String}
    (hthread : y.threads.lookup n = some ⟨.call o next, t⟩) (hguard : Guard srv t o)
    (hheld : ∀ slug, t.locked = some slug → held = slug) {left : CacheM Result}
    (hleft : left = if commits o ans then
      .call (.invalidate (lockedSlug held o)) fun _ => invalidating (lockedSlug held o) (next ans)
      else invalidating (lockedSlug held o) (next ans)) :
    (left = invalidating (lockedSlug held o) (next ans) ∧ commitOf (.op n (.node o) ans) = none) ∨
      ∃ made, (observe t o ans).locked = some held ∧
        left = .call (.invalidate held) (fun _ => invalidating held (next ans)) ∧
        commitOf (.op n (.node o) ans) = some (held, made) := by
  rw [hleft]
  split
  next hcommits =>
    obtain ⟨slug, made, hcommit⟩ := (commits_iff (n := n)).mp hcommits
    obtain ⟨ht, hobs, hsame⟩ := commitOf_locked hlocked hthread hguard hcommit
    cases hheld slug ht
    rw [hsame]
    exact .inr ⟨made, hobs, rfl, hcommit⟩
  next hcommits =>
    refine .inl ⟨rfl, ?_⟩
    cases hcommit : commitOf (.op n (.node o) ans) with
    | none => rfl
    | some made => exact absurd (commits_iff.mpr ⟨made.1, made.2, hcommit⟩) hcommits

/-- A request that drops entries takes its steps beside the request without the cache;
once it has committed it is about to drop the entry. -/
theorem Linked.op_write {x : CachePool} {y : SitePool} (h : Linked b srv x y) {n : ℕ}
    {t : Track} {o : CacheOp} {next : CacheAns o → CacheM Result} {ans : CacheAns o}
    {s' : CachedNode} (hthread : x.threads.lookup n = some ⟨.call o next, .write t⟩)
    (hserves : CacheServes b srv.fileOf x.shared o ans s') :
    (∃ y', Linked b srv
      { shared := s',
        threads := x.threads.insert n ⟨next ans, observeCache (.write t) o ans⟩ } y') ∧
      ∀ slug, (∃ next', next ans = .call (.invalidate slug) next') ↔
        ∃ made, commitOf (.op n o ans) = some (slug, made) := by
  obtain ⟨p, held, hp, hheld, heq | ⟨hlocked, heq⟩⟩ := h.writes n _ t hthread
  · cases p with
    | ret _ => cases heq
    | call o₀ next₀ =>
        rw [invalidating] at heq
        cases heq
        cases hserves with
        | @node _ _ _ n' hserves =>
            have hguard : Guard srv t o₀ := (h.guarded n _ hp).1
            have hnode : Serves b srv.fileOf y.shared o₀ ans n' := by
              rw [h.node]
              exact hserves
            have hsite : SiteStep b srv y (.op n o₀ ans) _ := .op hp hnode
            have hleft := invalidating_next h.locked ans hp hguard hheld rfl
            refine ⟨⟨_, rfl, fun m hm => ?_, fun m left t' hm => ?_, fun m left slug' hm => ?_,
              h.entries, served_named h.named hserves, h.locked.op hp hguard hnode,
              h.guarded.step startSite_guarded hsite⟩, fun slug => ?_⟩
            · change (y.threads.insert n _).lookup m = none
              rw [lookup_insert_eq] at hm ⊢
              split at hm
              next => cases hm
              next hne =>
                rw [if_neg hne]
                exact h.free m hm
            · change ∃ p held, (y.threads.insert n _).lookup m = some ⟨p, t'⟩ ∧ _
              rw [lookup_insert_eq] at hm ⊢
              split at hm
              next heq =>
                rw [if_pos heq]
                cases hm
                rcases hleft with ⟨hsame, -⟩ | ⟨made, hobs, hsame, -⟩
                · exact ⟨_, _, rfl, fun slug hl => lockedSlug_eq hheld hl, .inl hsame⟩
                · refine ⟨_, held, rfl, fun slug hl => ?_, .inr ⟨hobs, hsame⟩⟩
                  exact Option.some.inj (hobs.symm.trans hl)
              next hne =>
                rw [if_neg hne]
                exact h.writes m left t' hm
            · rw [lookup_insert_eq] at hm
              split at hm
              next => cases hm
              next => exact h.reads m left slug' hm
            · rcases hleft with ⟨hsame, hnone⟩ | ⟨made, -, hsame, hcommit⟩
              · rw [hnone]
                refine ⟨fun ⟨next', hcall⟩ => ?_, fun ⟨_, hc⟩ => nomatch hc⟩
                exact absurd (hsame.symm.trans hcall) invalidating_ne_invalidate
              · rw [hcommit]
                constructor
                · rintro ⟨next', hcall⟩
                  cases hsame.symm.trans hcall
                  exact ⟨made, rfl⟩
                · rintro ⟨made', heq⟩
                  cases heq
                  exact ⟨_, hsame⟩
  · cases heq
    cases hserves with
    | invalidate =>
        refine ⟨⟨y, h.node, fun m hm => ?_, fun m left t' hm => ?_, fun m left slug' hm => ?_,
          fun s e he => ?_, h.named, h.locked, h.guarded⟩, fun slug => ?_⟩
        · rw [lookup_insert_eq] at hm
          split at hm
          next => cases hm
          next => exact h.free m hm
        · rw [lookup_insert_eq] at hm
          split at hm
          next heq =>
            cases heq
            cases hm
            exact ⟨p, held, hp, hheld, .inl rfl⟩
          next => exact h.writes m left t' hm
        · rw [lookup_insert_eq] at hm
          split at hm
          next => cases hm
          next => exact h.reads m left slug' hm
        · rw [lookup_erase_eq] at he
          split at he
          next => cases he
          next => exact h.entries s e he
        · refine ⟨fun ⟨next', hcall⟩ => absurd hcall invalidating_ne_invalidate, ?_⟩
          rintro ⟨made, hcommit⟩
          cases hcommit

theorem Linked.op {x : CachePool} {y : SitePool} (h : Linked b srv x y) {n : ℕ} {t : CacheTrack}
    {o : CacheOp} {next : CacheAns o → CacheM Result} {ans : CacheAns o} {s' : CachedNode}
    (hthread : x.threads.lookup n = some ⟨.call o next, t⟩)
    (hserves : CacheServes b srv.fileOf x.shared o ans s') :
    (∃ y', Linked b srv
      { shared := s', threads := x.threads.insert n ⟨next ans, observeCache t o ans⟩ } y') ∧
      ∀ slug, (∃ next', next ans = .call (.invalidate slug) next') ↔
        ∃ made, commitOf (.op n o ans) = some (slug, made) := by
  cases t with
  | write t => exact h.op_write hthread hserves
  | read slug =>
      have hlinked := (h.op_read hthread hserves).2
      refine ⟨⟨y, hlinked⟩, fun slug' => ⟨?_, ?_⟩⟩
      · rintro ⟨next', hnext⟩
        have hreads := hlinked.reads n (next ans) slug (AList.lookup_insert _)
        rw [hnext] at hreads
        exact hreads.1.elim
      · rintro ⟨made, hcommit⟩
        have hguard := (h.reads n _ slug hthread).1
        cases o with
        | node o =>
            cases o with
            | putSite | deleteSite => exact hguard.elim
            | _ => cases hcommit
        | _ => cases hcommit

end Linking

section Steps

variable {b : Backend} {srv : Server}

/-- What one step does to the sites' current deploys, to the drops that are due and to
the entries. -/
structure Advances (x : CachePool) (e : CacheEvent) (x' : CachePool) : Prop where
  kept : ∀ slug, (∀ made, commitOf e ≠ some (slug, made)) →
    currentOf x'.shared.node slug = currentOf x.shared.node slug
  made : ∀ slug made, commitOf e = some (slug, made) →
    currentOf x'.shared.node slug = made ∧ Pending x' slug e.thread
  pending : ∀ slug n, Pending x' slug n →
    Pending x slug n ∨ (n = e.thread ∧ ∃ made, commitOf e = some (slug, made))
  due : ∀ slug n, Pending x slug n → Pending x' slug n ∨ e = .op n (.invalidate slug) ()
  dropped : ∀ slug n, e = .op n (.invalidate slug) () → x'.shared.mcache.lookup slug = none
  entries : ∀ slug entry, x'.shared.mcache.lookup slug = some entry →
    (∃ n, e = .op n (.fill slug entry) ()) ∨ x.shared.mcache.lookup slug = some entry

/-- A commit makes its deploy the site's current one. -/
theorem served_commit {n n' : Node} {o : NodeOp} {ans : NodeAns o}
    (hserves : Serves b srv.fileOf n o ans n') {i : ℕ} {slug : String} {made : Option String}
    (hcommit : commitOf (.op i (.node o) ans) = some (slug, made)) :
    currentOf n' slug = made ∧ ∀ slug', slug' ≠ slug → currentOf n' slug' = currentOf n slug' := by
  cases hserves with
  | putSite _ m written =>
      rcases putSite_answers b n.store m written with ⟨e, hfail⟩ | ⟨hslug, hput⟩
      · rw [hfail] at hcommit
        cases hcommit
      · rw [hput] at hcommit ⊢
        cases hcommit
        refine ⟨?_, fun slug' hne => ?_⟩
        · rw [currentOf, getSite_putSite hslug, if_pos rfl]
          rfl
        · rw [currentOf, getSite_putSite hslug, if_neg hne, currentOf]
  | deleteSite _ slug' =>
      cases hcommit
      refine ⟨?_, fun slug' hne => ?_⟩
      · rw [currentOf, getSite_deleteSite, if_pos rfl]
        rfl
      · rw [currentOf, getSite_deleteSite, if_neg hne, currentOf]
  | _ => cases hcommit

theorem served_current {c c' : CachedNode} {o : CacheOp} {ans : CacheAns o} {n : ℕ}
    (hserves : CacheServes b srv.fileOf c o ans c') {slug : String}
    (hnone : ∀ made, commitOf (.op n o ans) ≠ some (slug, made)) :
    currentOf c'.node slug = currentOf c.node slug := by
  cases hserves with
  | @node _ o ans n' hserves =>
      rcases served_records hserves with hsites | ⟨m, hcall, -, -⟩ | ⟨slug', rfl, -⟩
      · rw [currentOf, Store.getSite, hsites, currentOf, Store.getSite]
      · cases hcall
        refine (served_commit hserves (i := n) rfl).2 slug ?_
        rintro rfl
        exact hnone _ rfl
      · refine (served_commit hserves (i := n) rfl).2 slug ?_
        rintro rfl
        exact hnone _ rfl
  | _ => rfl

theorem advances_start {x : CachePool} {n : ℕ} {t : CacheTrack} {p : CacheM Result}
    (hfree : x.threads.lookup n = none) (hstart : StartCached srv x.shared t p) :
    Advances x (.start n t) { x with threads := x.threads.insert n ⟨p, t⟩ } := by
  have hnew : ∀ slug next, p ≠ .call (.invalidate slug) next := by
    cases hstart with
    | read => exact fun _ _ h => nomatch h
    | write => exact fun _ _ => invalidating_ne_invalidate
  refine ⟨fun _ _ => rfl, fun _ _ h => (nomatch h), fun slug m hm => ?_, fun slug m hm => ?_,
    fun _ _ h => (nomatch h), fun _ _ h => .inr h⟩
  · rcases Decidable.em (m = n) with rfl | hne
    · obtain ⟨next, hnext⟩ := pending_insert.mp hm
      exact absurd hnext (hnew slug next)
    · exact .inl ((pending_insert_ne hne).mp hm)
  · refine .inl ((pending_insert_ne ?_).mpr hm)
    rintro rfl
    obtain ⟨next, t', hlookup⟩ := hm
    rw [hfree] at hlookup
    cases hlookup

theorem Linked.advances_op {x : CachePool} {y : SitePool} (h : Linked b srv x y) {n : ℕ}
    {t : CacheTrack} {o : CacheOp} {next : CacheAns o → CacheM Result} {ans : CacheAns o}
    {s' : CachedNode} (hthread : x.threads.lookup n = some ⟨.call o next, t⟩)
    (hserves : CacheServes b srv.fileOf x.shared o ans s') :
    Advances x (.op n o ans)
      { shared := s', threads := x.threads.insert n ⟨next ans, observeCache t o ans⟩ } := by
  have hnext := (h.op hthread hserves).2
  refine ⟨fun slug hnone => served_current hserves hnone, fun slug made hcommit => ⟨?_, ?_⟩,
    fun slug m hm => ?_, fun slug m hm => ?_, fun slug m heq => ?_, fun slug entry hentry => ?_⟩
  · cases hserves with
    | node hserves => exact (served_commit hserves hcommit).1
    | _ => cases hcommit
  · exact pending_insert.mpr ((hnext slug).mpr ⟨made, hcommit⟩)
  · rcases Decidable.em (m = n) with rfl | hne
    · exact .inr ⟨rfl, (hnext slug).mp (pending_insert.mp hm)⟩
    · exact .inl ((pending_insert_ne hne).mp hm)
  · rcases Decidable.em (m = n) with rfl | hne
    · obtain ⟨next', t', hlookup⟩ := hm
      cases hthread.symm.trans hlookup
      exact .inr rfl
    · exact .inl ((pending_insert_ne hne).mpr hm)
  · cases heq
    cases hserves with
    | invalidate => exact (lookup_erase_eq ..).trans (if_pos rfl)
  · cases hserves with
    | @fill _ slug' entry' =>
        change (x.shared.mcache.insert slug' entry').lookup slug = some entry at hentry
        rw [lookup_insert_eq] at hentry
        split at hentry
        next heq =>
          cases heq
          cases hentry
          exact .inl ⟨n, rfl⟩
        next => exact .inr hentry
    | invalidate =>
        change (x.shared.mcache.erase _).lookup slug = some entry at hentry
        rw [lookup_erase_eq] at hentry
        split at hentry
        next => cases hentry
        next => exact .inr hentry
    | _ => exact .inr hentry

/-- A step keeps the link, and advances the node. -/
theorem Linked.step {x x' : CachePool} {y : SitePool} {e : CacheEvent} (h : Linked b srv x y)
    (hstep : CacheStep b srv x e x') : Advances x e x' ∧ ∃ y', Linked b srv x' y' := by
  cases hstep with
  | start hfree hstart =>
      refine ⟨advances_start hfree hstart, ?_⟩
      cases hstart with
      | read slug => exact ⟨y, h.start_read _ slug⟩
      | write req call => exact ⟨_, h.start_write hfree req call⟩
  | op hthread hserves => exact ⟨h.advances_op hthread hserves, (h.op hthread hserves).1⟩

/-- Every entry is timely. -/
def Fresh (x : CachePool) : Prop :=
  ∀ slug entry, x.shared.mcache.lookup slug = some entry → Timely x slug entry

theorem Advances.timely {x x' : CachePool} {e : CacheEvent} (h : Advances x e x') {slug : String}
    {entry : CachedDeploy} (hlookup : x'.shared.mcache.lookup slug = some entry)
    (htimely : Timely x slug entry) : Timely x' slug entry := by
  rcases Classical.em (∃ made, commitOf e = some (slug, made)) with ⟨made, hcommit⟩ | hnone
  · exact .inr ⟨_, (h.made slug made hcommit).2⟩
  · rcases htimely with hcurrent | ⟨n, hpending⟩
    · exact .inl ((h.kept slug fun made hc => hnone ⟨made, hc⟩).trans hcurrent)
    · rcases h.due slug n hpending with hstill | heq
      · exact .inr ⟨n, hstill⟩
      · rw [h.dropped slug n heq] at hlookup
        cases hlookup

theorem Advances.fresh {x x' : CachePool} {e : CacheEvent} (h : Advances x e x')
    (hfills : FillsTimely x e) (hfresh : Fresh x) : Fresh x' := by
  intro slug entry hlookup
  rcases h.entries slug entry hlookup with ⟨n, rfl⟩ | hold
  · exact h.timely hlookup hfills
  · exact h.timely hlookup (hfresh slug entry hold)

end Steps

section Reads

variable {b : Backend} {srv : Server} {slug : String} {made : Option String} {w : ℕ}

theorem Linked.pending {x : CachePool} {y : SitePool} (h : Linked b srv x y) {n : ℕ}
    (hpending : Pending x slug n) :
    ∃ p t, y.threads.lookup n = some ⟨p, t⟩ ∧ t.locked = some slug := by
  obtain ⟨next, t, hlookup⟩ := hpending
  cases t with
  | read slug' => exact (h.reads n _ slug' hlookup).1.elim
  | write t =>
      obtain ⟨p, held, hp, -, heq | ⟨hlocked, heq⟩⟩ := h.writes n _ t hlookup
      · exact absurd heq.symm invalidating_ne_invalidate
      · cases heq
        exact ⟨p, t, hp, hlocked⟩

/-- The site's current deploy is as the write `w` has made it, and no other write is
about to drop the entry. -/
structure Made (slug : String) (made : Option String) (w : ℕ) (x : CachePool) : Prop where
  current : currentOf x.shared.node slug = made
  alone : ∀ n, Pending x slug n → n = w

/-- The node between its steps. -/
def Sound (b : Backend) (srv : Server) (x : CachePool) : Prop :=
  Fresh x ∧ ∃ y, Linked b srv x y

theorem sound_opened {n : Node} (hown : Own n.store) (hnamed : Named n.store) :
    Sound b srv (opened n) := by
  refine ⟨fun _ _ h => by simp [opened] at h, ⟨n, ∅⟩, rfl, fun _ _ => rfl,
    fun _ _ _ h => by simp [opened] at h, fun _ _ _ h => by simp [opened] at h,
    fun _ _ h => by simp [opened] at h, hnamed, locked_empty hown, guarantees_empty n⟩

theorem Sound.step {x x' : CachePool} {e : CacheEvent} (h : Sound b srv x)
    (hstep : TimelyStep b srv x e x') : Sound b srv x' := by
  obtain ⟨hfresh, y, hlinked⟩ := h
  obtain ⟨hadvances, hlinked'⟩ := hlinked.step hstep.1
  exact ⟨hadvances.fresh hstep.2 hfresh, hlinked'⟩

theorem Made.commit {x x' : CachePool} {e : CacheEvent} (h : Sound b srv x)
    (hstep : TimelyStep b srv x e x') (hcommit : commitOf e = some (slug, made)) :
    Made slug made e.thread x' := by
  obtain ⟨_, y, hlinked⟩ := h
  obtain ⟨hadvances, y', hlinked'⟩ := hlinked.step hstep.1
  obtain ⟨hcurrent, hpending⟩ := hadvances.made slug made hcommit
  refine ⟨hcurrent, fun n hn => ?_⟩
  obtain ⟨p, t, hp, ht⟩ := hlinked'.pending hn
  obtain ⟨q, t', hq, ht'⟩ := hlinked'.pending hpending
  exact hlinked'.locked.alone n _ _ _ slug hp hq ht ht'

theorem Made.step {x x' : CachePool} {e : CacheEvent} (h : Made slug made w x)
    (hsound : Sound b srv x) (hstep : TimelyStep b srv x e x')
    (hnone : ∀ made', commitOf e ≠ some (slug, made')) : Made slug made w x' := by
  obtain ⟨_, y, hlinked⟩ := hsound
  have hadvances := (hlinked.step hstep.1).1
  refine ⟨(hadvances.kept slug hnone).trans h.current, fun n hn => ?_⟩
  rcases hadvances.pending slug n hn with hold | ⟨-, made', hcommit⟩
  · exact h.alone n hold
  · exact absurd hcommit (hnone made')

/-- What a read may be answered while the site's current deploy is the one made. -/
def CurrentWorld (made : Option String) : Answers CacheOp CacheAns Unit
  | _, .node (.getSite _), found, _ => found.map SiteMeta.current = made
  | _, .node (.getDeploy _ id), found, _ => ∀ d, found = some d → d.id = id
  | _, .cached _, hit, _ =>
    ∀ e, hit = some e → made = some e.site.current ∧ e.deploy.id = e.site.current
  | _, _, _, _ => True

abbrev Reads (made : Option String) (left : CacheM Result) : Prop :=
  Holds (CurrentWorld made) (fun _ _ => True) (fun r _ => ∃ f, r = .found f ∧ Uses made f) left ()

theorem currentDeploy_uses (slug : String) : Reads made (currentDeploy slug) := by
  refine ⟨trivial, fun hit _ hhit => ?_⟩
  cases hit with
  | some c => exact ⟨_, rfl, hhit c rfl⟩
  | none =>
      refine ⟨trivial, fun site _ hsite => ?_⟩
      cases site with
      | none => exact ⟨_, rfl, hsite.symm⟩
      | some m =>
          change Holds _ _ _ (if m.current = "" then _ else _) _
          split
          · exact ⟨_, rfl, hsite.symm⟩
          · refine ⟨trivial, fun dep _ hdep => ?_⟩
            cases dep with
            | none => exact ⟨_, rfl, hsite.symm⟩
            | some d => exact ⟨trivial, fun _ _ _ => ⟨_, rfl, hsite.symm, hdep d rfl⟩⟩

/-- The write has returned and the read is going on. -/
structure Reading (b : Backend) (srv : Server) (slug : String) (made : Option String) (w n : ℕ)
    (x : CachePool) : Prop where
  sound : Sound b srv x
  current : Made slug made w x
  returned : ∃ r t, x.threads.lookup w = some ⟨.ret r, t⟩
  reads : ∃ left, x.threads.lookup n = some ⟨left, .read slug⟩ ∧ Reads made left

/-- Once the write has returned, an entry of its site is of the deploy it has made
current. -/
theorem Reading.entry {n : ℕ} {x : CachePool} (h : Reading b srv slug made w n x)
    {entry : CachedDeploy} (hentry : x.shared.mcache.lookup slug = some entry) :
    made = some entry.site.current := by
  rcases h.sound.1 slug entry hentry with hcurrent | ⟨m, hpending⟩
  · exact h.current.current.symm.trans hcurrent
  · cases h.current.alone m hpending
    obtain ⟨r, t, hreturned⟩ := h.returned
    obtain ⟨next, t', hlookup⟩ := hpending
    cases hreturned.symm.trans hlookup

theorem Reading.answer {n : ℕ} {x : CachePool} (h : Reading b srv slug made w n x) {o : CacheOp}
    {ans : CacheAns o} {c : CachedNode} (hguard : ReadGuard slug () o)
    (hserves : CacheServes b srv.fileOf x.shared o ans c) : CurrentWorld made () o ans () := by
  obtain ⟨_, y, hlinked⟩ := h.sound
  cases hserves with
  | node hserves =>
      cases hserves with
      | getSite _ slug' =>
          cases hguard
          exact h.current.current
      | getDeploy _ slug' id => exact fun d hd => hlinked.named slug' id d hd
      | _ => trivial
  | hit hcached =>
      cases hguard
      intro e he
      cases he
      exact ⟨h.entry hcached, hlinked.entries _ _ hcached⟩
  | miss => exact fun _ he => nomatch he
  | _ => trivial

theorem Reading.step {n : ℕ} {x x' : CachePool} {e : CacheEvent}
    (h : Reading b srv slug made w n x) (hnone : ∀ made', commitOf e ≠ some (slug, made'))
    (hstep : TimelyStep b srv x e x') : Reading b srv slug made w n x' := by
  obtain ⟨r, t, hreturned⟩ := h.returned
  obtain ⟨left, hleft, hreads⟩ := h.reads
  refine ⟨h.sound.step hstep, h.current.step h.sound hstep hnone,
    ⟨r, t, hstep.1.returned hreturned⟩, ?_⟩
  obtain ⟨hstep, -⟩ := hstep
  cases hstep with
  | @start m _ _ hfree hstart =>
      refine ⟨left, ?_, hreads⟩
      rw [lookup_insert_eq, if_neg]
      · exact hleft
      · rintro rfl
        rw [hfree] at hleft
        cases hleft
  | @op m t o next ans s' hthread hserves =>
      rcases Decidable.em (n = m) with rfl | hne
      · cases hthread.symm.trans hleft
        obtain ⟨_, y, hlinked⟩ := h.sound
        have hguard := (hlinked.reads n _ slug hleft).1
        exact ⟨_, AList.lookup_insert _, hreads.2 ans () (h.answer hguard hserves)⟩
      · refine ⟨left, ?_, hreads⟩
        rw [lookup_insert_eq, if_neg hne]
        exact hleft

/-- In every run whose fills are timely, the reads that start after a write has
returned use what it has made current, until the next write. -/
theorem cached_reads_current (b : Backend) (srv : Server) (n : Node) (hown : Own n.store)
    (hnamed : Named n.store) : ReadsCurrent (TimelyStep b srv) (opened n) := by
  intro pre mid post write x y slug made reader r t hbefore hcommit hreturned hafter hnone hread
  obtain ⟨x₁, x₂, hpre, hwrite, hmid⟩ := hbefore.split
  have hsound : Sound b srv x₁ :=
    hpre.invariant (fun _ _ _ h hstep => h.step hstep) (sound_opened hown hnamed)
  have hmade : Sound b srv x ∧ Made slug made write.thread x := by
    have hstep : ∀ x e x', (Sound b srv x ∧ Made slug made write.thread x) →
        (∀ made', commitOf e ≠ some (slug, made')) → TimelyStep b srv x e x' →
        Sound b srv x' ∧ Made slug made write.thread x' :=
      fun x e x' h hC hstep => ⟨h.1.step hstep, h.2.step h.1 hstep hC⟩
    refine hmid.invariant_of hstep (fun e he => hnone e (List.mem_append_left _ he)) ?_
    exact ⟨hsound.step hwrite, .commit hsound hwrite hcommit⟩
  cases hafter with
  | @cons _ x₃ _ _ _ hstart hpost =>
      have hreading : Reading b srv slug made write.thread reader x₃ := by
        obtain ⟨r', t', hret⟩ := hreturned
        refine ⟨hmade.1.step hstart, hmade.2.step hmade.1 hstart fun _ h => (nomatch h),
          ⟨r', t', hstart.1.returned hret⟩, ?_⟩
        obtain ⟨hstart, -⟩ := hstart
        cases hstart with
        | start _ hprogram =>
            cases hprogram
            exact ⟨_, AList.lookup_insert _, currentDeploy_uses slug⟩
      have hdone := hpost.invariant_of (C := fun e => ∀ made', commitOf e ≠ some (slug, made'))
        (fun _ _ _ h hC hstep => h.step hC hstep)
        (fun e he => hnone e (List.mem_append_right _ he)) hreading
      obtain ⟨left, hleft, hreads⟩ := hdone.reads
      cases hleft.symm.trans hread
      exact hreads

end Reads

theorem own_helloNode : Own helloNode.store := by
  intro slug m hm
  have hin : (slug, m) ∈ pairs helloNode.store.disk.sites := mem_pairs.mpr hm
  cases List.mem_singleton.mp hin
  rfl

theorem named_helloNode : Named helloNode.store := by
  intro slug id d hd
  have hin : ((slug, id), d) ∈ pairs helloNode.store.disk.deploys := mem_pairs.mpr hd
  cases List.mem_singleton.mp hin
  rfl

/-- The start of a deletion of the site a. -/
def startDeletion (n : ℕ) : CacheEvent :=
  .start n (.write (.start sampleServer sampleReq .deleteSite))

theorem start_deletion {c : CachedNode} :
    StartCached sampleServer c (.write (.start sampleServer sampleReq .deleteSite))
      (invalidating "a" (SiteCall.program sampleServer sampleReq .deleteSite)) :=
  .write sampleReq .deleteSite rfl

def deletionEvents (n : ℕ) : List CacheEvent :=
  [.op n (.node (.getSite "a")) (some helloSite), .op n (.node (.lock "a")) ()]

def deletion (n : ℕ) : CacheEvent := .op n (.node (.deleteSite "a")) ()

/-- A read that starts after a deletion finds no site. -/
theorem cached_reads_current_hello : ∃ x y r t,
    Runs (TimelyStep .fs sampleServer) (opened helloNode)
      ((startDeletion 1 :: deletionEvents 1) ++ deletion 1 ::
        [.op 1 (.invalidate "a") (), .op 1 (.node (.unlock "a")) ()]) x ∧
    Runs (TimelyStep .fs sampleServer) x (.start 2 (.read "a") ::
      [.op 2 (.cached "a") none, .op 2 (.node (.getSite "a")) none]) y ∧
    y.threads.lookup 2 = some ⟨.ret r, t⟩ ∧ ∃ f, r = .found f ∧ Uses none f := by
  have hrun : ∃ x y r t r' t', Runs (TimelyStep .fs sampleServer) (opened helloNode)
      ((startDeletion 1 :: deletionEvents 1) ++ deletion 1 ::
        [.op 1 (.invalidate "a") (), .op 1 (.node (.unlock "a")) ()]) x ∧
      Runs (TimelyStep .fs sampleServer) x (.start 2 (.read "a") ::
        [.op 2 (.cached "a") none, .op 2 (.node (.getSite "a")) none]) y ∧
      x.threads.lookup 1 = some ⟨.ret r', t'⟩ ∧ y.threads.lookup 2 = some ⟨.ret r, t⟩ :=
    ⟨_, _, _, _, _, _, .cons ⟨.start rfl start_deletion, trivial⟩ <|
      .cons ⟨.op rfl (.node (.getSite _ _)), trivial⟩ <|
      .cons ⟨.op rfl (.node (.lock _ _ (by decide))), trivial⟩ <|
      .cons ⟨.op rfl (.node (.deleteSite _ _)), trivial⟩ <|
      .cons ⟨.op rfl .invalidate, trivial⟩ <|
      .cons ⟨.op rfl (.node (.unlock _ _)), trivial⟩ <| .nil _,
      .cons ⟨.start rfl (.read _), trivial⟩ <| .cons ⟨.op rfl .miss, trivial⟩ <|
      .cons ⟨.op rfl (.node (.getSite _ _)), trivial⟩ <| .nil _, rfl, rfl⟩
  obtain ⟨x, y, r, t, r', t', hbefore, hafter, hreturned, hread⟩ := hrun
  refine ⟨x, y, r, t, hbefore, hafter, hread, ?_⟩
  refine cached_reads_current .fs sampleServer helloNode own_helloNode named_helloNode _ _ _ _ x y
    "a" none 2 r t hbefore rfl ⟨r', t', hreturned⟩ hafter ?_ hread
  simp [commitOf]

/-- A read takes the site's deploy from the store, the site is deleted, and the read
then fills the cache: the next read finds the deploy of the deleted site. -/
theorem deleted_site_served :
    ¬ ∀ (b : Backend) (srv : Server) (n : Node), Own n.store → Named n.store →
      ReadsCurrent (CacheStep b srv) (opened n) := by
  intro h
  have hrun : ∃ x y r' t' t, Runs (CacheStep .fs sampleServer) (opened helloNode)
      ([.start 1 (.read "a"), .op 1 (.cached "a") none,
        .op 1 (.node (.getSite "a")) (some helloSite),
        .op 1 (.node (.getDeploy "a" helloDeploy.id)) (some helloDeploy), startDeletion 2] ++
        deletionEvents 2 ++ deletion 2 :: [.op 2 (.invalidate "a") (),
        .op 2 (.node (.unlock "a")) (), .op 1 (.fill "a" ⟨helloSite, helloDeploy⟩) ()]) x ∧
      Runs (CacheStep .fs sampleServer) x
        (.start 3 (.read "a") :: [.op 3 (.cached "a") (some ⟨helloSite, helloDeploy⟩)]) y ∧
      x.threads.lookup 2 = some ⟨.ret r', t'⟩ ∧
      y.threads.lookup 3 = some ⟨.ret (.found (.live helloSite helloDeploy)), t⟩ :=
    ⟨_, _, _, _, _, .cons (.start rfl (.read _)) <| .cons (.op rfl .miss) <|
      .cons (.op rfl (.node (.getSite _ _))) <| .cons (.op rfl (.node (.getDeploy _ _ _))) <|
      .cons (.start rfl start_deletion) <| .cons (.op rfl (.node (.getSite _ _))) <|
      .cons (.op rfl (.node (.lock _ _ (by decide)))) <|
      .cons (.op rfl (.node (.deleteSite _ _))) <| .cons (.op rfl .invalidate) <|
      .cons (.op rfl (.node (.unlock _ _))) <| .cons (.op rfl .fill) <| .nil _,
      .cons (.start rfl (.read _)) <| .cons (.op rfl (.hit rfl)) <| .nil _, rfl, rfl⟩
  obtain ⟨x, y, r', t', t, hbefore, hafter, hreturned, hread⟩ := hrun
  obtain ⟨f, hfound, huses⟩ := h .fs sampleServer helloNode own_helloNode named_helloNode _ _ _ _
    x y "a" none 3 _ t hbefore rfl ⟨r', t', hreturned⟩ hafter (by simp [commitOf]) hread
  cases hfound
  exact nomatch huses.1

end Tactile.Publish.DeployCache

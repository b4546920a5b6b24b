import Tactile.Lib.Threads
import Tactile.Publish.Deploys

/-!
What a deploy and a sweep do on their own, whatever the node answers: what they
have observed when they call an operation that changes the store.
-/

namespace Tactile.Publish.DeployThreads

open Tactile.Lib.Program Tactile.Lib.FiniteMap Tactile.Lib.ByteString Tactile.Lib.Threads
open Tactile.Publish.Bundle Tactile.Publish.Records Tactile.Publish.NodeOps
open Tactile.Publish.Handlers Tactile.Publish.Deploys

/-- What a thread has observed: the objects it has stored with their sizes, its
last listing of the sites with the manifests read since and the hashes they
list, and under the lock it holds the site's record and the manifest it has
written. -/
structure Track where
  put : List (Digest × ℤ)
  listed : Option (List SiteMeta)
  read : List (String × String)
  refs : List Digest
  locked : Option String
  site : Option SiteMeta
  manifest : Option (String × String)

def Track.start : Track := ⟨[], none, [], [], none, none, none⟩

def observe (t : Track) : (o : NodeOp) → NodeAns o → Track
  | .lock slug, _ => { t with locked := some slug, site := none, manifest := none }
  | .unlock _, _ => { t with locked := none }
  | .getSite slug, found => if t.locked = some slug then { t with site := found } else t
  | .listSites, .ok sites => { t with listed := some sites, read := [], refs := [] }
  | .getDeploy slug id, found =>
      { t with
        read := (slug, id) :: t.read
        refs := (found.elim [] Deploy.hashes) ++ t.refs }
  | .putObject h data, .ok () => { t with put := (h, data.length) :: t.put }
  | .putDeploy d, .ok () => { t with manifest := some (d.slug, d.id) }
  | .putSite _, _ => { t with site := none }
  | _, _ => t

/-- What a thread has observed before each of its operations: it writes a
manifest only of objects it has stored, and a site record only with the deploys
of the record it has read under the lock and the manifest it has written; it
deletes an object only when it has read every manifest of its listing and none
lists the object. -/
def Guard (t : Track) : NodeOp → Prop
  | .unlock slug => t.locked = some slug
  | .putDeploy d => t.locked = some d.slug ∧
      ∀ f ∈ d.files, ∃ h, f.hashBytes = some h ∧ (h, f.size) ∈ t.put
  | .putSite m => ∃ slug m₀, t.locked = some slug ∧ t.site = some m₀ ∧ m.slug = m₀.slug ∧
      ∀ id ∈ m.deploys, id ∈ m₀.deploys ∨ t.manifest = some (slug, id)
  | .deleteObject h =>
      (∃ sites, t.listed = some sites ∧ ∀ m ∈ sites, ∀ id ∈ m.deploys, (m.slug, id) ∈ t.read) ∧
        h ∉ t.refs
  | .lookupTXT _ | .deleteSite _ | .resolveDomain _ | .setDomain .. | .deleteDomain _ => False
  | .lock _ | .now | .random | .getSite _ | .listSites | .getDeploy .. | .deleteDeploy ..
  | .putObject .. | .listObjects | .totalBytes | .marked | .setMarked _ => True

/-- Everything but the listing is as it was. -/
structure Track.SameWrites (t t' : Track) : Prop where
  put : t'.put = t.put
  locked : t'.locked = t.locked
  site : t'.site = t.site
  manifest : t'.manifest = t.manifest

theorem Track.SameWrites.trans {t t' t'' : Track} (h : t.SameWrites t') (h' : t'.SameWrites t'') :
    t.SameWrites t'' :=
  ⟨h'.put.trans h.put, h'.locked.trans h.locked, h'.site.trans h.site,
    h'.manifest.trans h.manifest⟩

abbrev Guarded {α : Type} (Q : α → Track → Prop) (p : NodeM α) (t : Track) : Prop :=
  Holds (Observes observe) Guard Q p t

/-- A call that the guard admits. -/
theorem guarded_node {α : Type} {o : NodeOp} {next : NodeAns o → NodeM α} {Q : α → Track → Prop}
    {t : Track} (hguard : Guard t o) (hnext : ∀ ans, Guarded Q (next ans) (observe t o ans)) :
    Guarded Q (node o >>= next) t :=
  ⟨hguard, fun ans _ ht => ht ▸ hnext ans⟩

theorem guarded_bind {α β : Type} {p : NodeM β} {f : β → NodeM α} {Q' : β → Track → Prop}
    {Q : α → Track → Prop} {t : Track} (hp : Guarded Q' p t)
    (hf : ∀ a t', Q' a t' → Guarded Q (f a) t') : Guarded Q (p >>= f) t :=
  (holds_bind p f t).mpr (hp.imp hf)

section Usage

theorem countDeploy_guarded (slug : String) (acc : Counted) (id : String) (t : Track) :
    Guarded (fun _ t' => t.SameWrites t') (countDeploy slug acc id) t := by
  refine guarded_node trivial fun d => ?_
  cases d with
  | none => exact ⟨rfl, rfl, rfl, rfl⟩
  | some d => exact ⟨rfl, rfl, rfl, rfl⟩

theorem foldlM_guarded {β ι : Type} {f : β → ι → NodeM β}
    (hf : ∀ acc i t, Guarded (fun _ t' => t.SameWrites t') (f acc i) t) (xs : List ι) (acc : β)
    (t : Track) : Guarded (fun _ t' => t.SameWrites t') (xs.foldlM f acc) t := by
  refine holds_foldlM f (fun _ _ t' => t.SameWrites t') xs acc t ⟨rfl, rfl, rfl, rfl⟩ ?_
  intro pre i post _ acc t' ht'
  exact (hf acc i t').imp fun _ t'' ht'' => ht'.trans ht''

theorem identityUsage_guarded (owner : PubKey) (t : Track) :
    Guarded (fun _ t' => t.SameWrites t') (identityUsage owner) t := by
  have hsite : ∀ acc m t, Guarded (fun _ t' => t.SameWrites t') (countSite owner acc m) t := by
    intro acc m t
    rw [countSite]
    split
    next => exact ⟨rfl, rfl, rfl, rfl⟩
    next => exact foldlM_guarded (countDeploy_guarded m.slug) _ _ t
  refine guarded_node trivial fun listed => ?_
  cases listed with
  | error e => exact ⟨rfl, rfl, rfl, rfl⟩
  | ok sites =>
      refine guarded_bind (foldlM_guarded hsite sites _ _) fun _ t' ht' => ?_
      exact ⟨ht'.put, ht'.locked, ht'.site, ht'.manifest⟩

end Usage

section Upload

variable (codec : Codec) (lim : Limits)

/-- The files extracted so far have been stored, and nothing has been locked. -/
structure Stored (t : Track) (files : List File) : Prop where
  put : ∀ f ∈ files, (f.hash, f.size) ∈ t.put
  unlocked : t.locked = none

theorem putFile_guarded (f : File) (data : Bytes) (t : Track) :
    Guarded (fun sunk t' => t'.locked = t.locked ∧ (∀ x ∈ t.put, x ∈ t'.put) ∧
      (sunk = .ok () → (f.hash, (data.length : ℤ)) ∈ t'.put)) (putFile f data) t := by
  refine guarded_node trivial fun put => ?_
  cases put with
  | error e => exact ⟨rfl, fun _ hx => hx, fun h => by cases h⟩
  | ok => exact ⟨rfl, fun _ hx => List.mem_cons_of_mem _ hx, fun _ => List.mem_cons_self⟩

theorem extractEntry_guarded (acc : Extracted) (e : TarEntry) {t : Track}
    (h : Stored t acc.files) :
    Guarded (fun out t' => t'.locked = none ∧ ∀ acc', out = .ok acc' → Stored t' acc'.files)
      (extractEntry codec lim putFile acc e) t := by
  have hfail : ∀ err : BundleErr, Guarded
      (fun out t' => t'.locked = none ∧ ∀ acc', out = .ok acc' → Stored t' acc'.files)
      (pure (.error err) : NodeM (Except BundleErr Extracted)) t :=
    fun err => ⟨h.unlocked, fun _ heq => by cases heq⟩
  rw [extractEntry]
  split
  next => exact ⟨h.unlocked, fun acc' heq => by cases heq; exact h⟩
  next => exact hfail _
  next =>
    split
    next => exact hfail _
    next p _ =>
      split
      next => exact hfail _
      next =>
        split
        next => exact hfail _
        next =>
          split
          next => exact hfail _
          next content _ =>
            dsimp only
            split
            next => exact hfail _
            next =>
              split
              next => exact hfail _
              next =>
                split
                next => exact ⟨h.unlocked, fun acc' heq => by cases heq; exact h⟩
                next =>
                  split
                  next => exact hfail _
                  next =>
                    refine guarded_bind (putFile_guarded _ _ t) fun sunk t' ht' => ?_
                    obtain ⟨hlocked, hsub, hnew⟩ := ht'
                    cases sunk with
                    | error cause => exact ⟨hlocked.trans h.unlocked, fun _ heq => by cases heq⟩
                    | ok =>
                        refine ⟨hlocked.trans h.unlocked, fun acc' heq => ?_⟩
                        cases heq
                        refine ⟨fun f hf => ?_, hlocked.trans h.unlocked⟩
                        rcases List.mem_append.mp hf with hold | hlast
                        · exact hsub _ (h.put f hold)
                        · rw [List.mem_singleton.mp hlast]
                          exact hnew rfl

theorem extractEntries_guarded (es : List TarEntry) (acc : Extracted) {t : Track}
    (h : Stored t acc.files) :
    Guarded (fun out t' => t'.locked = none ∧ ∀ acc', out = .ok acc' → Stored t' acc'.files)
      (extractEntries codec lim putFile es acc) t := by
  induction es generalizing acc t with
  | nil => exact ⟨h.unlocked, fun acc' heq => by cases heq; exact h⟩
  | cons e es ih =>
      refine guarded_bind (extractEntry_guarded codec lim acc e h) fun out t' ht' => ?_
      cases out with
      | error err => exact ⟨ht'.1, fun _ heq => by cases heq⟩
      | ok acc' => exact ih acc' (ht'.2 acc' rfl)

theorem extract_guarded (stream : TarStream) {t : Track} (h : t.locked = none) :
    Guarded (fun out t' => t'.locked = none ∧ ∀ files opts, out = .ok (files, opts) →
      Stored t' files) (extract codec lim putFile stream) t := by
  cases stream with
  | unreadable => exact ⟨h, fun _ _ heq => by cases heq⟩
  | entries es broken =>
      have hstart : Stored t Extracted.none.files := ⟨(fun _ hf => nomatch hf), h⟩
      refine guarded_bind (extractEntries_guarded codec lim es .none hstart) fun out t' ht' => ?_
      cases out with
      | error err => exact ⟨ht'.1, fun _ _ heq => by cases heq⟩
      | ok acc =>
          have hstored := ht'.2 acc rfl
          cases broken with
          | some cause => exact ⟨ht'.1, fun _ _ heq => by cases heq⟩
          | none =>
              refine ⟨ht'.1, fun files opts heq => ?_⟩
              have hfiles : files = acc.files := by
                rw [finish] at heq
                split at heq
                next => cases heq; rfl
                next =>
                  split at heq
                  next => cases heq
                  next => cases heq; rfl
              exact hfiles ▸ hstored

end Upload

section Commit

theorem prune_guarded (slug : String) (keep : ℤ) (ids : List String) (t : Track) :
    Guarded (fun kept t' => t' = t ∧ ∀ deploys, kept = some deploys → deploys ⊆ ids)
      (prune slug keep ids) t := by
  induction ids generalizing t with
  | nil =>
      rw [prune]
      split
      next => exact ⟨rfl, fun _ heq => by cases heq⟩
      next => exact ⟨rfl, fun _ heq => by cases heq; exact List.Subset.refl _⟩
  | cons old rest ih =>
      rw [prune]
      split
      next =>
        refine guarded_node trivial fun _ => (ih t).imp fun kept t' ht' => ?_
        exact ⟨ht'.1, fun deploys heq =>
          List.Subset.trans (ht'.2 deploys heq) (List.subset_cons_self _ _)⟩
      next => exact ⟨rfl, fun _ heq => by cases heq; exact List.Subset.refl _⟩

theorem newDeploy_files {slug : String} {idTime created : ℤ} {r4 : ByteArr 4} {files : List File}
    {opts : Options} {t : Track} (h : ∀ f ∈ files, (f.hash, f.size) ∈ t.put) :
    ∀ f ∈ (newDeploy slug idTime created r4 files opts).files,
      ∃ hash, f.hashBytes = some hash ∧ (hash, f.size) ∈ t.put := by
  intro f hf
  obtain ⟨file, hfile, rfl⟩ := List.mem_map.mp hf
  exact ⟨file.hash, hashBytes_hexEncode .., h file hfile⟩

theorem commitDeploy_guarded (srv : Server) (slug : String) (pub : PubKey) (files : List File)
    (dep : Deploy) {t : Track} (hlocked : t.locked = some slug) (hslug : dep.slug = slug)
    (hfiles : ∀ f ∈ dep.files, ∃ hash, f.hashBytes = some hash ∧ (hash, f.size) ∈ t.put) :
    Guarded (fun _ t' => t'.locked = some slug) (commitDeploy srv slug pub files dep) t := by
  refine guarded_node trivial fun found => ?_
  have hsite : observe t (.getSite slug) found = { t with site := found } := if_pos hlocked
  rw [hsite]
  cases found with
  | none => exact hlocked
  | some m =>
      dsimp only
      split
      next => exact hlocked
      next =>
        refine guarded_bind (identityUsage_guarded pub _) fun usage t₁ ht₁ => ?_
        have hlocked₁ : t₁.locked = some slug := ht₁.locked.trans hlocked
        cases usage with
        | error e => exact hlocked₁
        | ok usage =>
          refine guarded_node trivial fun existing => ?_
          split
          next => exact hlocked₁
          next =>
            refine guarded_node trivial fun total => ?_
            split
            next => exact hlocked₁
            next =>
              have hput : Guard t₁ (.putDeploy dep) := by
                refine ⟨by rw [hlocked₁, hslug], fun f hf => ?_⟩
                rw [ht₁.put]
                exact hfiles f hf
              refine guarded_node hput fun put => ?_
              cases put with
              | error e => exact hlocked₁
              | ok =>
                  refine guarded_node trivial fun updated => ?_
                  refine guarded_bind (prune_guarded slug _ _ _) fun kept t₂ ht₂ => ?_
                  obtain ⟨rfl, hkept⟩ := ht₂
                  cases kept with
                  | none => exact hlocked₁
                  | some deploys =>
                      have hsub := hkept deploys rfl
                      refine guarded_node ⟨slug, m, hlocked₁, ht₁.site, rfl, fun id hid => ?_⟩
                        fun put => ?_
                      · rcases List.mem_append.mp (hsub hid) with hold | hnew
                        · exact .inl hold
                        · refine .inr ?_
                          rw [List.mem_singleton.mp hnew, ← hslug]
                          rfl
                      · cases put with
                        | error e => exact hlocked₁
                        | ok => exact hlocked₁

/-- A deploy keeps to the guard. -/
theorem handleDeploy_guarded (srv : Server) (req : Request) (stream : TarStream) :
    Guarded (fun _ _ => True) (handleDeploy srv req stream) .start := by
  rw [handleDeploy]
  split
  next => trivial
  next =>
    split
    next => trivial
    next pub _ =>
      refine guarded_node trivial fun found => ?_
      have hstart : observe .start (.getSite req.slug) found = .start := by
        simp [observe, Track.start]
      rw [hstart]
      cases found with
      | none => trivial
      | some m =>
          dsimp only
          split
          next => trivial
          next =>
            refine guarded_node trivial fun total => ?_
            split
            next => trivial
            next =>
              refine guarded_bind (extract_guarded srv.codec _ stream rfl) fun out t ht => ?_
              cases out with
              | error e => trivial
              | ok extracted =>
                  obtain ⟨files, opts⟩ := extracted
                  have hstored := ht.2 files opts rfl
                  refine guarded_node trivial fun r4 => guarded_node trivial fun idTime =>
                    guarded_node trivial fun created => guarded_node trivial fun _ => ?_
                  refine guarded_bind (commitDeploy_guarded srv req.slug pub files _ ?_ ?_ ?_)
                    fun r t' ht' => guarded_node ht' fun _ => trivial
                  · rfl
                  · rfl
                  · exact newDeploy_files hstored.put

end Commit

section Sweep

/-- The manifests that a listing of the sites names. -/
def keysOf (sites : List SiteMeta) : List (String × String) :=
  sites.flatMap fun m => m.deploys.map fun id => (m.slug, id)

theorem mem_keysOf {sites : List SiteMeta} {k : String × String} :
    k ∈ keysOf sites ↔ ∃ m ∈ sites, ∃ id ∈ m.deploys, k = (m.slug, id) := by
  simp [keysOf, eq_comm]

/-- The references collected so far are those observed, and these manifests have
been read. -/
structure Collected (sites : List SiteMeta) (done : List (String × String)) (refs : List Digest)
    (t : Track) : Prop where
  listed : t.listed = some sites
  read : done ⊆ t.read
  refs : t.refs = refs

theorem refsOfDeploy_guarded {sites : List SiteMeta} {done : List (String × String)}
    {refs : List Digest} {t : Track} (h : Collected sites done refs t) (slug id : String) :
    Guarded (fun refs' t' => Collected sites (done ++ [(slug, id)]) refs' t')
      (refsOfDeploy slug refs id) t := by
  refine guarded_node trivial fun d => ?_
  have hread : done ++ [(slug, id)] ⊆ (slug, id) :: t.read := by
    intro k hk
    rcases List.mem_append.mp hk with hold | hnew
    · exact List.mem_cons_of_mem _ (h.read hold)
    · rw [List.mem_singleton.mp hnew]
      exact List.mem_cons_self
  cases d with
  | none => exact ⟨h.listed, hread, h.refs⟩
  | some d => exact ⟨h.listed, hread, congrArg (d.hashes ++ ·) h.refs⟩

theorem refsOfSite_guarded {sites : List SiteMeta} {done : List (String × String)}
    {refs : List Digest} {t : Track} (h : Collected sites done refs t) (m : SiteMeta) :
    Guarded (fun refs' t' => Collected sites (done ++ m.deploys.map fun id => (m.slug, id)) refs' t')
      (refsOfSite refs m) t := by
  refine holds_foldlM _ (fun ids refs' t' =>
    Collected sites (done ++ ids.map fun id => (m.slug, id)) refs' t') _ _ _ (by simpa using h) ?_
  intro pre id post _ refs' t' ht'
  have hone := refsOfDeploy_guarded ht' m.slug id
  rw [List.append_assoc] at hone
  rw [List.map_append]
  exact hone

theorem sweepObject_guarded {sites : List SiteMeta} {refs : List Digest} {t : Track}
    (h : Collected sites (keysOf sites) refs t) (fresh : List Digest) (hash : Digest) :
    Guarded (fun _ t' => t' = t) (sweepObject refs fresh hash) t := by
  rw [sweepObject]
  split
  next => rfl
  next hnot =>
    refine guarded_node ⟨⟨sites, h.listed, fun m hm id hid => h.read ?_⟩, ?_⟩ fun _ => rfl
    · exact mem_keysOf.mpr ⟨m, hm, id, hid, rfl⟩
    · rw [h.refs]
      exact hnot

/-- A sweep keeps to the guard. -/
theorem sweepOrphans_guarded : Guarded (fun _ _ => True) sweepOrphans .start := by
  refine guarded_node trivial fun listed => ?_
  cases listed with
  | error e => trivial
  | ok sites =>
      have hcollect : Guarded (fun refs t => Collected sites (keysOf sites) refs t)
          (sites.foldlM refsOfSite []) (observe .start .listSites (.ok sites)) := by
        refine holds_foldlM refsOfSite (fun done refs t => Collected sites (keysOf done) refs t)
          sites [] _ ⟨rfl, List.nil_subset _, rfl⟩ ?_
        intro pre m post _ refs t ht
        have hkeys : keysOf (pre ++ [m]) = keysOf pre ++ m.deploys.map fun id => (m.slug, id) := by
          simp [keysOf]
        rw [hkeys]
        exact refsOfSite_guarded ht m
      refine guarded_bind hcollect fun refs t ht => ?_
      refine guarded_node trivial fun objs => guarded_node trivial fun marked => ?_
      have hsweep : ∀ fresh, Guarded (fun _ t' => t' = t) (marked.foldlM (sweepObject refs) fresh) t := by
        intro fresh
        refine holds_foldlM (sweepObject refs) (fun _ _ t' => t' = t) marked fresh t rfl ?_
        rintro pre h post _ fresh t' rfl
        exact sweepObject_guarded ht fresh h
      exact guarded_bind (hsweep _) fun _ _ _ => guarded_node trivial fun _ => trivial

end Sweep

end Tactile.Publish.DeployThreads

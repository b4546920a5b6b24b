import Tactile.Publish.Quota

/-!
The orphan sweep of a node whose reads may fail.
-/

namespace Tactile.Publish.FailSafe

open Tactile.Lib.Program Tactile.Lib.FiniteMap Tactile.Lib.Transition
open Tactile.Publish.Bundle Tactile.Publish.Records Tactile.Publish.NodeOps
open Tactile.Publish.Deploys
open Tactile.Publish.Quota (helloNode helloSite helloDeploy helloDigest hello)

/-- The answers of a node whose reads may fail: a listing of the sites fails or,
over a file system, leaves out the records that cannot be read, and the read of a
manifest fails. -/
inductive ServesFaulty (b : Backend) (fileOf : String → String) : Answers NodeOp NodeAns Node
  | serves {n n' : Node} {o : NodeOp} {ans : NodeAns o} :
      Serves b fileOf n o ans n' → ServesFaulty b fileOf n o ans n'
  | listSites (n : Node) : ServesFaulty b fileOf n .listSites (.error .read) n
  | skipSites (n : Node) (sites : List SiteMeta) :
      b = .fs → sites.Subperm (n.store.listSites b) →
      ServesFaulty b fileOf n .listSites (.ok sites) n
  | getDeploy (n : Node) (slug id : String) : ServesFaulty b fileOf n (.getDeploy slug id) none n

abbrev NodeCalls : Type := List (Call NodeOp NodeAns)

/-- A pass of the sweeper with the calls it makes. -/
def Pass (b : Backend) (fileOf : String → String) (n : Node) (calls : NodeCalls) (n' : Node) :
    Prop :=
  Exec (Logged (ServesFaulty b fileOf)) (n, []) sweepOrphans () (n', calls)

/-- A manifest in the store lists the hash. -/
def Referenced (s : Store) (h : Digest) : Prop :=
  ∃ k d, s.disk.deploys.lookup k = some d ∧ h ∈ d.hashes

/-- The sites have been listed. -/
def Listed (calls : NodeCalls) : Prop := ∃ sites, ⟨.listSites, .ok sites⟩ ∈ calls

/-- A manifest that has been read lists the hash. -/
def ReadBy (calls : NodeCalls) (h : Digest) : Prop :=
  ∃ slug id d, ⟨.getDeploy slug id, some d⟩ ∈ calls ∧ h ∈ d.hashes

/-- A pass that lists the sites reads a manifest of every stored object that the
previous pass marked and that a manifest in the store lists. -/
def ReadsMarked (n : Node) (calls : NodeCalls) : Prop :=
  Listed calls → ∀ h ∈ n.marked, Referenced n.store h →
    (n.store.disk.objects.lookup h).isSome → ReadBy calls h

/-- No object that a manifest in the store lists is lost. -/
def KeepsReferenced (n n' : Node) : Prop :=
  ∀ h data, Referenced n.store h → n.store.disk.objects.lookup h = some data →
    n'.store.disk.objects.lookup h = some data

/-- What a pass leaves: the manifests as they were, and every object but the
marked ones that no manifest read lists. -/
structure Swept (n : Node) (calls : NodeCalls) (n' : Node) : Prop where
  deploys : n'.store.disk.deploys = n.store.disk.deploys
  dropped : ∀ h, Listed calls → h ∈ n.marked → ¬ ReadBy calls h →
    n'.store.disk.objects.lookup h = none
  kept : ∀ h, ¬ (Listed calls ∧ h ∈ n.marked ∧ ¬ ReadBy calls h) →
    n'.store.disk.objects.lookup h = n.store.disk.objects.lookup h

section Pass

variable {b : Backend} {fileOf : String → String}

theorem readBy_append {calls : NodeCalls} {o : NodeOp} {ans : NodeAns o}
    (ho : ∀ slug id, o ≠ .getDeploy slug id) (h : Digest) :
    ReadBy (calls ++ [⟨o, ans⟩]) h ↔ ReadBy calls h := by
  constructor
  · rintro ⟨slug, id, d, hmem, hd⟩
    rcases List.mem_append.mp hmem with hold | hlast
    · exact ⟨slug, id, d, hold, hd⟩
    · have heq := List.mem_singleton.mp hlast
      exact absurd (congrArg Sigma.fst heq).symm (ho slug id)
  · rintro ⟨slug, id, d, hmem, hd⟩
    exact ⟨slug, id, d, List.mem_append_left _ hmem, hd⟩

theorem readBy_append_getDeploy {calls : NodeCalls} {slug id : String} {found : Option Deploy}
    (h : Digest) :
    ReadBy (calls ++ [⟨.getDeploy slug id, found⟩]) h ↔
      h ∈ found.elim [] Deploy.hashes ∨ ReadBy calls h := by
  constructor
  · rintro ⟨slug', id', d, hmem, hd⟩
    rcases List.mem_append.mp hmem with hold | hlast
    · exact .inr ⟨slug', id', d, hold, hd⟩
    · cases List.mem_singleton.mp hlast
      exact .inl hd
  · rintro (hnew | ⟨slug', id', d, hmem, hd⟩)
    · cases found with
      | none => exact absurd hnew List.not_mem_nil
      | some d =>
          exact ⟨slug, id, d, List.mem_append_right _ (List.mem_singleton_self _), hnew⟩
    · exact ⟨slug', id', d, List.mem_append_left _ hmem, hd⟩

theorem serves_getDeploy {n n' : Node} {slug id : String} {found : Option Deploy}
    (h : ServesFaulty b fileOf n (.getDeploy slug id) found n') : n' = n := by
  cases h with
  | serves hs =>
      cases hs
      rfl
  | getDeploy => rfl

theorem serves_deleteObject {n n' : Node} {h : Digest}
    (hserves : ServesFaulty b fileOf n (.deleteObject h) () n') :
    n'.store = n.store.deleteObject h := by
  cases hserves with
  | serves hs =>
      cases hs
      rfl

theorem serves_listSites {n n' : Node} {listed : Except Err (List SiteMeta)}
    (h : ServesFaulty b fileOf n .listSites listed n') : n' = n := by
  cases h with
  | serves hs =>
      cases hs
      rfl
  | listSites => rfl
  | skipSites => rfl

theorem serves_listObjects {n n' : Node} {objs : Dict Digest ℤ}
    (h : ServesFaulty b fileOf n .listObjects objs n') : n' = n := by
  cases h with
  | serves hs =>
      cases hs
      rfl

theorem serves_marked {n n' : Node} {marked : List Digest}
    (h : ServesFaulty b fileOf n .marked marked n') : marked = n.marked ∧ n' = n := by
  cases h with
  | serves hs =>
      cases hs
      exact ⟨rfl, rfl⟩

theorem serves_setMarked {n n' : Node} {marks : List Digest}
    (h : ServesFaulty b fileOf n (.setMarked marks) () n') : n'.store = n.store := by
  cases h with
  | serves hs =>
      cases hs
      rfl

/-- The references collected are those of the manifests read. -/
structure Collecting (n : Node) (refs : List Digest) (x : Node × NodeCalls) : Prop where
  node : x.1 = n
  listed : Listed x.2
  refs : ∀ h, h ∈ refs ↔ ReadBy x.2 h

theorem refsOfDeploy_collects {n : Node} {refs : List Digest} {x : Node × NodeCalls}
    (hx : Collecting n refs x) (slug id : String) :
    Holds (Logged (ServesFaulty b fileOf)) (fun _ _ => True)
      (fun refs' x' => Collecting n refs' x') (refsOfDeploy slug refs id) x := by
  refine ⟨trivial, fun found x' hserves => ?_⟩
  obtain ⟨hserves, hcalls⟩ := hserves
  have hnode : x'.1 = x.1 := serves_getDeploy hserves
  have hlisted : Listed x'.2 := by
    obtain ⟨sites, hmem⟩ := hx.listed
    exact ⟨sites, hcalls ▸ List.mem_append_left _ hmem⟩
  have hread : ∀ h, ReadBy x'.2 h ↔ h ∈ found.elim [] Deploy.hashes ∨ h ∈ refs := by
    intro h
    rw [hcalls, readBy_append_getDeploy, hx.refs]
  cases found with
  | none => exact ⟨hnode.trans hx.node, hlisted, fun h => by rw [hread]; simp⟩
  | some d =>
      refine ⟨hnode.trans hx.node, hlisted, fun h => ?_⟩
      rw [hread]
      exact List.mem_append

theorem refsOfSite_collects {n : Node} {refs : List Digest} {x : Node × NodeCalls}
    (hx : Collecting n refs x) (m : SiteMeta) :
    Holds (Logged (ServesFaulty b fileOf)) (fun _ _ => True)
      (fun refs' x' => Collecting n refs' x') (refsOfSite refs m) x :=
  holds_foldlM _ (fun _ refs' x' => Collecting n refs' x') m.deploys refs x hx
    fun _ id _ _ _ _ hx' => refsOfDeploy_collects hx' m.slug id

/-- The sweep over the marks has come this far. -/
structure Sweeping (n : Node) (refs done : List Digest) (x : Node × NodeCalls) : Prop where
  deploys : x.1.store.disk.deploys = n.store.disk.deploys
  objects : ∀ h, x.1.store.disk.objects.lookup h =
    if h ∈ done ∧ h ∉ refs then none else n.store.disk.objects.lookup h
  listed : Listed x.2
  refs : ∀ h, h ∈ refs ↔ ReadBy x.2 h

theorem sweepObject_sweeps {n : Node} {refs done : List Digest} {x : Node × NodeCalls}
    (hx : Sweeping n refs done x) (fresh : List Digest) (h : Digest) :
    Holds (Logged (ServesFaulty b fileOf)) (fun _ _ => True)
      (fun _ x' => Sweeping n refs (done ++ [h]) x') (sweepObject refs fresh h) x := by
  rw [sweepObject]
  split
  next hin =>
    refine ⟨hx.deploys, fun h' => ?_, hx.listed, hx.refs⟩
    rw [hx.objects]
    apply if_congr _ rfl rfl
    constructor
    · exact fun h => ⟨List.mem_append_left _ h.1, h.2⟩
    · rintro ⟨hmem, hnot⟩
      rcases List.mem_append.mp hmem with hold | hlast
      · exact ⟨hold, hnot⟩
      · exact absurd (List.mem_singleton.mp hlast ▸ hin) hnot
  next hout =>
    refine ⟨trivial, fun _ x' hserves => ?_⟩
    obtain ⟨hserves, hcalls⟩ := hserves
    have hstore : x'.1.store = x.1.store.deleteObject h := serves_deleteObject hserves
    refine ⟨hstore ▸ hx.deploys, fun h' => ?_, ?_, fun h' => ?_⟩
    · rw [hstore, Store.deleteObject, lookup_erase_eq, hx.objects]
      rcases Decidable.em (h' = h) with rfl | hne
      · rw [if_pos rfl, if_pos]
        exact ⟨List.mem_append_right _ (List.mem_singleton_self _), hout⟩
      · rw [if_neg hne]
        apply if_congr _ rfl rfl
        rw [List.mem_append, List.mem_singleton]
        simp [hne]
    · obtain ⟨sites, hmem⟩ := hx.listed
      exact ⟨sites, hcalls ▸ List.mem_append_left _ hmem⟩
    · rw [hx.refs, hcalls, readBy_append (fun _ _ heq => by cases heq)]

/-- What a pass does. -/
theorem sweepOrphans_swept (n : Node) :
    Holds (Logged (ServesFaulty b fileOf)) (fun _ _ => True)
      (fun _ x => Swept n x.2 x.1) sweepOrphans (n, []) := by
  refine ⟨trivial, fun listed x hserves => ?_⟩
  obtain ⟨hserves, hcalls⟩ := hserves
  have hnode : x.1 = n := serves_listSites hserves
  cases listed with
  | error e =>
      have hnot : ¬ Listed x.2 := by
        rintro ⟨sites, hmem⟩
        rw [hcalls] at hmem
        cases List.mem_singleton.mp hmem
      exact ⟨by rw [hnode], fun h hlisted => absurd hlisted hnot, fun h _ => by rw [hnode]⟩
  | ok sites =>
      have hstart : Collecting n [] x := by
        refine ⟨hnode, ⟨sites, hcalls ▸ List.mem_singleton_self _⟩, fun h => ?_⟩
        rw [hcalls, readBy_append (fun _ _ heq => by cases heq)]
        simp [ReadBy]
      have hcollect : Holds (Logged (ServesFaulty b fileOf)) (fun _ _ => True)
          (fun refs x => Collecting n refs x) (sites.foldlM refsOfSite []) x :=
        holds_foldlM refsOfSite (fun _ refs x => Collecting n refs x) sites [] x hstart
          fun _ m _ _ _ _ hx => refsOfSite_collects hx m
      refine (holds_bind (sites.foldlM refsOfSite []) _ x).mpr (hcollect.imp fun refs x hx => ?_)
      refine ⟨trivial, fun objs x₁ hobjs => ⟨trivial, fun marked x₂ hmarked => ?_⟩⟩
      have hnode₁ : x₁.1 = n := (serves_listObjects hobjs.1).trans hx.node
      obtain ⟨hmarks, hnode₂⟩ := serves_marked hmarked.1
      rw [hnode₁] at hmarks hnode₂
      have hread : ∀ h, h ∈ refs ↔ ReadBy x₂.2 h := by
        intro h
        rw [hmarked.2, readBy_append (fun _ _ heq => by cases heq), hobjs.2,
          readBy_append (fun _ _ heq => by cases heq)]
        exact hx.refs h
      have hlisted : Listed x₂.2 := by
        obtain ⟨sites, hmem⟩ := hx.listed
        rw [hmarked.2, hobjs.2]
        exact ⟨sites, List.mem_append_left _ (List.mem_append_left _ hmem)⟩
      have hnone : Sweeping n refs [] x₂ := by
        refine ⟨by rw [hnode₂], fun h => ?_, hlisted, hread⟩
        rw [hnode₂, if_neg fun h => List.not_mem_nil h.1]
      have hsweep : ∀ fresh, Holds (Logged (ServesFaulty b fileOf)) (fun _ _ => True)
          (fun _ x => Sweeping n refs marked x) (marked.foldlM (sweepObject refs) fresh) x₂ :=
        fun fresh => holds_foldlM (sweepObject refs) (fun done _ x => Sweeping n refs done x) marked
          fresh x₂ hnone fun _ h _ _ fresh _ hx => sweepObject_sweeps hx fresh h
      refine (holds_bind (marked.foldlM (sweepObject refs) _) _ x₂).mpr
        ((hsweep _).imp fun left x₃ hx₃ => ⟨trivial, fun _ x₄ hset => ?_⟩)
      have hstore : x₄.1.store = x₃.1.store := serves_setMarked hset.1
      have hread₄ : ∀ h, ReadBy x₄.2 h ↔ h ∈ refs := by
        intro h
        rw [hset.2, readBy_append (fun _ _ heq => by cases heq), hx₃.refs]
      refine ⟨hstore ▸ hx₃.deploys, fun h _ hin hnot => ?_, fun h hnot => ?_⟩
      · rw [hstore, hx₃.objects, if_pos]
        exact ⟨hmarks ▸ hin, fun hrefs => hnot ((hread₄ h).mpr hrefs)⟩
      · rw [hstore, hx₃.objects, if_neg]
        rintro ⟨hin, hrefs⟩
        obtain ⟨sites, hmem⟩ := hx₃.listed
        refine hnot ⟨⟨sites, ?_⟩, hmarks ▸ hin, fun hread => hrefs ((hread₄ h).mp hread)⟩
        rw [hset.2]
        exact List.mem_append_left _ hmem

theorem pass_swept {n n' : Node} {calls : NodeCalls} (h : Pass b fileOf n calls n') :
    Swept n calls n' :=
  (sweepOrphans_swept n).exec h

theorem Swept.keepsReferenced_iff {n n' : Node} {calls : NodeCalls} (h : Swept n calls n') :
    KeepsReferenced n n' ↔ ReadsMarked n calls := by
  constructor
  · intro hkeeps hlisted hash hmarked href hstored
    obtain ⟨data, hdata⟩ := Option.isSome_iff_exists.mp hstored
    by_contra hnot
    have hkept := hkeeps hash data href hdata
    rw [h.dropped hash hlisted hmarked hnot] at hkept
    cases hkept
  · intro hreads hash data href hdata
    rw [h.kept hash, hdata]
    rintro ⟨hlisted, hmarked, hnot⟩
    exact hnot (hreads hlisted hash hmarked href (by rw [hdata]; rfl))

/-- A pass whose reads may fail loses no object that a manifest in the store
lists if and only if it reads a manifest of every such object that is marked; and
a sequence of passes that all do so loses no such object. -/
theorem sweepOrphans_keeps_referenced (b : Backend) (fileOf : String → String) :
    (∀ n calls n', Pass b fileOf n calls n' → (KeepsReferenced n n' ↔ ReadsMarked n calls)) ∧
    ∀ n passes n', Runs (fun n calls n' => Pass b fileOf n calls n' ∧ ReadsMarked n calls)
      n passes n' → KeepsReferenced n n' := by
  refine ⟨fun n calls n' h => (pass_swept h).keepsReferenced_iff, fun n passes n' hrun => ?_⟩
  suffices hall : n'.store.disk.deploys = n.store.disk.deploys ∧ KeepsReferenced n n' from hall.2
  have hstep : ∀ x calls y,
      x.store.disk.deploys = n.store.disk.deploys ∧ KeepsReferenced n x →
      Pass b fileOf x calls y ∧ ReadsMarked x calls →
        y.store.disk.deploys = n.store.disk.deploys ∧ KeepsReferenced n y := by
    rintro x calls y ⟨hdeploys, hkeeps⟩ ⟨hpass, hreads⟩
    have hswept := pass_swept hpass
    refine ⟨hswept.deploys.trans hdeploys, fun h data href hdata => ?_⟩
    refine hswept.keepsReferenced_iff.mpr hreads h data ?_ (hkeeps h data href hdata)
    obtain ⟨k, d, hd, hin⟩ := href
    exact ⟨k, d, hdeploys ▸ hd, hin⟩
  exact hrun.invariant hstep ⟨rfl, fun _ _ _ hdata => hdata⟩

end Pass

/-- The node that holds the site a with the upload of hello, with these marks. -/
def markedNode (marks : List Digest) : Node := { helloNode with marked := marks }

theorem pass_reads : ∃ calls, Pass .fs id (markedNode [helloDigest]) calls (markedNode []) ∧
    ReadsMarked (markedNode [helloDigest]) calls := by
  refine ⟨_, .logged (.ok [helloSite]) (.serves (.listSites _ _ (List.Perm.refl _))) <|
    .logged (some helloDeploy) (.serves (.getDeploy _ _ _)) <|
    .logged ((∅ : Dict Digest ℤ).insert helloDigest 5) (.serves (.listObjects _)) <|
    .logged [helloDigest] (.serves (.marked _)) <|
    .logged () (.serves (.setMarked _ _)) <| .refl _ _, ?_⟩
  rintro _ h hmarked _ _
  rw [List.mem_singleton.mp hmarked]
  exact ⟨helloSite.slug, helloDeploy.id, helloDeploy, by simp, by decide⟩

theorem sweepOrphans_keeps_referenced_hello :
    (∃ calls, Pass .fs id (markedNode [helloDigest]) calls (markedNode []) ∧
      (KeepsReferenced (markedNode [helloDigest]) (markedNode []) ↔
        ReadsMarked (markedNode [helloDigest]) calls)) ∧
    KeepsReferenced (markedNode [helloDigest]) (markedNode []) := by
  obtain ⟨calls, hpass, hreads⟩ := pass_reads
  obtain ⟨hiff, hruns⟩ := sweepOrphans_keeps_referenced .fs id
  exact ⟨⟨calls, hpass, hiff _ _ _ hpass⟩, hruns _ [calls] _ (.single ⟨hpass, hreads⟩)⟩

/-- A pass in which the read of the manifest fails marks its object, and the next
such pass deletes it. -/
theorem sweepOrphans_deletes_referenced : ∃ passes n',
    Runs (Pass .fs id) (markedNode []) passes n' ∧
    n'.store.getDeploy "a" helloDeploy.id = some helloDeploy ∧ helloDigest ∈ helloDeploy.hashes ∧
    (markedNode []).store.disk.objects.lookup helloDigest = some hello ∧
    n'.store.disk.objects.lookup helloDigest = none := by
  have hmark : ∃ calls, Pass .fs id (markedNode []) calls (markedNode [helloDigest]) :=
    ⟨_, .logged (.ok [helloSite]) (.serves (.listSites _ _ (List.Perm.refl _))) <|
      .logged none (.getDeploy _ _ _) <|
      .logged ((∅ : Dict Digest ℤ).insert helloDigest 5) (.serves (.listObjects _)) <|
      .logged [] (.serves (.marked _)) <| .logged () (.serves (.setMarked _ _)) <| .refl _ _⟩
  have hdelete : ∃ calls n', Pass .fs id (markedNode [helloDigest]) calls n' ∧
      n'.store = (markedNode []).store.deleteObject helloDigest :=
    ⟨_, _, .logged (.ok [helloSite]) (.serves (.listSites _ _ (List.Perm.refl _))) <|
      .logged none (.getDeploy _ _ _) <|
      .logged ((∅ : Dict Digest ℤ).insert helloDigest 5) (.serves (.listObjects _)) <|
      .logged [helloDigest] (.serves (.marked _)) <|
      .logged () (.serves (.deleteObject _ _)) <|
      .logged () (.serves (.setMarked _ _)) <| .refl _ _, rfl⟩
  obtain ⟨calls₁, hpass₁⟩ := hmark
  obtain ⟨calls₂, n', hpass₂, hstore⟩ := hdelete
  refine ⟨[calls₁, calls₂], n', .cons hpass₁ (.single hpass₂), ?_⟩
  rw [hstore]
  decide

end Tactile.Publish.FailSafe

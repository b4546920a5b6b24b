import Mathlib.Algebra.BigOperators.Group.Finset.Basic
import Mathlib.Algebra.Order.BigOperators.Group.Finset
import Tactile.Publish.DeployThreads
import Tactile.Publish.Routing

/-!
The storage quota of an identity under concurrent deploys.
-/

namespace Tactile.Publish.Quota

open Tactile.Lib.Program Tactile.Lib.FiniteMap Tactile.Lib.Transition Tactile.Lib.Threads
open Tactile.Lib.ByteString
open Tactile.Publish.Bundle Tactile.Publish.Records Tactile.Publish.NodeOps
open Tactile.Publish.Handlers Tactile.Publish.Deploys Tactile.Publish.DeployThreads
open Tactile.Publish.Routing (sampleServer sampleReq sampleKey sampleSite)

section Usage

variable (size : Digest → ℕ)

/-- The bytes of a set of objects. -/
def bytesOf (hs : List Digest) : ℤ := ∑ h ∈ hs.toFinset, (size h : ℤ)

/-- The hashes that the manifests of these deploys of a site list. -/
def deployHashes (s : Store) (slug : String) (ids : List String) : List Digest :=
  ids.flatMap fun id => (s.getDeploy slug id).elim [] Deploy.hashes

/-- The hashes that an identity's deploys list. -/
def ownedHashes (s : Store) (owner : PubKey) (sites : List SiteMeta) : List Digest :=
  (sites.filter fun m => m.owner = owner).flatMap fun m => deployHashes s m.slug m.deploys

/-- Every manifest gives a file the size that goes with its hash. -/
def Sized (s : Store) : Prop :=
  ∀ k d, s.disk.deploys.lookup k = some d → ∀ f ∈ d.files, ∀ h, f.hashBytes = some h → f.size = size h

variable {size}

theorem bytesOf_congr {hs hs' : List Digest} (h : ∀ x, x ∈ hs ↔ x ∈ hs') :
    bytesOf size hs = bytesOf size hs' := by
  have hset : hs.toFinset = hs'.toFinset := by
    apply Finset.ext
    intro x
    rw [List.mem_toFinset, List.mem_toFinset]
    exact h x
  rw [bytesOf, hset, bytesOf]

theorem bytesOf_le {hs hs' : List Digest} (h : hs ⊆ hs') : bytesOf size hs ≤ bytesOf size hs' := by
  apply Finset.sum_le_sum_of_subset_of_nonneg
  · intro x hx
    rw [List.mem_toFinset] at hx ⊢
    exact h hx
  · intro x _ _
    exact Int.natCast_nonneg _

/-- The bytes of two sets are those of the first and those new in the second. -/
theorem bytesOf_append (kept new : List Digest) :
    bytesOf size (kept ++ new) =
      bytesOf size kept + bytesOf size (new.filter fun h => h ∉ kept) := by
  rw [bytesOf, bytesOf, bytesOf, ← Finset.sum_union]
  · apply Finset.sum_congr
    · apply Finset.ext
      intro x
      simp only [List.mem_toFinset, List.mem_append, Finset.mem_union, List.mem_filter,
        decide_eq_true_eq]
      tauto
    · intro x _
      rfl
  · rw [Finset.disjoint_left]
    intro x hx hx'
    rw [List.mem_toFinset] at hx hx'
    have hnot := of_decide_eq_true (List.mem_filter.mp hx').2
    exact hnot hx

/-- The operations that a count of an identity's usage calls. -/
def Reads : NodeOp → Prop
  | .listSites | .getDeploy .. => True
  | _ => False

variable {b : Backend} {fileOf : String → String}

end Usage

section Commit

variable {b : Backend} {s : Store} {size : Digest → ℕ}

/-- Every site record is stored under its own slug. -/
def Own (s : Store) : Prop := ∀ slug m, s.getSite slug = some m → m.slug = slug

theorem mem_listSites {x : SiteMeta} :
    x ∈ s.listSites b ↔ ∃ slug, (b = .s3 → slug ∈ s.mem.sites) ∧ s.getSite slug = some x := by
  cases b with
  | fs =>
      refine mem_values.trans ?_
      simp [Store.getSite]
  | s3 =>
      refine List.mem_filterMap.trans ?_
      simp

/-- The listing after the write of a site record. -/
theorem mem_listSites_put (hown : Own s) {m : SiteMeta} (hslug : m.slug ≠ "") {x : SiteMeta} :
    x ∈ (s.putSite b m true).2.listSites b ↔
      x = m ∨ (x ∈ s.listSites b ∧ x.slug ≠ m.slug) := by
  have hput : s.putSite b m true = (.ok (),
      { disk := { s.disk with sites := s.disk.sites.insert m.slug m }
        mem := { s.mem with sites := Store.withSlug b m.slug s.mem.sites } }) := by
    rw [Store.putSite, if_neg hslug, if_neg (by decide)]
  have hget : ∀ slug, (s.putSite b m true).2.getSite slug =
      if slug = m.slug then some m else s.getSite slug := by
    intro slug
    rw [hput]
    exact lookup_insert_eq ..
  have hpresent : ∀ slug, (b = .s3 → slug ∈ (s.putSite b m true).2.mem.sites) ↔
      slug = m.slug ∨ (b = .s3 → slug ∈ s.mem.sites) := by
    intro slug
    rw [hput]
    cases b with
    | fs => simp
    | s3 =>
        simp only [Store.withSlug, forall_const]
        split
        next hold =>
          refine ⟨.inr, fun h => h.elim (fun heq => ?_) id⟩
          rw [heq]
          exact hold
        next => exact List.mem_cons
  rw [mem_listSites]
  constructor
  · rintro ⟨slug, hin, hx⟩
    rw [hget] at hx
    split at hx
    next => exact .inl (Option.some.inj hx).symm
    next hne =>
      have hold := ((hpresent slug).mp hin).resolve_left hne
      refine .inr ⟨mem_listSites.mpr ⟨slug, hold, hx⟩, ?_⟩
      rw [hown slug x hx]
      exact hne
  · rintro (rfl | ⟨hx, hne⟩)
    · exact ⟨x.slug, (hpresent x.slug).mpr (.inl rfl), by rw [hget, if_pos rfl]⟩
    · obtain ⟨slug, hin, hget'⟩ := mem_listSites.mp hx
      refine ⟨slug, (hpresent slug).mpr (.inr hin), ?_⟩
      rw [hget, if_neg, hget']
      rw [← hown slug x hget']
      exact hne

theorem mem_ownedHashes {owner : PubKey} {sites : List SiteMeta} {h : Digest} :
    h ∈ ownedHashes s owner sites ↔
      ∃ m ∈ sites, m.owner = owner ∧ h ∈ deployHashes s m.slug m.deploys := by
  simp [ownedHashes, List.mem_flatMap, and_assoc]

theorem mem_deployHashes {slug : String} {ids : List String} {h : Digest} :
    h ∈ deployHashes s slug ids ↔
      ∃ id ∈ ids, ∃ d, s.getDeploy slug id = some d ∧ h ∈ d.hashes := by
  rw [deployHashes, List.mem_flatMap]
  refine exists_congr fun id => and_congr_right fun _ => ?_
  cases s.getDeploy slug id with
  | none => simp
  | some d => simp

/-- The hashes that the owner of a site keeps with the commit of a deploy to it:
those of its other sites and of the other deploys that the site retains. -/
def keptHashes (b : Backend) (s : Store) (m : SiteMeta) : List Digest :=
  ownedHashes s m.owner ((s.listSites b).filter fun x => x.slug ≠ m.slug) ++
    deployHashes s m.slug (m.deploys.filter (· ≠ m.current))

/-- The hashes of the deploy that a commit makes current. -/
def committedHashes (s : Store) (m : SiteMeta) : List Digest :=
  deployHashes s m.slug (m.deploys.filter (· = m.current))

attribute [local instance] lawfulBEq_byteArr32 in
/-- The bytes that the identity keeps and the bytes of the files of the committed
deploy that none of its kept deploys lists fit the quota. -/
def CommitFits (size : Digest → ℕ) (b : Backend) (quota : ℤ) (s : Store) (m : SiteMeta) : Prop :=
  bytesOf size (keptHashes b s m) +
    bytesOf size ((committedHashes s m).filter fun h => h ∉ keptHashes b s m) ≤ quota

/-- What the owner of a site is charged for after a commit to it. -/
theorem bytes_commit (hown : Own s) {m : SiteMeta} (hslug : m.slug ≠ "") :
    bytesOf size (ownedHashes (s.putSite b m true).2 m.owner
      ((s.putSite b m true).2.listSites b)) =
    bytesOf size (keptHashes b s m) +
      bytesOf size ((committedHashes s m).filter fun h => h ∉ keptHashes b s m) := by
  rw [← bytesOf_append]
  apply bytesOf_congr
  intro h
  have hdeploys : ∀ slug ids, deployHashes (s.putSite b m true).2 slug ids =
      deployHashes s slug ids := by
    intro slug ids
    rw [Store.putSite, if_neg hslug, if_neg (by decide)]
    rfl
  have hsplit : h ∈ deployHashes s m.slug m.deploys ↔
      h ∈ deployHashes s m.slug (m.deploys.filter (· ≠ m.current)) ∨ h ∈ committedHashes s m := by
    rw [committedHashes, mem_deployHashes, mem_deployHashes, mem_deployHashes]
    constructor
    · rintro ⟨id, hid, hd⟩
      rcases Decidable.em (id = m.current) with heq | hne
      · exact .inr ⟨id, List.mem_filter.mpr ⟨hid, decide_eq_true heq⟩, hd⟩
      · exact .inl ⟨id, List.mem_filter.mpr ⟨hid, decide_eq_true hne⟩, hd⟩
    · rintro (⟨id, hid, hd⟩ | ⟨id, hid, hd⟩)
      · exact ⟨id, (List.mem_filter.mp hid).1, hd⟩
      · exact ⟨id, (List.mem_filter.mp hid).1, hd⟩
  rw [mem_ownedHashes, List.mem_append, keptHashes, List.mem_append, or_assoc, ← hsplit,
    mem_ownedHashes]
  constructor
  · rintro ⟨x, hx, howner, hh⟩
    rw [hdeploys] at hh
    rcases (mem_listSites_put hown hslug).mp hx with rfl | ⟨hx, hne⟩
    · exact .inr hh
    · exact .inl ⟨x, List.mem_filter.mpr ⟨hx, decide_eq_true hne⟩, howner, hh⟩
  · rintro (⟨x, hx, howner, hh⟩ | hh)
    · obtain ⟨hx, hne⟩ := List.mem_filter.mp hx
      refine ⟨x, (mem_listSites_put hown hslug).mpr (.inr ⟨hx, of_decide_eq_true hne⟩), howner, ?_⟩
      rw [hdeploys]
      exact hh
    · refine ⟨m, (mem_listSites_put hown hslug).mpr (.inl rfl), rfl, ?_⟩
      rw [hdeploys]
      exact hh

end Commit

section Runs

variable (b : Backend) (srv : Server) (size : Digest → ℕ)

abbrev DeployPool : Type := Pool NodeOp NodeAns Response Track Node

abbrev DeployEvent : Type := Event NodeOp NodeAns Track

/-- The bytes of an upload go with its digest, the id of a new manifest is not in
use, and a commit fits the quota of its owner. -/
def FitsAt (n : Node) : (o : NodeOp) → NodeAns o → Prop
  | .putObject h data, .ok () => data.length = size h
  | .putDeploy d, .ok () => ∀ m, n.store.getSite d.slug = some m → d.id ∉ m.deploys
  | .putSite m, .ok () => CommitFits size b srv.cfg.siteQuota n.store m
  | _, _ => True

def Fits (x : DeployPool) : DeployEvent → Prop
  | .start .. => True
  | .op _ o ans => FitsAt b srv size x.shared o ans

/-- The identities' usage is within the quota, in a store whose records are in
their places. -/
structure Charged (s : Store) : Prop where
  own : Own s
  sized : Sized size s
  within : ∀ owner, bytesOf size (ownedHashes s owner (s.listSites b)) ≤ srv.cfg.siteQuota

variable {b srv size}

/-- A store with the same site records and manifests. -/
theorem Charged.of_same {s s' : Store} (h : Charged b srv size s)
    (hsites : s'.disk.sites = s.disk.sites) (hdeploys : s'.disk.deploys = s.disk.deploys)
    (hpresent : s'.mem.sites = s.mem.sites) : Charged b srv size s' := by
  have hget : ∀ slug, s'.getSite slug = s.getSite slug := fun slug => by
    rw [Store.getSite, hsites, Store.getSite]
  have hhashes : ∀ slug ids, deployHashes s' slug ids = deployHashes s slug ids := by
    intro slug ids
    simp only [deployHashes, Store.getDeploy, hdeploys]
  have hlist : ∀ x, x ∈ s'.listSites b ↔ x ∈ s.listSites b := by
    intro x
    simp only [mem_listSites, hpresent, hget]
  refine ⟨fun slug m hm => h.own slug m (hget slug ▸ hm), fun k d hd => h.sized k d (hdeploys ▸ hd),
    fun owner => ?_⟩
  have hsame : bytesOf size (ownedHashes s' owner (s'.listSites b)) =
      bytesOf size (ownedHashes s owner (s.listSites b)) := by
    apply bytesOf_congr
    intro x
    simp only [mem_ownedHashes, hlist, hhashes]
  rw [hsame]
  exact h.within owner

/-- Manifests that are not counted may come and go. -/
theorem Charged.of_deploys {s s' : Store} (h : Charged b srv size s)
    (hsites : s'.disk.sites = s.disk.sites) (hpresent : s'.mem.sites = s.mem.sites)
    (hsized : Sized size s')
    (hdeploys : ∀ slug m id d, s.getSite slug = some m → id ∈ m.deploys →
      s'.getDeploy slug id = some d → s.getDeploy slug id = some d) : Charged b srv size s' := by
  have hget : ∀ slug, s'.getSite slug = s.getSite slug := fun slug => by
    rw [Store.getSite, hsites, Store.getSite]
  refine ⟨fun slug m hm => h.own slug m (hget slug ▸ hm), hsized, fun owner => ?_⟩
  refine le_trans (bytesOf_le ?_) (h.within owner)
  intro x hx
  obtain ⟨m, hm, howner, hh⟩ := mem_ownedHashes.mp hx
  obtain ⟨slug, hin, hm⟩ := mem_listSites.mp hm
  rw [hget] at hm
  rw [hpresent] at hin
  obtain ⟨id, hid, d, hd, hxd⟩ := mem_deployHashes.mp hh
  rw [h.own slug m hm] at hd
  refine mem_ownedHashes.mpr ⟨m, mem_listSites.mpr ⟨slug, hin, hm⟩, howner, ?_⟩
  refine mem_deployHashes.mpr ⟨id, hid, d, ?_, hxd⟩
  rw [h.own slug m hm]
  exact hdeploys slug m id d hm hid hd

theorem Charged.putDeploy {s : Store} (h : Charged b srv size s) {d : Deploy}
    (hfresh : ∀ m, s.getSite d.slug = some m → d.id ∉ m.deploys)
    (hfiles : ∀ f ∈ d.files, ∀ x, f.hashBytes = some x → f.size = size x) :
    Charged b srv size (s.putDeploy d true).2 := by
  refine h.of_deploys rfl rfl ?_ ?_
  · intro k d' hd'
    rw [Store.putDeploy, if_neg (by decide)] at hd'
    rw [lookup_insert_eq] at hd'
    split at hd'
    next =>
      cases hd'
      exact hfiles
    next => exact h.sized k d' hd'
  · intro slug m id d' hm hid hd'
    rw [Store.putDeploy, if_neg (by decide), Store.getDeploy, lookup_insert_eq, if_neg] at hd'
    · exact hd'
    · rintro heq
      cases heq
      exact hfresh m hm hid

theorem Charged.deleteDeploy {s : Store} (h : Charged b srv size s) (slug id : String) :
    Charged b srv size (s.deleteDeploy slug id) := by
  have hold : ∀ k d, (s.deleteDeploy slug id).disk.deploys.lookup k = some d →
      s.disk.deploys.lookup k = some d := by
    intro k d hd
    rw [Store.deleteDeploy, lookup_erase_eq] at hd
    split at hd
    next => cases hd
    next => exact hd
  exact h.of_deploys rfl rfl (fun k d hd => h.sized k d (hold k d hd))
    fun slug m id d _ _ hd => hold _ d hd

theorem Charged.putSite {s : Store} (h : Charged b srv size s) {m : SiteMeta} (hslug : m.slug ≠ "")
    (hfits : CommitFits size b srv.cfg.siteQuota s m) :
    Charged b srv size (s.putSite b m true).2 := by
  have hput : (s.putSite b m true).2.disk =
      { s.disk with sites := s.disk.sites.insert m.slug m } := by
    rw [Store.putSite, if_neg hslug, if_neg (by decide)]
  refine ⟨fun slug x hx => ?_, fun k d hd => ?_, fun owner => ?_⟩
  · rw [Store.getSite, hput, lookup_insert_eq] at hx
    split at hx
    next heq =>
      cases hx
      exact heq.symm
    next => exact h.own slug x hx
  · rw [hput] at hd
    exact h.sized k d hd
  · rcases Decidable.em (owner = m.owner) with rfl | hother
    · rw [bytes_commit h.own hslug]
      exact hfits
    · refine le_trans (bytesOf_le ?_) (h.within owner)
      intro x hx
      obtain ⟨y, hy, howner, hh⟩ := mem_ownedHashes.mp hx
      have hold : y ∈ s.listSites b := by
        rcases (mem_listSites_put h.own hslug).mp hy with rfl | hold
        · exact absurd howner.symm hother
        · exact hold.1
      refine mem_ownedHashes.mpr ⟨y, hold, howner, ?_⟩
      obtain ⟨id, hid, d, hd, hxd⟩ := mem_deployHashes.mp hh
      refine mem_deployHashes.mpr ⟨id, hid, d, ?_, hxd⟩
      rw [Store.getDeploy, hput] at hd
      exact hd

end Runs

/-- The SHA-256 digest of hello. -/
def helloDigest : Digest :=
  ⟨[44, 242, 77, 186, 95, 176, 163, 14, 38, 232, 59, 42, 197, 185, 226, 158, 27, 22, 30, 92, 31,
    167, 66, 94, 115, 4, 51, 98, 147, 139, 152, 36], rfl⟩

/-- The sample server as it works on uploads of hello, with this quota. -/
def helloServer (quota : ℤ) : Server :=
  { sampleServer with
    cfg := { sampleServer.cfg with siteQuota := quota }
    codec := { sampleServer.codec with sha256 := fun _ => helloDigest } }

/-- The bytes of hello. -/
def hello : Bytes := [104, 101, 108, 108, 111]

/-- A bundle of one file with the content hello. -/
def helloBundle : TarStream := .entries [⟨"index.html", .reg, 5, .ok hello⟩] none

/-- A node that holds the site a, which has no deploys. -/
def claimedNode : Node where
  store :=
    { disk := ⟨(∅ : Dict String SiteMeta).insert "a" (sampleSite []), ∅, ∅, ∅⟩
      mem := ⟨∅, 0, ∅, []⟩ }
  locks := []
  marked := []

instance (size : Digest → ℕ) (b : Backend) (quota : ℤ) (s : Store) (m : SiteMeta) :
    Decidable (CommitFits size b quota s m) := inferInstanceAs (Decidable (_ ≤ _))

/-- The manifest of the upload of hello. -/
def helloDeploy : Deploy :=
  newDeploy "a" 1 1 ⟨[0, 0, 0, 0], Lib.ByteString.length_zeros4⟩ [⟨"/index.html", helloDigest, 5, "text/plain"⟩]
    Options.zero.normalize

/-- The site a with the upload of hello. -/
def helloSite : SiteMeta :=
  { sampleSite [] with deploys := [helloDeploy.id], current := helloDeploy.id, updated := 1 }

/-- The node that holds the site a with the upload of hello. -/
def helloNode : Node where
  store :=
    { disk :=
        { sites := claimedNode.store.disk.sites.insert "a" helloSite
          domains := ∅
          deploys := (∅ : Dict (String × String) Deploy).insert ("a", helloDeploy.id) helloDeploy
          objects := (∅ : Dict Digest Bytes).insert helloDigest hello }
      mem := ⟨(∅ : Dict Digest ℤ).insert helloDigest 5, 5, ∅, []⟩ }
  locks := []
  marked := []

end Tactile.Publish.Quota

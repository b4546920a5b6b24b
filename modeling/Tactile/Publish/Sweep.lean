import Mathlib.Logic.Function.Basic
import Tactile.Publish.Retention

/-!
Deploys and orphan sweeps that run on one node in any order, and what keeps the
objects of the retained deploys.
-/

namespace Tactile.Publish.Sweep

open Tactile.Lib.Program Tactile.Lib.FiniteMap Tactile.Lib.Transition Tactile.Lib.Threads
open Tactile.Lib.ByteString
open Tactile.Publish.Bundle Tactile.Publish.Records Tactile.Publish.NodeOps
open Tactile.Publish.Handlers Tactile.Publish.Deploys Tactile.Publish.DeployThreads
open Tactile.Publish.Quota (Own mem_listSites helloServer helloDigest helloBundle helloDeploy
  helloSite hello)
open Tactile.Publish.Routing (sampleReq sampleSite)
open Tactile.Publish.Retention (Quiet serves_quiet)

abbrev WorkThread : Type := Thread NodeOp NodeAns Unit Track

abbrev WorkPool : Type := Pool NodeOp NodeAns Unit Track Node

abbrev WorkEvent : Type := Event NodeOp NodeAns Track

/-- The threads that may start: deploys and sweeps, at any time. -/
def StartWork (srv : Server) (_ : Node) (t : Track) (p : NodeM Unit) : Prop :=
  t = .start ∧
    (p = sweepOrphans ∨ ∃ req stream, p = (fun _ => ()) <$> handleDeploy srv req stream)

/-- One step of concurrent deploys and sweeps. -/
abbrev WorkStep (b : Backend) (srv : Server) : WorkPool → WorkEvent → WorkPool → Prop :=
  Step (Serves b srv.fileOf) observe (StartWork srv)

/-- The thread has not returned. -/
def inFlight (th : WorkThread) : Bool :=
  match th.left with
  | .ret _ => false
  | .call .. => true

/-- The hashes that the deploys in flight have uploaded. -/
def uploading (x : WorkPool) : List Digest :=
  (values x.threads).flatMap fun th => if inFlight th then th.track.put.map Prod.fst else []

/-- The hashes that deploys in flight when a thread listed the sites, or later
ones, have uploaded. -/
def watch (x : WorkPool) (e : WorkEvent) (recent : ℕ → List Digest) : ℕ → List Digest :=
  match e with
  | .op n .listSites _ => Function.update recent n (uploading x)
  | .op _ (.putObject h _) (.ok ()) => fun n => h :: recent n
  | _ => recent

/-- A sweep deletes no object that a deploy in flight at its listing of the
sites, or a later one, has uploaded. -/
def Grace (x : WorkPool × (ℕ → List Digest)) (e : WorkEvent) : Prop :=
  ∀ n h, e = .op n (.deleteObject h) () → h ∉ x.2 n

/-- A site's record lists the deploy, and this is its manifest. -/
def Retained (s : Store) (slug id : String) (d : Deploy) : Prop :=
  ∃ m, s.getSite slug = some m ∧ id ∈ m.deploys ∧ s.getDeploy slug id = some d

def Stored (s : Store) (h : Digest) : Prop := (s.disk.objects.lookup h).isSome

/-- Every file that a retained deploy lists is stored. -/
def FilesStored (s : Store) : Prop :=
  ∀ slug id d, Retained s slug id d → ∀ h ∈ d.hashes, Stored s h

/-- The records of a store are in their places and known to the node. -/
structure Shape (b : Backend) (s : Store) : Prop where
  own : Own s
  indexed : ∀ h, (s.mem.objIndex.lookup h).isSome → Stored s h
  slugs : b = .s3 → ∀ slug m, s.getSite slug = some m → slug ∈ s.mem.sites

/-- What an operation of a thread does to the records: it changes the record and
the manifests of the site it has locked only, and a deploy that becomes retained
lists what the thread has put. -/
structure Effect (t : Track) (s s' : Store) : Prop where
  retained : ∀ slug id d, Retained s' slug id d → ∀ h ∈ d.hashes,
    (∃ d₀, Retained s slug id d₀ ∧ h ∈ d₀.hashes) ∨ ∃ k, (h, k) ∈ t.put
  site : ∀ slug, t.locked ≠ some slug → s'.getSite slug = s.getSite slug
  deploy : ∀ slug id d, t.locked ≠ some slug → s'.getDeploy slug id = some d →
    s.getDeploy slug id = some d

/-- What holds of a thread: it holds the lock it has taken, it knows the record
and the manifest of the site it has locked, and every hash that a retained
deploy lists has been uploaded since its listing, has been read, or is of a
manifest it has listed and not read yet. -/
structure ThreadKept (n : Node) (recent : List Digest) (t : Track) : Prop where
  locked : ∀ slug, t.locked = some slug → slug ∈ n.locks
  site : ∀ slug m, t.locked = some slug → t.site = some m → n.store.getSite slug = some m
  manifest : ∀ slug id d, t.locked = some slug → t.manifest = some (slug, id) →
    n.store.getDeploy slug id = some d → ∀ h ∈ d.hashes, ∃ k, (h, k) ∈ t.put
  cover : ∀ sites, t.listed = some sites → ∀ slug id d, Retained n.store slug id d →
    ∀ h ∈ d.hashes, h ∈ recent ∨ h ∈ t.refs ∨ ((slug, id) ∈ keysOf sites ∧ (slug, id) ∉ t.read)

/-- The invariant of concurrent deploys and sweeps. -/
structure Kept (b : Backend) (x : WorkPool) (recent : ℕ → List Digest) : Prop where
  shape : Shape b x.shared.store
  files : FilesStored x.shared.store
  threads : ∀ n th, x.threads.lookup n = some th → ThreadKept x.shared (recent n) th.track
  alone : ∀ n n' th th' slug, x.threads.lookup n = some th → x.threads.lookup n' = some th' →
    th.track.locked = some slug → th'.track.locked = some slug → n = n'
  uploads : ∀ n th, x.threads.lookup n = some th → inFlight th → ∀ h k, (h, k) ∈ th.track.put →
    Stored x.shared.store h
  watched : ∀ n th sites, x.threads.lookup n = some th → th.track.listed = some sites →
    ∀ n' th', x.threads.lookup n' = some th' → inFlight th' →
      ∀ h k, (h, k) ∈ th'.track.put → h ∈ recent n

section Effects

variable {b : Backend} {fileOf : String → String}

theorem Effect.of_same {t : Track} {s s' : Store} (hsites : s'.disk.sites = s.disk.sites)
    (hdeploys : s'.disk.deploys = s.disk.deploys) : Effect t s s' := by
  have hget : ∀ slug, s'.getSite slug = s.getSite slug := fun slug => by
    rw [Store.getSite, hsites, Store.getSite]
  have hdeploy : ∀ slug id, s'.getDeploy slug id = s.getDeploy slug id := fun slug id => by
    rw [Store.getDeploy, hdeploys, Store.getDeploy]
  refine ⟨fun slug id d hd h hh => .inl ⟨d, ?_, hh⟩, fun slug _ => hget slug,
    fun slug id d _ hd => hdeploy slug id ▸ hd⟩
  obtain ⟨m, hm, hid, hd⟩ := hd
  exact ⟨m, hget slug ▸ hm, hid, hdeploy slug id ▸ hd⟩

theorem effect_putDeploy {t : Track} {s : Store} {d : Deploy}
    (hguard : Guard t (.putDeploy d)) : Effect t s (s.putDeploy d true).2 := by
  have hget : ∀ slug id, (s.putDeploy d true).2.getDeploy slug id =
      if (slug, id) = (d.slug, d.id) then some d else s.getDeploy slug id := by
    intro slug id
    rw [Store.putDeploy, if_neg (by decide)]
    exact lookup_insert_eq ..
  refine ⟨fun slug id d' hd' h hh => ?_, fun _ _ => rfl, fun slug id d' hne hd' => ?_⟩
  · obtain ⟨m, hm, hid, hd'⟩ := hd'
    rw [hget] at hd'
    split at hd'
    next =>
      cases hd'
      obtain ⟨f, hf, hhash⟩ := List.mem_filterMap.mp hh
      obtain ⟨h', hh', hput⟩ := hguard.2 f hf
      rw [Option.some.inj (hhash.symm.trans hh')]
      exact .inr ⟨_, hput⟩
    next => exact .inl ⟨d', ⟨m, hm, hid, hd'⟩, hh⟩
  · rw [hget, if_neg] at hd'
    · exact hd'
    · intro heq
      exact hne ((Prod.mk.injEq .. ▸ heq).1 ▸ hguard.1)

theorem effect_deleteDeploy {t : Track} {s : Store} (slug id : String) :
    Effect t s (s.deleteDeploy slug id) := by
  have hold : ∀ slug' id' d, (s.deleteDeploy slug id).getDeploy slug' id' = some d →
      s.getDeploy slug' id' = some d := by
    intro slug' id' d hd
    rw [Store.getDeploy, Store.deleteDeploy, lookup_erase_eq] at hd
    split at hd
    next => cases hd
    next => exact hd
  refine ⟨fun slug' id' d hd h hh => ?_, fun _ _ => rfl, fun slug' id' d _ hd => hold _ _ _ hd⟩
  obtain ⟨m, hm, hid, hd⟩ := hd
  exact .inl ⟨d, ⟨m, hm, hid, hold _ _ _ hd⟩, hh⟩

/-- The site and the store after the write of a record that is not refused. -/
theorem getSite_putSite {s : Store} {m : SiteMeta} (hslug : m.slug ≠ "") (slug : String) :
    (s.putSite b m true).2.getSite slug = if slug = m.slug then some m else s.getSite slug := by
  rw [Store.putSite, if_neg hslug, if_neg (by decide)]
  exact lookup_insert_eq ..

theorem effect_putSite {n : Node} {recent : List Digest} {t : Track} (h : ThreadKept n recent t)
    (hown : Own n.store) {m : SiteMeta} (hguard : Guard t (.putSite m)) (hslug : m.slug ≠ "") :
    Effect t n.store (n.store.putSite b m true).2 := by
  obtain ⟨slug₀, m₀, hlocked, hsite, hsame, hids⟩ := hguard
  have hm₀ : n.store.getSite slug₀ = some m₀ := h.site slug₀ m₀ hlocked hsite
  have hslug₀ : m.slug = slug₀ := hsame.trans (hown slug₀ m₀ hm₀)
  have hdeploy : ∀ slug id, (n.store.putSite b m true).2.getDeploy slug id =
      n.store.getDeploy slug id := by
    intro slug id
    rw [Store.putSite, if_neg hslug, if_neg (by decide)]
    rfl
  refine ⟨fun slug id d hd hash hh => ?_, fun slug hne => ?_, fun slug id d _ hd => ?_⟩
  · obtain ⟨m', hm', hid, hd⟩ := hd
    rw [hdeploy] at hd
    rw [getSite_putSite hslug] at hm'
    split at hm'
    next heq =>
      cases hm'
      have hslug' : slug = slug₀ := heq.trans hslug₀
      subst hslug'
      rcases hids id hid with hold | hnew
      · exact .inl ⟨d, ⟨m₀, hm₀, hold, hd⟩, hh⟩
      · exact .inr (h.manifest slug id d hlocked hnew hd hash hh)
    next => exact .inl ⟨d, ⟨m', hm', hid, hd⟩, hh⟩
  · rw [getSite_putSite hslug, if_neg]
    rintro rfl
    exact hne (hslug₀ ▸ hlocked)
  · rw [hdeploy] at hd
    exact hd

/-- The write of a site's record is refused or fails, or it is as if it could not fail. -/
theorem putSite_answers (b : Backend) (s : Store) (m : SiteMeta) (written : Bool) :
    (∃ e, s.putSite b m written = (.error e, s)) ∨
      (m.slug ≠ "" ∧ s.putSite b m written = (.ok (), (s.putSite b m true).2)) := by
  rcases Decidable.em (m.slug = "") with hempty | hslug
  · left
    rw [Store.putSite, if_pos hempty]
    exact ⟨_, rfl⟩
  · cases written with
    | false =>
        left
        rw [Store.putSite, if_neg hslug, if_pos rfl]
        exact ⟨_, rfl⟩
    | true =>
        right
        rw [Store.putSite, if_neg hslug, if_neg (by decide)]
        exact ⟨hslug, rfl⟩

theorem putSite_cases (s : Store) (m : SiteMeta) (written : Bool) :
    (s.putSite b m written).2 = s ∨
      (m.slug ≠ "" ∧ s.putSite b m written = (.ok (), (s.putSite b m true).2)) :=
  (putSite_answers b s m written).imp_left fun ⟨_, hsame⟩ => congrArg Prod.snd hsame

theorem served_effect {n n' : Node} {recent : List Digest} {t : Track} {o : NodeOp}
    {ans : NodeAns o} (h : ThreadKept n recent t) (hown : Own n.store) (hguard : Guard t o)
    (hserves : Serves b fileOf n o ans n') : Effect t n.store n'.store := by
  cases hserves with
  | putSite _ m written =>
      rcases putSite_cases (b := b) n.store m written with hsame | ⟨hslug, hput⟩
      · rw [hsame]
        exact .of_same rfl rfl
      · rw [hput]
        exact effect_putSite h hown hguard hslug
  | putDeploy _ d written =>
      cases written with
      | false => exact .of_same rfl rfl
      | true => exact effect_putDeploy hguard
  | deleteDeploy _ slug id deleted =>
      cases deleted with
      | false => exact .of_same rfl rfl
      | true => exact effect_deleteDeploy slug id
  | putObject _ hash data written =>
      rw [Store.putObject]
      split
      next => exact .of_same rfl rfl
      next =>
        split
        next => exact .of_same rfl rfl
        next => exact .of_same rfl rfl
  | lookupTXT | deleteSite | resolveDomain | setDomain | deleteDomain => exact hguard.elim
  | _ => exact .of_same rfl rfl

/-- What is stored stays stored, but for the object that is deleted. -/
theorem served_stored {n n' : Node} {o : NodeOp} {ans : NodeAns o}
    (hserves : Serves b fileOf n o ans n') {h : Digest} (hstored : Stored n.store h)
    (hnot : o ≠ .deleteObject h) : Stored n'.store h := by
  cases hserves with
  | putSite _ m written =>
      rcases putSite_cases (b := b) n.store m written with hsame | ⟨hslug, hput⟩
      · rw [hsame]
        exact hstored
      · rw [hput, Store.putSite, if_neg hslug, if_neg (by decide)]
        exact hstored
  | putDeploy _ d written =>
      cases written with
      | false => exact hstored
      | true => exact hstored
  | deleteDeploy _ slug id deleted =>
      cases deleted with
      | false => exact hstored
      | true => exact hstored
  | putObject _ hash data written =>
      rw [Store.putObject]
      split
      next => exact hstored
      next =>
        split
        next => exact hstored
        next =>
          rw [Stored, lookup_insert_eq]
          split
          next => rfl
          next => exact hstored
  | deleteObject _ hash =>
      rw [Stored, Store.deleteObject, lookup_erase_eq, if_neg]
      · exact hstored
      · rintro rfl
        exact hnot rfl
  | deleteSite _ slug =>
      cases b with
      | fs => exact hstored
      | s3 =>
          change Stored (Store.S3.deleteSite fileOf slug n.store) h
          unfold Store.S3.deleteSite
          cases n.store.getSite slug with
          | none => exact hstored
          | some m => exact hstored
  | setDomain _ domain slug written =>
      rw [Store.setDomain]
      split
      next => exact hstored
      next =>
        split
        next => exact hstored
        next => exact hstored
  | _ => exact hstored

/-- An object that has been put is stored. -/
theorem put_stored {s : Store} (hindexed : ∀ h, (s.mem.objIndex.lookup h).isSome → Stored s h)
    {hash : Digest} {data : Bytes} {written : Bool}
    (hok : (s.putObject b hash data written).1 = .ok ()) :
    Stored (s.putObject b hash data written).2 hash := by
  rw [Store.putObject] at hok ⊢
  split
  next hknown =>
    refine hindexed hash ?_
    cases b with
    | fs => exact (Bool.and_eq_true_iff.mp hknown).1
    | s3 => exact hknown
  next hnew =>
    rw [if_neg hnew] at hok
    split
    next hfail =>
      rw [if_pos hfail] at hok
      cases hok
    next =>
      rw [Stored, lookup_insert_eq, if_pos rfl]
      rfl

theorem Shape.of_same {s s' : Store} (h : Shape b s) (hsites : s'.disk.sites = s.disk.sites)
    (hpresent : s'.mem.sites = s.mem.sites)
    (hindexed : ∀ h, (s'.mem.objIndex.lookup h).isSome → Stored s' h) : Shape b s' := by
  have hget : ∀ slug, s'.getSite slug = s.getSite slug := fun slug => by
    rw [Store.getSite, hsites, Store.getSite]
  refine ⟨fun slug m hm => h.own slug m (hget slug ▸ hm), hindexed, fun hs3 slug m hm => ?_⟩
  rw [hpresent]
  exact h.slugs hs3 slug m (hget slug ▸ hm)

theorem Shape.putSite {s : Store} (h : Shape b s) {m : SiteMeta} (hslug : m.slug ≠ "") :
    Shape b (s.putSite b m true).2 := by
  constructor
  · intro slug x hx
    rw [getSite_putSite hslug] at hx
    split at hx
    next heq =>
      cases hx
      exact heq.symm
    next => exact h.own slug x hx
  · intro hash hin
    rw [Store.putSite, if_neg hslug, if_neg (by decide)] at hin ⊢
    exact h.indexed hash hin
  · rintro rfl slug x hx
    rw [getSite_putSite hslug] at hx
    rw [Store.putSite, if_neg hslug, if_neg (by decide)]
    change slug ∈ Store.withSlug .s3 m.slug s.mem.sites
    rw [Store.withSlug]
    split at hx
    next heq =>
      rw [heq]
      split
      next hin => exact hin
      next => exact List.mem_cons_self
    next =>
      have hold := h.slugs rfl slug x hx
      split
      next => exact hold
      next => exact List.mem_cons_of_mem _ hold

theorem Shape.putObject {s : Store} (h : Shape b s) (hash : Digest) (data : Bytes)
    (written : Bool) : Shape b (s.putObject b hash data written).2 := by
  rw [Store.putObject]
  split
  next => exact h
  next =>
    split
    next => exact h
    next =>
      refine h.of_same rfl ?_ fun hash' hin => ?_
      · dsimp only
        split
        next => rfl
        next => rfl
      · rw [Stored, lookup_insert_eq]
        split
        next => rfl
        next hne =>
          refine h.indexed hash' ?_
          dsimp only at hin
          split at hin
          next => exact hin
          next =>
            rw [lookup_insert_eq, if_neg hne] at hin
            exact hin

theorem Shape.deleteObject {s : Store} (h : Shape b s) (hash : Digest) :
    Shape b (s.deleteObject hash) := by
  refine h.of_same rfl ?_ fun hash' hin => ?_
  · rw [Store.deleteObject]
    dsimp only
    split
    next => rfl
    next => rfl
  · rw [Store.deleteObject] at hin
    dsimp only at hin
    rw [Stored, Store.deleteObject, lookup_erase_eq]
    split at hin
    next hnone =>
      rw [if_neg]
      · exact h.indexed hash' hin
      · rintro rfl
        rw [hnone] at hin
        cases hin
    next =>
      rw [lookup_erase_eq] at hin
      split at hin
      next => cases hin
      next hne =>
        rw [if_neg hne]
        exact h.indexed hash' hin

theorem served_shape {n n' : Node} {t : Track} {o : NodeOp} {ans : NodeAns o}
    (h : Shape b n.store) (hguard : Guard t o) (hserves : Serves b fileOf n o ans n') :
    Shape b n'.store := by
  cases hserves with
  | putSite _ m written =>
      rcases putSite_cases (b := b) n.store m written with hsame | ⟨hslug, hput⟩
      · rw [hsame]
        exact h
      · rw [hput]
        exact h.putSite hslug
  | putDeploy _ d written =>
      cases written with
      | false => exact h
      | true => exact h.of_same rfl rfl h.indexed
  | deleteDeploy _ slug id deleted =>
      cases deleted with
      | false => exact h
      | true => exact h.of_same rfl rfl h.indexed
  | putObject _ hash data written => exact h.putObject hash data written
  | deleteObject _ hash => exact h.deleteObject hash
  | lookupTXT | deleteSite | resolveDomain | setDomain | deleteDomain => exact hguard.elim
  | _ => exact h

end Effects

section Threads

variable {b : Backend} {fileOf : String → String}

/-- What covers the hashes of the retained deploys still does after an operation
whose thread has put nothing that is not recent. -/
theorem ThreadKept.cover_effect {n n' : Node} {recent : List Digest} {t t₀ : Track}
    (h : ThreadKept n recent t) (heffect : Effect t₀ n.store n'.store)
    (hput : ∀ sites, t.listed = some sites → ∀ hash k, (hash, k) ∈ t₀.put → hash ∈ recent) :
    ∀ sites, t.listed = some sites → ∀ slug id d, Retained n'.store slug id d → ∀ hash ∈ d.hashes,
      hash ∈ recent ∨ hash ∈ t.refs ∨ ((slug, id) ∈ keysOf sites ∧ (slug, id) ∉ t.read) := by
  intro sites hsites slug id d hd hash hh
  rcases heffect.retained slug id d hd hash hh with ⟨d₀, hd₀, hh₀⟩ | ⟨k, hk⟩
  · exact h.cover sites hsites slug id d₀ hd₀ hash hh₀
  · exact .inl (hput sites hsites hash k hk)

/-- Another thread, after an operation of a thread that holds other locks. -/
theorem ThreadKept.other {n n' : Node} {recent recent' : List Digest} {t t₀ : Track}
    (h : ThreadKept n recent t) (heffect : Effect t₀ n.store n'.store)
    (hlocks : ∀ slug, t.locked = some slug → slug ∈ n'.locks)
    (halone : ∀ slug, t.locked = some slug → t₀.locked ≠ some slug)
    (hrecent : recent ⊆ recent')
    (hput : ∀ sites, t.listed = some sites → ∀ hash k, (hash, k) ∈ t₀.put → hash ∈ recent) :
    ThreadKept n' recent' t := by
  refine ⟨hlocks, fun slug m hlocked hm => ?_, fun slug id d hlocked hmanifest hd => ?_,
    fun sites hsites slug id d hd hash hh => ?_⟩
  · rw [heffect.site slug (halone slug hlocked)]
    exact h.site slug m hlocked hm
  · exact h.manifest slug id d hlocked hmanifest (heffect.deploy slug id d (halone slug hlocked) hd)
  · exact (h.cover_effect heffect hput sites hsites slug id d hd hash hh).imp_left (hrecent ·)

/-- The record and the manifest of the site that a thread has locked, after a
quiet operation of it. -/
theorem ThreadKept.quiet {n n' : Node} {recent recent' : List Digest} {t t' : Track}
    (h : ThreadKept n recent t) (hsites : n'.store.disk.sites = n.store.disk.sites)
    (hdeploys : n'.store.disk.deploys = n.store.disk.deploys) (hlocks : n'.locks = n.locks)
    (hlocked : t'.locked = t.locked) (hsite : t'.site = t.site)
    (hmanifest : t'.manifest = t.manifest) (hput : t.put ⊆ t'.put)
    (hcover : ∀ sites, t'.listed = some sites → ∀ slug id d, Retained n'.store slug id d →
      ∀ hash ∈ d.hashes, hash ∈ recent' ∨ hash ∈ t'.refs ∨
        ((slug, id) ∈ keysOf sites ∧ (slug, id) ∉ t'.read)) :
    ThreadKept n' recent' t' := by
  refine ⟨fun slug hl => ?_, fun slug m hl hm => ?_, fun slug id d hl hmf hd hash hh => ?_, hcover⟩
  · rw [hlocks]
    exact h.locked slug (hlocked ▸ hl)
  · rw [Store.getSite, hsites]
    exact h.site slug m (hlocked ▸ hl) (hsite ▸ hm)
  · rw [Store.getDeploy, hdeploys] at hd
    obtain ⟨k, hk⟩ := h.manifest slug id d (hlocked ▸ hl) (hmanifest ▸ hmf) hd hash hh
    exact ⟨k, hput hk⟩

/-- The thread of an operation, after it. -/
theorem ThreadKept.self {n n' : Node} {recent recent' : List Digest} {t : Track} {o : NodeOp}
    {ans : NodeAns o} (h : ThreadKept n recent t) (hshape : Shape b n.store) (hguard : Guard t o)
    (hserves : Serves b fileOf n o ans n') (hrecent : o ≠ .listSites → recent ⊆ recent')
    (hput : ∀ sites, t.listed = some sites → ∀ hash k, (hash, k) ∈ t.put → hash ∈ recent) :
    ThreadKept n' recent' (observe t o ans) := by
  have heffect := served_effect h hshape.own hguard hserves
  have hcover : o ≠ .listSites → ∀ sites, t.listed = some sites → ∀ slug id d,
      Retained n'.store slug id d → ∀ hash ∈ d.hashes,
        hash ∈ recent' ∨ hash ∈ t.refs ∨ ((slug, id) ∈ keysOf sites ∧ (slug, id) ∉ t.read) :=
    fun ho sites hsites slug id d hd hash hh =>
      (h.cover_effect heffect hput sites hsites slug id d hd hash hh).imp_left (hrecent ho ·)
  cases hserves with
  | lock _ slug _ =>
      refine ⟨fun slug' hl => ?_, (fun _ _ _ hm => by cases hm), (fun _ _ _ _ hm => by cases hm),
        hcover (fun ho => by cases ho)⟩
      cases hl
      exact List.mem_cons_self
  | unlock _ slug =>
      exact ⟨(fun _ hl => by cases hl), (fun _ _ hl => by cases hl), (fun _ _ _ hl => by cases hl),
        hcover (fun ho => by cases ho)⟩
  | getSite _ slug =>
      rw [observe]
      split
      next heq =>
        refine ⟨h.locked, fun slug' m hl hm => ?_, h.manifest, hcover (fun ho => by cases ho)⟩
        have hsame : slug' = slug := Option.some.inj (hl.symm.trans heq)
        rw [hsame]
        exact hm
      next => exact ⟨h.locked, h.site, h.manifest, hcover (fun ho => by cases ho)⟩
  | listSites _ sites hperm =>
      refine ⟨h.locked, h.site, h.manifest, fun sites' hsites slug id d hd hash hh => ?_⟩
      cases hsites
      refine .inr (.inr ⟨?_, List.not_mem_nil⟩)
      obtain ⟨m, hm, hid, _⟩ := hd
      refine mem_keysOf.mpr ⟨m, hperm.mem_iff.mpr (mem_listSites.mpr ⟨slug, ?_, hm⟩), id, hid, ?_⟩
      · exact fun hs3 => hshape.slugs hs3 slug m hm
      · rw [hshape.own slug m hm]
  | getDeploy _ slug id =>
      refine ⟨h.locked, h.site, h.manifest, fun sites hsites slug' id' d hd hash hh => ?_⟩
      rcases hcover (fun ho => by cases ho) sites hsites slug' id' d hd hash hh with
        hnew | hrefs | ⟨hkey, hunread⟩
      · exact .inl hnew
      · exact .inr (.inl (List.mem_append_right _ hrefs))
      · rcases Decidable.em ((slug', id') = (slug, id)) with heq | hne
        · cases heq
          refine .inr (.inl (List.mem_append_left _ ?_))
          obtain ⟨_, _, _, hfound⟩ := hd
          rw [hfound]
          exact hh
        · refine .inr (.inr ⟨hkey, fun hread => ?_⟩)
          exact (List.mem_cons.mp hread).elim hne hunread
  | putSite _ m written =>
      refine ⟨fun slug hl => h.locked slug hl, (fun _ _ _ hm => by cases hm),
        fun slug id d hl hmf hd => ?_, hcover (fun ho => by cases ho)⟩
      refine h.manifest slug id d hl hmf ?_
      rcases putSite_cases (b := b) n.store m written with hsame | ⟨hslug, hput⟩
      · rw [hsame] at hd
        exact hd
      · rw [hput, Store.putSite, if_neg hslug, if_neg (by decide)] at hd
        exact hd
  | putDeploy _ d written =>
      cases written with
      | false => exact ⟨h.locked, h.site, h.manifest, hcover (fun ho => by cases ho)⟩
      | true =>
          refine ⟨h.locked, h.site, fun slug id d' hl hmf hd' hash hh => ?_,
            hcover (fun ho => by cases ho)⟩
          cases hmf
          have hd : d' = d := by
            change ((n.store.putDeploy d true).2).getDeploy d.slug d.id = some d' at hd'
            rw [Store.putDeploy, if_neg (by decide), Store.getDeploy, lookup_insert_eq,
              if_pos rfl] at hd'
            exact (Option.some.inj hd').symm
          subst hd
          obtain ⟨f, hf, hhash⟩ := List.mem_filterMap.mp hh
          obtain ⟨hash', hhash', hmem⟩ := hguard.2 f hf
          rw [Option.some.inj (hhash.symm.trans hhash')]
          exact ⟨_, hmem⟩
  | deleteDeploy _ slug id deleted =>
      refine ⟨h.locked, fun slug' m hl hm => ?_, fun slug' id' d hl hmf hd => ?_,
        hcover (fun ho => by cases ho)⟩
      · cases deleted with
        | false => exact h.site slug' m hl hm
        | true => exact h.site slug' m hl hm
      · refine h.manifest slug' id' d hl hmf ?_
        cases deleted with
        | false => exact hd
        | true =>
            change (n.store.deleteDeploy slug id).getDeploy slug' id' = some d at hd
            rw [Store.getDeploy, Store.deleteDeploy, lookup_erase_eq] at hd
            split at hd
            next => cases hd
            next => exact hd
  | putObject _ hash data written =>
      have hserves : Serves b fileOf n (.putObject hash data) _ _ := .putObject n hash data written
      obtain ⟨hsites, hdeploys⟩ := serves_quiet (o := .putObject hash data) trivial hserves
      cases hans : (n.store.putObject b hash data written).1 with
      | error e =>
          exact h.quiet hsites hdeploys rfl rfl rfl rfl (List.Subset.refl _)
            (hcover (fun ho => by cases ho))
      | ok =>
          exact h.quiet hsites hdeploys rfl rfl rfl rfl (List.subset_cons_self _ _)
            (hcover (fun ho => by cases ho))
  | lookupTXT | deleteSite | resolveDomain | setDomain | deleteDomain => exact hguard.elim
  | _ => exact ⟨h.locked, h.site, h.manifest, hcover (fun ho => by cases ho)⟩

end Threads

section Steps

variable {b : Backend} {fileOf : String → String}

theorem observe_put {t : Track} {o : NodeOp} {ans : NodeAns o} {h : Digest} {k : ℤ}
    (hmem : (h, k) ∈ (observe t o ans).put) :
    (h, k) ∈ t.put ∨ ∃ data, (⟨o, ans⟩ : Call NodeOp NodeAns) = ⟨.putObject h data, .ok ()⟩ := by
  cases o with
  | getSite slug =>
      rw [observe] at hmem
      split at hmem
      next => exact .inl hmem
      next => exact .inl hmem
  | listSites =>
      cases ans with
      | error e => exact .inl hmem
      | ok sites => exact .inl hmem
  | putObject hash data =>
      cases ans with
      | error e => exact .inl hmem
      | ok =>
          rcases List.mem_cons.mp hmem with heq | hold
          · cases heq
            exact .inr ⟨data, rfl⟩
          · exact .inl hold
  | putDeploy d =>
      cases ans with
      | error e => exact .inl hmem
      | ok => exact .inl hmem
  | _ => exact .inl hmem

theorem observe_locked {t : Track} {o : NodeOp} {ans : NodeAns o} {slug : String}
    (hlocked : (observe t o ans).locked = some slug) : t.locked = some slug ∨ o = .lock slug := by
  cases o with
  | lock slug' =>
      cases hlocked
      exact .inr rfl
  | unlock => cases hlocked
  | getSite slug' =>
      rw [observe] at hlocked
      split at hlocked
      next => exact .inl hlocked
      next => exact .inl hlocked
  | listSites =>
      cases ans with
      | error e => exact .inl hlocked
      | ok sites => exact .inl hlocked
  | putObject hash data =>
      cases ans with
      | error e => exact .inl hlocked
      | ok => exact .inl hlocked
  | putDeploy d =>
      cases ans with
      | error e => exact .inl hlocked
      | ok => exact .inl hlocked
  | _ => exact .inl hlocked

theorem observe_listed {t : Track} {o : NodeOp} {ans : NodeAns o} (ho : o ≠ .listSites) :
    (observe t o ans).listed = t.listed := by
  cases o with
  | getSite slug =>
      rw [observe]
      split
      next => rfl
      next => rfl
  | listSites => exact absurd rfl ho
  | putObject hash data =>
      cases ans with
      | error e => rfl
      | ok => rfl
  | putDeploy d =>
      cases ans with
      | error e => rfl
      | ok => rfl
  | _ => rfl

theorem watch_subset {x : WorkPool} {n : ℕ} {o : NodeOp} {ans : NodeAns o} {recent : ℕ → List Digest}
    {m : ℕ} (h : m = n → o ≠ .listSites) : recent m ⊆ watch x (.op n o ans) recent m := by
  cases o with
  | listSites =>
      have hne : m ≠ n := fun heq => h heq rfl
      change recent m ⊆ Function.update recent n (uploading x) m
      rw [Function.update_of_ne hne]
      exact List.Subset.refl _
  | putObject hash data =>
      cases ans with
      | error e => exact List.Subset.refl _
      | ok => exact List.subset_cons_self _ _
  | _ => exact List.Subset.refl _

/-- A lock that another thread holds stays held. -/
theorem served_locks {n n' : Node} {t : Track} {o : NodeOp} {ans : NodeAns o}
    (hguard : Guard t o) (hserves : Serves b fileOf n o ans n') {slug : String}
    (hlocked : slug ∈ n.locks) (hne : t.locked ≠ some slug) : slug ∈ n'.locks := by
  cases hserves with
  | lock => exact List.mem_cons_of_mem _ hlocked
  | unlock _ slug' =>
      refine List.mem_filter.mpr ⟨hlocked, decide_eq_true fun heq => hne ?_⟩
      rw [heq]
      exact hguard
  | _ => exact hlocked

theorem served_lock {n n' : Node} {slug : String} {ans : Unit}
    (hserves : Serves b fileOf n (.lock slug) ans n') : slug ∉ n.locks := by
  cases hserves with
  | lock _ _ hfree => exact hfree

theorem served_put {n n' : Node} {hash : Digest} {data : Bytes}
    (hindexed : ∀ h, (n.store.mem.objIndex.lookup h).isSome → Stored n.store h)
    (hserves : Serves b fileOf n (.putObject hash data) (.ok ()) n') : Stored n'.store hash := by
  generalize hans : (Except.ok () : Except Err Unit) = ans at hserves
  cases hserves with
  | putObject _ _ _ written => exact put_stored hindexed hans.symm

theorem mem_uploading {x : WorkPool} {n : ℕ} {th : WorkThread}
    (hth : x.threads.lookup n = some th) (hflight : inFlight th) {h : Digest} {k : ℤ}
    (hput : (h, k) ∈ th.track.put) : h ∈ uploading x := by
  refine List.mem_flatMap.mpr ⟨th, mem_values.mpr ⟨n, hth⟩, ?_⟩
  rw [if_pos hflight]
  exact List.mem_map.mpr ⟨(h, k), hput, rfl⟩

section Pool

variable {x : WorkPool} {recent : ℕ → List Digest} {n : ℕ} {t : Track} {o : NodeOp}
variable {next : NodeAns o → NodeM Unit} {ans : NodeAns o} {s' : Node}

/-- What a sweep deletes is neither listed by a retained deploy nor uploaded by a
deploy in flight. -/
theorem Kept.spared (h : Kept b x recent) {th : WorkThread} (hthread : x.threads.lookup n = some th)
    {hash : Digest} (hguard : Guard th.track (.deleteObject hash)) (hgrace : hash ∉ recent n) :
    (∀ slug id d, Retained x.shared.store slug id d → hash ∉ d.hashes) ∧
    ∀ m th', x.threads.lookup m = some th' → inFlight th' → ∀ k, (hash, k) ∉ th'.track.put := by
  obtain ⟨⟨sites, hlisted, hread⟩, hrefs⟩ := hguard
  constructor
  · intro slug id d hd hh
    rcases (h.threads n th hthread).cover sites hlisted slug id d hd hash hh with
      hnew | hold | ⟨hkey, hunread⟩
    · exact hgrace hnew
    · exact hrefs hold
    · obtain ⟨m, hm, id', hid', heq⟩ := mem_keysOf.mp hkey
      exact hunread (heq ▸ hread m hm id' hid')
  · intro m th' hth' hflight k hk
    exact hgrace (h.watched n th sites hthread hlisted m th' hth' hflight hash k hk)

/-- The hashes that a thread in flight has put are recent for every listing. -/
theorem Kept.put_recent (h : Kept b x recent) (hthread : x.threads.lookup n = some ⟨.call o next, t⟩)
    {m : ℕ} {th : WorkThread} (hth : x.threads.lookup m = some th) :
    ∀ sites, th.track.listed = some sites → ∀ hash k, (hash, k) ∈ t.put → hash ∈ recent m :=
  fun sites hsites hash k hk => h.watched m th sites hth hsites n _ hthread rfl hash k hk

/-- What stays stored after an operation: an object that a retained deploy lists
or that a deploy in flight has uploaded. -/
theorem Kept.stays (h : Kept b x recent) (hthread : x.threads.lookup n = some ⟨.call o next, t⟩)
    (hguard : Guard t o) (hserves : Serves b fileOf x.shared o ans s')
    (hgrace : ∀ hash, o = .deleteObject hash → hash ∉ recent n) {hash : Digest}
    (hneeded : (∃ slug id d, Retained x.shared.store slug id d ∧ hash ∈ d.hashes) ∨
      ∃ m th k, x.threads.lookup m = some th ∧ inFlight th ∧ (hash, k) ∈ th.track.put) :
    Stored s'.store hash := by
  have hstored : Stored x.shared.store hash := by
    rcases hneeded with ⟨slug, id, d, hd, hh⟩ | ⟨m, th, k, hth, hflight, hk⟩
    · exact h.files slug id d hd hash hh
    · exact h.uploads m th hth hflight hash k hk
  refine served_stored hserves hstored ?_
  rintro rfl
  obtain ⟨hretained, hflights⟩ := h.spared hthread hguard (hgrace hash rfl)
  rcases hneeded with ⟨slug, id, d, hd, hh⟩ | ⟨m, th, k, hth, hflight, hk⟩
  · exact hretained slug id d hd hh
  · exact hflights m th hth hflight k hk

theorem Kept.op (h : Kept b x recent) (hthread : x.threads.lookup n = some ⟨.call o next, t⟩)
    (hguard : Guard t o) (hserves : Serves b fileOf x.shared o ans s')
    (hgrace : ∀ hash, o = .deleteObject hash → hash ∉ recent n) :
    Kept b { shared := s', threads := x.threads.insert n ⟨next ans, observe t o ans⟩ }
      (watch x (.op n o ans) recent) := by
  have ht := h.threads n _ hthread
  have heffect := served_effect ht h.shape.own hguard hserves
  have hstays : ∀ hash, ((∃ slug id d, Retained x.shared.store slug id d ∧ hash ∈ d.hashes) ∨
      ∃ m th k, x.threads.lookup m = some th ∧ inFlight th ∧ (hash, k) ∈ th.track.put) →
      Stored s'.store hash := fun _ => h.stays hthread hguard hserves hgrace
  have hothers : ∀ m th, m ≠ n → x.threads.lookup m = some th → ∀ slug,
      th.track.locked = some slug → t.locked ≠ some slug := by
    intro m th hne hth slug hl hl'
    exact hne (h.alone m n th _ slug hth hthread hl hl')
  constructor
  · exact served_shape h.shape hguard hserves
  · intro slug id d hd hash hh
    refine hstays hash ?_
    rcases heffect.retained slug id d hd hash hh with ⟨d₀, hd₀, hh₀⟩ | ⟨k, hk⟩
    · exact .inl ⟨slug, id, d₀, hd₀, hh₀⟩
    · exact .inr ⟨n, _, k, hthread, rfl, hk⟩
  · intro m th hth
    rw [lookup_insert_eq] at hth
    split at hth
    next heq =>
      cases hth
      subst heq
      exact ht.self h.shape hguard hserves (fun ho => watch_subset fun _ => ho)
        (h.put_recent hthread hthread)
    next hne =>
      refine (h.threads m th hth).other heffect (fun slug hl => ?_) (hothers m th hne hth)
        (watch_subset fun heq => absurd heq hne) (h.put_recent hthread hth)
      exact served_locks hguard hserves ((h.threads m th hth).locked slug hl)
        (hothers m th hne hth slug hl)
  · have hown : ∀ m th slug, m ≠ n → x.threads.lookup m = some th → th.track.locked = some slug →
        (observe t o ans).locked ≠ some slug := by
      intro m th slug hne hth hl hl'
      rcases observe_locked hl' with hold | rfl
      · exact hothers m th hne hth slug hl hold
      · exact served_lock hserves ((h.threads m th hth).locked slug hl)
    intro m m' th th' slug hth hth' hl hl'
    rw [lookup_insert_eq] at hth hth'
    split at hth
    next heq =>
      split at hth'
      next heq' => exact heq.trans heq'.symm
      next hne' =>
        cases hth
        exact absurd hl (hown m' th' slug hne' hth' hl')
    next hne =>
      split at hth'
      next =>
        cases hth'
        exact absurd hl' (hown m th slug hne hth hl)
      next => exact h.alone m m' th th' slug hth hth' hl hl'
  · intro m th hth hflight hash k hk
    rw [lookup_insert_eq] at hth
    split at hth
    next =>
      cases hth
      rcases observe_put hk with hold | ⟨data, heq⟩
      · exact hstays hash (.inr ⟨n, _, k, hthread, rfl, hold⟩)
      · cases heq
        exact served_put h.shape.indexed hserves
    next => exact hstays hash (.inr ⟨m, th, k, hth, hflight, hk⟩)
  · intro m th sites hth hsites m' th' hth' hflight hash k hk
    have hput : (∃ th₀, x.threads.lookup m' = some th₀ ∧ inFlight th₀ ∧ (hash, k) ∈ th₀.track.put) ∨
        ∃ data, (⟨o, ans⟩ : Call NodeOp NodeAns) = ⟨.putObject hash data, .ok ()⟩ := by
      rw [lookup_insert_eq] at hth'
      split at hth'
      next heq =>
        cases hth'
        exact (observe_put hk).imp_left fun hold => ⟨_, heq ▸ hthread, rfl, hold⟩
      next => exact .inl ⟨th', hth', hflight, hk⟩
    rcases hput with ⟨th₀, hth₀, hflight₀, hk₀⟩ | ⟨data, heq⟩
    · rw [lookup_insert_eq] at hth
      split at hth
      next heq =>
        cases hth
        subst heq
        rcases Classical.em (o = .listSites) with rfl | ho
        · change hash ∈ Function.update recent m (uploading x) m
          rw [Function.update_self]
          exact mem_uploading hth₀ hflight₀ hk₀
        · refine watch_subset (fun _ => ho) (h.watched m _ sites hthread ?_ m' th₀ hth₀ hflight₀ hash k hk₀)
          exact (observe_listed ho).symm.trans hsites
      next hne =>
        refine watch_subset (fun heq => absurd heq hne) ?_
        exact h.watched m th sites hth hsites m' th₀ hth₀ hflight₀ hash k hk₀
    · cases heq
      exact List.mem_cons_self

theorem Kept.start (h : Kept b x recent) (p : NodeM Unit) :
    Kept b { x with threads := x.threads.insert n ⟨p, .start⟩ } recent := by
  have hold : ∀ m th, (x.threads.insert n ⟨p, .start⟩).lookup m = some th →
      th.track = .start ∨ x.threads.lookup m = some th := by
    intro m th hth
    rw [lookup_insert_eq] at hth
    split at hth
    next =>
      cases hth
      exact .inl rfl
    next => exact .inr hth
  refine ⟨h.shape, h.files, fun m th hth => ?_, fun m m' th th' slug hth hth' hl hl' => ?_,
    fun m th hth hflight hash k hk => ?_, fun m th sites hth hsites m' th' hth' hflight hash k hk => ?_⟩
  · rcases hold m th hth with heq | hth
    · rw [heq]
      exact ⟨(fun _ hl => nomatch hl), (fun _ _ hl => nomatch hl), (fun _ _ _ hl => nomatch hl),
        (fun _ hl => nomatch hl)⟩
    · exact h.threads m th hth
  · rcases hold m th hth with heq | hth
    · rw [heq] at hl
      cases hl
    · rcases hold m' th' hth' with heq | hth'
      · rw [heq] at hl'
        cases hl'
      · exact h.alone m m' th th' slug hth hth' hl hl'
  · rcases hold m th hth with heq | hth
    · rw [heq] at hk
      exact absurd hk List.not_mem_nil
    · exact h.uploads m th hth hflight hash k hk
  · rcases hold m th hth with heq | hth
    · rw [heq] at hsites
      cases hsites
    · rcases hold m' th' hth' with heq | hth'
      · rw [heq] at hk
        exact absurd hk List.not_mem_nil
      · exact h.watched m th sites hth hsites m' th' hth' hflight hash k hk

end Pool

end Steps

/-- In every run of concurrent deploys and sweeps in which the sweeps give grace,
every file that a retained deploy lists is stored, in every state reached. -/
theorem retained_files_stored (b : Backend) (srv : Server) (n : Node) (x : WorkPool)
    (recent : ℕ → List Digest) (es : List WorkEvent) (hshape : Shape b n.store)
    (hfiles : FilesStored n.store)
    (hrun : Runs (fun x e y => Recorded (WorkStep b srv) watch x e y ∧ Grace x e)
      (⟨n, ∅⟩, fun _ => []) es (x, recent)) :
    FilesStored x.shared.store := by
  suffices hall : Guarantees observe Guard (fun _ _ => True) x ∧ Kept b x recent from hall.2.files
  have hinit : Kept b (⟨n, ∅⟩ : WorkPool) fun _ => [] :=
    ⟨hshape, hfiles, (fun _ _ hth => by simp at hth), (fun _ _ _ _ _ hth => by simp at hth),
      (fun _ _ hth => by simp at hth), (fun _ _ _ hth => by simp at hth)⟩
  have hstart : ∀ (n : Node) t p, StartWork srv n t p →
      Holds (Observes observe) Guard (fun _ _ => True) p t := by
    rintro n t p ⟨rfl, rfl | ⟨req, stream, rfl⟩⟩
    · exact sweepOrphans_guarded
    · exact (holds_map _ _ _).mpr (handleDeploy_guarded srv req stream)
  refine invariant_recorded hstart ?_ ?_ hrun (guarantees_empty n) hinit
  · rintro x recent n t p hx _ ⟨rfl, _⟩ _
    exact hx.start p
  · intro x recent n t o next ans s' hx hthread hguard hserves hgrace
    refine hx.op hthread hguard hserves fun hash ho => ?_
    subst ho
    exact hgrace n hash rfl

/-- A run that deletes no object gives grace. -/
theorem runs_graceful {b : Backend} {srv : Server} {x y : WorkPool} {es : List WorkEvent}
    (h : Runs (fun x e y => WorkStep b srv x e y ∧ ∀ n hash, e ≠ .op n (.deleteObject hash) ())
      x es y) (recent : ℕ → List Digest) :
    ∃ recent', Runs (fun x e y => Recorded (WorkStep b srv) watch x e y ∧ Grace x e)
      (x, recent) es (y, recent') := by
  induction h generalizing recent with
  | nil x => exact ⟨recent, .nil _⟩
  | @cons x y z e es hstep _ ih =>
      obtain ⟨recent', hrun⟩ := ih (watch x e recent)
      exact ⟨recent', .cons ⟨⟨hstep.1, rfl⟩, fun n hash heq => absurd heq (hstep.2 n hash)⟩ hrun⟩

/-- A node that holds the site a and the object hello, with these marks. -/
def orphanNode (marks : List Digest) : Node where
  store :=
    { disk :=
        { sites := (∅ : Dict String SiteMeta).insert "a" (sampleSite [])
          domains := ∅
          deploys := ∅
          objects := (∅ : Dict Digest Bytes).insert helloDigest hello }
      mem := ⟨(∅ : Dict Digest ℤ).insert helloDigest 5, 5, ∅, []⟩ }
  locks := []
  marked := marks

theorem shape_orphanNode (marks : List Digest) : Shape .fs (orphanNode marks).store where
  own := fun slug m hm => by
    have hin : (slug, m) ∈ pairs (orphanNode marks).store.disk.sites := mem_pairs.mpr hm
    cases List.mem_singleton.mp hin
    rfl
  indexed := fun h hin => by
    obtain ⟨k, hk⟩ := Option.isSome_iff_exists.mp hin
    have hmem : (h, k) ∈ pairs (orphanNode marks).store.mem.objIndex := mem_pairs.mpr hk
    cases List.mem_singleton.mp hmem
    rfl
  slugs := fun hs3 => by cases hs3

theorem filesStored_orphanNode (marks : List Digest) : FilesStored (orphanNode marks).store := by
  rintro slug id d ⟨_, _, _, hd⟩
  cases hd

theorem retained_files_stored_hello : ∃ es x recent,
    Runs (fun x e y => Recorded (WorkStep .fs (helloServer 1000)) watch x e y ∧ Grace x e)
      (⟨orphanNode [helloDigest], ∅⟩, fun _ => []) es (x, recent) ∧
    Retained x.shared.store "a" helloDeploy.id helloDeploy ∧ FilesStored x.shared.store := by
  have hsteps : ∃ n, Retained n.store "a" helloDeploy.id helloDeploy ∧
      Steps (Where (Serves .fs (helloServer 1000).fileOf) fun _ o _ => ∀ hash, o ≠ .deleteObject hash)
        (orphanNode [helloDigest])
        ((fun _ => ()) <$> handleDeploy (helloServer 1000) sampleReq helloBundle) n (.ret ()) := by
    refine ⟨_, ⟨helloSite, rfl, List.mem_singleton_self _, rfl⟩,
      Steps.met (some (sampleSite [])) (.getSite _ _) nofun <|
      Steps.met (5 : ℤ) (.totalBytes _) nofun <|
      Steps.met (.ok ()) (.putObject _ _ _ true) nofun <|
      Steps.met (⟨[0, 0, 0, 0], rfl⟩ : ByteArr 4) (.random _ _) nofun <|
      Steps.met (1 : ℤ) (.now _ _) nofun <| Steps.met (1 : ℤ) (.now _ _) nofun <|
      Steps.met () (.lock _ _ (by decide)) nofun <|
      Steps.met (some (sampleSite [])) (.getSite _ _) nofun <|
      Steps.met (.ok [sampleSite []]) (.listSites _ _ (List.Perm.refl _)) nofun <|
      Steps.met ((∅ : Dict Digest ℤ).insert helloDigest 5) (.listObjects _) nofun <|
      Steps.met (5 : ℤ) (.totalBytes _) nofun <|
      Steps.met (.ok ()) (.putDeploy _ _ true) nofun <| Steps.met (1 : ℤ) (.now _ _) nofun <|
      Steps.met (.ok ()) (.putSite _ _ true) nofun <| Steps.met () (.unlock _ _) nofun <|
      .refl _ _⟩
  obtain ⟨n, hretained, hsteps⟩ := hsteps
  have hkeeps : ∀ (x : WorkPool) m (o : NodeOp) (ans : NodeAns o),
      (∀ hash, o ≠ .deleteObject hash) →
        ∀ m' hash, (Event.op m o ans : WorkEvent) ≠ .op m' (.deleteObject hash) () := by
    rintro x m o ans ho m' hash heq
    cases heq
    exact ho hash rfl
  obtain ⟨es, x, hrun, rfl, _⟩ := runs_alone observe (StartWork (helloServer 1000))
    (fun _ e => ∀ m hash, e ≠ .op m (.deleteObject hash) ()) hkeeps 1 hsteps
    ⟨rfl, .inr ⟨sampleReq, helloBundle, rfl⟩⟩ nofun
  obtain ⟨recent, hrun⟩ := runs_graceful hrun fun _ => []
  exact ⟨es, x, recent, hrun, hretained, retained_files_stored .fs (helloServer 1000) _ x recent es
    (shape_orphanNode _) (filesStored_orphanNode _) hrun⟩

/-- A sweep deletes the marked object hello between its upload by a deploy, which
finds it stored, and the commit of the deploy. -/
theorem sweep_deletes_uploaded : ∃ es x,
    Runs (WorkStep .fs (helloServer 1000)) ⟨orphanNode [helloDigest], ∅⟩ es x ∧
    Shape .fs (orphanNode [helloDigest]).store ∧ FilesStored (orphanNode [helloDigest]).store ∧
    Retained x.shared.store "a" helloDeploy.id helloDeploy ∧
    ¬ Stored x.shared.store helloDigest ∧ ¬ FilesStored x.shared.store := by
  let objs : Dict Digest ℤ := (∅ : Dict Digest ℤ).insert helloDigest 5
  let es : List WorkEvent :=
    [.start 1 .start, .start 2 .start,
      .op 1 .listSites (.ok [sampleSite []]), .op 1 .listObjects objs,
      .op 2 (.getSite "a") (some (sampleSite [])), .op 2 .totalBytes (5 : ℤ),
      .op 2 (.putObject helloDigest hello) (.ok ()),
      .op 2 .random (⟨[0, 0, 0, 0], rfl⟩ : ByteArr 4), .op 2 .now (1 : ℤ), .op 2 .now (1 : ℤ),
      .op 1 .marked [helloDigest], .op 1 (.deleteObject helloDigest) (), .op 1 (.setMarked []) (),
      .op 2 (.lock "a") (), .op 2 (.getSite "a") (some (sampleSite [])),
      .op 2 .listSites (.ok [sampleSite []]), .op 2 .listObjects ∅, .op 2 .totalBytes (0 : ℤ),
      .op 2 (.putDeploy helloDeploy) (.ok ()), .op 2 .now (1 : ℤ),
      .op 2 (.putSite helloSite) (.ok ()), .op 2 (.unlock "a") ()]
  have hrun : ∃ x, Runs (WorkStep .fs (helloServer 1000)) ⟨orphanNode [helloDigest], ∅⟩ es x ∧
      Retained x.shared.store "a" helloDeploy.id helloDeploy ∧
      ¬ Stored x.shared.store helloDigest := by
    refine ⟨_, .cons (.start rfl ⟨rfl, .inl rfl⟩) <|
      .cons (.start rfl ⟨rfl, .inr ⟨sampleReq, helloBundle, rfl⟩⟩) <|
      .cons (.op rfl (.listSites _ _ (List.Perm.refl _))) <| .cons (.op rfl (.listObjects _)) <|
      .cons (.op rfl (.getSite _ _)) <| .cons (.op rfl (.totalBytes _)) <|
      .cons (.op rfl (.putObject _ _ _ true)) <| .cons (.op rfl (.random _ _)) <|
      .cons (.op rfl (.now _ _)) <| .cons (.op rfl (.now _ _)) <|
      .cons (.op rfl (.marked _)) <| .cons (.op rfl (.deleteObject _ _)) <|
      .cons (.op rfl (.setMarked _ _)) <| .cons (.op rfl (.lock _ _ (by decide))) <|
      .cons (.op rfl (.getSite _ _)) <| .cons (.op rfl (.listSites _ _ (List.Perm.refl _))) <|
      .cons (.op rfl (.listObjects _)) <| .cons (.op rfl (.totalBytes _)) <|
      .cons (.op rfl (.putDeploy _ _ true)) <| .cons (.op rfl (.now _ _)) <|
      .cons (.op rfl (.putSite _ _ true)) <| .cons (.op rfl (.unlock _ _)) <| .nil _,
      ⟨helloSite, rfl, List.mem_singleton_self _, rfl⟩, ?_⟩
    exact Bool.false_ne_true
  obtain ⟨x, hrun, hretained, hgone⟩ := hrun
  refine ⟨es, x, hrun, shape_orphanNode _, filesStored_orphanNode _, hretained, hgone, fun h => ?_⟩
  exact hgone (h "a" helloDeploy.id helloDeploy hretained helloDigest (by decide))

end Tactile.Publish.Sweep

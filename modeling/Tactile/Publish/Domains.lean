import Mathlib.Data.Set.Function
import Tactile.Publish.Handlers

/-!
Domain routing: what the domain map, the site records and the domain records of
a node have to do with each other, and which steps keep it.
-/

namespace Tactile.Publish.Domains

open Tactile.Lib.FiniteMap
open Tactile.Publish.Bundle Tactile.Publish.Records

/-- The site with the slug exists and lists the domain as verified. -/
def Listed (s : Store) (domain slug : String) : Prop :=
  ∃ m, s.getSite slug = some m ∧ ∃ e ∈ m.domains, e.name = domain ∧ e.verified = true

/-- Domain routing is exactly the verified claims. -/
structure Routed (s : Store) : Prop where
  resolves : ∀ domain slug, s.resolveDomain domain = some slug ↔ Listed s domain slug
  unique : ∀ domain slug slug', Listed s domain slug → Listed s domain slug' → slug = slug'

/-- Every domain record is of a site that lists the domain as verified. -/
def NoLeftover (s : Store) : Prop :=
  ∀ file rec, s.disk.domains.lookup file = some rec → Listed s rec.domain rec.slug

/-- What the site records, the domain records and the map have to do with each
other between requests; `D` holds the domains that have been asked for. -/
structure Consistent (b : Backend) (fileOf : String → String) (D : Set String) (s : Store) :
    Prop where
  own : ∀ slug m, s.getSite slug = some m → m.slug = slug ∧ slug ≠ ""
  names : ∀ slug m, s.getSite slug = some m → (m.domains.map DomainEntry.name).Nodup
  asked : ∀ slug m, s.getSite slug = some m → ∀ e ∈ m.domains, e.name ∈ D
  routed : ∀ domain slug, s.resolveDomain domain = some slug ↔ Listed s domain slug
  filed : ∀ domain slug, s.resolveDomain domain = some slug →
    s.disk.domains.lookup (fileOf domain) = some ⟨domain, slug⟩
  files : ∀ file rec, s.disk.domains.lookup file = some rec →
    file = fileOf rec.domain ∧ rec.domain ∈ D ∧ rec.slug ≠ ""
  exact : b = .s3 → ∀ file rec, s.disk.domains.lookup file = some rec →
    s.resolveDomain rec.domain = some rec.slug

variable {b : Backend} {fileOf : String → String} {D : Set String} {s : Store}

theorem Consistent.toRouted (h : Consistent b fileOf D s) : Routed s where
  resolves := h.routed
  unique := fun domain slug slug' hl hl' => by
    have hslug := (h.routed domain slug).mpr hl
    have hslug' := (h.routed domain slug').mpr hl'
    exact Option.some.inj (hslug.symm.trans hslug')

theorem Consistent.mem_asked (h : Consistent b fileOf D s) {domain slug : String}
    (hl : Listed s domain slug) : domain ∈ D := by
  obtain ⟨m, hm, e, he, rfl, _⟩ := hl
  exact h.asked slug m hm e he

theorem consistent_empty : Consistent b fileOf D (Store.load b ⟨∅, ∅, ∅, ∅⟩) where
  own := fun _ _ h => by simp [Store.getSite, Store.load] at h
  names := fun _ _ h => by simp [Store.getSite, Store.load] at h
  asked := fun _ _ h => by simp [Store.getSite, Store.load] at h
  routed := fun domain slug => by
    simp [Store.resolveDomain, Store.load, Store.loadDomains, values, ofPairs, Listed,
      Store.getSite]
  filed := fun _ _ h => by
    simp [Store.resolveDomain, Store.load, Store.loadDomains, values, ofPairs] at h
  files := fun _ _ h => by simp [Store.load] at h
  exact := fun _ _ _ h => by simp [Store.load] at h

/-- The entry of a site for a name, where names are not repeated. -/
theorem domain_eq_some {m : SiteMeta} (hnames : (m.domains.map DomainEntry.name).Nodup)
    {e : DomainEntry} (he : e ∈ m.domains) : m.domain e.name = some e := by
  cases hfind : m.domain e.name with
  | none =>
      have := List.find?_eq_none.mp hfind e he
      simp at this
  | some e' =>
      have hname : e'.name = e.name := by simpa using List.find?_some hfind
      have hmem : e' ∈ m.domains := List.mem_of_find?_eq_some hfind
      exact congrArg some (List.inj_on_of_nodup_map hnames hmem he hname)

section Steps

theorem putSite_written {m : SiteMeta} (hslug : m.slug ≠ "") :
    (s.putSite b m true).2 =
      { disk := { s.disk with sites := s.disk.sites.insert m.slug m }
        mem := { s.mem with sites := Store.withSlug b m.slug s.mem.sites } } := by
  rw [Store.putSite, if_neg hslug, if_neg (by decide)]

/-- A mapping is refused or not written, or the domain is free or already the
site's and the map and the domain's record say that it is the site's. -/
theorem setDomain_cases (fileOf : String → String) (s : Store) (domain slug : String)
    (written : Bool) :
    (∃ e, s.setDomain fileOf domain slug written = (.error e, s)) ∨
      ((s.setDomain fileOf domain slug written).1 = .ok () ∧
        (∀ other, s.resolveDomain domain = some other → other = slug) ∧
        (s.setDomain fileOf domain slug written).2.disk.sites = s.disk.sites ∧
        (∀ d, (s.setDomain fileOf domain slug written).2.resolveDomain d =
          if d = domain then some slug else s.resolveDomain d) ∧
        ∀ file, (s.setDomain fileOf domain slug written).2.disk.domains.lookup file =
          if file = fileOf domain then some ⟨domain, slug⟩ else s.disk.domains.lookup file) := by
  rw [Store.setDomain]
  split
  next => exact .inl ⟨_, rfl⟩
  next hfree =>
    split
    next => exact .inl ⟨_, rfl⟩
    next =>
      refine .inr ⟨rfl, fun other hother => ?_, rfl, fun d => lookup_insert_eq ..,
        fun file => lookup_insert_eq ..⟩
      rw [hother] at hfree
      simpa using hfree

/-- Writing a record that lists the same domains as verified as the site did. -/
theorem Consistent.putSite (h : Consistent b fileOf D s) {m : SiteMeta}
    (hsame : ∀ domain, (∃ e ∈ m.domains, e.name = domain ∧ e.verified = true) ↔
      Listed s domain m.slug)
    (hnames : (m.domains.map DomainEntry.name).Nodup) (hasked : ∀ e ∈ m.domains, e.name ∈ D)
    (written : Bool) : Consistent b fileOf D (s.putSite b m written).2 := by
  rw [Store.putSite]
  split
  next => exact h
  next hslug =>
    split
    next => exact h
    next =>
      have hget : ∀ slug m', (s.disk.sites.insert m.slug m).lookup slug = some m' →
          (slug = m.slug ∧ m' = m) ∨ s.getSite slug = some m' := by
        intro slug m' hm'
        rw [lookup_insert_eq] at hm'
        split at hm'
        next heq => exact .inl ⟨heq, (Option.some.inj hm').symm⟩
        next => exact .inr hm'
      refine ⟨fun slug m' hm' => ?_, fun slug m' hm' => ?_, fun slug m' hm' => ?_,
        fun domain slug => ?_, h.filed, h.files, h.exact⟩
      · rcases hget slug m' hm' with ⟨rfl, rfl⟩ | hold
        · exact ⟨rfl, hslug⟩
        · exact h.own slug m' hold
      · rcases hget slug m' hm' with ⟨rfl, rfl⟩ | hold
        · exact hnames
        · exact h.names slug m' hold
      · rcases hget slug m' hm' with ⟨rfl, rfl⟩ | hold
        · exact hasked
        · exact h.asked slug m' hold
      · refine (h.routed domain slug).trans ?_
        by_cases hself : slug = m.slug
        · subst hself
          rw [← hsame]
          simp [Listed, Store.getSite]
        · simp [Listed, Store.getSite, hself]

/-- What a request leaves in the map and in the domain's record when it gives a
domain to a site (`v` true) or takes it away. -/
structure Assigned (fileOf : String → String) (s s' : Store) (domain slug : String) (v : Bool) :
    Prop where
  sites : s'.disk.sites = s.disk.sites
  map : ∀ d, s'.resolveDomain d =
    if d = domain then (if v then some slug else none) else s.resolveDomain d
  disk : ∀ file, s'.disk.domains.lookup file =
    if file = fileOf domain then (if v then some ⟨domain, slug⟩ else none)
    else s.disk.domains.lookup file

/-- Giving a domain to a site or taking it away, and then writing a record of
the site that says so. -/
theorem Consistent.assign (h : Consistent b fileOf D s) (hinj : Set.InjOn fileOf D) {s' : Store}
    {domain : String} {m : SiteMeta} {v : Bool} (ha : Assigned fileOf s s' domain m.slug v)
    (hslug : m.slug ≠ "") (hdomain : domain ∈ D)
    (hfree : ∀ other, s.resolveDomain domain = some other → other = m.slug)
    (hlists : ∀ d, (∃ e ∈ m.domains, e.name = d ∧ e.verified = true) ↔
      if d = domain then v = true else Listed s d m.slug)
    (hnames : (m.domains.map DomainEntry.name).Nodup) (hasked : ∀ e ∈ m.domains, e.name ∈ D) :
    Consistent b fileOf D (s'.putSite b m true).2 := by
  have hsites : ∀ slug, (s'.putSite b m true).2.getSite slug =
      if slug = m.slug then some m else s.getSite slug := by
    intro slug
    rw [putSite_written hslug, Store.getSite, Store.getSite, ← ha.sites]
    exact lookup_insert_eq ..
  have hmap : ∀ d, (s'.putSite b m true).2.resolveDomain d =
      if d = domain then (if v then some m.slug else none) else s.resolveDomain d := by
    intro d
    rw [putSite_written hslug]
    exact ha.map d
  have hdisk : ∀ file, (s'.putSite b m true).2.disk.domains.lookup file =
      if file = fileOf domain then (if v then some ⟨domain, m.slug⟩ else none)
      else s.disk.domains.lookup file := by
    intro file
    rw [putSite_written hslug]
    exact ha.disk file
  generalize (s'.putSite b m true).2 = s' at hsites hmap hdisk ⊢
  have hget : ∀ slug m', s'.getSite slug = some m' →
      (slug = m.slug ∧ m' = m) ∨ s.getSite slug = some m' := by
    intro slug m' hm'
    rw [hsites] at hm'
    split at hm'
    next heq => exact .inl ⟨heq, (Option.some.inj hm').symm⟩
    next => exact .inr hm'
  have hlisted : ∀ d slug, Listed s' d slug ↔
      if slug = m.slug then (if d = domain then v = true else Listed s d m.slug)
      else Listed s d slug := by
    intro d slug
    rw [Listed, hsites]
    split
    next => simpa using hlists d
    next => exact Iff.rfl
  have hfile : ∀ d ∈ D, fileOf d = fileOf domain → d = domain :=
    fun d hd heq => hinj hd hdomain heq
  refine ⟨fun slug m' hm' => ?_, fun slug m' hm' => ?_, fun slug m' hm' => ?_,
    fun d slug => ?_, fun d slug hd => ?_, fun file rec hrec => ?_, fun hb file rec hrec => ?_⟩
  · rcases hget slug m' hm' with ⟨rfl, rfl⟩ | hold
    · exact ⟨rfl, hslug⟩
    · exact h.own slug m' hold
  · rcases hget slug m' hm' with ⟨rfl, rfl⟩ | hold
    · exact hnames
    · exact h.names slug m' hold
  · rcases hget slug m' hm' with ⟨rfl, rfl⟩ | hold
    · exact hasked
    · exact h.asked slug m' hold
  · rw [hlisted, hmap]
    by_cases hd : d = domain
    · subst hd
      by_cases hself : slug = m.slug
      · subst hself
        simp
      · simp only [if_true, hself, if_false]
        constructor
        · intro hres
          split at hres
          next => exact absurd (Option.some.inj hres).symm hself
          next => cases hres
        · intro hl
          exact absurd (hfree slug ((h.routed d slug).mpr hl)) hself
    · rw [if_neg hd, h.routed]
      by_cases hself : slug = m.slug
      · simp [hself, hd]
      · simp [hself]
  · rw [hmap] at hd
    rw [hdisk]
    split at hd
    next heq =>
      subst heq
      cases v with
      | true => rw [← Option.some.inj hd]; simp
      | false => cases hd
    next hne =>
      have hmem := h.mem_asked ((h.routed d slug).mp hd)
      rw [if_neg fun heq => hne (hfile d hmem heq)]
      exact h.filed d slug hd
  · rw [hdisk] at hrec
    split at hrec
    next heq =>
      cases v with
      | true =>
          rw [← Option.some.inj hrec]
          exact ⟨heq, hdomain, hslug⟩
      | false => cases hrec
    next => exact h.files file rec hrec
  · rw [hdisk] at hrec
    rw [hmap]
    split at hrec
    next heq =>
      cases v with
      | true => rw [← Option.some.inj hrec]; simp
      | false => cases hrec
    next hne =>
      have hname := (h.files file rec hrec).1
      have hother : rec.domain ≠ domain := fun heq => hne (by rw [hname, heq])
      rw [if_neg hother]
      exact h.exact hb file rec hrec

/-- What the deletion of a site leaves: its record and its entries in the map
are gone, every domain record of another site is kept, and over an object
service no domain record of the site is. -/
structure Dropped (b : Backend) (s s' : Store) (slug : String) : Prop where
  sites : ∀ sl, s'.getSite sl = if sl = slug then none else s.getSite sl
  map : ∀ d, s'.resolveDomain d = (s.resolveDomain d).filter (· ≠ slug)
  sub : ∀ file rec, s'.disk.domains.lookup file = some rec → s.disk.domains.lookup file = some rec
  kept : ∀ file rec, s.disk.domains.lookup file = some rec → rec.slug ≠ slug →
    s'.disk.domains.lookup file = some rec
  gone : b = .s3 → ∀ file rec, s'.disk.domains.lookup file = some rec → rec.slug ≠ slug

theorem Consistent.drop (h : Consistent b fileOf D s) {s' : Store} {slug : String}
    (hd : Dropped b s s' slug) : Consistent b fileOf D s' := by
  have hget : ∀ sl m, s'.getSite sl = some m → s.getSite sl = some m := by
    intro sl m hm
    rw [hd.sites] at hm
    split at hm
    next => cases hm
    next => exact hm
  have hres : ∀ d sl, s'.resolveDomain d = some sl ↔ s.resolveDomain d = some sl ∧ sl ≠ slug := by
    intro d sl
    rw [hd.map, Option.filter_eq_some_iff]
    simp
  refine ⟨fun sl m hm => h.own sl m (hget sl m hm), fun sl m hm => h.names sl m (hget sl m hm),
    fun sl m hm => h.asked sl m (hget sl m hm), fun d sl => ?_, fun d sl hsl => ?_,
    fun file rec hrec => h.files file rec (hd.sub file rec hrec), fun hb file rec hrec => ?_⟩
  · rw [hres, h.routed, Listed, Listed, hd.sites]
    by_cases hsl : sl = slug
    · simp [hsl]
    · simp [hsl]
  · obtain ⟨hold, hne⟩ := (hres d sl).mp hsl
    exact hd.kept _ _ (h.filed d sl hold) hne
  · exact (hres _ _).mpr ⟨h.exact hb file rec (hd.sub file rec hrec), hd.gone hb file rec hrec⟩

private theorem lookup_foldl_erase (keys : List String) (files : Dict String DomainRecord)
    (file : String) (rec : DomainRecord) :
    (keys.foldl (fun f d => f.erase (fileOf d)) files).lookup file = some rec ↔
      files.lookup file = some rec ∧ ∀ d ∈ keys, file ≠ fileOf d := by
  induction keys generalizing files with
  | nil => simp
  | cons d keys ih =>
      rw [List.foldl_cons, ih, lookup_erase_eq]
      by_cases hfile : file = fileOf d
      · simp [hfile]
      · simp [hfile]

theorem dropped_fs (s : Store) (slug : String) : Dropped .fs s (Store.FS.deleteSite slug s) slug where
  sites := fun sl => lookup_erase_eq ..
  map := fun d => by
    rw [Store.FS.deleteSite, Store.resolveDomain, lookup_select]
    rfl
  sub := fun _ _ h => h
  kept := fun _ _ h _ => h
  gone := fun h => by cases h

theorem Consistent.dropped_s3 (h : Consistent .s3 fileOf D s) (slug : String) :
    Dropped .s3 s (Store.S3.deleteSite fileOf slug s) slug := by
  have hmapped : ∀ d sl, s.resolveDomain d = some sl → ∃ m, s.getSite sl = some m := fun d sl hd => by
    obtain ⟨m, hm, _⟩ := (h.routed d sl).mp hd
    exact ⟨m, hm⟩
  cases hsite : s.getSite slug with
  | none =>
      have hdel : Store.S3.deleteSite fileOf slug s =
          { s with disk := { s.disk with sites := s.disk.sites.erase slug } } := by
        rw [Store.S3.deleteSite, hsite]
      have hnot : ∀ d sl, s.resolveDomain d = some sl → sl ≠ slug := by
        rintro d sl hd rfl
        obtain ⟨m, hm⟩ := hmapped d sl hd
        rw [hsite] at hm
        cases hm
      rw [hdel]
      refine ⟨fun sl => lookup_erase_eq .., fun d => ?_, fun _ _ hrec => hrec,
        fun _ _ hrec _ => hrec, fun hb file rec hrec => hnot _ _ (h.exact hb file rec hrec)⟩
      change s.resolveDomain d = _
      cases hd : s.resolveDomain d with
      | none => rfl
      | some sl => simp [Option.filter, hnot d sl hd]
  | some m =>
      have hfiles : ∀ file rec,
          (Store.S3.deleteSite fileOf slug s).disk.domains.lookup file = some rec ↔
            s.disk.domains.lookup file = some rec ∧
              ∀ d, s.resolveDomain d = some slug → file ≠ fileOf d := by
        intro file rec
        rw [Store.S3.deleteSite, hsite]
        refine (lookup_foldl_erase _ _ file rec).trans ?_
        simp [mem_keysWhere, Store.resolveDomain]
      have hsites : ∀ sl, (Store.S3.deleteSite fileOf slug s).getSite sl =
          if sl = slug then none else s.getSite sl := by
        intro sl
        rw [Store.S3.deleteSite, hsite]
        exact lookup_erase_eq ..
      have hmap : ∀ d, (Store.S3.deleteSite fileOf slug s).resolveDomain d =
          (s.resolveDomain d).filter (· ≠ slug) := by
        intro d
        rw [Store.S3.deleteSite, hsite, Store.resolveDomain, lookup_select]
        rfl
      refine ⟨hsites, hmap, fun file rec hrec => ((hfiles file rec).mp hrec).1,
        fun file rec hrec hne => (hfiles file rec).mpr ⟨hrec, ?_⟩, fun hb file rec hrec => ?_⟩
      · rintro d hd rfl
        have hown := h.filed d slug hd
        rw [hrec] at hown
        exact hne (congrArg DomainRecord.slug (Option.some.inj hown))
      · obtain ⟨hold, hnone⟩ := (hfiles file rec).mp hrec
        rintro rfl
        exact hnone rec.domain (h.exact hb file rec hold) (h.files file rec hold).1

/-- The map that a reload builds holds the domain records. -/
theorem Consistent.lookup_loadDomains (h : Consistent b fileOf D s) (hD : "" ∉ D)
    (domain slug : String) :
    (Store.loadDomains s.disk.domains).lookup domain = some slug ↔
      ∃ file, s.disk.domains.lookup file = some ⟨domain, slug⟩ := by
  have hmem : ∀ d sl, (d, sl) ∈ ((values s.disk.domains).filter fun rec =>
      rec.domain ≠ "" ∧ rec.slug ≠ "").map (fun rec => (rec.domain, rec.slug)) ↔
        ∃ file, s.disk.domains.lookup file = some ⟨d, sl⟩ := by
    intro d sl
    rw [List.mem_map]
    constructor
    · rintro ⟨rec, hrec, heq⟩
      obtain ⟨hval, _⟩ := List.mem_filter.mp hrec
      obtain ⟨file, hfile⟩ := mem_values.mp hval
      cases heq
      exact ⟨file, hfile⟩
    · rintro ⟨file, hfile⟩
      obtain ⟨_, hasked, hslug⟩ := h.files file _ hfile
      have hne : d ≠ "" := fun heq => hD (heq ▸ hasked)
      refine ⟨⟨d, sl⟩, List.mem_filter.mpr ⟨mem_values.mpr ⟨file, hfile⟩, ?_⟩, rfl⟩
      exact decide_eq_true ⟨hne, hslug⟩
  rw [Store.loadDomains, lookup_ofPairs, hmem]
  intro d sl sl' hsl hsl'
  obtain ⟨file, hfile⟩ := (hmem d sl).mp hsl
  obtain ⟨file', hfile'⟩ := (hmem d sl').mp hsl'
  have hsame : file = file' := (h.files file _ hfile).1.trans (h.files file' _ hfile').1.symm
  rw [hsame, hfile'] at hfile
  exact (congrArg DomainRecord.slug (Option.some.inj hfile)).symm

/-- A reload keeps the routing exactly when no domain record is left over. -/
theorem Consistent.reload_iff (h : Consistent b fileOf D s) (hD : "" ∉ D) {s' : Store}
    (hdisk : s'.disk = s.disk) (hmap : s'.mem.domains = Store.loadDomains s.disk.domains) :
    Consistent b fileOf D s' ↔ NoLeftover s := by
  have hget : ∀ slug, s'.getSite slug = s.getSite slug := fun slug => by
    rw [Store.getSite, hdisk, Store.getSite]
  have hlisted : ∀ d slug, Listed s' d slug ↔ Listed s d slug := fun d slug => by
    rw [Listed, hget, Listed]
  have hres : ∀ d slug, s'.resolveDomain d = some slug ↔
      ∃ file, s.disk.domains.lookup file = some ⟨d, slug⟩ := fun d slug => by
    rw [Store.resolveDomain, hmap]
    exact h.lookup_loadDomains hD d slug
  constructor
  · intro h' file rec hrec
    exact (hlisted _ _).mp ((h'.routed _ _).mp ((hres _ _).mpr ⟨file, hrec⟩))
  · intro hleft
    refine ⟨fun slug m hm => h.own slug m (hget slug ▸ hm),
      fun slug m hm => h.names slug m (hget slug ▸ hm),
      fun slug m hm => h.asked slug m (hget slug ▸ hm), fun d slug => ?_, fun d slug hd => ?_, ?_, ?_⟩
    · rw [hres, hlisted]
      constructor
      · rintro ⟨file, hfile⟩
        exact hleft file _ hfile
      · intro hl
        exact ⟨_, h.filed d slug ((h.routed d slug).mpr hl)⟩
    · obtain ⟨file, hfile⟩ := (hres d slug).mp hd
      have hname := (h.files file _ hfile).1
      subst hname
      rw [hdisk]
      exact hfile
    · rw [hdisk]
      exact h.files
    · intro _ file rec hrec
      rw [hdisk] at hrec
      exact (hres _ _).mpr ⟨file, hrec⟩

/-- Over an object service no domain record is ever left over. -/
theorem Consistent.noLeftover_s3 (h : Consistent .s3 fileOf D s) : NoLeftover s :=
  fun file rec hrec => (h.routed _ _).mp (h.exact rfl file rec hrec)

end Steps

end Tactile.Publish.Domains

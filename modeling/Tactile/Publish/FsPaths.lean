import Tactile.Lib.CleanPath
import Tactile.Publish.SiteThreads

/-!
The file paths that the file-system store builds from slugs, and a node over the files
at these paths.
-/

namespace Tactile.Publish.FsPaths

open Tactile.Lib.Program Tactile.Lib.FiniteMap Tactile.Lib.CleanPath Tactile.Lib.Split
open Tactile.Publish.Bundle Tactile.Publish.Records Tactile.Publish.NodeOps
open Tactile.Publish.Handlers
open scoped List

section Model

def metaName : Text := "meta".toList

def sitesName : Text := "sites".toList

def deploysName : Text := "deploys".toList

def jsonName (name : String) : Text := name.toList ++ ".json".toList

def sitePath (dir : Text) (slug : String) : CleanedPath :=
  join [dir, metaName, sitesName, jsonName slug]

def sitesDir (dir : Text) : CleanedPath := join [dir, metaName, sitesName]

/-- What `DeleteSite` removes beside the record. -/
def siteDir (dir : Text) (slug : String) : CleanedPath := join [dir, sitesName, slug.toList]

def deploysDir (dir : Text) (slug : String) : CleanedPath :=
  join [dir, sitesName, slug.toList, deploysName]

def deployPath (dir : Text) (slug id : String) : CleanedPath :=
  join [dir, sitesName, slug.toList, deploysName, jsonName id]

/-- The content of a file: a site record or a deploy manifest. -/
inductive File
  | site (m : SiteMeta)
  | deploy (d : Deploy)

abbrev Files : Type := Dict CleanedPath File

/-- A file read as a site record: a manifest has the slug and the time of one. -/
def File.asSite : File → SiteMeta
  | .site m => m
  | .deploy d =>
    { slug := d.slug, owner := ⟨List.replicate 32 0, Lib.ByteString.length_zeros32⟩, title := ""
      created := d.created, updated := 0, current := "", deploys := [], domains := [] }

/-- A file read as a manifest. -/
def File.asDeploy : File → Deploy
  | .deploy d => d
  | .site m =>
    { id := "", slug := m.slug, created := m.created, bytes := 0, files := []
      options := Options.zero }

def getSite (dir : Text) (slug : String) (files : Files) : Option SiteMeta :=
  (files.lookup (sitePath dir slug)).map File.asSite

/-- The files in the directory of the records. -/
def recordFiles (dir : Text) (files : Files) : Files :=
  select files fun p _ => decide (p.rooted = (sitesDir dir).rooted ∧
    p.names.tail = (sitesDir dir).names ∧ p.names.head?.any fun name =>
      ".json".toList.isSuffixOf name)

def listSites (dir : Text) (files : Files) : List SiteMeta :=
  (values (recordFiles dir files)).map File.asSite

def putSite (dir : Text) (m : SiteMeta) (written : Bool) (files : Files) :
    Except Err Unit × Files :=
  if m.slug = "" then (.error .emptySlug, files)
  else if written = false then (.error .write, files)
  else (.ok (), files.insert ((sitesDir dir).join (jsonName m.slug)) (.site m))

instance (p dir : CleanedPath) : Decidable (p.Under dir) :=
  inferInstanceAs (Decidable (p.rooted = dir.rooted ∧ dir.names <:+ p.names))

def deleteSite (dir : Text) (slug : String) (files : Files) : Files :=
  select (files.erase (sitePath dir slug)) fun p _ => decide (¬ p.Under (siteDir dir slug))

def putDeploy (dir : Text) (d : Deploy) (written : Bool) (files : Files) :
    Except Err Unit × Files :=
  if written = false then (.error .write, files)
  else (.ok (), files.insert ((deploysDir dir d.slug).join (jsonName d.id)) (.deploy d))

def getDeploy (dir : Text) (slug id : String) (files : Files) : Option Deploy :=
  (files.lookup (deployPath dir slug id)).map File.asDeploy

/-- A node over its files, with its map of domains. -/
structure FsNode where
  files : Files
  domains : Dict String String

/-- The site records and manifests whose paths a method reads, writes or removes;
objects, domain records and temporary files have names without a slug. -/
def touched (dir : Text) (n : FsNode) : NodeOp → List CleanedPath
  | .getSite slug => [sitePath dir slug]
  | .putSite m => if m.slug = "" then [] else [(sitesDir dir).join (jsonName m.slug)]
  | .deleteSite slug => [sitePath dir slug, siteDir dir slug]
  | .listSites => (recordFiles dir n.files).keys
  | .putDeploy d => [deploysDir dir d.slug, (deploysDir dir d.slug).join (jsonName d.id)]
  | .getDeploy slug id => [deployPath dir slug id]
  | .deleteDeploy slug id => [deployPath dir slug id]
  | _ => []

/-- Records a mapping; `written` says whether the write succeeds. -/
def setDomain (domain slug : String) (written : Bool) (domains : Dict String String) :
    Except Err Unit × Dict String String :=
  if (domains.lookup domain).any (· ≠ slug) then (.error .domainUse, domains)
  else if written = false then (.error .write, domains)
  else (.ok (), domains.insert domain slug)

/-- The operations that use neither site records, manifests nor the map of domains. -/
def Elsewhere : NodeOp → Prop
  | .getSite _ | .listSites | .putSite _ | .deleteSite _ => False
  | .putDeploy _ | .getDeploy .. | .deleteDeploy .. => False
  | .resolveDomain _ | .setDomain .. | .deleteDomain _ => False
  | _ => True

/-- The answers of a node over its files: any write may fail, and so may the deletion of
a manifest; what is kept elsewhere may be anything. -/
inductive FsServes (dir : Text) : Answers NodeOp NodeAns FsNode
  | getSite (n : FsNode) (slug : String) :
      FsServes dir n (.getSite slug) (getSite dir slug n.files) n
  | listSites (n : FsNode) (sites : List SiteMeta) :
      sites.Perm (listSites dir n.files) → FsServes dir n .listSites (.ok sites) n
  | putSite (n : FsNode) (m : SiteMeta) (written : Bool) :
      FsServes dir n (.putSite m) (putSite dir m written n.files).1
        { n with files := (putSite dir m written n.files).2 }
  | deleteSite (n : FsNode) (slug : String) :
      FsServes dir n (.deleteSite slug) ()
        { files := deleteSite dir slug n.files
          domains := select n.domains fun _ sl => sl ≠ slug }
  | putDeploy (n : FsNode) (d : Deploy) (written : Bool) :
      FsServes dir n (.putDeploy d) (putDeploy dir d written n.files).1
        { n with files := (putDeploy dir d written n.files).2 }
  | getDeploy (n : FsNode) (slug id : String) :
      FsServes dir n (.getDeploy slug id) (getDeploy dir slug id n.files) n
  | deleteDeploy (n : FsNode) (slug id : String) (deleted : Bool) :
      FsServes dir n (.deleteDeploy slug id) ()
        { n with files := if deleted then n.files.erase (deployPath dir slug id) else n.files }
  | resolveDomain (n : FsNode) (domain : String) :
      FsServes dir n (.resolveDomain domain) (n.domains.lookup domain) n
  | setDomain (n : FsNode) (domain slug : String) (written : Bool) :
      FsServes dir n (.setDomain domain slug) (setDomain domain slug written n.domains).1
        { n with domains := (setDomain domain slug written n.domains).2 }
  | deleteDomain (n : FsNode) (domain : String) :
      FsServes dir n (.deleteDomain domain) () { n with domains := n.domains.erase domain }
  | elsewhere (n : FsNode) (o : NodeOp) (ans : NodeAns o) :
      Elsewhere o → FsServes dir n o ans n

end Model

section Names

/-- The path is the record of a slug that matches the pattern, or lies in its deploy
directory. -/
def Own (dir : Text) (p : CleanedPath) : Prop :=
  ∃ slug, Server.validSlug slug = true ∧ (p = sitePath dir slug ∨ p.Under (siteDir dir slug))

/-- The slug's record, as a path from the data directory, is the record of a slug that
matches the pattern or lies in its deploy directory. -/
def NamesRecord (slug : String) : Prop :=
  ∃ t, Server.validSlug t = true ∧
    (join [metaName, sitesName, jsonName slug] =
        join [metaName, sitesName, jsonName t] ∨
      (join [metaName, sitesName, jsonName slug]).Under
        (join [sitesName, t.toList]))

/-- The slug, as a path from the directory of the sites, is a slug that matches the
pattern. -/
def NamesSite (slug : String) : Prop :=
  ∃ t, Server.validSlug t = true ∧
    join [sitesName, jsonName slug] = join [sitesName, jsonName t]

theorem plain_meta : Plain metaName := by unfold Plain; decide

theorem plain_sites : Plain sitesName := by unfold Plain; decide

theorem plain_deploys : Plain deploysName := by unfold Plain; decide

theorem plain_json (name : Text) : Plain (name ++ ".json".toList) := by
  have hlen : 5 ≤ (name ++ ".json".toList).length := by
    rw [List.length_append]
    exact Nat.le_add_left _ _
  refine ⟨?_, ?_, ?_⟩
  · intro h
    rw [h] at hlen
    exact absurd hlen (by decide)
  · intro h
    rw [h] at hlen
    exact absurd hlen (by decide)
  · intro h
    rw [h] at hlen
    exact absurd hlen (by decide)

theorem flat_json {name : Text} (hname : '/' ∉ name) : '/' ∉ name ++ ".json".toList := by
  rw [List.mem_append, not_or]
  exact ⟨hname, by decide⟩

/-- A path below the data directory, from the names of its parts. -/
theorem join_dir (dir : Text) (words elems : List Text) (hwords : words ≠ [])
    (hplain : ∀ word ∈ words, Plain word) (hflat : ∀ word ∈ words, '/' ∉ word) :
    join (dir :: (words ++ elems)) =
      ⟨(clean dir).rooted, walk (clean dir).rooted (words.reverse ++ (clean dir).names)
        (elems.flatMap fun elem => elem.splitOn '/')⟩ := by
  have hsplit : words.flatMap (fun elem => elem.splitOn '/') = words := by
    induction words with
    | nil => rfl
    | cons word words ih =>
        rw [List.forall_mem_cons] at hplain hflat
        rw [List.flatMap_cons, List.splitOn_eq_singleton hflat.1]
        cases words with
        | nil => rfl
        | cons next words => rw [ih (List.cons_ne_nil _ _) hplain.2 hflat.2]; rfl
  cases words with
  | nil => exact absurd rfl hwords
  | cons word words =>
      have hhead : word.head? ≠ some '/' := fun h =>
        hflat word List.mem_cons_self (List.mem_of_mem_head? h)
      rw [List.cons_append, join_cons dir word _ (hplain word List.mem_cons_self).1 hhead,
        ← List.cons_append, List.flatMap_append, hsplit, walk_append, walk_plains _ _ hplain]

theorem join_nil_cons (elems : List Text) : join ([] :: elems) = join elems := by
  rw [join, List.dropWhile_cons_of_pos (by simp), ← join]

theorem sitePath_eq (dir : Text) (slug : String) :
    sitePath dir slug = ⟨(clean dir).rooted, walk (clean dir).rooted
      (sitesName :: metaName :: (clean dir).names) ((jsonName slug).splitOn '/')⟩ := by
  have hjoin := join_dir dir [metaName, sitesName] [jsonName slug] (List.cons_ne_nil _ _)
    (by simp [plain_meta, plain_sites]) (by decide)
  rw [List.flatMap_singleton] at hjoin
  exact hjoin

theorem record_eq (dir : Text) (slug : String) :
    (sitesDir dir).join (jsonName slug) = sitePath dir slug := by
  have hjoin := join_dir dir [metaName, sitesName] [] (List.cons_ne_nil _ _)
    (by simp [plain_meta, plain_sites]) (by decide)
  have hdir : sitesDir dir = ⟨(clean dir).rooted, sitesName :: metaName :: (clean dir).names⟩ :=
    hjoin
  rw [hdir, sitePath_eq]
  rfl

theorem siteDir_eq (dir : Text) (slug : String) :
    siteDir dir slug = ⟨(clean dir).rooted, walk (clean dir).rooted
      (sitesName :: (clean dir).names) (slug.toList.splitOn '/')⟩ := by
  have hjoin := join_dir dir [sitesName] [slug.toList] (List.cons_ne_nil _ _)
    (by simp [plain_sites]) (by decide)
  rw [List.flatMap_singleton] at hjoin
  exact hjoin

theorem deploysDir_eq (dir : Text) (slug : String) :
    deploysDir dir slug = ⟨(siteDir dir slug).rooted, deploysName :: (siteDir dir slug).names⟩ := by
  have hjoin := join_dir dir [sitesName] [slug.toList, deploysName] (List.cons_ne_nil _ _)
    (by simp [plain_sites]) (by decide)
  have hflat : deploysName.splitOn '/' = [deploysName] := List.splitOn_eq_singleton (by decide)
  rw [List.flatMap_cons, List.flatMap_singleton, hflat, walk_append,
    walk_plain _ _ plain_deploys] at hjoin
  rw [siteDir_eq]
  exact hjoin

/-- The path of a manifest, written or read. -/
theorem manifest_eq (dir : Text) (slug id : String) :
    (deploysDir dir slug).join (jsonName id) = deployPath dir slug id := by
  have hjoin := join_dir dir [sitesName] [slug.toList, deploysName, jsonName id]
    (List.cons_ne_nil _ _) (by simp [plain_sites]) (by decide)
  have hflat : deploysName.splitOn '/' = [deploysName] := List.splitOn_eq_singleton (by decide)
  rw [List.flatMap_cons, List.flatMap_cons, List.flatMap_singleton, hflat, walk_append, walk_append,
    walk_plain _ _ plain_deploys] at hjoin
  rw [deploysDir_eq, siteDir_eq]
  exact hjoin.symm

theorem deployPath_eq (dir : Text) (slug : String) {id : String} (hid : '/' ∉ id.toList) :
    deployPath dir slug id =
      ⟨(siteDir dir slug).rooted, jsonName id :: deploysName :: (siteDir dir slug).names⟩ := by
  have hflat : (jsonName id).splitOn '/' = [jsonName id] := List.splitOn_eq_singleton (flat_json hid)
  rw [← manifest_eq, CleanedPath.join, deploysDir_eq, hflat]
  exact congrArg (CleanedPath.mk _) (walk_plain _ _ (plain_json _))

theorem chars_of_valid {slug : String} (hslug : Server.validSlug slug = true) :
    slug.toList ≠ [] ∧ ∀ c ∈ slug.toList, c ≠ '/' ∧ c ≠ '.' := by
  have hchar : ∀ c : Char, ((('a' ≤ c ∧ c ≤ 'z') ∨ ('0' ≤ c ∧ c ≤ '9')) ∨ c = '-') →
      c ≠ '/' ∧ c ≠ '.' := by
    intro c hc
    constructor
    · rintro rfl
      exact absurd hc (by decide)
    · rintro rfl
      exact absurd hc (by decide)
  rw [Server.validSlug] at hslug
  cases hcs : slug.toList with
  | nil =>
      rw [hcs] at hslug
      cases hslug
  | cons c cs =>
      rw [hcs] at hslug
      simp only [decide_eq_true_eq, List.all_eq_true] at hslug
      refine ⟨List.cons_ne_nil c cs, List.forall_mem_cons.mpr ⟨hchar c (.inl hslug.1), ?_⟩⟩
      exact fun d hd => hchar d (hslug.2.2 d hd)

theorem flat_of_valid {slug : String} (hslug : Server.validSlug slug = true) :
    '/' ∉ slug.toList := fun h => ((chars_of_valid hslug).2 '/' h).1 rfl

theorem plain_of_valid {slug : String} (hslug : Server.validSlug slug = true) :
    Plain slug.toList := by
  obtain ⟨hne, hchars⟩ := chars_of_valid hslug
  have hdot : '.' ∉ slug.toList := fun h => (hchars '.' h).2 rfl
  refine ⟨hne, ?_, ?_⟩
  · intro h
    rw [h] at hdot
    exact hdot List.mem_cons_self
  · intro h
    rw [h] at hdot
    exact hdot List.mem_cons_self

theorem split_valid {slug : String} (hslug : Server.validSlug slug = true) :
    (jsonName slug).splitOn '/' = [jsonName slug] := List.splitOn_eq_singleton (flat_json (flat_of_valid hslug))

/-- The paths of a slug that matches the pattern. -/
theorem valid_paths (dir : Text) {slug : String} (hslug : Server.validSlug slug = true) :
    sitePath dir slug = ⟨(clean dir).rooted,
        jsonName slug :: sitesName :: metaName :: (clean dir).names⟩ ∧
      siteDir dir slug = ⟨(clean dir).rooted,
        slug.toList :: sitesName :: (clean dir).names⟩ := by
  rw [sitePath_eq, siteDir_eq, split_valid hslug, List.splitOn_eq_singleton (flat_of_valid hslug),
    walk_plain _ _ (plain_of_valid hslug)]
  exact ⟨congrArg (CleanedPath.mk _) (walk_plain _ _ (plain_json _)), rfl⟩

/-- Where a path is a slug's own. -/
theorem own_iff (dir : Text) (p : CleanedPath) :
    Own dir p ↔ p.rooted = (clean dir).rooted ∧ ∃ t, Server.validSlug t = true ∧
      (p.names = jsonName t :: sitesName :: metaName :: (clean dir).names ∨
        t.toList :: sitesName :: (clean dir).names <:+ p.names) := by
  constructor
  · rintro ⟨t, ht, hp⟩
    obtain ⟨hsite, hdir⟩ := valid_paths dir ht
    rcases hp with rfl | ⟨hrooted, hunder⟩
    · rw [hsite]
      exact ⟨rfl, t, ht, .inl rfl⟩
    · rw [hdir] at hrooted hunder
      exact ⟨hrooted, t, ht, .inr hunder⟩
  · rintro ⟨hrooted, t, ht, hp⟩
    obtain ⟨hsite, hdir⟩ := valid_paths dir ht
    refine ⟨t, ht, ?_⟩
    rw [hsite, hdir]
    rcases hp with hnames | hunder
    · left
      rw [← hrooted, ← hnames]
    · exact .inr ⟨hrooted, hunder⟩

/-- A slug's record, and its last segment. -/
theorem split_slug (slug : String) :
    ∃ init last, slug.toList.splitOn '/' = init ++ [last] ∧
      (jsonName slug).splitOn '/' = init ++ [last ++ ".json".toList] := by
  obtain ⟨init, last, -, hsplit⟩ := splitOn_append slug.toList
  refine ⟨init, last, ?_, hsplit _ (by decide)⟩
  have hslug := hsplit [] List.not_mem_nil
  rwa [List.append_nil, List.append_nil] at hslug

theorem walk_record (rooted : Bool) (names init : List Text) (last : Text) :
    walk rooted names (init ++ [last ++ ".json".toList]) =
      (last ++ ".json".toList) :: walk rooted names init := by
  rw [walk_append, walk_plain _ _ (plain_json last)]

theorem clean_dot : clean ['.'] = ⟨false, []⟩ := by decide

theorem join_sites (slug : String) : join [sitesName, jsonName slug] =
    ⟨false, walk false [sitesName] ((jsonName slug).splitOn '/')⟩ := by
  have hjoin := join_dir [] [sitesName] [jsonName slug] (List.cons_ne_nil _ _)
    (by simp [plain_sites]) (by decide)
  rw [join_nil_cons, List.flatMap_singleton] at hjoin
  exact hjoin

theorem join_meta (slug : String) : join [metaName, sitesName, jsonName slug] =
    ⟨false, walk false [sitesName, metaName] ((jsonName slug).splitOn '/')⟩ := by
  rw [← join_nil_cons, ← sitePath, sitePath_eq]
  rfl

theorem jsonName_inj {last : Text} {t : String} (h : last ++ ".json".toList = jsonName t) :
    last = t.toList := List.append_cancel_right h

/-- A slug names a site when it comes back to the directory of the sites before its last
segment. -/
theorem namesSite_iff {slug : String} {init : List Text} {last : Text}
    (hsplit : (jsonName slug).splitOn '/' = init ++ [last ++ ".json".toList]) :
    NamesSite slug ↔ ∃ t : String, Server.validSlug t = true ∧ last = t.toList ∧
      walk false [sitesName] init = [sitesName] := by
  rw [NamesSite]
  refine exists_congr fun t => and_congr_right fun ht => ?_
  have hwalk : walk false [sitesName] [jsonName t] = [jsonName t, sitesName] :=
    walk_plain _ _ (plain_json _)
  rw [join_sites, join_sites, hsplit, walk_record, split_valid ht, hwalk]
  constructor
  · intro heq
    obtain ⟨hlast, hwalk⟩ := List.cons.inj (CleanedPath.mk.inj heq).2
    exact ⟨jsonName_inj hlast, hwalk⟩
  · rintro ⟨hlast, hwalk⟩
    rw [hlast, hwalk]
    rfl

/-- A slug that names a site has the paths of that site. -/
theorem NamesSite.paths {slug : String} (h : NamesSite slug) :
    ∃ t, Server.validSlug t = true ∧ ∀ dir, sitePath dir slug = sitePath dir t ∧
      siteDir dir slug = siteDir dir t := by
  obtain ⟨init, last, hslug, hjson⟩ := split_slug slug
  obtain ⟨t, ht, hlast, hwalk⟩ := (namesSite_iff hjson).mp h
  have hstays : dotdot ∉ walk false [sitesName] init := by
    rw [hwalk]
    decide
  refine ⟨t, ht, fun dir => ?_⟩
  obtain ⟨hsite, hdir⟩ := valid_paths dir ht
  have hbelow : ∀ base : List Text,
      walk (clean dir).rooted (sitesName :: base) init = sitesName :: base := by
    intro base
    have hbase := walk_base (clean dir).rooted base hstays
    rw [hwalk] at hbase
    exact hbase
  constructor
  · rw [sitePath_eq, hjson, walk_record, hbelow, hsite, hlast]
    rfl
  · rw [siteDir_eq, hslug, walk_append, hbelow, hdir, hlast, walk_plain _ _ (plain_of_valid ht)]

theorem NamesSite.own_sitePath {slug : String} (h : NamesSite slug) (dir : Text) :
    Own dir (sitePath dir slug) := by
  obtain ⟨t, ht, hpaths⟩ := h.paths
  exact ⟨t, ht, .inl (hpaths dir).1⟩

/-- What lies in the deploy directory of a slug that names a site. -/
theorem NamesSite.own_under {slug : String} (h : NamesSite slug) (dir : Text) {p : CleanedPath}
    (hp : p.Under (siteDir dir slug)) : Own dir p := by
  obtain ⟨t, ht, hpaths⟩ := h.paths
  refine ⟨t, ht, .inr ?_⟩
  rw [← (hpaths dir).2]
  exact hp

theorem NamesSite.own_siteDir {slug : String} (h : NamesSite slug) (dir : Text) :
    Own dir (siteDir dir slug) := h.own_under dir ⟨rfl, List.suffix_refl _⟩

theorem NamesSite.own_deploysDir {slug : String} (h : NamesSite slug) (dir : Text) :
    Own dir (deploysDir dir slug) := by
  refine h.own_under dir ?_
  rw [deploysDir_eq]
  exact ⟨rfl, List.suffix_cons _ _⟩

theorem NamesSite.own_deployPath {slug id : String} (h : NamesSite slug) (dir : Text)
    (hid : '/' ∉ id.toList) : Own dir (deployPath dir slug id) := by
  refine h.own_under dir ?_
  rw [deployPath_eq dir slug hid]
  exact ⟨rfl, List.suffix_append [jsonName id, deploysName] _⟩

theorem namesSite_of_valid {slug : String} (hslug : Server.validSlug slug = true) :
    NamesSite slug := ⟨slug, hslug, rfl⟩

theorem stays_of_suffix {names : List Text} {t : Text} (segs : List Text)
    (hnames : dotdot ∉ names) (hsuffix : [t, sitesName] <:+ walk false names segs) :
    dotdot ∉ walk false names segs := by
  intro hmem
  have hlast := getLast_of_dotdot (fun h => absurd h hnames) hmem
  obtain ⟨above, habove⟩ := hsuffix
  rw [← habove, List.getLast?_append] at hlast
  exact absurd hlast (by simp [sitesName, dotdot])

/-- A slug names a record when its path from the data directory is a slug's own. -/
theorem namesRecord_iff (slug : String) :
    NamesRecord slug ↔ ∃ t, Server.validSlug t = true ∧
      (walk false [sitesName, metaName] ((jsonName slug).splitOn '/') =
          [jsonName t, sitesName, metaName] ∨
        [t.toList, sitesName] <:+
          walk false [sitesName, metaName] ((jsonName slug).splitOn '/')) := by
  rw [NamesRecord]
  refine exists_congr fun t => and_congr_right fun ht => ?_
  have hdir : join [sitesName, t.toList] = ⟨false, [t.toList, sitesName]⟩ := by
    rw [← join_nil_cons]
    exact (valid_paths [] ht).2
  have hwalk : walk false [sitesName, metaName] [jsonName t] = [jsonName t, sitesName, metaName] :=
    walk_plain _ _ (plain_json _)
  rw [join_meta, join_meta, split_valid ht, hwalk, hdir, CleanedPath.mk.injEq, CleanedPath.Under]
  simp only [true_and]

/-- Wherever the data directory is, a slug that names a record has the path of one. -/
theorem NamesRecord.own {slug : String} (h : NamesRecord slug) (dir : Text) :
    Own dir (sitePath dir slug) := by
  obtain ⟨t, ht, hpath⟩ := (namesRecord_iff slug).mp h
  have hnames : dotdot ∉ [sitesName, metaName] := by decide
  rw [own_iff, sitePath_eq]
  refine ⟨rfl, t, ht, ?_⟩
  rcases hpath with hwalk | hunder
  · have hstays : dotdot ∉ walk false [sitesName, metaName] ((jsonName slug).splitOn '/') := by
      intro hmem
      have hlast := getLast_of_dotdot (fun h => absurd h hnames) hmem
      rw [hwalk] at hlast
      exact absurd hlast (by simp [metaName, dotdot])
    have hbase := walk_base (clean dir).rooted (clean dir).names hstays
    rw [hwalk] at hbase
    exact .inl hbase
  · have hbase := walk_base (clean dir).rooted (clean dir).names (stays_of_suffix _ hnames hunder)
    obtain ⟨above, habove⟩ := hunder
    refine .inr ⟨above, ?_⟩
    rw [← habove, List.append_assoc] at hbase
    exact hbase.symm

/-- In the working directory, only the path of a slug that names a record is a slug's
own. -/
theorem namesRecord_of_own {slug : String} (h : Own ['.'] (sitePath ['.'] slug)) :
    NamesRecord slug := by
  rw [own_iff, sitePath_eq, clean_dot] at h
  exact (namesRecord_iff slug).mpr h.2

theorem NamesSite.record {slug : String} (h : NamesSite slug) : NamesRecord slug :=
  namesRecord_of_own (h.own_sitePath ['.'])

/-- In the working directory, a path below one that leaves it is no slug's own. -/
theorem stays_of_own {slug : String} {p : CleanedPath} (h : Own ['.'] p)
    (hbelow : (siteDir ['.'] slug).names <:+ p.names) :
    dotdot ∉ walk false [sitesName] (slug.toList.splitOn '/') := by
  intro hmem
  have hnames : dotdot ∉ [sitesName] := by decide
  have hlast := getLast_of_dotdot (fun h => absurd h hnames) hmem
  have hend : p.names.getLast? = some dotdot := by
    obtain ⟨ext, hext⟩ := hbelow
    rw [siteDir_eq, clean_dot] at hext
    rw [← hext, List.getLast?_append]
    exact congrArg (fun o => Option.or o _) hlast
  obtain ⟨-, t, -, hp⟩ := (own_iff _ _).mp h
  rcases hp with hnames | ⟨above, habove⟩
  · rw [hnames, clean_dot] at hend
    exact absurd hend (by simp [metaName, dotdot])
  · rw [← habove, clean_dot, List.getLast?_append] at hend
    exact absurd hend (by simp [sitesName, dotdot])

/-- In the working directory, only a slug that names a site has both its record and its
deploys among a slug's own paths. -/
theorem namesSite_of_own {slug : String} (hrecord : Own ['.'] (sitePath ['.'] slug))
    (hstays : dotdot ∉ walk false [sitesName] (slug.toList.splitOn '/')) : NamesSite slug := by
  obtain ⟨init, last, hslug, hjson⟩ := split_slug slug
  have hinit : dotdot ∉ walk false [sitesName] init := by
    intro hmem
    rw [hslug, walk_append] at hstays
    exact hstays (dotdot_mem_walk hmem _)
  have hbase : walk false [sitesName, metaName] init = walk false [sitesName] init ++ [metaName] :=
    walk_base false [metaName] hinit
  obtain ⟨t, ht, hpath⟩ := (namesRecord_iff slug).mp (namesRecord_of_own hrecord)
  rw [hjson, walk_record, hbase] at hpath
  rw [namesSite_iff hjson]
  rcases hpath with heq | ⟨above, habove⟩
  · obtain ⟨hlast, hwalk⟩ := List.cons.inj heq
    have hsites : walk false [sitesName] init ++ [metaName] = [sitesName] ++ [metaName] := hwalk
    exact ⟨t, ht, jsonName_inj hlast, List.append_cancel_right hsites⟩
  · have hend := congrArg List.getLast? habove
    rw [List.getLast?_append, ← List.cons_append, List.getLast?_append] at hend
    exact absurd hend (by simp [sitesName, metaName])

end Names

end Tactile.Publish.FsPaths

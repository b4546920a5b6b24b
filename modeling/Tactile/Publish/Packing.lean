import Tactile.Publish.Serving
import Tactile.Publish.Sweep

/-!
The client's upload of a directory: what it packs, what the node accepts of it and what the node then
serves.
-/

namespace Tactile.Publish.Packing

open Tactile.Lib.Program Tactile.Lib.FiniteMap Tactile.Lib.ByteString
open Tactile.Publish.Bundle Tactile.Publish.Records Tactile.Publish.NodeOps Tactile.Publish.Handlers
open Tactile.Publish.Deploys Tactile.Publish.DeployCache Tactile.Publish.Extraction Tactile.Publish.Serving
open Tactile.Publish.Quota (Own)
open Tactile.Publish.Retention
open Tactile.Publish.Sweep (Stored Shape)

section Code

/-- What is found under a name: a directory with its entries in the order in which they are read, one
that cannot be read, a regular file with what reading it gives, or anything else. -/
inductive LocalNode
  | dir (entries : List (String × LocalNode))
  | closed (cause : String)
  | file (content : Except String Bytes)
  | other

/-- The errors of `buildTarGz`, with what their texts are made of. -/
inductive PackErr
  | failed (cause : String)
  | notRegular (rel : String)

def PackErr.text : PackErr → String
  | .failed cause => cause
  | .notRegular rel => "client: " ++ rel ++ " is not a regular file"

/-- The path relative to the root, with slashes. -/
def relPath (names : List String) : String :=
  String.ofList (List.intercalate ['/'] (names.map String.toList))

mutual

/-- The entries that the walk writes for a node and what is below it; the names of the node's path are
counted from the root. -/
def packNode (names : List String) : LocalNode → Except PackErr (List TarEntry)
  | .dir entries => do
    let below ← packEntries names entries
    return ⟨relPath names, .dir, 0, .ok []⟩ :: below
  | .closed cause => throw (.failed cause)
  | .file (.error cause) => throw (.failed cause)
  | .file (.ok content) => return [⟨relPath names, .reg, content.length, .ok content⟩]
  | .other => throw (.notRegular (relPath names))

def packEntries (names : List String) : List (String × LocalNode) → Except PackErr (List TarEntry)
  | [] => return []
  | (name, node) :: rest => do
    let es ← packNode (names ++ [name]) node
    let es' ← packEntries names rest
    return es ++ es'

end

/-- The entries of the archive that `DeployDir` uploads. A root that is no directory is walked without
an entry. -/
def buildTarGz : LocalNode → Except PackErr (List TarEntry)
  | .dir entries => packEntries [] entries
  | .closed cause => throw (.failed cause)
  | _ => return []

end Code

section Spec

/-- A name that an entry of a directory can have. -/
def FileName (name : String) : Prop :=
  name.toList ≠ [] ∧ name.toList ≠ ['.'] ∧ name.toList ≠ ['.', '.'] ∧ '/' ∉ name.toList ∧
    '\x00' ∉ name.toList

mutual

/-- No two entries of a directory have the same name. -/
def LocalNode.Valid : LocalNode → Prop
  | .dir entries => (entries.map Prod.fst).Nodup ∧ ValidEntries entries
  | _ => True

def ValidEntries : List (String × LocalNode) → Prop
  | [] => True
  | (name, node) :: rest => FileName name ∧ node.Valid ∧ ValidEntries rest

end

mutual

/-- The files below a node that can be read, with the names of their paths. -/
def LocalNode.files : LocalNode → List (List String × Bytes)
  | .dir entries => filesOf entries
  | .file (.ok content) => [([], content)]
  | _ => []

def filesOf : List (String × LocalNode) → List (List String × Bytes)
  | [] => []
  | (name, node) :: rest => node.files.map (fun f => (name :: f.1, f.2)) ++ filesOf rest

end

/-- A directory of the client's machine. -/
structure Directory where
  entries : List (String × LocalNode)
  nodup : (entries.map Prod.fst).Nodup
  valid : ValidEntries entries

def Directory.node (d : Directory) : LocalNode := .dir d.entries

def Directory.files (d : Directory) : List (List String × Bytes) := filesOf d.entries

/-- The files that become part of the site. -/
def siteOf (files : List (List String × Bytes)) : List (List String × Bytes) :=
  files.filter fun f => relPath f.1 ≠ manifestName

/-- What the node asks of the files: short paths without a backslash, and its limits. -/
structure Fits (lim : Limits) (files : List (List String × Bytes)) : Prop where
  names : ∀ f ∈ files, (relPath f.1).utf8ByteSize ≤ 512 ∧ ∀ name ∈ f.1, '\\' ∉ name.toList
  sizes : ∀ f ∈ files, (f.2.length : ℤ) ≤ lim.maxFileBytes.toInt
  total : (files.map fun f => (f.2.length : ℤ)).sum ≤ lim.maxSiteBytes
  count : ((siteOf files).length : ℤ) ≤ lim.maxFiles

/-- The entry of a file. -/
def entryOf (f : List String × Bytes) : TarEntry := ⟨relPath f.1, .reg, f.2.length, .ok f.2⟩

end Spec

section Packing

mutual

/-- A packed node's regular entries are its files, below the names that lead to it. -/
theorem packNode_regulars (node : LocalNode) (names : List String) (es : List TarEntry)
    (h : packNode names node = .ok es) :
    regulars es = node.files.map (fun f => entryOf (names ++ f.1, f.2)) ∧
      ∀ e ∈ es, e.typeflag = .dir ∨ e.typeflag = .reg := by
  cases node with
  | dir entries =>
      rw [packNode] at h
      cases hbelow : packEntries names entries with
      | error e =>
          rw [hbelow] at h
          cases h
      | ok below =>
          rw [hbelow] at h
          cases h
          obtain ⟨hregulars, htypes⟩ := packEntries_regulars entries names below hbelow
          refine ⟨?_, fun e he => ?_⟩
          · rw [LocalNode.files, ← hregulars, regulars, List.filter_cons_of_neg (by simp [isRegular])]
            rfl
          · rcases List.mem_cons.mp he with rfl | he
            · exact .inl rfl
            · exact htypes e he
  | closed cause => cases h
  | other => cases h
  | file content =>
      cases content with
      | error cause => cases h
      | ok content =>
          cases h
          refine ⟨?_, fun e he => ?_⟩
          · rw [LocalNode.files, List.map_singleton, List.append_nil, regulars_regular rfl]
            rfl
          · rw [List.mem_singleton.mp he]
            exact .inr rfl

theorem packEntries_regulars (entries : List (String × LocalNode)) (names : List String)
    (es : List TarEntry) (h : packEntries names entries = .ok es) :
    regulars es = (filesOf entries).map (fun f => entryOf (names ++ f.1, f.2)) ∧
      ∀ e ∈ es, e.typeflag = .dir ∨ e.typeflag = .reg := by
  match entries with
  | [] =>
      cases h
      exact ⟨rfl, fun e he => absurd he List.not_mem_nil⟩
  | (name, node) :: rest =>
      rw [packEntries] at h
      cases hnode : packNode (names ++ [name]) node with
      | error e =>
          rw [hnode] at h
          cases h
      | ok here =>
          cases hrest : packEntries names rest with
          | error e =>
              rw [hnode, hrest] at h
              cases h
          | ok below =>
              rw [hnode, hrest] at h
              cases h
              obtain ⟨hhere, htypes⟩ := packNode_regulars node (names ++ [name]) here hnode
              obtain ⟨hbelow, htypes'⟩ := packEntries_regulars rest names below hrest
              refine ⟨?_, fun e he => ?_⟩
              · rw [filesOf, regulars_append, hhere, hbelow, List.map_append, List.map_map]
                congr 1
                apply List.map_congr_left
                intro f _
                rw [Function.comp_apply, List.append_assoc, List.singleton_append]
              · rcases List.mem_append.mp he with he | he
                · exact htypes e he
                · exact htypes' e he

end

mutual

/-- The names of a file's path are names of entries, and paths are not repeated. -/
theorem files_paths (node : LocalNode) (h : node.Valid) :
    (∀ f ∈ node.files, ∀ name ∈ f.1, FileName name) ∧ (node.files.map Prod.fst).Nodup := by
  cases node with
  | dir entries =>
      obtain ⟨hnodup, hvalid⟩ := h
      obtain ⟨hnames, hpaths⟩ := filesOf_paths entries hvalid hnodup
      refine ⟨fun f hf => ?_, hpaths⟩
      obtain ⟨name, rest, hpath, hname, -, hall⟩ := hnames f hf
      rw [hpath]
      intro name' hname'
      rcases List.mem_cons.mp hname' with rfl | hname'
      · exact hname
      · exact hall name' hname'
  | closed cause => exact ⟨fun f hf => absurd hf List.not_mem_nil, List.nodup_nil⟩
  | other => exact ⟨fun f hf => absurd hf List.not_mem_nil, List.nodup_nil⟩
  | file content =>
      cases content with
      | error cause => exact ⟨fun f hf => absurd hf List.not_mem_nil, List.nodup_nil⟩
      | ok content =>
          refine ⟨fun f hf name hname => ?_, List.nodup_singleton _⟩
          rw [List.mem_singleton.mp hf] at hname
          exact absurd hname List.not_mem_nil

theorem filesOf_paths (entries : List (String × LocalNode)) (h : ValidEntries entries)
    (hnodup : (entries.map Prod.fst).Nodup) :
    (∀ f ∈ filesOf entries, ∃ name rest, f.1 = name :: rest ∧ FileName name ∧
        name ∈ entries.map Prod.fst ∧ ∀ name' ∈ rest, FileName name') ∧
      ((filesOf entries).map Prod.fst).Nodup := by
  match entries with
  | [] => exact ⟨fun f hf => absurd hf List.not_mem_nil, List.nodup_nil⟩
  | (name, node) :: rest =>
      obtain ⟨hname, hnode, hrest⟩ := h
      obtain ⟨hfresh, hnodup'⟩ := List.nodup_cons.mp hnodup
      obtain ⟨hnames, hpaths⟩ := files_paths node hnode
      obtain ⟨hnames', hpaths'⟩ := filesOf_paths rest hrest hnodup'
      constructor
      · intro f hf
        rw [filesOf, List.mem_append] at hf
        rcases hf with hf | hf
        · obtain ⟨g, hg, rfl⟩ := List.mem_map.mp hf
          exact ⟨name, g.1, rfl, hname, List.mem_cons_self, hnames g hg⟩
        · obtain ⟨name', path, hpath, hname', hmem, hall⟩ := hnames' f hf
          exact ⟨name', path, hpath, hname', List.mem_cons_of_mem _ hmem, hall⟩
      · rw [filesOf, List.map_append, List.map_map]
        refine List.nodup_append.mpr ⟨?_, hpaths', ?_⟩
        · have hcons := hpaths.map (List.cons_injective (a := name))
          rwa [List.map_map] at hcons
        · rintro path hpath path' hpath' rfl
          obtain ⟨g, -, rfl⟩ := List.mem_map.mp hpath
          obtain ⟨f, hf, hsame⟩ := List.mem_map.mp hpath'
          obtain ⟨name', path', hpath', -, hmem, -⟩ := hnames' f hf
          rw [hsame] at hpath'
          cases hpath'
          exact hfresh hmem

end

variable {d : Directory} {es : List TarEntry} {f : List String × Bytes} {lim : Limits}

/-- A path of entries' names, one at least. -/
theorem Directory.path (d : Directory) (hf : f ∈ d.files) :
    f.1 ≠ [] ∧ ∀ name ∈ f.1, FileName name := by
  obtain ⟨name, rest, hpath, hname, -, hall⟩ := (filesOf_paths d.entries d.valid d.nodup).1 f hf
  rw [hpath]
  refine ⟨List.cons_ne_nil _ _, fun name' hname' => ?_⟩
  rcases List.mem_cons.mp hname' with rfl | hname'
  · exact hname
  · exact hall name' hname'

theorem Directory.paths_nodup (d : Directory) : (d.files.map Prod.fst).Nodup :=
  (filesOf_paths d.entries d.valid d.nodup).2

/-- The segments of a path are its names. -/
theorem split_relPath {names : List String} (hne : names ≠ []) (hnames : ∀ name ∈ names, FileName name) :
    (relPath names).toList.splitOn '/' = names.map String.toList := by
  obtain ⟨name, rest, rfl⟩ := List.exists_cons_of_ne_nil hne
  have hself : ∀ part ∈ name.toList :: rest.map String.toList, part.splitOn '/' = [part] := by
    rw [← List.map_cons]
    intro part hpart
    obtain ⟨name', hname', rfl⟩ := List.mem_map.mp hpart
    exact List.splitOn_eq_singleton (hnames name' hname').2.2.2.1
  rw [relPath, String.toList_ofList, List.map_cons, Lib.CleanPath.splitOn_intercalate_cons,
    List.flatMap_congr hself, List.flatMap_singleton']

theorem relPath_inj {names names' : List String} (hne : names ≠ []) (hne' : names' ≠ [])
    (hnames : ∀ name ∈ names, FileName name) (hnames' : ∀ name ∈ names', FileName name)
    (h : relPath names = relPath names') : names = names' := by
  have hsplit := split_relPath hne hnames
  rw [h, split_relPath hne' hnames'] at hsplit
  exact (List.map_injective_iff.mpr (fun _ _ => String.toList_inj.mp) hsplit).symm

theorem mem_intercalate {a : Char} {parts : List (List Char)} (h : a ∈ List.intercalate ['/'] parts) :
    a = '/' ∨ ∃ part ∈ parts, a ∈ part := by
  induction parts with
  | nil => cases h
  | cons part parts ih =>
      cases parts with
      | nil =>
          rw [List.intercalate_singleton] at h
          exact .inr ⟨part, List.mem_cons_self, h⟩
      | cons next parts =>
          rw [List.intercalate_cons_cons, List.mem_append, List.mem_append, List.mem_singleton] at h
          rcases h with (h | h) | h
          · exact .inr ⟨part, List.mem_cons_self, h⟩
          · exact .inl h
          · exact (ih h).imp_right fun ⟨part', hpart', ha⟩ => ⟨part', List.mem_cons_of_mem _ hpart', ha⟩

/-- A character of a path, separators apart, is one of a name. -/
theorem mem_relPath {names : List String} {c : Char} (hc : c ≠ '/') (hne : names ≠ [])
    (hnames : ∀ name ∈ names, FileName name) :
    c ∈ (relPath names).toList ↔ ∃ name ∈ names, c ∈ name.toList := by
  constructor
  · intro h
    rw [relPath, String.toList_ofList] at h
    obtain ⟨part, hpart, hmem⟩ := (mem_intercalate h).resolve_left hc
    obtain ⟨name, hname, rfl⟩ := List.mem_map.mp hpart
    exact ⟨name, hname, hmem⟩
  · rintro ⟨name, hname, hmem⟩
    refine Lib.Split.mem_of_mem_splitOn (d := '/') ?_ hmem
    rw [split_relPath hne hnames]
    exact List.mem_map_of_mem hname

/-- The node takes the path of a file when it is short and has no backslash. -/
theorem cleanPath_relPath {names : List String} (hne : names ≠ []) (hnames : ∀ name ∈ names, FileName name) :
    (cleanPath (relPath names)).isSome = true ↔
      (relPath names).utf8ByteSize ≤ 512 ∧ ∀ name ∈ names, '\\' ∉ name.toList := by
  have hsplit := split_relPath hne hnames
  have hbackslash := mem_relPath (c := '\\') (by decide) hne hnames
  have hnul := mem_relPath (c := '\x00') (by decide) hne hnames
  have hparts : ¬ ((relPath names).toList.splitOn '/').any fun seg =>
      seg = [] ∨ seg = ['.'] ∨ seg = ['.', '.'] := by
    rw [hsplit, List.any_eq_true]
    rintro ⟨part, hpart, hbad⟩
    obtain ⟨name, hname, rfl⟩ := List.mem_map.mp hpart
    obtain ⟨hempty, hdot, hdotdot, -⟩ := hnames name hname
    rcases of_decide_eq_true hbad with h | h | h
    · exact hempty h
    · exact hdot h
    · exact hdotdot h
  have hfirst : ∀ part ∈ (relPath names).toList.splitOn '/', part ≠ [] := by
    intro part hpart hnil
    exact hparts (List.any_eq_true.mpr ⟨part, hpart, decide_eq_true (.inl hnil)⟩)
  have hempty : relPath names ≠ "" := by
    intro h
    rw [h] at hfirst
    exact hfirst [] (by decide) rfl
  have hhead : (relPath names).toList.head? ≠ some '/' := by
    intro h
    obtain ⟨rest, hrest⟩ := List.head?_eq_some_iff.mp h
    refine hfirst [] ?_ rfl
    rw [hrest, List.splitOn_cons_eq_if_modifyHead, if_pos (by decide)]
    exact List.mem_cons_self
  have hplain : '\x00' ∉ (relPath names).toList := by
    rw [hnul]
    rintro ⟨name, hname, hmem⟩
    exact (hnames name hname).2.2.2.2 hmem
  rw [cleanPath, if_neg hparts, if_neg hplain]
  constructor
  · intro h
    split at h
    next => cases h
    next hok =>
      simp only [not_or] at hok
      refine ⟨not_lt.mp hok.2.1, fun name hname hmem => hok.2.2.1 (hbackslash.mpr ⟨name, hname, hmem⟩)⟩
  · rintro ⟨hshort, hno⟩
    rw [if_neg]
    · rfl
    · rintro (h | h | h | h)
      · exact hempty h
      · exact absurd hshort (not_le.mpr h)
      · obtain ⟨name, hname, hmem⟩ := hbackslash.mp h
        exact hno name hname hmem
      · exact hhead h

/-- What is packed of a directory. -/
structure Packed (d : Directory) (es : List TarEntry) : Prop where
  files : regulars es = d.files.map entryOf
  types : ∀ e ∈ es, e.typeflag = .dir ∨ e.typeflag = .reg

theorem packed (h : buildTarGz d.node = .ok es) : Packed d es := by
  obtain ⟨hregulars, htypes⟩ := packEntries_regulars d.entries [] es h
  exact ⟨hregulars, htypes⟩

theorem packed_siteFiles (h : Packed d es) : siteFiles es = (siteOf d.files).map entryOf := by
  have hfilter : siteFiles es = (regulars es).filter fun e => e.name ≠ manifestName := by
    rw [siteFiles, regulars, List.filter_filter]
    apply List.filter_congr
    intro e _
    rw [isFile, Bool.and_comm]
  rw [hfilter, h.files, List.filter_map]
  rfl

theorem packed_names_nodup (h : Packed d es) : ((regulars es).map TarEntry.name).Nodup := by
  rw [h.files, List.map_map]
  refine (List.nodup_map_iff_inj_on (List.Nodup.of_map _ d.paths_nodup)).mpr ?_
  intro f hf g hg heq
  have hpath : f.1 = g.1 :=
    relPath_inj (d.path hf).1 (d.path hg).1 (d.path hf).2 (d.path hg).2 heq
  exact List.inj_on_of_nodup_map d.paths_nodup hf hg hpath

theorem readUpTo_entryOf (hmax : lim.maxFileBytes ≠ Int64.maxValue)
    (hsize : (f.2.length : ℤ) ≤ lim.maxFileBytes.toInt) : readUpTo lim (entryOf f) = f.2 := by
  refine readUpTo_eq hmax (le_trans ?_ hsize)
  rw [readUpTo, limitReader, List.length_take]
  exact Int.ofNat_le.mpr (min_le_right _ _)

/-- The node accepts the entries of a directory that fits its limits, and of no other. -/
theorem packed_accepts_iff (h : Packed d es) (hmax : lim.maxFileBytes ≠ Int64.maxValue)
    (hsite : 0 ≤ lim.maxSiteBytes) (hfiles : 0 ≤ lim.maxFiles) : Accepts lim es ↔ Fits lim d.files := by
  constructor
  · intro hacc
    have hfile : ∀ f ∈ d.files, ∃ pre, AcceptedFile lim pre (entryOf f) := by
      intro f hf
      have hmem : entryOf f ∈ regulars es := by
        rw [h.files]
        exact List.mem_map_of_mem hf
      obtain ⟨pre, -, hfile⟩ := hacc.regular hmem
      exact ⟨pre, hfile⟩
    have hsizes : ∀ f ∈ d.files, (f.2.length : ℤ) ≤ lim.maxFileBytes.toInt := by
      intro f hf
      obtain ⟨pre, haccepted⟩ := hfile f hf
      exact haccepted.header
    refine ⟨fun f hf => ?_, hsizes, ?_, ?_⟩
    · obtain ⟨pre, haccepted⟩ := hfile f hf
      exact (cleanPath_relPath (d.path hf).1 (d.path hf).2).mp haccepted.name
    · have htotal := hacc.total
      rw [max_eq_left hsite, totalRead, h.files, List.map_map] at htotal
      refine le_of_eq_of_le (congrArg List.sum (List.map_congr_left fun f hf => ?_)) htotal
      rw [Function.comp_apply, readUpTo_entryOf hmax (hsizes f hf)]
    · have hcount := hacc.count
      rwa [max_eq_left hfiles, packed_siteFiles h, List.length_map] at hcount
  · intro hfits pre e hpre
    obtain ⟨post, rfl⟩ := hpre
    rcases h.types e (by simp) with hdir | hreg
    · exact .inl hdir
    have hall := h.files
    rw [regulars_append, regulars_append, regulars_regular hreg] at hall
    have hmem : e ∈ d.files.map entryOf := by
      rw [← hall]
      simp
    obtain ⟨f, hf, rfl⟩ := List.mem_map.mp hmem
    have hread : ∀ g ∈ d.files, readUpTo lim (entryOf g) = g.2 := fun g hg =>
      readUpTo_entryOf hmax (hfits.sizes g hg)
    refine .inr ⟨rfl, ?_, ?_, hfits.sizes f hf, ⟨f.2, rfl⟩, ?_, ?_, fun hname => ?_⟩
    · exact (cleanPath_relPath (d.path hf).1 (d.path hf).2).mpr (hfits.names f hf)
    · have hnodup := packed_names_nodup h
      rw [regulars_append, regulars_append, regulars_regular rfl, List.map_append, List.map_append,
        List.map_singleton] at hnodup
      have hleft := (List.nodup_append.mp hnodup).1
      exact fun hbefore => (List.nodup_append.mp hleft).2.2 _ hbefore _ (List.mem_singleton_self _) rfl
    · rw [hread f hf]
      exact hfits.sizes f hf
    · have htotal : totalRead lim (pre ++ [entryOf f] ++ post) =
          (d.files.map fun f => (f.2.length : ℤ)).sum := by
        rw [totalRead, h.files, List.map_map]
        refine congrArg List.sum (List.map_congr_left fun g hg => ?_)
        rw [Function.comp_apply, hread g hg]
      have hsplit : totalRead lim (pre ++ [entryOf f] ++ post) =
          totalRead lim pre + (readUpTo lim (entryOf f)).length + totalRead lim post := by
        rw [totalRead, regulars_append, List.map_append, List.sum_append, ← totalRead, ← totalRead,
          totalRead_concat rfl]
      have hrest : 0 ≤ totalRead lim post := by
        refine List.sum_nonneg fun x hx => ?_
        obtain ⟨e, -, rfl⟩ := List.mem_map.mp hx
        exact Int.natCast_nonneg _
      have := hfits.total
      omega
    · have hcount : ((siteFiles (pre ++ [entryOf f] ++ post)).length : ℤ) ≤ lim.maxFiles := by
        rw [packed_siteFiles h, List.length_map]
        exact hfits.count
      rw [siteFiles_append, siteFiles_append, siteFiles_file rfl hname] at hcount
      simp only [List.length_append, List.length_singleton] at hcount
      omega

end Packing

section Upload

variable {b : Backend} {srv : Server} {fileOf : String → String} {codec : Codec} {lim : Limits}

/-- An object that a running node opens. -/
def Opens (s : Store) (hash : Digest) (data : Bytes) : Prop :=
  (s.mem.objIndex.lookup hash).isSome ∧ s.disk.objects.lookup hash = some data

/-- Files whose hashes tell them from each other and from what the node holds. -/
structure Apart (n : Node) (puts : List (File × Bytes)) : Prop where
  held : ∀ c ∈ puts, ∀ data, n.store.disk.objects.lookup c.1.hash = some data → data = c.2
  puts : ∀ c ∈ puts, ∀ c' ∈ puts, c.1.hash = c'.1.hash → c.2 = c'.2

/-- A node that has put these files since: its records are as they were. -/
structure Holding (n : Node) (puts : List (File × Bytes)) (n' : Node) : Prop where
  sites : n'.store.disk.sites = n.store.disk.sites
  deploys : n'.store.disk.deploys = n.store.disk.deploys
  indexed : ∀ hash, (n'.store.mem.objIndex.lookup hash).isSome → Stored n'.store hash
  objects : ∀ hash data, n'.store.disk.objects.lookup hash = some data →
    n.store.disk.objects.lookup hash = some data ∨ ∃ c ∈ puts, c.1.hash = hash ∧ c.2 = data
  opens : ∀ c ∈ puts, Opens n'.store c.1.hash c.2

theorem holding_nil {n : Node}
    (hindexed : ∀ hash, (n.store.mem.objIndex.lookup hash).isSome → Stored n.store hash) :
    Holding n [] n :=
  ⟨rfl, rfl, hindexed, fun _ _ h => .inl h, fun _ h => absurd h List.not_mem_nil⟩

/-- An object is known already, or its write fails, or it is written. -/
theorem putObject_cases (b : Backend) (s : Store) (hash : Digest) (data : Bytes) (written : Bool) :
    (s.putObject b hash data written = (.ok (), s) ∧ s.known b hash = true) ∨
    (∃ e, s.putObject b hash data written = (.error e, s)) ∨
    ((s.putObject b hash data written).1 = .ok () ∧
      (s.putObject b hash data written).2.disk =
        { s.disk with objects := s.disk.objects.insert hash data } ∧
      ∀ hash', ((s.putObject b hash data written).2.mem.objIndex.lookup hash').isSome =
        (decide (hash' = hash) || (s.mem.objIndex.lookup hash').isSome)) := by
  rw [Store.putObject]
  split
  next hknown => exact .inl ⟨rfl, hknown⟩
  next =>
    split
    next => exact .inr (.inl ⟨_, rfl⟩)
    next =>
      refine .inr (.inr ⟨rfl, rfl, fun hash' => ?_⟩)
      dsimp only
      split
      next hsome =>
        by_cases heq : hash' = hash
        · rw [heq, hsome]
          simp
        · simp [heq]
      next =>
        rw [lookup_insert_eq]
        by_cases heq : hash' = hash
        · simp [heq]
        · simp [heq]

/-- A file that has been put is held with those before. -/
theorem Holding.put {n n' : Node} {puts : List (File × Bytes)} (h : Holding n puts n') {c : File × Bytes}
    (hapart : Apart n (puts ++ [c])) {written : Bool}
    (hok : (n'.store.putObject b c.1.hash c.2 written).1 = .ok ()) :
    Holding n (puts ++ [c])
      { n' with store := (n'.store.putObject b c.1.hash c.2 written).2 } := by
  have hlast : c ∈ puts ++ [c] := List.mem_append_right _ (List.mem_singleton_self c)
  have hsame : ∀ data, n'.store.disk.objects.lookup c.1.hash = some data → data = c.2 := by
    intro data hdata
    rcases h.objects c.1.hash data hdata with hold | ⟨c', hc', hhash, rfl⟩
    · exact hapart.held c hlast data hold
    · exact hapart.puts c' (List.mem_append_left _ hc') c hlast hhash
  have hobjects : ∀ hash data, n'.store.disk.objects.lookup hash = some data →
      n.store.disk.objects.lookup hash = some data ∨
        ∃ c' ∈ puts ++ [c], c'.1.hash = hash ∧ c'.2 = data := by
    intro hash data hdata
    refine (h.objects hash data hdata).imp_right ?_
    rintro ⟨c', hc', hboth⟩
    exact ⟨c', List.mem_append_left _ hc', hboth⟩
  rcases putObject_cases b n'.store c.1.hash c.2 written with ⟨heq, hknown⟩ | ⟨e, heq⟩ | ⟨-, hdisk, hindex⟩
  · rw [heq]
    refine ⟨h.sites, h.deploys, h.indexed, hobjects, fun c' hc' => ?_⟩
    rcases List.mem_append.mp hc' with hc' | hc'
    · exact h.opens c' hc'
    · obtain rfl := List.mem_singleton.mp hc'
      have hindexed : (n'.store.mem.objIndex.lookup c'.1.hash).isSome := by
        cases b with
        | fs => exact (Bool.and_eq_true_iff.mp hknown).1
        | s3 => exact hknown
      obtain ⟨data, hdata⟩ := Option.isSome_iff_exists.mp (h.indexed _ hindexed)
      exact ⟨hindexed, by rw [hdata, hsame data hdata]⟩
  · rw [heq] at hok
    cases hok
  · refine ⟨by rw [hdisk]; exact h.sites, by rw [hdisk]; exact h.deploys, fun hash hhash => ?_,
      fun hash data hdata => ?_, fun c' hc' => ?_⟩
    · rw [Stored, hdisk, lookup_insert_eq]
      rw [hindex, Bool.or_eq_true, decide_eq_true_iff] at hhash
      split
      next => rfl
      next hne => exact h.indexed hash (hhash.resolve_left hne)
    · rw [hdisk, lookup_insert_eq] at hdata
      split at hdata
      next heq =>
        cases hdata
        exact .inr ⟨c, hlast, heq.symm, rfl⟩
      next => exact hobjects hash data hdata
    · rw [Opens, hdisk, hindex, lookup_insert_eq]
      rcases List.mem_append.mp hc' with hmem | hmem
      · obtain ⟨hindexed, hdata⟩ := h.opens c' hmem
        refine ⟨by rw [hindexed, Bool.or_true], ?_⟩
        split
        next heq => rw [hapart.puts c' hc' c hlast heq]
        next => exact hdata
      · obtain rfl := List.mem_singleton.mp hmem
        exact ⟨by simp, if_pos rfl⟩

theorem putFile_holds {n : Node} {puts : List (File × Bytes)} {c : File × Bytes} {x : Node × NodeCalls}
    (h : Holding n puts x.1) (hapart : Apart n (puts ++ [c])) :
    Holds (Logged (Serves b fileOf)) (fun _ _ => True)
      (fun sunk x' => sunk = .ok () → Holding n (puts ++ [c]) x'.1) (putFile c.1 c.2) x := by
  refine ⟨trivial, fun ans x' hx' => ?_⟩
  obtain ⟨n', calls'⟩ := x'
  obtain ⟨hserves, -⟩ := hx'
  cases ans with
  | error e => exact fun hok => by cases hok
  | ok _ =>
      intro _
      change Holding n (puts ++ [c]) n'
      generalize hans : (Except.ok () : Except Err Unit) = ans at hserves
      cases hserves with
      | putObject _ _ _ written => exact h.put hapart hans.symm

theorem Apart.mono {n : Node} {puts puts' : List (File × Bytes)} (h : Apart n puts')
    (hsub : puts ⊆ puts') : Apart n puts :=
  ⟨fun c hc => h.held c (hsub hc), fun c hc c' hc' => h.puts c (hsub hc) c' (hsub hc')⟩

section Extraction

variable {Op : Type} {Ans : Op → Type} {σ : Type} {R : Answers Op Ans σ}
variable {sink : File → Bytes → Prog Op Ans (Except String Unit)} {I : List (File × Bytes) → σ → Prop}

/-- What each call of the sink keeps of the calls before holds of all calls when the entries have been
read. -/
theorem extractEntries_holds (es : List TarEntry) {pre : List TarEntry} {acc : Extracted} {s : σ}
    (hsink : ∀ done c s, done ++ [c] <+: calls codec (readUpTo lim) (pre ++ es) → I done s →
      Holds R (fun _ _ => True) (fun sunk s' => sunk = .ok () → I (done ++ [c]) s') (sink c.1 c.2) s)
    (hgathered : Gathered codec lim pre acc) (hacc : Accepts lim pre)
    (h : I (calls codec (readUpTo lim) pre) s) :
    Holds R (fun _ _ => True)
      (fun out s' => ∀ acc', out = .ok acc' → Accepts lim (pre ++ es) ∧
        Gathered codec lim (pre ++ es) acc' ∧ I (calls codec (readUpTo lim) (pre ++ es)) s')
      (extractEntries codec lim sink es acc) s := by
  induction es generalizing pre acc s with
  | nil =>
      intro acc' hout
      cases hout
      rw [List.append_nil]
      exact ⟨hacc, hgathered, h⟩
  | cons e es ih =>
      have hsplit : pre ++ e :: es = pre ++ [e] ++ es := by simp
      rw [hsplit] at hsink ⊢
      rw [extractEntries, holds_bind]
      by_cases haccepted : Accepted lim pre e
      swap
      · obtain ⟨err, herr⟩ := extractEntry_refused sink hgathered haccepted
        rw [herr]
        exact fun acc' hout => by cases hout
      have hpre : Accepts lim (pre ++ [e]) := accepts_concat.mpr ⟨hacc, haccepted⟩
      by_cases he : e.typeflag = .reg
      swap
      · have hdir := haccepted.resolve_right fun hreg => he hreg.1
        rw [extractEntry, hdir]
        refine ih hsink (hgathered.skip he) hpre ?_
        rw [calls_append, calls, calls, siteFiles_other (.inl he), List.map_nil, List.append_nil]
        exact h
      have hfile := haccepted.regular he
      by_cases hname : e.name = manifestName
      · rw [extractEntry_control hgathered he hfile hname]
        refine ih hsink (hgathered.control he hname hfile.fresh) hpre ?_
        rw [calls_append, calls, calls, siteFiles_other (.inr hname), List.map_nil, List.append_nil]
        exact h
      · have hcalls : calls codec (readUpTo lim) (pre ++ [e]) =
            calls codec (readUpTo lim) pre ++ [call codec (readUpTo lim) e] := by
          rw [calls_append]
          congr 1
          rw [calls, siteFiles_file he hname]
          rfl
        have hprefix := calls_mono codec (readUpTo lim) (List.prefix_append (pre ++ [e]) es)
        rw [hcalls] at hprefix
        rw [extractEntry_file hgathered he hfile hname, holds_bind]
        refine (hsink _ _ s hprefix h).imp fun sunk s' hs' => ?_
        cases sunk with
        | error cause => exact fun acc' hout => by cases hout
        | ok _ =>
            refine ih hsink (hgathered.file he hname) hpre ?_
            rw [hcalls]
            exact hs' rfl

theorem extract_holds {es : List TarEntry} {s : σ}
    (hsink : ∀ done c s, done ++ [c] <+: calls codec (readUpTo lim) es → I done s →
      Holds R (fun _ _ => True) (fun sunk s' => sunk = .ok () → I (done ++ [c]) s') (sink c.1 c.2) s)
    (h : I [] s) :
    Holds R (fun _ _ => True)
      (fun out s' => ∀ files opts, out = .ok (files, opts) → Accepts lim es ∧
        files = (calls codec (readUpTo lim) es).map Prod.fst ∧ I (calls codec (readUpTo lim) es) s')
      (extract codec lim sink (.entries es none)) s := by
  rw [extract, holds_bind]
  refine (extractEntries_holds es hsink gathered_none accepts_nil h).imp fun read s' hs' => ?_
  cases read with
  | error err => exact fun files opts hout => by cases hout
  | ok acc =>
      obtain ⟨hacc, hgathered, hholds⟩ := hs' acc rfl
      exact fun files opts hout => ⟨hacc, (finish_files hout).trans hgathered.files, hholds⟩

end Extraction

/-- A node that has extracted a bundle holds its files when they are told apart. -/
theorem extract_holding {n : Node} {es : List TarEntry} {x : Node × NodeCalls} (h : Holding n [] x.1) :
    Holds (Logged (Serves b fileOf)) (fun _ _ => True)
      (fun out x' => ∀ files opts, out = .ok (files, opts) → Accepts lim es ∧
        files = (calls codec (readUpTo lim) es).map Prod.fst ∧
          (Apart n (calls codec (readUpTo lim) es) →
            Holding n (calls codec (readUpTo lim) es) x'.1))
      (extract codec lim putFile (.entries es none)) x := by
  refine extract_holds (I := fun puts (x : Node × NodeCalls) =>
    Apart n (calls codec (readUpTo lim) es) → Holding n puts x.1) ?_ fun _ => h
  intro done c x hprefix hx
  by_cases hapart : Apart n (calls codec (readUpTo lim) es)
  · exact (putFile_holds (hx hapart) (hapart.mono hprefix.subset)).imp fun sunk x' hput hok _ => hput hok
  · exact (holds_true _ x).mono (fun _ _ _ => trivial) fun _ _ _ _ hall => absurd hall hapart

end Upload

section Commit

variable {b : Backend} {srv : Server} {fileOf : String → String} {codec : Codec}

/-- The operations that leave the objects alone. -/
def Keeping : NodeOp → Prop
  | .putObject .. | .deleteObject _ => False
  | _ => True

theorem served_keeping {n n' : Node} {o : NodeOp} {ans : NodeAns o} (ho : Keeping o)
    (h : Serves b fileOf n o ans n') :
    n'.store.disk.objects = n.store.disk.objects ∧ n'.store.mem.objIndex = n.store.mem.objIndex := by
  cases h with
  | putObject | deleteObject => exact ho.elim
  | putSite _ m written =>
      rcases Sweep.putSite_cases (b := b) n.store m written with hsame | ⟨hslug, hput⟩
      · rw [hsame]
        exact ⟨rfl, rfl⟩
      · rw [hput, Store.putSite, if_neg hslug, if_neg (by decide)]
        exact ⟨rfl, rfl⟩
  | deleteSite _ slug =>
      cases b with
      | fs => exact ⟨rfl, rfl⟩
      | s3 =>
          dsimp only [Store.deleteSite]
          rw [Store.S3.deleteSite]
          cases n.store.getSite slug with
          | none => exact ⟨rfl, rfl⟩
          | some m => exact ⟨rfl, rfl⟩
  | setDomain _ domain slug written =>
      rw [Store.setDomain]
      split
      next => exact ⟨rfl, rfl⟩
      next =>
        split
        next => exact ⟨rfl, rfl⟩
        next => exact ⟨rfl, rfl⟩
  | putDeploy _ d written =>
      cases written with
      | false => exact ⟨rfl, rfl⟩
      | true => exact ⟨rfl, rfl⟩
  | deleteDeploy _ slug id deleted =>
      cases deleted with
      | false => exact ⟨rfl, rfl⟩
      | true => exact ⟨rfl, rfl⟩
  | _ => exact ⟨rfl, rfl⟩

theorem node_keeping {o : NodeOp} (ho : Keeping o) : (node o).Only Keeping := Prog.only_op ho

theorem prune_keeping (slug : String) (keep : ℤ) (ids : List String) :
    (prune slug keep ids).Only Keeping := by
  induction ids with
  | nil =>
      rw [prune]
      split
      next => trivial
      next => trivial
  | cons old rest ih =>
      rw [prune]
      split
      next => exact ⟨trivial, fun _ => ih⟩
      next => trivial

theorem commitDeploy_keeping (slug : String) (pub : PubKey) (files : List File) (dep : Deploy) :
    (commitDeploy srv slug pub files dep).Only Keeping := by
  refine (node_keeping (o := .getSite slug) trivial).bind fun found => ?_
  cases found with
  | none => trivial
  | some m =>
      dsimp only
      split
      next => trivial
      next =>
        refine (identityUsage_only trivial (fun _ _ => trivial) pub).bind fun usage => ?_
        cases usage with
        | error e => trivial
        | ok usage =>
            refine (node_keeping (o := .listObjects) trivial).bind fun existing => ?_
            split
            next => trivial
            next =>
              refine (node_keeping (o := .totalBytes) trivial).bind fun total => ?_
              split
              next => trivial
              next =>
                refine (node_keeping (o := .putDeploy dep) trivial).bind fun put => ?_
                cases put with
                | error e => trivial
                | ok _ =>
                    refine (node_keeping (o := .now) trivial).bind fun updated => ?_
                    refine (prune_keeping _ _ _).bind fun kept => ?_
                    cases kept with
                    | none => trivial
                    | some deploys =>
                        refine (node_keeping (o := .putSite _) trivial).bind fun put => ?_
                        cases put with
                        | error e => trivial
                        | ok _ => trivial

/-- The deploy is the current one of its site and has this manifest. -/
def Live (s : Store) (slug : String) (dep : Deploy) : Prop :=
  ∃ m, s.getSite slug = some m ∧ m.current = dep.id ∧ s.getDeploy slug dep.id = some dep

/-- A deploy that is answered as made has been made current when its id is new. -/
def Published (srv : Server) (n : Node) (slug : String) (dep : Deploy) (r : Response) (s : Store) : Prop :=
  ∀ id count bytes slug' url, r = .deployed id count bytes slug' url →
    r = .deployed dep.id dep.files.length dep.bytes slug (srv.siteURL slug) ∧
      ((∀ m, n.store.getSite slug = some m → dep.id ∉ m.deploys) → Live s slug dep)

/-- What is pruned has been listed before. -/
theorem Pending.listed {keep : ℤ} {n : Node} {slug : String} {m : SiteMeta} {dep : Deploy}
    {pre post : List String} {s : Store} (h : Pending keep n slug m dep pre post s) :
    pre ⊆ m.deploys := by
  have hpost : post = post.dropLast ++ [post.getLast h.nonempty] :=
    (List.dropLast_append_getLast h.nonempty).symm
  have hsplit := h.split
  rw [hpost, ← List.append_assoc] at hsplit
  rw [(List.append_inj' hsplit rfl).1]
  exact List.subset_append_left _ _

/-- A response that is no upload's. -/
theorem published_other {n : Node} {slug : String} {dep : Deploy} {r : Response} {s : Store}
    (h : ∀ id count bytes slug' url, r ≠ .deployed id count bytes slug' url) :
    Published srv n slug dep r s :=
  fun id count bytes slug' url hr => absurd hr (h id count bytes slug' url)

/-- The end of a commit, from the write of the manifest on. -/
theorem putDeploy_published {n : Node} (hown : Own n.store) (hkeep : 1 ≤ srv.cfg.keepDeploys)
    {slug : String} {m : SiteMeta} (hm : n.store.getSite slug = some m) {dep : Deploy}
    (hslug : dep.slug = slug) {x : Node × NodeCalls} (hx : Since n [] x) :
    Holds (Logged (Serves b srv.fileOf)) (fun _ _ => True)
      (fun r x' => Published srv n slug dep r x'.1.store) (do
        let put : Except Err Unit ← node (.putDeploy dep)
        match put with
        | .error _ => pure storeFailed
        | .ok () => do
          let updated : ℤ ← node .now
          let kept ← prune slug srv.cfg.keepDeploys (m.deploys ++ [dep.id])
          match kept with
          | none => pure .aborted
          | some deploys => do
            let put : Except Err Unit ← node (.putSite
              { m with deploys := deploys, current := dep.id, updated := updated })
            match put with
            | .error _ => pure storeFailed
            | .ok () => pure (.deployed dep.id dep.files.length dep.bytes slug (srv.siteURL slug))) x := by
  refine ⟨trivial, fun put x₁ hput => ?_⟩
  obtain ⟨n₁, calls₁⟩ := x₁
  obtain ⟨hserves, -⟩ := hput
  have hstore : (∃ e, put = .error e) ∨
      (put = .ok () ∧ n₁ = { x.1 with store := (x.1.store.putDeploy dep true).2 }) := by
    cases hserves with
    | putDeploy _ _ written =>
        cases written with
        | false => exact .inl ⟨_, rfl⟩
        | true => exact .inr ⟨rfl, rfl⟩
  rcases hstore with ⟨e, rfl⟩ | ⟨rfl, rfl⟩
  · exact published_other fun _ _ _ _ _ h => by cases h
  have hsince : Since { x.1 with store := (x.1.store.putDeploy dep true).2 } calls₁
      ({ x.1 with store := (x.1.store.putDeploy dep true).2 }, calls₁) :=
    ⟨rfl, rfl, List.Subset.refl _⟩
  refine holds_quiet (quiet_node (o := .now) trivial) hsince fun updated x₂ hx₂ => ?_
  have hids : m.deploys ++ [dep.id] ≠ [] := by simp
  refine (holds_bind _ _ _).mpr ((prune_prunes hkeep _ hids x₂.1 x₂.2).imp fun kept x₃ hx₃ => ?_)
  obtain ⟨pre, post, hsplit, rfl, hpruned⟩ := hx₃
  have hpending : Pending srv.cfg.keepDeploys n slug m dep pre post x₃.1.store := by
    refine ⟨hsplit, hpruned.nonempty, hpruned.length, ?_, fun k hk => ?_⟩
    · rw [hpruned.sites, hx₂.sites]
      exact hx.sites
    · rw [hpruned.deploys k hk, hx₂.deploys]
      change (x.1.store.putDeploy dep true).2.disk.deploys.lookup k = _
      rw [Store.putDeploy, if_neg (by decide), lookup_insert_eq, hslug, hx.deploys]
  refine ⟨trivial, fun put x₄ hput => ?_⟩
  obtain ⟨n₄, calls₄⟩ := x₄
  obtain ⟨hserves, -⟩ := hput
  generalize hrecord : SiteMeta.mk .. = m' at hserves
  cases hserves with
  | putSite _ _ written =>
      rcases Sweep.putSite_answers b x₃.1.store m' written with ⟨e, hfails⟩ | ⟨hne, hok⟩
      · rw [hfails]
        exact published_other fun _ _ _ _ _ h => by cases h
      rw [hok]
      rintro id count bytes slug' url -
      refine ⟨rfl, fun hfresh => ⟨m', ?_, ?_, ?_⟩⟩
      · change (x₃.1.store.putSite b m' true).2.getSite slug = some m'
        rw [Sweep.getSite_putSite hne, if_pos]
        rw [← hrecord]
        exact (hown slug m hm).symm
      · rw [← hrecord]
      · change (x₃.1.store.putSite b m' true).2.getDeploy slug dep.id = some dep
        rw [Store.putSite, if_neg hne, if_neg (by decide)]
        change x₃.1.store.getDeploy slug dep.id = some dep
        rw [Store.getDeploy, hpending.deploys, if_pos rfl]
        rintro id hid heq
        cases heq
        exact hfresh m hm (Pending.listed hpending hid)

theorem commitDeploy_published {n : Node} (hown : Own n.store) (hkeep : 1 ≤ srv.cfg.keepDeploys)
    {slug : String} (pub : PubKey) (files : List File) {dep : Deploy} (hslug : dep.slug = slug)
    {x : Node × NodeCalls} (hx : Since n [] x) :
    Holds (Logged (Serves b srv.fileOf)) (fun _ _ => True)
      (fun r x' => Published srv n slug dep r x'.1.store) (commitDeploy srv slug pub files dep) x := by
  refine holds_getSite hx fun found x hm hx => ?_
  cases found with
  | none => exact published_other fun _ _ _ _ _ h => by cases h
  | some m =>
      dsimp only
      split
      next => exact published_other fun _ _ _ _ _ h => by cases h
      next =>
        refine holds_quiet (identityUsage_quiet pub) hx fun usage x hx => ?_
        cases usage with
        | error e => exact published_other fun _ _ _ _ _ h => by cases h
        | ok usage =>
            refine holds_quiet (quiet_node (o := .listObjects) trivial) hx fun existing x hx => ?_
            split
            next => exact published_other fun _ _ _ _ _ h => by cases h
            next =>
              refine holds_quiet (quiet_node (o := .totalBytes) trivial) hx fun total x hx => ?_
              split
              next => exact published_other fun _ _ _ _ _ h => by cases h
              next => exact putDeploy_published hown hkeep hm hslug hx

/-- A node keeps its objects while it works with the lock of a site held. -/
theorem withSiteLock_keeping {slug : String} {body : NodeM Response} (hbody : body.Only Keeping) :
    (withSiteLock slug body).Only Keeping :=
  (node_keeping (o := .lock slug) trivial).bind fun _ => hbody.bind fun _ =>
    (node_keeping (o := .unlock slug) trivial).bind fun _ => trivial

theorem withSiteLock_published {n : Node} {slug : String} {dep : Deploy} {body : NodeM Response}
    {x : Node × NodeCalls} (hx : Since n [] x)
    (hbody : ∀ x, Since n [] x → Holds (Logged (Serves b srv.fileOf)) (fun _ _ => True)
      (fun r x' => Published srv n slug dep r x'.1.store) body x) :
    Holds (Logged (Serves b srv.fileOf)) (fun _ _ => True)
      (fun r x' => Published srv n slug dep r x'.1.store) (withSiteLock slug body) x := by
  refine holds_quiet (quiet_node (o := .lock slug) trivial) hx fun _ x hx => ?_
  refine (holds_bind body _ x).mpr ((hbody x hx).imp fun r x₁ hx₁ => ?_)
  refine ⟨trivial, fun _ x₂ hunlock => ?_⟩
  obtain ⟨n₂, calls₂⟩ := x₂
  obtain ⟨hserves, -⟩ := hunlock
  cases hserves
  exact hx₁

/-- The limits of a node's uploads. -/
def limitsOf (srv : Server) : Limits := ⟨srv.cfg.maxFiles, srv.cfg.maxFileBytes, srv.cfg.maxSiteBytes⟩

/-- A bundle whose upload has been made: the node accepts it, opens every file of it, and its deploy is
published. -/
structure Made (srv : Server) (n : Node) (slug : String) (es : List TarEntry) (dep : Deploy)
    (r : Response) (s : Store) : Prop where
  accepts : Accepts (limitsOf srv) es
  opens : ∀ c ∈ calls srv.codec (readUpTo (limitsOf srv)) es, Opens s c.1.hash c.2
  published : Published srv n slug dep r s

theorem Holding.of_same {n n' n'' : Node} {puts : List (File × Bytes)} (h : Holding n puts n')
    (hsites : n''.store.disk.sites = n'.store.disk.sites)
    (hdeploys : n''.store.disk.deploys = n'.store.disk.deploys)
    (hobjects : n''.store.disk.objects = n'.store.disk.objects)
    (hindex : n''.store.mem.objIndex = n'.store.mem.objIndex) : Holding n puts n'' := by
  refine ⟨hsites.trans h.sites, hdeploys.trans h.deploys, fun hash hhash => ?_, fun hash data hdata => ?_,
    fun c hc => ?_⟩
  · rw [Stored, hobjects]
    exact h.indexed hash (hindex ▸ hhash)
  · exact h.objects hash data (hobjects ▸ hdata)
  · rw [Opens, hobjects, hindex]
    exact h.opens c hc

/-- A part of a request that leaves records and objects alone, before the rest of it. -/
theorem holds_holding {α β : Type} {p : NodeM α} (hp : p.Only fun o => Quiet o ∧ Keeping o)
    {next : α → NodeM β} {n : Node} {puts : List (File × Bytes)} {x : Node × NodeCalls}
    (hx : Holding n puts x.1) {Q : β → Node × NodeCalls → Prop}
    (hnext : ∀ a x', Holding n puts x'.1 →
      Holds (Logged (Serves b srv.fileOf)) (fun _ _ => True) Q (next a) x') :
    Holds (Logged (Serves b srv.fileOf)) (fun _ _ => True) Q (p >>= next) x := by
  have hstep : ∀ (x : Node × NodeCalls) o ans x', (Quiet o ∧ Keeping o) →
      Logged (Serves b srv.fileOf) x o ans x' → Holding n puts x.1 → Holding n puts x'.1 := by
    rintro x o ans x' ⟨hquiet, hkeeping⟩ ⟨hserves, -⟩ hx
    obtain ⟨hsites, hdeploys⟩ := serves_quiet hquiet hserves
    obtain ⟨hobjects, hindex⟩ := served_keeping hkeeping hserves
    exact hx.of_same hsites hdeploys hobjects hindex
  refine (holds_bind p next x).mpr ?_
  exact (hp.holds hstep hx).mono (fun _ _ _ => trivial) hnext

/-- The objects that a node opens, it still opens when it has called such operations. -/
theorem holds_opens {α : Type} {p : NodeM α} {Q : α → Node × NodeCalls → Prop} {x : Node × NodeCalls}
    (h : Holds (Logged (Serves b fileOf)) (fun _ _ => True) Q p x) (hp : p.Only Keeping)
    {puts : List (File × Bytes)} (hx : ∀ c ∈ puts, Opens x.1.store c.1.hash c.2) :
    Holds (Logged (Serves b fileOf)) (fun _ _ => True)
      (fun a x' => Q a x' ∧ ∀ c ∈ puts, Opens x'.1.store c.1.hash c.2) p x := by
  have hstep : ∀ (x : Node × NodeCalls) o ans x', Keeping o → Logged (Serves b fileOf) x o ans x' →
      (∀ c ∈ puts, Opens x.1.store c.1.hash c.2) → ∀ c ∈ puts, Opens x'.1.store c.1.hash c.2 := by
    rintro x o ans x' ho ⟨hserves, -⟩ hx c hc
    obtain ⟨hobjects, hindex⟩ := served_keeping ho hserves
    rw [Opens, hobjects, hindex]
    exact hx c hc
  exact (h.and (hp.holds hstep hx)).mono (fun _ _ _ => trivial) fun _ _ h => h

/-- The end of an upload, from its new id on. -/
theorem holds_commit {n : Node} (hown : Own n.store) (hkeep : 1 ≤ srv.cfg.keepDeploys) (slug : String)
    (pub : PubKey) (files : List File) (opts : Options) {puts : List (File × Bytes)}
    {x : Node × NodeCalls} (hx : Holding n puts x.1) :
    Holds (Logged (Serves b srv.fileOf)) (fun _ _ => True)
      (fun r x' => (∃ idTime created r4,
        Published srv n slug (newDeploy slug idTime created r4 files opts) r x'.1.store) ∧
          ∀ c ∈ puts, Opens x'.1.store c.1.hash c.2)
      (do
        let r4 : ByteArr 4 ← node .random
        let idTime : ℤ ← node .now
        let created : ℤ ← node .now
        let dep := newDeploy slug idTime created r4 files opts
        withSiteLock slug (commitDeploy srv slug pub files dep)) x := by
  refine holds_opens ?_ ?_ hx.opens
  · have hsince : Since n [] x := ⟨hx.sites, hx.deploys, List.nil_subset _⟩
    refine holds_quiet (quiet_node (o := .random) trivial) hsince fun r4 x hx => ?_
    refine holds_quiet (quiet_node (o := .now) trivial) hx fun idTime x hx => ?_
    refine holds_quiet (quiet_node (o := .now) trivial) hx fun created x hx => ?_
    have hslug : (newDeploy slug idTime created r4 files opts).slug = slug := rfl
    refine (withSiteLock_published hx fun x hx => ?_).imp fun r x' h => ⟨idTime, created, r4, h⟩
    exact commitDeploy_published hown hkeep pub files hslug hx
  · refine (node_keeping (o := .random) trivial).bind fun r4 => ?_
    refine (node_keeping (o := .now) trivial).bind fun idTime => ?_
    refine (node_keeping (o := .now) trivial).bind fun created => ?_
    exact withSiteLock_keeping (commitDeploy_keeping slug pub files _)

theorem holds_made {n : Node} (hown : Own n.store) (hkeep : 1 ≤ srv.cfg.keepDeploys)
    (hindexed : ∀ hash, (n.store.mem.objIndex.lookup hash).isSome → Stored n.store hash)
    {es : List TarEntry}
    (hapart : Accepts (limitsOf srv) es → Apart n (calls srv.codec (readUpTo (limitsOf srv)) es))
    {req : Request} {pub : PubKey} (hgate : req.gate = .ok ()) (hauth : req.authed req.slug = .ok pub) :
    Holds (Logged (Serves b srv.fileOf)) (fun _ _ => True)
      (fun r x' => ∀ id count bytes slug url, r = .deployed id count bytes slug url →
        ∃ idTime created r4 opts, Made srv n req.slug es
          (newDeploy req.slug idTime created r4
            ((calls srv.codec (readUpTo (limitsOf srv)) es).map Prod.fst) opts) r x'.1.store)
      (handleDeploy srv req (.entries es none)) (n, []) := by
  have hget : (node (.getSite req.slug)).Only fun o => Quiet o ∧ Keeping o :=
    Prog.only_op ⟨trivial, trivial⟩
  have htotal : (node .totalBytes).Only fun o => Quiet o ∧ Keeping o := Prog.only_op ⟨trivial, trivial⟩
  rw [handleDeploy, hgate]
  dsimp only
  rw [hauth]
  refine holds_holding hget (holding_nil hindexed) fun found x hx => ?_
  cases found with
  | none => exact fun _ _ _ _ _ h => by cases h
  | some m =>
      dsimp only
      split
      next => exact fun _ _ _ _ _ h => by cases h
      next =>
        refine holds_holding htotal hx fun total x hx => ?_
        split
        next => exact fun _ _ _ _ _ h => by cases h
        next =>
          refine (holds_bind _ _ _).mpr ((extract_holding hx).imp fun out x hout => ?_)
          cases out with
          | error e => exact fun _ _ _ _ _ h => by cases h
          | ok extracted =>
              obtain ⟨files, opts⟩ := extracted
              obtain ⟨hacc, rfl, hholding⟩ := hout files opts rfl
              refine (holds_commit hown hkeep req.slug pub _ opts (hholding (hapart hacc))).imp fun r x' h => ?_
              obtain ⟨⟨idTime, created, r4, hpublished⟩, hopens⟩ := h
              exact fun _ _ _ _ _ _ => ⟨idTime, created, r4, opts, hacc, hopens, hpublished⟩

end Commit

section Served

variable {b : Backend} {srv : Server} {d : Directory} {es : List TarEntry}

/-- A file as the node lists it. -/
def listed (codec : Codec) (f : List String × Bytes) : File where
  path := "/" ++ relPath f.1
  hash := codec.sha256 f.2
  size := f.2.length
  mime := codec.mimeOf ("/" ++ relPath f.1) f.2

/-- The content in an answer. -/
def bodyOf : Answer → Option Bytes
  | .page _ _ body => some body
  | .content _ _ _ body => some body
  | _ => none

/-- A site whose current deploy has these files: each is answered under its own path, and no other
content is. -/
structure Online (codec : Codec) (src : Sources) (slug id : String) (files : List (List String × Bytes)) :
    Prop where
  live : ∃ m dep, Serving.currentDeploy src slug = .live m dep ∧ dep.id = id
  own : ∀ f ∈ files, ∀ inm, Hit inm (listed codec f, f.2)
    (serveSite src ⟨"GET", inm⟩ slug ("/" ++ relPath f.1))
  only : ∀ inm reqPath body, bodyOf (serveSite src ⟨"GET", inm⟩ slug reqPath) = some body →
    ∃ f ∈ files, f.2 = body

theorem calls_packed {lim : Limits} (codec : Codec) (h : Packed d es)
    (hmax : lim.maxFileBytes ≠ Int64.maxValue) (hfits : Fits lim d.files) :
    calls codec (readUpTo lim) es = (siteOf d.files).map fun f => (listed codec f, f.2) := by
  rw [calls, packed_siteFiles h, List.map_map]
  refine List.map_congr_left fun f hf => ?_
  rw [Function.comp_apply, call, readUpTo_entryOf hmax (hfits.sizes f (List.mem_filter.mp hf).1)]
  rfl

theorem id_ne_empty {slug : String} {idTime created : ℤ} {r4 : ByteArr 4} {files : List File}
    {opts : Options} : (newDeploy slug idTime created r4 files opts).id ≠ "" := by
  intro h
  have hdash : '-' ∈ (newDeploy slug idTime created r4 files opts).id.toList := by
    simp [newDeploy, String.toList_append]
  rw [h] at hdash
  cases hdash

/-- The answer from a stored file has its content, or none. -/
theorem bodyOf_entry {src : Sources} {dep : Deploy} {inm : String} {c : File × Bytes} {status : ℕ}
    {body : Bytes} (hopen : src.openObject c.1.hash = some c.2)
    (hbody : bodyOf (serveEntry src ⟨"GET", inm⟩ dep (fileEntry c.1) status) = some body) :
    c.2 = body := by
  rw [serveEntry_stored hopen] at hbody
  split at hbody
  · cases hbody
  · split at hbody
    · exact Option.some.inj hbody
    · exact Option.some.inj hbody

section Answers

variable {src : Sources} {uploaded : Serving.Uploaded} {dep : Deploy} {slug : String} {m : SiteMeta}

theorem serveSite_pick (hallowed : src.allowed = true)
    (hlive : Serving.currentDeploy src slug = .live m dep) (hlists : Lists dep uploaded)
    (hsafe : ∀ c ∈ uploaded, ∃ name, c.1.path = "/" ++ name ∧ SafeName name) {c : File × Bytes}
    {reqPath : String} (hpick : pick uploaded (chain dep.options (cleaned reqPath)) = some c)
    (r : SiteRequest) : serveSite src r slug reqPath = serveEntry src r dep (fileEntry c.1) 200 := by
  rw [serveSite_live hallowed hlive, resolve_pick hlists hsafe, hpick]
  rfl

/-- An answer is a file of the deploy, or none is found. -/
theorem serveSite_cases (hallowed : src.allowed = true)
    (hlive : Serving.currentDeploy src slug = .live m dep) (hlists : Lists dep uploaded)
    (hsafe : ∀ c ∈ uploaded, ∃ name, c.1.path = "/" ++ name ∧ SafeName name) (r : SiteRequest)
    (reqPath : String) :
    (∃ c ∈ uploaded, ∃ status, serveSite src r slug reqPath = serveEntry src r dep (fileEntry c.1) status) ∨
      serveSite src r slug reqPath = .text 404 "404 not found\n" := by
  cases hpick : pick uploaded (chain dep.options (cleaned reqPath)) with
  | some c => exact .inl ⟨c, pick_mem hpick, 200, serveSite_pick hallowed hlive hlists hsafe hpick r⟩
  | none =>
      rw [serveSite_live hallowed hlive, resolve_pick hlists hsafe, hpick, findFile_eq hlists]
      cases hfind : uploaded.find? fun c => c.1.path = dep.options.notFound with
      | some c => exact .inl ⟨c, List.mem_of_find?_eq_some hfind, 404, rfl⟩
      | none => exact .inr rfl

end Answers

/-- What a node opens of a deploy that it has made current, it serves. -/
theorem online {codec : Codec} {n : Node} {slug : String} {mcache : Dict String CachedDeploy}
    {files : List (List String × Bytes)} {idTime created : ℤ} {r4 : ByteArr 4} {opts : Options}
    {uploaded : Serving.Uploaded} (huploaded : uploaded = files.map fun f => (listed codec f, f.2))
    (hsafe : ∀ f ∈ files, SafeName (relPath f.1)) (hnodup : (files.map fun f => relPath f.1).Nodup)
    (hopens : ∀ c ∈ uploaded, Opens n.store c.1.hash c.2)
    (hlive : Live n.store slug (newDeploy slug idTime created r4 (uploaded.map Prod.fst) opts)) :
    Online codec (sourcesOf ⟨n, mcache⟩ none true) slug
      (newDeploy slug idTime created r4 (uploaded.map Prod.fst) opts).id files := by
  obtain ⟨m, hm, hcurrent, hdep⟩ := hlive
  have hsafe' : ∀ c ∈ uploaded, ∃ name, c.1.path = "/" ++ name ∧ SafeName name := by
    intro c hc
    rw [huploaded] at hc
    obtain ⟨f, hf, rfl⟩ := List.mem_map.mp hc
    exact ⟨relPath f.1, rfl, hsafe f hf⟩
  have hnodup' : (uploaded.map fun c => c.1.path).Nodup := by
    have hslash : Function.Injective fun name : String => "/" ++ name := fun _ _ => slash_inj.mp
    have hpaths := hnodup.map hslash
    rw [List.map_map] at hpaths
    rw [huploaded, List.map_map]
    exact hpaths
  have hlists : Lists (newDeploy slug idTime created r4 (uploaded.map Prod.fst) opts) uploaded :=
    List.map_map
  have hopen : ∀ c ∈ uploaded, (sourcesOf ⟨n, mcache⟩ none true).openObject c.1.hash = some c.2 := by
    intro c hc
    obtain ⟨hindexed, hdata⟩ := hopens c hc
    obtain ⟨size, hsize⟩ := Option.isSome_iff_exists.mp hindexed
    change (n.store.mem.objIndex.lookup c.1.hash).bind (fun _ => n.store.disk.objects.lookup c.1.hash) = _
    rw [hsize, hdata]
    rfl
  have hlive : Serving.currentDeploy (sourcesOf ⟨n, mcache⟩ none true) slug =
      .live m (newDeploy slug idTime created r4 (uploaded.map Prod.fst) opts) := by
    have hdep' : n.store.getDeploy slug m.current =
        some (newDeploy slug idTime created r4 (uploaded.map Prod.fst) opts) := by
      rw [hcurrent]
      exact hdep
    rw [Serving.currentDeploy]
    dsimp only [sourcesOf]
    rw [hm]
    dsimp only
    rw [if_neg (by rw [hcurrent]; exact id_ne_empty), hdep']
  refine ⟨⟨m, _, hlive, rfl⟩, fun f hf inm => ?_, fun inm reqPath body hbody => ?_⟩
  · have hmem : (listed codec f, f.2) ∈ uploaded := by
      rw [huploaded]
      exact List.mem_map_of_mem hf
    have hpick := pick_own hnodup' hsafe' opts hmem
    rw [← show (listed codec f).path = "/" ++ relPath f.1 from rfl,
      serveSite_pick rfl hlive hlists hsafe' hpick]
    exact serveEntry_hit (hopen _ hmem) inm
  · rcases serveSite_cases rfl hlive hlists hsafe' ⟨"GET", inm⟩ reqPath with
      ⟨c, hc, status, hanswer⟩ | hanswer
    · rw [hanswer] at hbody
      have hdata := bodyOf_entry (hopen c hc) hbody
      rw [huploaded] at hc
      obtain ⟨f, hf, rfl⟩ := List.mem_map.mp hc
      exact ⟨f, hf, hdata⟩
    · rw [hanswer] at hbody
      cases hbody

/-- A directory whose upload is answered as made fits the node's limits, and the node then serves it:
each of its files under its own path, and no other content. -/
theorem deployed_directory_online (hkeep : 1 ≤ srv.cfg.keepDeploys)
    (hmax : srv.cfg.maxFileBytes ≠ Int64.maxValue) (hsite : 0 ≤ srv.cfg.maxSiteBytes)
    (hfiles : 0 ≤ srv.cfg.maxFiles) (hpack : buildTarGz d.node = .ok es) {n n' : Node}
    (hshape : Shape b n.store)
    (hheld : ∀ f ∈ siteOf d.files, ∀ data,
      n.store.disk.objects.lookup (srv.codec.sha256 f.2) = some data → data = f.2)
    (hhash : ∀ f ∈ siteOf d.files, ∀ g ∈ siteOf d.files,
      srv.codec.sha256 f.2 = srv.codec.sha256 g.2 → f.2 = g.2)
    {req : Request} {pub : PubKey} (hgate : req.gate = .ok ()) (hauth : req.authed req.slug = .ok pub)
    {id : String} {count : ℕ} {bytes : ℤ} {slug url : String}
    (hexec : Exec (Serves b srv.fileOf) n (handleDeploy srv req (.entries es none))
      (.deployed id count bytes slug url) n')
    (hfresh : ∀ m, n.store.getSite req.slug = some m → id ∉ m.deploys)
    (mcache : Dict String CachedDeploy) :
    Fits (limitsOf srv) d.files ∧ slug = req.slug ∧ count = (siteOf d.files).length ∧
      bytes = ((siteOf d.files).map fun f => (f.2.length : ℤ)).sum ∧
        Online srv.codec (sourcesOf ⟨n', mcache⟩ none true) req.slug id (siteOf d.files) := by
  have hpacked := packed hpack
  have hiff : Accepts (limitsOf srv) es ↔ Fits (limitsOf srv) d.files :=
    packed_accepts_iff hpacked hmax hsite hfiles
  have hapart : Accepts (limitsOf srv) es →
      Apart n (calls srv.codec (readUpTo (limitsOf srv)) es) := by
    intro hacc
    rw [calls_packed srv.codec hpacked hmax (hiff.mp hacc)]
    refine ⟨fun c hc => ?_, fun c hc c' hc' => ?_⟩
    · obtain ⟨f, hf, rfl⟩ := List.mem_map.mp hc
      exact hheld f hf
    · obtain ⟨f, hf, rfl⟩ := List.mem_map.mp hc
      obtain ⟨g, hg, rfl⟩ := List.mem_map.mp hc'
      exact hhash f hf g hg
  obtain ⟨calls', hlogged⟩ := Steps.log hexec []
  have hmade := (holds_made hshape.own hkeep hshape.indexed hapart hgate hauth).exec hlogged
  obtain ⟨idTime, created, r4, opts, hacc, hopens, hpublished⟩ := hmade id count bytes slug url rfl
  have hfits := hiff.mp hacc
  have hcalls := calls_packed srv.codec hpacked hmax hfits
  obtain ⟨hresponse, hlive⟩ := hpublished id count bytes slug url rfl
  injection hresponse with hid hcount hbytes hslug hurl
  have hclean : ∀ f ∈ siteOf d.files, (cleanPath (relPath f.1)).isSome = true := by
    intro f hf
    have hmem := (List.mem_filter.mp hf).1
    exact (cleanPath_relPath (d.path hmem).1 (d.path hmem).2).mpr (hfits.names f hmem)
  refine ⟨hfits, hslug, ?_, ?_, ?_⟩
  · rw [hcount, hcalls]
    simp [newDeploy]
  · rw [hbytes, hcalls]
    simp [newDeploy, listed, Function.comp_def]
  · rw [hid]
    refine online hcalls (fun f hf => ?_) ?_ hopens (hlive fun m hm => hid ▸ hfresh m hm)
    · obtain ⟨p, hp⟩ := Option.isSome_iff_exists.mp (hclean f hf)
      exact safeName hp
    · have hnodup := packed_names_nodup hpacked
      rw [hpacked.files, List.map_map] at hnodup
      exact hnodup.sublist (List.filter_sublist.map _)

end Served

section Sample

open Tactile.Publish.Quota (claimedNode hello helloDigest helloServer)
open Tactile.Publish.Routing (sampleReq sampleSite sampleKey)

theorem validEntries_home : ValidEntries
    [("index.html", .file (.ok hello)), ("pages", .dir [("a.txt", .file (.ok hello))]),
      ("publish.json", .file (.ok [123, 125]))] := by
  refine ⟨?_, trivial, ?_, ⟨?_, ?_, trivial, trivial⟩, ?_, trivial, trivial⟩
  all_goals first | exact List.nodup_singleton _ | (rw [FileName]; decide)

/-- A page, a file below it and the settings of the site. -/
def home : Directory where
  entries := [("index.html", .file (.ok hello)), ("pages", .dir [("a.txt", .file (.ok hello))]),
    ("publish.json", .file (.ok [123, 125]))]
  nodup := by decide
  valid := validEntries_home

/-- The archive of the directory. -/
def homeEntries : List TarEntry :=
  [⟨"index.html", .reg, 5, .ok hello⟩, ⟨"pages", .dir, 0, .ok []⟩, ⟨"pages/a.txt", .reg, 5, .ok hello⟩,
    ⟨"publish.json", .reg, 2, .ok [123, 125]⟩]

theorem buildTarGz_home : buildTarGz home.node = .ok homeEntries := by rfl

theorem shape_claimedNode : Shape .fs claimedNode.store where
  own := fun slug m hm => by
    have hin : (slug, m) ∈ pairs claimedNode.store.disk.sites := mem_pairs.mpr hm
    cases List.mem_singleton.mp hin
    rfl
  indexed := fun h hin => by cases hin
  slugs := fun hs3 => by cases hs3

theorem exec_home : ∃ n' id bytes url, Exec (Serves .fs (helloServer 1000).fileOf) claimedNode
    (handleDeploy (helloServer 1000) sampleReq (.entries homeEntries none))
    (.deployed id 2 bytes "a" url) n' :=
  ⟨_, _, _, _, Steps.answer (some (sampleSite [])) _ (.getSite _ _) <|
    Steps.answer (0 : ℤ) _ (.totalBytes _) <| Steps.answer (.ok ()) _ (.putObject _ _ _ true) <|
    Steps.answer (.ok ()) _ (.putObject _ _ _ true) <|
    Steps.answer (⟨[0, 0, 0, 0], rfl⟩ : ByteArr 4) _ (.random _ _) <|
    Steps.answer (1 : ℤ) _ (.now _ _) <| Steps.answer (1 : ℤ) _ (.now _ _) <|
    Steps.answer () _ (.lock _ _ (by decide)) <|
    Steps.answer (some (sampleSite [])) _ (.getSite _ _) <|
    Steps.answer (.ok [sampleSite []]) _ (.listSites _ _ (List.Perm.refl _)) <|
    Steps.answer ((∅ : Dict Digest ℤ).insert helloDigest 5) _ (.listObjects _) <|
    Steps.answer (5 : ℤ) _ (.totalBytes _) <| Steps.answer (.ok ()) _ (.putDeploy _ _ true) <|
    Steps.answer (1 : ℤ) _ (.now _ _) <| Steps.answer (.ok ()) _ (.putSite _ _ true) <|
    Steps.answer () _ (.unlock _ _) <| .refl _ _⟩

theorem deployed_directory_online_home : ∃ n' id,
    Online (helloServer 1000).codec (sourcesOf ⟨n', ∅⟩ none true) "a" id (siteOf home.files) := by
  obtain ⟨n', id, bytes, url, hexec⟩ := exec_home
  refine ⟨n', id, (deployed_directory_online (by decide) (by decide) (by decide) (by decide) buildTarGz_home
    shape_claimedNode ?_ ?_ rfl rfl hexec ?_ ∅).2.2.2.2⟩
  · intro f _ data hdata
    cases hdata
  · have hcontent : ∀ f ∈ siteOf home.files, f.2 = hello := by decide
    intro f hf g hg _
    rw [hcontent f hf, hcontent g hg]
  · intro m hm
    have hin : ("a", m) ∈ pairs claimedNode.store.disk.sites := mem_pairs.mpr hm
    cases List.mem_singleton.mp hin
    exact List.not_mem_nil

end Sample

end Tactile.Publish.Packing
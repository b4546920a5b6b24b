import Tactile.Lib.FiniteMap
import Tactile.Notes.Links

/-!
The graph of the notes' links, which is built with a cache of the links that were extracted,
and when the cache makes no difference.
-/

namespace Tactile.Notes.Graph

open Tactile.Lib.CodeUnits Tactile.Lib.FiniteMap
open Tactile.Notes.Links

section Index

/-- An entry of the collection; a file has no children. -/
inductive FileEntry
  | mk (name : Option JsString) (path : JsString) (isFile : Bool) (children : List FileEntry)

def FileEntry.name : FileEntry → Option JsString
  | mk name _ _ _ => name

def FileEntry.path : FileEntry → JsString
  | mk _ path _ _ => path

def FileEntry.isFile : FileEntry → Bool
  | mk _ _ isFile _ => isFile

mutual

def flattenEntry : FileEntry → List FileEntry
  | .mk name path isFile children => .mk name path isFile children :: flatten children

def flatten : List FileEntry → List FileEntry
  | [] => []
  | e :: entries => flattenEntry e ++ flatten entries

end

/-- What is seen of the application and of the files, with the notes that can be read. -/
structure World where
  collection : Option JsString
  collectionEntries : List FileEntry
  activeFile : Option JsString
  readTextFile : JsString → Option JsString

structure NoteIndexEntry where
  path : JsString
  rel : JsString
  name : JsString
  deriving DecidableEq

def truthy : Option JsString → Option JsString
  | some [] => none
  | text => text

/-- `s.replace(/\.md$/i, '')` -/
def stripMd (s : JsString) : JsString :=
  if (js ".MD".toList).isSuffixOf (s.map upperAscii) then s.take (s.length - 3) else s

variable (lower : JsString → JsString)

def isNote (e : FileEntry) : Bool :=
  e.isFile && e.name.any fun name => markdownExtension.isSuffixOf (lower name)

def indexEntry (root : JsString) (e : FileEntry) : NoteIndexEntry :=
  let start := if [unit '/'].isSuffixOf root then root else root ++ [unit '/']
  ⟨e.path, if start.isPrefixOf e.path then e.path.drop start.length else e.path,
    stripMd (e.name.getD [])⟩

def noteIndex (world : World) : List NoteIndexEntry :=
  match truthy world.collection with
  | none => []
  | some root => ((flatten world.collectionEntries).filter (isNote lower)).map (indexEntry root)

def dirOf (path : JsString) : JsString :=
  [unit '/'].intercalate (path.splitOn (unit '/')).dropLast

/-- The note that a target names: by its path, or by its name, where one beside the active
note comes first. -/
def resolveNoteTarget (activeFile : Option JsString) (notes : List NoteIndexEntry)
    (target : JsString) : Option JsString :=
  let clean := stripMd ((trim target).dropWhile (· == unit '/'))
  if clean = [] then none
  else
    match notes.find? fun n => lower (stripMd n.rel) == lower clean with
    | some exact => some exact.path
    | none =>
      let named := notes.filter fun n => lower n.name == lower clean
      let sibling := (truthy (activeFile.map dirOf)).bind fun activeDir =>
        named.find? fun n => dirOf n.path == activeDir
      (sibling.or named.head?).map NoteIndexEntry.path

end Index

structure GraphNode where
  id : JsString
  name : JsString
  present : Bool
  path : Option JsString
  deriving DecidableEq

structure GraphLink where
  source : JsString
  target : JsString
  deriving DecidableEq

structure NoteGraph where
  nodes : List GraphNode
  links : List GraphLink
  deriving DecidableEq

structure CachedLinks where
  hash : ℤ
  targets : List JsString
  deriving DecidableEq

abbrev LinkCache : Type := Dict JsString CachedLinks

/-- FNV-1a on integers of 32 bits. -/
def hash (s : JsString) : ℤ :=
  s.foldl (fun h u => ((BitVec.ofInt 32 h ^^^ BitVec.ofNat 32 u.toNat) * 0x01000193#32).toInt)
    0x811c9dc5

/-- The nodes and links so far, and the links that were seen. -/
structure Building where
  nodes : List GraphNode
  links : List GraphLink
  seen : List JsString
  deriving DecidableEq

/-- Nodes keep the place at which their id was first put. -/
def setNode (nodes : List GraphNode) (node : GraphNode) : List GraphNode :=
  if nodes.any fun n => n.id == node.id then
    nodes.map fun n => if n.id == node.id then node else n
  else nodes ++ [node]

def Building.addMissing (b : Building) (targetId name : JsString) : Building :=
  if b.nodes.any fun n => n.id == targetId then b
  else { b with nodes := setNode b.nodes ⟨targetId, name, false, none⟩ }

def Building.addLink (b : Building) (source target : JsString) : Building :=
  let key := source ++ js "->".toList ++ target
  if key ∈ b.seen then b
  else { b with seen := b.seen ++ [key], links := b.links ++ [⟨source, target⟩] }

section Building

variable (lower : JsString → JsString) (world : World)

def addTarget (notes : List NoteIndexEntry) (source : JsString) (b : Building) (raw : JsString) :
    Building :=
  match truthy (resolveNoteTarget lower world.activeFile notes raw) with
  | some targetPath => b.addLink source targetPath
  | none =>
    -- a note that does not exist yet is a node of its own
    let name := trim (stripMd (((raw.splitOn (unit '/')).getLast?).getD []))
    if name = [] then b
    else
      let targetId := js "missing:".toList ++ lower name
      (b.addMissing targetId name).addLink source targetId

/-- The targets of a content, from the cache if that has its hash. -/
def cachedTargets (linkCache : LinkCache) (path content : JsString) : LinkCache × List JsString :=
  let h := hash content
  match linkCache.lookup path with
  | some cached =>
    if cached.hash = h then (linkCache, cached.targets)
    else
      (linkCache.insert path ⟨h, extractNoteLinks lower content⟩, extractNoteLinks lower content)
  | none =>
    (linkCache.insert path ⟨h, extractNoteLinks lower content⟩, extractNoteLinks lower content)

def addNote (notes : List NoteIndexEntry) (acc : LinkCache × Building)
    (read : NoteIndexEntry × Option JsString) : LinkCache × Building :=
  match read with
  | (_, none) => acc
  | (n, some content) =>
    let found := cachedTargets lower acc.1 n.path content
    (found.1, found.2.foldl (addTarget lower world notes n.path) acc.2)

def readBatch : ℕ := 16

/-- The notes in their batches, each with its content. -/
def readNotes (notes : List NoteIndexEntry) : List (NoteIndexEntry × Option JsString) :=
  (List.range ((notes.length + readBatch - 1) / readBatch)).flatMap fun i =>
    ((notes.drop (i * readBatch)).take readBatch).map fun n => (n, world.readTextFile n.path)

def evict (notes : List NoteIndexEntry) (linkCache : LinkCache) : LinkCache :=
  select linkCache fun path _ => notes.any fun n => n.path == path

def buildNoteGraph (linkCache : LinkCache) : LinkCache × NoteGraph :=
  let notes := noteIndex lower world
  let nodes := notes.foldl (fun nodes n => setNode nodes ⟨n.path, n.name, true, some n.path⟩) []
  let built := (readNotes world notes).foldl (addNote lower world notes)
    (evict notes linkCache, ⟨nodes, [], []⟩)
  (built.1, ⟨built.2.nodes, built.2.links⟩)

end Building

section Runs

variable (lower : JsString → JsString)

/-- The contents that a build reads. -/
def contentsRead (world : World) : List (JsString × JsString) :=
  (readNotes world (noteIndex lower world)).filterMap fun read =>
    read.2.map fun content => (read.1.path, content)

/-- The cache, with the contents that builds have read since: of notes that have been in the
index ever since, and after the last clear. -/
structure State where
  world : World
  linkCache : LinkCache
  known : List (JsString × JsString)

/-- Notes and the rest of the application change in any way; a graph is built; the cache is
cleared. -/
inductive Event
  | change (world : World)
  | build
  | clear

def State.next (s : State) : Event → State
  | .change world => { s with world := world }
  | .build =>
    { s with
      linkCache := (buildNoteGraph lower s.world s.linkCache).1
      known := (s.known.filter fun p => (noteIndex lower s.world).any fun n => n.path == p.1) ++
        contentsRead lower s.world }
  | .clear => { s with linkCache := ∅, known := [] }

def run (world : World) (events : List Event) : State :=
  events.foldl (State.next lower) ⟨world, ∅, []⟩

end Runs

section Cache

variable {lower : JsString → JsString} {world : World} {notes : List NoteIndexEntry}
variable {linkCache : LinkCache} {n : NoteIndexEntry} {content path : JsString}

/-- An entry that has the hash of a note's content has its links. -/
def Fine (lower : JsString → JsString) (world : World) (notes : List NoteIndexEntry)
    (linkCache : LinkCache) : Prop :=
  ∀ n ∈ notes, ∀ content cached, world.readTextFile n.path = some content →
    linkCache.lookup n.path = some cached → cached.hash = hash content →
      cached.targets = extractNoteLinks lower content

theorem cachedTargets_cases (linkCache : LinkCache) (path content : JsString) :
    (∃ cached, linkCache.lookup path = some cached ∧ cached.hash = hash content ∧
      cachedTargets lower linkCache path content = (linkCache, cached.targets)) ∨
    cachedTargets lower linkCache path content =
      (linkCache.insert path ⟨hash content, extractNoteLinks lower content⟩,
        extractNoteLinks lower content) := by
  rw [cachedTargets]
  cases linkCache.lookup path with
  | none => exact .inr rfl
  | some cached =>
      dsimp only
      split
      next h => exact .inl ⟨cached, rfl, h, rfl⟩
      next => exact .inr rfl

theorem cachedTargets_fine (h : Fine lower world notes linkCache) (hn : n ∈ notes)
    (hread : world.readTextFile n.path = some content) :
    (cachedTargets lower linkCache n.path content).2 = extractNoteLinks lower content ∧
      Fine lower world notes (cachedTargets lower linkCache n.path content).1 := by
  rcases @cachedTargets_cases lower linkCache n.path content with ⟨cached, hcached, hhash, heq⟩ | heq
  · rw [heq]
    exact ⟨h n hn content cached hread hcached hhash, h⟩
  · rw [heq]
    refine ⟨rfl, fun m hm content' cached hread' hcached hhash => ?_⟩
    rw [lookup_insert_eq] at hcached
    split at hcached
    next hpath =>
      -- the entry that was just put has the links of the content that was read
      cases hcached
      rw [hpath, hread] at hread'
      cases hread'
      rfl
    next => exact h m hm content' cached hread' hcached hhash

theorem mem_readNotes {read : NoteIndexEntry × Option JsString}
    (h : read ∈ readNotes world notes) :
    read.1 ∈ notes ∧ read.2 = world.readTextFile read.1.path := by
  obtain ⟨i, -, hread⟩ := List.mem_flatMap.mp h
  obtain ⟨n, hn, rfl⟩ := List.mem_map.mp hread
  exact ⟨List.mem_of_mem_drop (List.mem_of_mem_take hn), rfl⟩

def addPlain (lower : JsString → JsString) (world : World) (notes : List NoteIndexEntry)
    (b : Building) (read : NoteIndexEntry × Option JsString) : Building :=
  match read with
  | (_, none) => b
  | (n, some content) =>
    (extractNoteLinks lower content).foldl (addTarget lower world notes n.path) b

/-- With a cache that is fine, notes are added as if there were none. -/
theorem foldl_addNote (reads : List (NoteIndexEntry × Option JsString))
    (hreads : ∀ read ∈ reads, read.1 ∈ notes ∧ read.2 = world.readTextFile read.1.path)
    (h : Fine lower world notes linkCache) (b : Building) :
    (reads.foldl (addNote lower world notes) (linkCache, b)).2 =
      reads.foldl (addPlain lower world notes) b := by
  induction reads generalizing linkCache b with
  | nil => rfl
  | cons read reads ih =>
      obtain ⟨hread, hrest⟩ := List.forall_mem_cons.mp hreads
      obtain ⟨n, found⟩ := read
      rw [List.foldl_cons, List.foldl_cons]
      cases found with
      | none => exact ih hrest h b
      | some content =>
          obtain ⟨htargets, hfine⟩ := cachedTargets_fine h hread.1 hread.2.symm
          rw [addNote, addPlain]
          dsimp only
          rw [htargets]
          exact ih hrest hfine _

theorem lookup_evict {cached : CachedLinks} :
    (evict notes linkCache).lookup path = some cached ↔
      linkCache.lookup path = some cached ∧ (notes.any fun n => n.path == path) = true := by
  rw [evict, lookup_select, Option.filter_eq_some_iff]

theorem build_eq_of_fine (h : Fine lower world (noteIndex lower world) linkCache) :
    (buildNoteGraph lower world linkCache).2 = (buildNoteGraph lower world ∅).2 := by
  have hevict : Fine lower world (noteIndex lower world) (evict (noteIndex lower world) linkCache) :=
    fun n hn content cached hread hcached => h n hn content cached hread (lookup_evict.mp hcached).1
  have hempty : Fine lower world (noteIndex lower world) (evict (noteIndex lower world) ∅) := by
    intro n _ content cached _ hcached
    have hnone := (lookup_evict.mp hcached).1
    rw [AList.lookup_empty] at hnone
    cases hnone
  have hreads := @mem_readNotes world (noteIndex lower world)
  rw [buildNoteGraph, buildNoteGraph]
  dsimp only
  rw [foldl_addNote _ (fun _ => hreads) hevict, foldl_addNote _ (fun _ => hreads) hempty]

/-- Every entry has the hash and the links of a content that is known. -/
def Sourced (lower : JsString → JsString) (linkCache : LinkCache)
    (known : List (JsString × JsString)) : Prop :=
  ∀ path cached, linkCache.lookup path = some cached →
    ∃ content, (path, content) ∈ known ∧ cached = ⟨hash content, extractNoteLinks lower content⟩

theorem sourced_addNote {known : List (JsString × JsString)}
    (reads : List (NoteIndexEntry × Option JsString))
    (hreads : ∀ n content, (n, some content) ∈ reads → (n.path, content) ∈ known)
    (h : Sourced lower linkCache known) (b : Building) :
    Sourced lower (reads.foldl (addNote lower world notes) (linkCache, b)).1 known := by
  induction reads generalizing linkCache b with
  | nil => exact h
  | cons read reads ih =>
      have hrest : ∀ n content, (n, some content) ∈ reads → (n.path, content) ∈ known :=
        fun n content hread => hreads n content (List.mem_cons_of_mem read hread)
      obtain ⟨n, found⟩ := read
      rw [List.foldl_cons]
      cases found with
      | none => exact ih hrest h b
      | some content =>
          apply ih hrest
          rcases @cachedTargets_cases lower linkCache n.path content with ⟨cached, -, -, heq⟩ | heq
          · rw [heq]
            exact h
          · rw [heq]
            intro path cached hcached
            rw [lookup_insert_eq] at hcached
            split at hcached
            next hpath =>
              cases hcached
              rw [hpath]
              exact ⟨content, hreads n content List.mem_cons_self, rfl⟩
            next => exact h path cached hcached

theorem sourced_next {s : State} (h : Sourced lower s.linkCache s.known) (event : Event) :
    Sourced lower (s.next lower event).linkCache (s.next lower event).known := by
  cases event with
  | change world => exact h
  | clear =>
      intro path cached hcached
      have hnone : (∅ : LinkCache).lookup path = some cached := hcached
      rw [AList.lookup_empty] at hnone
      cases hnone
  | build =>
      apply sourced_addNote
      · intro n content hread
        refine List.mem_append_right _ (List.mem_filterMap.mpr ⟨_, hread, rfl⟩)
      · intro path cached hcached
        obtain ⟨hlookup, hindexed⟩ := lookup_evict.mp hcached
        obtain ⟨content, hknown, heq⟩ := h path cached hlookup
        exact ⟨content, List.mem_append_left _ (List.mem_filter.mpr ⟨hknown, hindexed⟩), heq⟩

theorem sourced_run (world : World) (events : List Event) :
    Sourced lower (run lower world events).linkCache (run lower world events).known := by
  rw [run]
  have hstart : Sourced lower (∅ : LinkCache) [] := by
    intro path cached hcached
    rw [AList.lookup_empty] at hcached
    cases hcached
  suffices hall : ∀ s : State, Sourced lower s.linkCache s.known →
      Sourced lower (events.foldl (State.next lower) s).linkCache
        (events.foldl (State.next lower) s).known from hall ⟨world, ∅, []⟩ hstart
  induction events with
  | nil => exact fun _ h => h
  | cons event events ih => exact fun s h => ih (s.next lower event) (sourced_next h event)

/-- After any events a build returns the graph of an empty cache, unless a note's content has
the hash of another one that was read of it, with other links. -/
theorem build_transparent (lower : JsString → JsString) (world : World) (events : List Event)
    (hhash : ∀ n ∈ noteIndex lower (run lower world events).world, ∀ content old,
      (run lower world events).world.readTextFile n.path = some content →
        (n.path, old) ∈ (run lower world events).known → hash old = hash content →
          extractNoteLinks lower old = extractNoteLinks lower content) :
    (buildNoteGraph lower (run lower world events).world (run lower world events).linkCache).2 =
      (buildNoteGraph lower (run lower world events).world ∅).2 := by
  apply build_eq_of_fine
  intro n hn content cached hread hcached hsame
  obtain ⟨old, hknown, rfl⟩ := sourced_run world events n.path cached hcached
  exact hhash n hn content old hread hknown hsame

end Cache

section Samples

def lowerAscii (u : UInt16) : UInt16 := if unit 'A' ≤ u ∧ u ≤ unit 'Z' then u + 32 else u

def oneNote (content : List Char) : World where
  collection := some (js ['/'])
  collectionEntries := [.mk (some (js "a.md".toList)) (js "/a.md".toList) true []]
  activeFile := none
  readTextFile path := if path = js "/a.md".toList then some (js content) else none

/-- A graph was built, and then the link in the note is changed. -/
def edited : State :=
  run (List.map lowerAscii) (oneNote "[[a]]".toList) [.build, .change (oneNote "[[b]]".toList)]

theorem build_transparent_edited :
    (buildNoteGraph (List.map lowerAscii) edited.world edited.linkCache).2 =
      (buildNoteGraph (List.map lowerAscii) edited.world ∅).2 := by
  refine build_transparent (List.map lowerAscii) (oneNote "[[a]]".toList)
    [.build, .change (oneNote "[[b]]".toList)] fun n hn content old hread hknown hsame => ?_
  have hall : edited.known = [(js "/a.md".toList, js "[[a]]".toList)] := by decide +kernel
  have hpair := List.mem_singleton.mp (hall ▸ hknown)
  obtain ⟨hpath, rfl⟩ := Prod.mk.inj hpair
  rw [hpath] at hread
  have hcontent : some (js "[[b]]".toList) = some content := hread
  cases hcontent
  exact absurd hsame (by decide +kernel)

/-- Two contents with one hash and different links. -/
theorem stale_links_kept : ¬ ∀ (lower : JsString → JsString) (world : World) (events : List Event),
    (buildNoteGraph lower (run lower world events).world (run lower world events).linkCache).2 =
      (buildNoteGraph lower (run lower world events).world ∅).2 := by
  intro h
  have hsame := h (List.map lowerAscii) (oneNote "[[dpzglc]]".toList)
    [.build, .change (oneNote "[[psegin]]".toList)]
  exact absurd hsame (by decide +kernel)

end Samples

end Tactile.Notes.Graph

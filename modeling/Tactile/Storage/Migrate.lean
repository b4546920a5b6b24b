import Tactile.Lib.Script
import Tactile.Storage.Filling
import Mathlib.Data.List.Sort

/-!
The migration of the legacy database into a backend: what it has written when it
deletes the database, and what a second launch makes of a cut one.
-/

namespace Tactile.Storage.Migrate

open Tactile.Lib.Program Tactile.Lib.Script Tactile.Lib.FiniteMap
open Tactile.Storage.Paths Tactile.Storage.Idb Tactile.Storage.Opfs Tactile.Storage.Backend
open Tactile.Storage.Filling

section Rows

structure LegacyEntryRow where
  path : Text
  parentPath : Text
  content : Option String
  isFolder : Option Bool

structure LegacyCollectionRow where
  path : Text
  name : String
  lastOpened : String

/-- The settings of a collection, as JSON values. -/
structure LegacySettingsRow (J : Type) where
  collectionPath : Text
  editor : J
  notes : J

/-- The tables of the legacy database. -/
structure Legacy (J : Type) where
  collections : List LegacyCollectionRow
  entries : List LegacyEntryRow
  settings : List (LegacySettingsRow J)

/-- The texts of `JSON.stringify`. -/
structure Stringify (J : Type) where
  settings : J → J → String
  collections : List LegacyCollectionRow → String

end Rows

section Operations

/-- What the migration awaits: IndexedDB, PGlite and the backend. -/
inductive MigrateOp
  | databases
  | create
  | collections
  | entries
  | settings
  | close
  | storage (o : StorageOp)
  | deleteDatabase (name : String)

variable (J : Type)

abbrev MigrateVal : MigrateOp → Type
  | .databases => List (Option String)
  | .collections => List LegacyCollectionRow
  | .entries => List LegacyEntryRow
  | .settings => List (LegacySettingsRow J)
  | .storage o => StorageVal o
  | _ => Unit

inductive MigrateError
  | rejected (message : String)
  | storage (e : Failure)

abbrev MigrateAns (o : MigrateOp) : Type := Except MigrateError (MigrateVal J o)

abbrev MigrateM (α : Type) : Type := Method MigrateOp (MigrateAns J) MigrateError Unit α

variable {J}

def await (o : MigrateOp) : MigrateM J (MigrateVal J o) := do
  let answer ← Method.perform o
  Method.ofExcept id answer

end Operations

section Code

variable {J : Type}

def tactileDir : Text := ".tactile".toList

def collectionSettingsPath : Text := tactileDir ++ "/settings.json".toList

def collectionsPath : Text := '/' :: tactileDir ++ "/collections.json".toList

/-- The names of the databases that the old app may have left. -/
def legacyDbNames : List String := ["/pglite/tactile", "tactile"]

/-- The name of the database that PGlite opens. -/
def pgliteName : String := "/pglite/tactile"

def depth (row : LegacyEntryRow) : ℕ := (row.path.splitOn '/').length

def LegacyEntryRow.parent (row : LegacyEntryRow) : Text :=
  if row.parentPath = [] then ['/'] else row.parentPath

def LegacyEntryRow.text (row : LegacyEntryRow) : String := row.content.getD ""

def LegacySettingsRow.dir (row : LegacySettingsRow J) : Text := row.collectionPath ++ '/' :: tactileDir

def LegacySettingsRow.file (row : LegacySettingsRow J) : Text :=
  row.collectionPath ++ '/' :: collectionSettingsPath

def migrateEntry (row : LegacyEntryRow) : MigrateM J Unit :=
  if row.isFolder = some true then await (.storage (.mkdir row.path true))
  else do
    await (.storage (.mkdir row.parent true))
    await (.storage (.writeTextFile row.path row.text))

variable (json : Stringify J)

def migrateSettings (row : LegacySettingsRow J) : MigrateM J Unit := do
  await (.storage (.mkdir row.dir true))
  await (.storage (.writeTextFile row.file (json.settings row.editor row.notes)))

/-- A failure that is only warned of. -/
def caught (m : MigrateM J Unit) : MigrateM J Unit := m.orElse fun _ => pure ()

def dumpIntoBackend : MigrateM J Bool := do
  let collections ← (await .collections).outcome
  match collections with
  | .error _ => pure false
  | .ok collections => do
    let entries ← (await .entries).outcome
    let sorted := (entries.toOption.getD []).insertionSort fun a b => depth a ≤ depth b
    forM sorted fun row => caught (migrateEntry row)
    let settings ← (await .settings).outcome
    forM (settings.toOption.getD []) fun row => caught (migrateSettings json row)
    await (.storage (.mkdir ('/' :: tactileDir) true))
    await (.storage (.writeTextFile collectionsPath (json.collections collections)))
    pure true

/-- Opens the database, dumps it and closes it whatever the dump did. -/
def openAndDump : MigrateM J Bool := do
  await .create
  let migrated ← (dumpIntoBackend json).outcome
  caught (await .close)
  Method.ofExcept id migrated

def migrateFromPGlite : MigrateM J Bool := do
  let databases ← (await .databases).outcome
  match databases with
  | .error _ => pure false
  | .ok databases => do
    let legacyDbs := (databases.filterMap id).filter fun name => decide (name ∈ legacyDbNames)
    if legacyDbs = [] then pure false
    else do
      let migrated ← (openAndDump json).orElse fun _ => pure false
      -- The databases are deleted either way.
      forM legacyDbs fun name => caught (await (.deleteDatabase name))
      pure migrated

end Code

section Worlds

variable {J : Type}

/-- The databases of the browser by name, with the tables of those that have
them, and the tree of the backend. -/
structure Browser (J : Type) where
  databases : Dict String (Option (Legacy J))
  tree : Tree

def Browser.withTree (w : Browser J) (t : Tree) : Browser J := { w with tree := t }

/-- The browser after PGlite has opened its database, which it makes where there is none. -/
def Browser.opened (w : Browser J) : Browser J :=
  if (w.databases.lookup pgliteName).isSome then w
  else { w with databases := w.databases.insert pgliteName none }

def Browser.deleted (w : Browser J) (name : String) : Browser J :=
  { w with databases := w.databases.erase name }

/-- The tables that PGlite finds. -/
def Browser.legacy (w : Browser J) : Option (Legacy J) := (w.databases.lookup pgliteName).join

/-- What a table that is not there answers. -/
def selected {α : Type} (rows : Option α) : Except MigrateError α :=
  rows.elim (.error (.rejected "relation does not exist")) .ok

variable (codec : TextCodec) (clock : Clock)

/-- A world in which nothing fails of its own accord. -/
inductive Reliable : Answers MigrateOp (MigrateAns J) (Browser J)
  | databases (w : Browser J) : Reliable w .databases (.ok (w.databases.keys.map some)) w
  | create (w : Browser J) : Reliable w .create (.ok ()) w.opened
  | collections (w : Browser J) :
      Reliable w .collections (selected (w.legacy.map Legacy.collections)) w
  | entries (w : Browser J) : Reliable w .entries (selected (w.legacy.map Legacy.entries)) w
  | settings (w : Browser J) : Reliable w .settings (selected (w.legacy.map Legacy.settings)) w
  | close (w : Browser J) (ans : MigrateAns J .close) : Reliable w .close ans w
  | storage (w : Browser J) (o : StorageOp) :
      Reliable w (.storage o) ((respond codec clock o w.tree).1.mapError .storage)
        (w.withTree (respond codec clock o w.tree).2)
  | deleted (w : Browser J) (name : String) (ans : MigrateAns J (.deleteDatabase name)) :
      Reliable w (.deleteDatabase name) ans (w.deleted name)
  | blocked (w : Browser J) (name : String) (ans : MigrateAns J (.deleteDatabase name)) :
      Reliable w (.deleteDatabase name) ans w

/-- A reliable world where the calls of the backend succeed. -/
def Unfailing : Answers MigrateOp (MigrateAns J) (Browser J) := fun w o ans w' =>
  Reliable codec clock w o ans w' ∧ ∀ so, o = .storage so → ∃ val, ans = .ok val

/-- Anything may fail. -/
inductive World : Answers MigrateOp (MigrateAns J) (Browser J)
  | answered {w w' : Browser J} {o : MigrateOp} {ans : MigrateAns J o} :
      Reliable codec clock w o ans w' → World w o ans w'
  | failed (w : Browser J) (o : MigrateOp) (e : MigrateError) : World w o (.error e) w

end Worlds

section Scripts

variable {J : Type} (json : Stringify J)

def LegacyEntryRow.fills (row : LegacyEntryRow) : List Fill :=
  if row.isFolder = some true then [.dir row.path]
  else [.dir row.parent, .file row.path row.text]

def LegacySettingsRow.fills (row : LegacySettingsRow J) : List Fill :=
  [.dir row.dir, .file row.file (json.settings row.editor row.notes)]

def sortedEntries (legacy : Legacy J) : List LegacyEntryRow :=
  legacy.entries.insertionSort fun a b => depth a ≤ depth b

def entryFills (legacy : Legacy J) : List Fill :=
  (sortedEntries legacy).flatMap LegacyEntryRow.fills

def settingsFills (legacy : Legacy J) : List Fill :=
  legacy.settings.flatMap (LegacySettingsRow.fills json)

/-- What the migration does to the tree. -/
def script (legacy : Legacy J) : List Fill :=
  entryFills legacy ++ settingsFills json legacy ++
    [.dir ('/' :: tactileDir), .file collectionsPath (json.collections legacy.collections)]

/-- A row is in the tree at its path, a file with its content. -/
def Stored (codec : TextCodec) (t : Tree) (row : LegacyEntryRow) : Prop :=
  ∃ l, pathSegments row.path = .ok l ∧
    if row.isFolder = some true then t.isDir l = true
    else t.lookup l = some (.file (codec.encode row.text))

/-- Nothing that the migration writes gives the place of a file row other content. -/
def Apart (codec : TextCodec) (legacy : Legacy J) : Prop :=
  ∀ row ∈ legacy.entries, row.isFolder ≠ some true → ∀ f ∈ script json legacy, ∀ l contents,
    pathSegments row.path = .ok l → f.put codec l = some (.file contents) →
    contents = codec.encode row.text

end Scripts

section Runs

variable {J : Type} {json : Stringify J} {codec : TextCodec} {clock : Clock} {legacy : Legacy J}
variable {t : Tree} {w w' : Browser J} {pre post : List Fill} {u : Unit}

/-- The tables are there and these calls have filled the tree. -/
def At (codec : TextCodec) (legacy : Legacy J) (t : Tree) (pre : List Fill) (w : Browser J) : Prop :=
  Filled codec pre t w.tree ∧ w.legacy = some legacy

/-- All the calls have filled the tree. -/
def Done (json : Stringify J) (codec : TextCodec) (legacy : Legacy J) (t : Tree) (w : Browser J) :
    Prop :=
  Filled codec (script json legacy) t w.tree ∧ (w.legacy = some legacy ∨ w.legacy = none)

/-- How far the tree is filled when a run calls. -/
def Guard (json : Stringify J) (codec : TextCodec) (legacy : Legacy J) (t : Tree) (w : Browser J) :
    MigrateOp → Prop
  | .deleteDatabase _ => Done json codec legacy t w
  | .storage o => ∃ pre f post, script json legacy = pre ++ f :: post ∧ o = f.op ∧
      At codec legacy t pre w
  | _ => ∃ pre post, script json legacy = pre ++ post ∧ At codec legacy t pre w

theorem At.fill {f : Fill} {t' : Tree} (h : At codec legacy t pre w)
    (hf : f.apply codec w.tree = (.ok (), t')) : At codec legacy t (pre ++ [f]) (w.withTree t') :=
  ⟨h.1.append (.cons hf (.nil t')), h.2⟩

theorem meets_await {R : Answers MigrateOp (MigrateAns J) (Browser J)}
    {G : Browser J → MigrateOp → Prop} {o : MigrateOp} {Q : MigrateVal J o → Unit → Browser J → Prop}
    {E : MigrateError → Unit → Browser J → Prop} :
    Meets R G Q E (await o) u w ↔ G w o ∧ ∀ (ans : MigrateAns J o) w', R w o ans w' →
      (∀ val, ans = .ok val → Q val u w') ∧ ∀ e, ans = .error e → E e u w' := by
  unfold await
  rw [meets_bind]
  refine and_congr_right fun _ => forall_congr' fun ans => forall_congr' fun w' =>
    imp_congr_right fun _ => ?_
  exact meets_ofExcept ..

section Dump

variable {E : MigrateError → Unit → Browser J → Prop}

/-- A call of the filling in a world where it succeeds. -/
theorem fill_of_unfailing {f : Fill} {o : StorageOp} {ans : MigrateAns J (.storage o)}
    (h : Unfailing codec clock w (.storage o) ans w')
    (hf : (respond codec clock o w.tree).2 = (f.apply codec w.tree).2)
    (hok : ∀ val, (respond codec clock o w.tree).1 = .ok val → (f.apply codec w.tree).1 = .ok ()) :
    ∃ val t', ans = .ok val ∧ f.apply codec w.tree = (.ok (), t') ∧ w' = w.withTree t' := by
  obtain ⟨hans, hsucceeds⟩ := h
  obtain ⟨val, hval⟩ := hsucceeds o rfl
  cases hans with
  | storage =>
      cases hanswer : (respond codec clock o w.tree).1 with
      | error e =>
          rw [hanswer] at hval
          cases hval
      | ok val' => exact ⟨val', _, rfl, Prod.ext (hok val' hanswer) rfl, congrArg w.withTree hf⟩

theorem meets_mkdir {path : Text} (hs : script json legacy = pre ++ .dir path :: post)
    (h : At codec legacy t pre w) :
    Meets (Unfailing codec clock) (Guard json codec legacy t)
      (fun _ _ => At codec legacy t (pre ++ [.dir path])) E
      (await (.storage (.mkdir path true))) u w := by
  rw [meets_await]
  refine ⟨⟨pre, .dir path, post, hs, rfl, h⟩, fun ans w' hans => ?_⟩
  obtain ⟨val, t', rfl, hf, rfl⟩ := fill_of_unfailing (f := .dir path) hans rfl fun _ hval => hval
  exact ⟨fun _ _ => h.fill hf, nofun⟩

theorem meets_writeTextFile {path : Text} {text : String}
    (hs : script json legacy = pre ++ .file path text :: post) (h : At codec legacy t pre w) :
    Meets (Unfailing codec clock) (Guard json codec legacy t)
      (fun _ _ => At codec legacy t (pre ++ [.file path text])) E
      (await (.storage (.writeTextFile path text))) u w := by
  rw [meets_await]
  refine ⟨⟨pre, .file path text, post, hs, rfl, h⟩, fun ans w' hans => ?_⟩
  obtain ⟨val, t', rfl, hf, rfl⟩ := fill_of_unfailing (f := .file path text) hans rfl fun _ hval => hval
  exact ⟨fun _ _ => h.fill hf, nofun⟩

/-- A directory and then a file. -/
theorem meets_place {dir path : Text} {text : String}
    (hs : script json legacy = pre ++ [.dir dir, .file path text] ++ post)
    (h : At codec legacy t pre w) :
    Meets (Unfailing codec clock) (Guard json codec legacy t)
      (fun _ _ => At codec legacy t (pre ++ [.dir dir, .file path text])) E
      (do await (.storage (.mkdir dir true)); await (.storage (.writeTextFile path text))) u w := by
  have hdir : script json legacy = pre ++ .dir dir :: (.file path text :: post) := by simpa using hs
  have hfile : script json legacy = (pre ++ [.dir dir]) ++ .file path text :: post := by simpa using hs
  rw [meets_bind]
  refine (meets_mkdir hdir h).imp (fun _ _ w' h' => ?_) fun _ _ _ he => he
  refine (meets_writeTextFile hfile h').imp (fun _ _ w' h' => ?_) fun _ _ _ he => he
  simpa using h'

theorem meets_migrateEntry {row : LegacyEntryRow} (hs : script json legacy = pre ++ row.fills ++ post)
    (h : At codec legacy t pre w) :
    Meets (Unfailing codec clock) (Guard json codec legacy t)
      (fun _ _ => At codec legacy t (pre ++ row.fills)) E (migrateEntry row) u w := by
  unfold LegacyEntryRow.fills at hs ⊢
  unfold migrateEntry
  split
  next hfolder =>
    rw [if_pos hfolder] at hs
    exact meets_mkdir (by simpa using hs) h
  next hfile =>
    rw [if_neg hfile] at hs
    exact meets_place hs h

theorem meets_caught {G : Browser J → MigrateOp → Prop} {R : Answers MigrateOp (MigrateAns J) (Browser J)}
    {m : MigrateM J Unit} {Q : Unit → Unit → Browser J → Prop}
    (h : Meets R G Q (fun _ _ _ => False) m u w) : Meets R G Q E (caught m) u w := by
  rw [caught, meets_orElse]
  exact h.imp (fun _ _ _ hq => hq) fun _ _ _ he => he.elim

/-- Rows one after another. -/
theorem meets_rows {ι : Type} {f : ι → MigrateM J Unit} {fills : ι → List Fill} {rows : List ι}
    (hf : ∀ row pre post w u, script json legacy = pre ++ fills row ++ post → At codec legacy t pre w →
      Meets (Unfailing codec clock) (Guard json codec legacy t)
        (fun _ _ => At codec legacy t (pre ++ fills row)) E (f row) u w)
    (hs : script json legacy = pre ++ rows.flatMap fills ++ post) (h : At codec legacy t pre w) :
    Meets (Unfailing codec clock) (Guard json codec legacy t)
      (fun _ _ => At codec legacy t (pre ++ rows.flatMap fills)) E (forM rows f) u w := by
  refine (meets_forM f (fun done _ => At codec legacy t (pre ++ done.flatMap fills)) rows u w
    (by simpa using h) ?_).imp (fun _ _ _ h' => h') fun _ _ _ he => he
  intro done row rest hrows u w' h'
  rw [hrows] at hs
  have hrow := hf row (pre ++ done.flatMap fills) (rest.flatMap fills ++ post) w' u
    (by simpa using hs) h'
  simpa using hrow

/-- A query whose rows are known. -/
theorem meets_select {o : MigrateOp} (rows : MigrateVal J o)
    {Q : MigrateVal J o → Unit → Browser J → Prop} (hG : Guard json codec legacy t w o)
    (hrows : ∀ ans w', Reliable codec clock w o ans w' → ans = .ok rows ∧ w' = w)
    (hQ : Q rows u w) :
    Meets (Unfailing codec clock) (Guard json codec legacy t) Q E (await o) u w := by
  rw [meets_await]
  refine ⟨hG, fun ans w' hans => ?_⟩
  obtain ⟨rfl, rfl⟩ := hrows ans w' hans.1
  refine ⟨fun val hval => ?_, nofun⟩
  cases hval
  exact hQ

theorem meets_dump (h : At codec legacy t [] w) :
    Meets (Unfailing codec clock) (Guard json codec legacy t)
      (fun _ _ => At codec legacy t (script json legacy)) E (dumpIntoBackend json) u w := by
  have hentries : script json legacy = [] ++ entryFills legacy ++ _ := List.append_assoc _ _ _
  have hdir : script json legacy = (entryFills legacy ++ settingsFills json legacy) ++
    .dir ('/' :: tactileDir) :: [.file collectionsPath (json.collections legacy.collections)] := rfl
  have hfile : script json legacy =
      ((entryFills legacy ++ settingsFills json legacy) ++ [.dir ('/' :: tactileDir)]) ++
        .file collectionsPath (json.collections legacy.collections) :: [] := by
    rw [hdir, List.append_assoc _ [_]]
    rfl
  rw [dumpIntoBackend, meets_bind, meets_outcome]
  refine meets_select legacy.collections ⟨[], _, rfl, h⟩ (fun ans w' hans => ?_) ?_
  · cases hans
    rw [h.2]
    exact ⟨rfl, rfl⟩
  dsimp only
  rw [meets_bind, meets_outcome]
  refine meets_select legacy.entries ⟨[], _, rfl, h⟩ (fun ans w' hans => ?_) ?_
  · cases hans
    rw [h.2]
    exact ⟨rfl, rfl⟩
  rw [meets_bind]
  refine (meets_rows (fun row pre post w u hs h => meets_caught (meets_migrateEntry hs h))
    hentries h).imp (fun _ u w h => ?_) fun _ _ _ he => he
  rw [meets_bind, meets_outcome]
  refine meets_select legacy.settings ⟨_, _, hentries, h⟩ (fun ans w' hans => ?_) ?_
  · cases hans
    rw [h.2]
    exact ⟨rfl, rfl⟩
  rw [meets_bind]
  have hsettings : Meets (Unfailing codec clock) (Guard json codec legacy t)
      (fun _ _ => At codec legacy t (entryFills legacy ++ settingsFills json legacy)) E
      (forM legacy.settings fun row => caught (migrateSettings json row)) u w :=
    meets_rows (fun row pre post w u hs h => meets_caught (meets_place hs h)) rfl h
  refine hsettings.imp (fun _ u w h => ?_) fun _ _ _ he => he
  rw [meets_bind]
  refine (meets_mkdir hdir h).imp (fun _ u w h => ?_) fun _ _ _ he => he
  rw [meets_bind]
  refine (meets_writeTextFile hfile h).imp (fun _ u w h => ?_) fun _ _ _ he => he
  rw [meets_pure, hfile]
  exact h

theorem opened_eq (h : w.legacy = some legacy) : w.opened = w := by
  rw [Browser.opened, if_pos]
  rw [Browser.legacy] at h
  cases hstored : w.databases.lookup pgliteName with
  | none =>
      rw [hstored] at h
      cases h
  | some tables => rfl

theorem meets_openAndDump (h : At codec legacy t [] w) :
    Meets (Unfailing codec clock) (Guard json codec legacy t)
      (fun _ _ => At codec legacy t (script json legacy)) E (openAndDump json) u w := by
  rw [openAndDump, meets_bind]
  refine meets_select () ⟨[], _, rfl, h⟩ (fun ans w' hans => ?_) ?_
  · cases hans
    exact ⟨rfl, opened_eq h.2⟩
  rw [meets_bind, meets_outcome]
  have hdump : Meets (Unfailing codec clock) (Guard json codec legacy t)
      (fun _ _ => At codec legacy t (script json legacy)) (fun _ _ _ => False)
      (dumpIntoBackend json) u w := meets_dump h
  refine hdump.imp (fun migrated u w h => ?_) fun _ _ _ he => he.elim
  have hclose : Meets (Unfailing codec clock) (Guard json codec legacy t)
      (fun _ _ => At codec legacy t (script json legacy)) E (caught (await .close)) u w := by
    rw [caught, meets_orElse]
    refine (meets_await (o := .close)).mpr ⟨⟨_, [], (List.append_nil _).symm, h⟩, fun ans w' hans => ?_⟩
    cases hans.1
    exact ⟨fun _ _ => h, fun _ _ => h⟩
  rw [meets_bind]
  exact hclose.imp (fun _ _ _ h => h) fun _ _ _ he => he

theorem legacy_deleted (w : Browser J) (name : String) :
    (w.deleted name).legacy = if pgliteName = name then none else w.legacy := by
  rw [Browser.legacy, Browser.deleted, lookup_erase_eq]
  split <;> rfl

/-- A deletion keeps the tree. -/
theorem Done.deleted (h : Done json codec legacy t w) (name : String) :
    Done json codec legacy t (w.deleted name) := by
  refine ⟨h.1, ?_⟩
  rw [legacy_deleted]
  split
  next => exact .inr rfl
  next => exact h.2

theorem meets_delete (names : List String) (h : Done json codec legacy t w) :
    Meets (Unfailing codec clock) (Guard json codec legacy t)
      (fun _ _ => Done json codec legacy t) E
      (forM names fun name => caught (await (.deleteDatabase name))) u w := by
  refine meets_forM _ (fun _ _ => Done json codec legacy t) names u w h ?_
  intro _ name _ _ u w h
  rw [caught, meets_orElse]
  refine (meets_await (o := .deleteDatabase name)).mpr ⟨h, fun ans w' hans => ?_⟩
  cases hans.1 with
  | deleted => exact ⟨fun _ _ => h.deleted name, fun _ _ => h.deleted name⟩
  | blocked => exact ⟨fun _ _ => h, fun _ _ => h⟩

theorem meets_migrate (hlegacy : w.legacy = some legacy) :
    Meets (Unfailing codec clock) (Guard json codec legacy w.tree)
      (fun _ _ => Done json codec legacy w.tree) E (migrateFromPGlite json) u w := by
  have h : At codec legacy w.tree [] w := ⟨.nil w.tree, hlegacy⟩
  rw [migrateFromPGlite, meets_bind, meets_outcome]
  refine meets_select (w.databases.keys.map some) ⟨[], _, rfl, h⟩ (fun ans w' hans => ?_) ?_
  · cases hans
    exact ⟨rfl, rfl⟩
  dsimp only
  have hfound : ((w.databases.keys.map some).filterMap id).filter
      (fun name => decide (name ∈ legacyDbNames)) ≠ [] := by
    refine List.ne_nil_of_mem (a := pgliteName) (List.mem_filter.mpr ⟨?_, by decide⟩)
    rw [List.mem_filterMap]
    refine ⟨some pgliteName, List.mem_map_of_mem ?_, rfl⟩
    rw [Browser.legacy] at hlegacy
    have hsome : (w.databases.lookup pgliteName).isSome := by
      cases hstored : w.databases.lookup pgliteName with
      | none =>
          rw [hstored] at hlegacy
          cases hlegacy
      | some tables => rfl
    exact AList.mem_keys.mp (AList.lookup_isSome.mp hsome)
  rw [if_neg hfound, meets_bind, meets_orElse]
  have hdump : Meets (Unfailing codec clock) (Guard json codec legacy w.tree)
      (fun _ _ => At codec legacy w.tree (script json legacy)) (fun _ _ _ => False)
      (openAndDump json) u w := meets_openAndDump h
  refine hdump.imp (fun migrated u w' h => ?_) fun _ _ _ he => he.elim
  rw [meets_bind]
  exact (meets_delete _ ⟨h.1, .inl h.2⟩).imp (fun _ _ _ h => h) fun _ _ _ he => he

end Dump

/-- Calls that have once filled the tree succeed in it. -/
theorem unfailing_of_reliable {T : Tree} {o : MigrateOp} {ans : MigrateAns J o}
    (hT : Filled codec (script json legacy) t T) (hguard : Guard json codec legacy t w o)
    (h : Reliable codec clock w o ans w') : Unfailing codec clock w o ans w' := by
  refine ⟨h, ?_⟩
  rintro so rfl
  obtain ⟨pre, f, post, hs, rfl, hat, -⟩ := hguard
  rw [hs] at hT
  obtain ⟨s, hpre, hpost⟩ := hT.of_append
  cases hpre.unique hat
  have hans : ans = (respond codec clock f.op w.tree).1.mapError .storage := by
    cases h
    rfl
  cases hpost with
  | cons hf _ =>
      cases f with
      | dir path => exact ⟨(), hans.trans (congrArg (fun x => Except.mapError _ x.1) hf)⟩
      | file path text => exact ⟨(), hans.trans (congrArg (fun x => Except.mapError _ x.1) hf)⟩

/-- The whole of a run of the migration, cut or not. -/
abbrev MigrateRun (J : Type) : Type := Prog MigrateOp (MigrateAns J) (Except MigrateError Bool × Unit)

theorem holds_migrate (hlegacy : w.legacy = some legacy) :
    Holds (Unfailing codec clock) (Guard json codec legacy w.tree)
      (fun _ => Done json codec legacy w.tree) ((migrateFromPGlite json).call ()) w := by
  have hmeets : Meets (Unfailing codec clock) (Guard json codec legacy w.tree)
      (fun _ _ => Done json codec legacy w.tree) (fun _ _ _ => False) (migrateFromPGlite json) () w :=
    meets_migrate hlegacy
  refine Holds.imp hmeets fun out w' hout => ?_
  rcases out with ⟨e | migrated, u⟩
  · exact hout.elim
  · exact hout

theorem holds_again {T : Tree} (hlegacy : w.legacy = some legacy)
    (hT : Filled codec (script json legacy) w.tree T) :
    Holds (Reliable codec clock) (Guard json codec legacy w.tree)
      (fun _ => Done json codec legacy w.tree) ((migrateFromPGlite json).call ()) w :=
  (holds_migrate hlegacy).of_admitted fun _ _ _ _ hguard h => unfailing_of_reliable hT hguard h

/-- How far a run that is cut has filled the tree. -/
theorem cut_reached {q : MigrateRun J} {T : Tree} (hlegacy : w.legacy = some legacy)
    (hT : Filled codec (script json legacy) w.tree T)
    (hrun : Steps (Reliable codec clock) w ((migrateFromPGlite json).call ()) w' q) :
    (∃ pre post, script json legacy = pre ++ post ∧ At codec legacy w.tree pre w') ∨
      Done json codec legacy w.tree w' := by
  rcases (holds_again hlegacy hT).cut hrun with ⟨o, next, -, hguard⟩ | ⟨out, -, hout⟩
  · cases o with
    | storage o =>
        obtain ⟨pre, f, post, hs, -, hat⟩ := hguard
        exact .inl ⟨pre, f :: post, hs, hat⟩
    | deleteDatabase name => exact .inr hguard
    | databases => exact .inl hguard
    | create => exact .inl hguard
    | collections => exact .inl hguard
    | entries => exact .inl hguard
    | settings => exact .inl hguard
    | close => exact .inl hguard
  · exact .inr hout

section Empty

/-- There is nothing to migrate and nothing has been written. -/
def Quiet (t : Tree) (w : Browser J) : Prop := w.tree = t ∧ w.legacy = none

theorem Quiet.opened (h : Quiet t w) : Quiet t w.opened := by
  unfold Browser.opened
  split
  next => exact h
  next =>
    refine ⟨h.1, ?_⟩
    rw [Browser.legacy, lookup_insert_eq, if_pos rfl]
    rfl

theorem Quiet.deleted (h : Quiet t w) (name : String) : Quiet t (w.deleted name) := by
  refine ⟨h.1, ?_⟩
  rw [legacy_deleted, h.2, ite_self]

/-- A part of the migration that leaves such a browser so, however it ends. -/
def Rests (codec : TextCodec) (clock : Clock) {α : Type} (m : MigrateM J α) : Prop :=
  ∀ t u w, Quiet t w → Meets (Reliable codec clock) (fun w' _ => Quiet t w') (fun _ _ => Quiet t)
    (fun _ _ => Quiet t) m u w

section Parts

variable {α β : Type} {m : MigrateM J α}

theorem rests_pure (a : α) : Rests codec clock (pure a : MigrateM J α) := fun _ _ _ h => h

theorem Rests.bind {f : α → MigrateM J β} (hm : Rests codec clock m)
    (hf : ∀ a, Rests codec clock (f a)) : Rests codec clock (m >>= f) := by
  intro t u w h
  rw [meets_bind]
  exact (hm t u w h).imp (fun a u w h => hf a t u w h) fun _ _ _ h => h

theorem Rests.outcome (hm : Rests codec clock m) : Rests codec clock m.outcome := by
  intro t u w h
  rw [meets_outcome]
  exact (hm t u w h).imp (fun _ _ _ h => h) fun _ _ _ h => h

theorem Rests.orElse {handler : MigrateError → MigrateM J α} (hm : Rests codec clock m)
    (hhandler : ∀ e, Rests codec clock (handler e)) : Rests codec clock (m.orElse handler) := by
  intro t u w h
  rw [meets_orElse]
  exact (hm t u w h).imp (fun _ _ _ h => h) fun e u w h => hhandler e t u w h

theorem Rests.caught {m : MigrateM J Unit} (hm : Rests codec clock m) : Rests codec clock (caught m) :=
  hm.orElse fun _ => rests_pure ()

theorem rests_forM {ι : Type} {f : ι → MigrateM J PUnit} (hf : ∀ x, Rests codec clock (f x))
    (xs : List ι) : Rests codec clock (forM xs f) := fun t u w h =>
  meets_forM f (fun _ _ => Quiet t) xs u w h fun _ x _ _ u w h => hf x t u w h

theorem rests_await {o : MigrateOp} (ho : ∀ so, o ≠ .storage so) :
    Rests codec clock (await (J := J) o) := by
  intro t u w h
  rw [meets_await]
  refine ⟨h, fun ans w' hans => ?_⟩
  have h' : Quiet t w' := by
    cases hans with
    | create => exact h.opened
    | deleted => exact h.deleted _
    | storage => exact absurd rfl (ho _)
    | databases => exact h
    | collections => exact h
    | entries => exact h
    | settings => exact h
    | close => exact h
    | blocked => exact h
  exact ⟨fun _ _ => h', fun _ _ => h'⟩

end Parts

/-- Without the tables the dump ends at its first query. -/
theorem rests_dump : Rests codec clock (dumpIntoBackend json) := by
  intro t u w h
  rw [dumpIntoBackend, meets_bind, meets_outcome, meets_await]
  refine ⟨h, fun ans w' hans => ?_⟩
  cases hans
  rw [h.2]
  exact ⟨nofun, fun _ _ => h⟩

theorem rests_openAndDump : Rests codec clock (openAndDump json) := by
  refine (rests_await (o := .create) fun _ => nofun).bind fun _ => rests_dump.outcome.bind fun migrated => ?_
  refine (rests_await (o := .close) fun _ => nofun).caught.bind fun _ => ?_
  cases migrated with
  | ok migrated => exact rests_pure migrated
  | error e => exact fun _ _ _ h => h

theorem rests_migrate : Rests codec clock (migrateFromPGlite json) := by
  refine (rests_await (o := .databases) fun _ => nofun).outcome.bind fun databases => ?_
  cases databases with
  | error e => exact rests_pure false
  | ok databases =>
      dsimp only
      split
      next => exact rests_pure false
      next =>
        refine (rests_openAndDump.orElse fun _ => rests_pure false).bind fun migrated => ?_
        refine (rests_forM (fun name => ?_) _).bind fun _ => rests_pure migrated
        exact (rests_await (o := .deleteDatabase name) fun _ => nofun).caught

theorem quiet_steps {q : MigrateRun J} (hlegacy : w.legacy = none)
    (hrun : Steps (Reliable codec clock) w ((migrateFromPGlite json).call ()) w' q) :
    Quiet w.tree w' := by
  rcases (rests_migrate w.tree () w ⟨rfl, hlegacy⟩).cut hrun with ⟨o, next, -, h⟩ | ⟨⟨out, u⟩, -, h⟩
  · exact h
  · cases out with
    | ok migrated => exact h
    | error e => exact h

end Empty

/-- A migration that is cut and run again ends in the tree of one that is not. -/
theorem resumed {w₀ w₁ w₂ : Browser J} {q : MigrateRun J} {out out' : Except MigrateError Bool × Unit}
    (hwhole : Exec (Unfailing codec clock) w ((migrateFromPGlite json).call ()) out w₀)
    (hcut : Steps (Reliable codec clock) w ((migrateFromPGlite json).call ()) w₁ q)
    (hagain : Exec (Reliable codec clock) w₁ ((migrateFromPGlite json).call ()) out' w₂)
    (l : List Text) : w₂.tree.lookup l = w₀.tree.lookup l := by
  cases hlegacy : w.legacy with
  | none =>
      obtain ⟨hwhole', -⟩ := quiet_steps hlegacy (Steps.mono (fun _ _ _ _ h => h.1) hwhole)
      obtain ⟨hcut', hlegacy'⟩ := quiet_steps hlegacy hcut
      rw [(quiet_steps hlegacy' hagain).1, hcut', hwhole']
  | some legacy =>
      have hdone : Done json codec legacy w.tree w₀ := (holds_migrate hlegacy).exec hwhole
      have hresumed : ∀ pre post, script json legacy = pre ++ post → At codec legacy w.tree pre w₁ →
          w₂.tree.lookup l = w₀.tree.lookup l := by
        rintro pre post hs ⟨hpre, hlegacy'⟩
        have hall := hdone.1
        rw [hs] at hall
        obtain ⟨s, hpre', hpost⟩ := hall.of_append
        cases hpre'.unique hpre
        obtain ⟨T, hT, hsame⟩ := hpre.resume hpost
        rw [← hs] at hT
        have hdone' : Done json codec legacy w₁.tree w₂ := (holds_again hlegacy' hT).exec hagain
        rw [hdone'.1.unique hT, hsame]
      rcases cut_reached hlegacy hdone.1 hcut with ⟨pre, post, hs, hat⟩ | ⟨hall, hlegacy' | hlegacy'⟩
      · exact hresumed pre post hs hat
      · exact hresumed _ [] (List.append_nil _).symm ⟨hall, hlegacy'⟩
      · rw [(quiet_steps hlegacy' hagain).1, hall.unique hdone.1]

section Rows

theorem mem_sortedEntries {row : LegacyEntryRow} :
    row ∈ sortedEntries legacy ↔ row ∈ legacy.entries :=
  List.mem_insertionSort _

theorem mem_script_of_entry {row : LegacyEntryRow} (hrow : row ∈ legacy.entries) {f : Fill}
    (hf : f ∈ row.fills) : f ∈ script json legacy := by
  refine List.mem_append_left _ (List.mem_append_left _ ?_)
  exact List.mem_flatMap.mpr ⟨row, mem_sortedEntries.mpr hrow, hf⟩

/-- A tree that the migration has filled has every row, where nothing it writes
gives a file row's place other content. -/
theorem stored_of_filled {T : Tree} (h : Filled codec (script json legacy) t T)
    (hapart : Apart json codec legacy) {row : LegacyEntryRow} (hrow : row ∈ legacy.entries) :
    Stored codec T row := by
  by_cases hfolder : row.isFolder = some true
  · have hf : Fill.dir row.path ∈ script json legacy := by
      refine mem_script_of_entry hrow ?_
      rw [LegacyEntryRow.fills, if_pos hfolder]
      exact List.mem_singleton_self _
    obtain ⟨l, hl⟩ : ∃ l, pathSegments row.path = .ok l := h.path_ok hf
    refine ⟨l, hl, ?_⟩
    rw [if_pos hfolder]
    by_cases hroot : l = []
    · rw [hroot]
      exact isDir_nil T
    · have hput : (Fill.dir row.path).put codec l = some .dir := by
        rw [Fill.put, hl]
        exact if_pos (mem_inits_tail hroot)
      obtain ⟨node, hnode, hkind⟩ := h.kind_put hf hput
      cases node with
      | dir => exact isDir_eq_true.mpr (.inr hnode)
      | file contents => cases hkind
  · have hf : Fill.file row.path row.text ∈ script json legacy := by
      refine mem_script_of_entry hrow ?_
      rw [LegacyEntryRow.fills, if_neg hfolder]
      simp
    obtain ⟨l, hl⟩ : ∃ l, pathSegments row.path = .ok l := h.path_ok hf
    refine ⟨l, hl, ?_⟩
    rw [if_neg hfolder]
    have hput : (Fill.file row.path row.text).put codec l = some (.file (codec.encode row.text)) := by
      rw [Fill.put, hl]
      exact if_pos rfl
    refine h.lookup_put (fun g hg node hnode => ?_) (.inr ⟨_, hf, hput⟩)
    obtain ⟨node₁, hstored, hkind⟩ := h.kind_put hf hput
    obtain ⟨node₂, hstored', hkind'⟩ := h.kind_put hg hnode
    rw [hstored] at hstored'
    cases hstored'
    cases node with
    | dir => cases hkind.symm.trans hkind'
    | file contents => rw [hapart row hrow hfolder g hg l contents hl hnode]

end Rows

/-- Where no call fails, every row is in the tree when a database is deleted, and a
migration that is cut and run again ends in the tree of one that is not. -/
theorem migrateFromPGlite_keeps {J : Type} (json : Stringify J) (codec : TextCodec) (clock : Clock)
    (w : Browser J) :
    (∀ legacy w' name next, w.legacy = some legacy → Apart json codec legacy →
      Steps (Unfailing codec clock) w ((migrateFromPGlite json).call ()) w'
        (.call (.deleteDatabase name) next) →
      ∀ row ∈ legacy.entries, Stored codec w'.tree row) ∧
    ∀ w₀ w₁ w₂ q out out',
      Exec (Unfailing codec clock) w ((migrateFromPGlite json).call ()) out w₀ →
      Steps (Reliable codec clock) w ((migrateFromPGlite json).call ()) w₁ q →
      Exec (Reliable codec clock) w₁ ((migrateFromPGlite json).call ()) out' w₂ →
      ∀ l, w₂.tree.lookup l = w₀.tree.lookup l := by
  refine ⟨?_, fun _ _ _ _ _ _ => resumed⟩
  intro legacy w' name next hlegacy hapart hrun row hrow
  have hdone : Done json codec legacy w.tree w' := (holds_migrate hlegacy).admits hrun
  exact stored_of_filled hdone.1 hapart hrow

end Runs

section Sample

variable {J : Type} (codec : TextCodec) (clock : Clock)

/-- The answers of a reliable world that deletes what it is asked to delete. -/
def answer : (o : MigrateOp) → Browser J → MigrateAns J o × Browser J
  | .databases, w => (.ok (w.databases.keys.map some), w)
  | .create, w => (.ok (), w.opened)
  | .collections, w => (selected (w.legacy.map Legacy.collections), w)
  | .entries, w => (selected (w.legacy.map Legacy.entries), w)
  | .settings, w => (selected (w.legacy.map Legacy.settings), w)
  | .close, w => (.ok (), w)
  | .storage o, w => ((respond codec clock o w.tree).1.mapError .storage,
      w.withTree (respond codec clock o w.tree).2)
  | .deleteDatabase name, w => (.ok (), w.deleted name)

/-- The answers of a world where PGlite cannot open its database. -/
def refusal : (o : MigrateOp) → Browser J → MigrateAns J o × Browser J
  | .create, w => (.error (.rejected "Out of memory"), w)
  | o, w => answer codec clock o w

variable {codec clock}

theorem reliable_of_answer (w : Browser J) (o : MigrateOp) (ans : MigrateAns J o) (w' : Browser J)
    (h : Responds (answer codec clock) w o ans w') : Reliable codec clock w o ans w' := by
  obtain ⟨rfl, rfl⟩ := Prod.mk.inj h
  cases o with
  | databases => exact .databases w
  | create => exact .create w
  | collections => exact .collections w
  | entries => exact .entries w
  | settings => exact .settings w
  | close => exact .close w _
  | storage o => exact .storage w o
  | deleteDatabase name => exact .deleted w name _

theorem world_of_refusal (w : Browser J) (o : MigrateOp) (ans : MigrateAns J o) (w' : Browser J)
    (h : Responds (refusal codec clock) w o ans w') : World codec clock w o ans w' := by
  cases o with
  | create =>
      cases h
      exact .failed w .create _
  | _ => exact .answered (reliable_of_answer w _ ans w' h)

def sampleCodec : TextCodec := ⟨fun s => s.toList.map fun c => UInt8.ofNat c.toNat, fun _ => ""⟩

def sampleClock : Clock := ⟨0, fun _ => none⟩

def sampleJson : Stringify Unit := ⟨fun _ _ => "null", fun _ => "list"⟩

def sampleLegacy : Legacy Unit where
  collections := [⟨"/Notes".toList, "Notes", "2024-01-01"⟩]
  entries := [⟨"/Notes/a.md".toList, "/Notes".toList, some "text", some false⟩,
    ⟨"/Notes".toList, [], none, some true⟩]
  settings := []

def sampleBrowser : Browser Unit := ⟨AList.insert pgliteName (some sampleLegacy) ∅, ∅⟩

/-- The database that a run is about to delete. -/
def deleting {J : Type} : MigrateRun J → Option String
  | .call (.deleteDatabase name) _ => some name
  | _ => none

theorem of_deleting {q : MigrateRun J} {name : String} (h : deleting q = some name) :
    ∃ next, q = .call (.deleteDatabase name) next := by
  unfold deleting at h
  split at h
  next name' next =>
    cases h
    exact ⟨next, rfl⟩
  next => cases h

/-- What is left to run after some calls. -/
def sampleCut (n : ℕ) : MigrateRun Unit × Browser Unit :=
  runFor (answer sampleCodec sampleClock) n ((migrateFromPGlite sampleJson).call ()) sampleBrowser

theorem sampleCut_steps (n : ℕ) : Steps (Reliable sampleCodec sampleClock) sampleBrowser
    ((migrateFromPGlite sampleJson).call ()) (sampleCut n).2 (sampleCut n).1 :=
  Steps.mono reliable_of_answer (steps_runFor _ n _ _)

def sampleWhole (w : Browser Unit) : (Except MigrateError Bool × Unit) × Browser Unit :=
  eval (answer sampleCodec sampleClock) ((migrateFromPGlite sampleJson).call ()) w

theorem sampleWhole_exec (w : Browser Unit) : Exec (Reliable sampleCodec sampleClock) w
    ((migrateFromPGlite sampleJson).call ()) (sampleWhole w).1 (sampleWhole w).2 :=
  Steps.mono reliable_of_answer (exec_eval _ _ w)

theorem sample_filled : Filled sampleCodec (script sampleJson sampleLegacy) ∅
    (sampleWhole sampleBrowser).2.tree :=
  .cons rfl (.cons rfl (.cons rfl (.cons rfl (.cons rfl (.nil _)))))

theorem sample_unfailing {w : Browser Unit} {q : MigrateRun Unit}
    (h : Steps (Reliable sampleCodec sampleClock) sampleBrowser
      ((migrateFromPGlite sampleJson).call ()) w q) :
    Steps (Unfailing sampleCodec sampleClock) sampleBrowser
      ((migrateFromPGlite sampleJson).call ()) w q := by
  have hfilled : Filled sampleCodec (script sampleJson sampleLegacy) sampleBrowser.tree
    (sampleWhole sampleBrowser).2.tree := sample_filled
  exact Steps.admitted (fun _ _ _ _ hguard hans => unfailing_of_reliable hfilled hguard hans)
    (holds_again rfl hfilled) h

theorem sample_apart : Apart sampleJson sampleCodec sampleLegacy := by
  intro row hrow hfile f hf l contents hl hput
  have hnote : row = ⟨"/Notes/a.md".toList, "/Notes".toList, some "text", some false⟩ := by
    rcases List.mem_cons.mp hrow with rfl | hrow
    · rfl
    · exact absurd (by rw [List.mem_singleton.mp hrow]) hfile
  subst hnote
  have hplace : ["Notes".toList, "a.md".toList] = l := Except.ok.inj (Eq.trans rfl hl)
  subst hplace
  have hfills : script sampleJson sampleLegacy = [.dir "/Notes".toList, .dir "/Notes".toList,
    .file "/Notes/a.md".toList "text", .dir "/.tactile".toList,
    .file "/.tactile/collections.json".toList "list"] := rfl
  rw [hfills] at hf
  simp only [List.mem_cons, List.not_mem_nil, or_false] at hf
  rcases hf with rfl | rfl | rfl | rfl | rfl
  · cases Eq.trans rfl hput
  · cases Eq.trans rfl hput
  · exact (Node.file.inj (Option.some.inj (Eq.trans rfl hput))).symm
  · cases Eq.trans rfl hput
  · cases Eq.trans rfl hput

/-- The rows of the sample are there at the first deletion, and a migration cut
before the note is written ends as one that is not cut. -/
theorem sample_keeps :
    (∀ row ∈ sampleLegacy.entries, Stored sampleCodec (sampleCut 11).2.tree row) ∧
      ∀ l, (sampleWhole (sampleCut 6).2).2.tree.lookup l =
        (sampleWhole sampleBrowser).2.tree.lookup l := by
  have hkeeps := migrateFromPGlite_keeps sampleJson sampleCodec sampleClock sampleBrowser
  have hdeleting : deleting (sampleCut 11).1 = some pgliteName := by decide +kernel
  obtain ⟨next, hnext⟩ := of_deleting hdeleting
  have hrun := sample_unfailing (sampleCut_steps 11)
  rw [hnext] at hrun
  constructor
  · exact hkeeps.1 sampleLegacy _ pgliteName next rfl sample_apart hrun
  · exact hkeeps.2 _ _ _ _ _ _ (sample_unfailing (sampleWhole_exec sampleBrowser)) (sampleCut_steps 6)
      (sampleWhole_exec _)

def sampleRefused : MigrateRun Unit × Browser Unit :=
  runFor (refusal sampleCodec sampleClock) 2 ((migrateFromPGlite sampleJson).call ()) sampleBrowser

theorem sampleRefused_steps : Steps (World sampleCodec sampleClock) sampleBrowser
    ((migrateFromPGlite sampleJson).call ()) sampleRefused.2 sampleRefused.1 :=
  Steps.mono world_of_refusal (steps_runFor _ 2 _ _)

/-- The database is deleted although it could not be opened. -/
theorem migrateFromPGlite_drops : ¬ ∀ (json : Stringify Unit) (codec : TextCodec) (clock : Clock)
    (w w' : Browser Unit) (legacy : Legacy Unit) (name : String)
    (next : MigrateAns Unit (.deleteDatabase name) → MigrateRun Unit), w.legacy = some legacy →
    Apart json codec legacy →
    Steps (World codec clock) w ((migrateFromPGlite json).call ()) w'
      (.call (.deleteDatabase name) next) →
    ∀ row ∈ legacy.entries, Stored codec w'.tree row := by
  intro h
  have hdeleting : deleting sampleRefused.1 = some pgliteName := by decide +kernel
  obtain ⟨next, hnext⟩ := of_deleting hdeleting
  have hrun := sampleRefused_steps
  rw [hnext] at hrun
  have hstored := h sampleJson sampleCodec sampleClock sampleBrowser sampleRefused.2 sampleLegacy
    pgliteName next rfl sample_apart hrun
    ⟨"/Notes/a.md".toList, "/Notes".toList, some "text", some false⟩ List.mem_cons_self
  obtain ⟨l, hl, hfile⟩ := hstored
  have hplace : ["Notes".toList, "a.md".toList] = l := Except.ok.inj (Eq.trans rfl hl)
  subst hplace
  have habsent : sampleRefused.2.tree.lookup ["Notes".toList, "a.md".toList] = none := by
    decide +kernel
  rw [if_neg (by decide), habsent] at hfile
  cases hfile

end Sample

end Tactile.Storage.Migrate

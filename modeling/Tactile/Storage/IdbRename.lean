import Tactile.Storage.IdbTree

/-!
What a rename of the IndexedDB backend does to the tree of records, and the one
destination that it lets through and should not: the root.
-/

namespace Tactile.Storage.IdbRename

open Tactile.Lib.Program Tactile.Lib.Script Tactile.Lib.FiniteMap
open Tactile.Storage.Paths Tactile.Storage.Mutex Tactile.Storage.Idb Tactile.Storage.IdbTree

/-- The records at and below the source are stored at the same places below the
destination, the others are unchanged, and the records are a tree. -/
structure MovesSubtree (s d : List Text) (db db' : Db) : Prop where
  moved : ∀ x r, Names (s ++ x) → db.lookup (render (s ++ x)) = some r →
    ∃ r', db'.lookup (render (d ++ x)) = some r' ∧ r'.data = r.data ∧ r'.kind = r.kind ∧
      r'.size = r.size
  kept : ∀ path r, db.lookup path = some r → ¬ Under s r → db'.lookup path = some r
  only : ∀ path r', db'.lookup path = some r' →
    (∃ x r, Names (s ++ x) ∧ db.lookup (render (s ++ x)) = some r ∧ path = render (d ++ x)) ∨
    (db.lookup path = some r' ∧ ¬ Under s r')
  tree : Rooted db'

/-- The subtree of one path is moved to another one. -/
def Moved (db : Db) (fromPath toPath : Text) (db' : Db) : Prop :=
  ∃ s d, Names s ∧ Names d ∧ normalizePath fromPath = .ok (render s) ∧
    normalizePath toPath = .ok (render d) ∧ MovesSubtree s d db db'

/-- A rename that succeeds moves the subtree of its source to its destination,
and one that fails changes nothing. -/
def RenameMoves (db : Db) (fromPath toPath : Text) : Prop :=
  ∀ w w' : World, w.db = db → ∀ result, Exec Faulty w ((rename fromPath toPath).call ()) result w' →
    Outcome (fun _ _ w' => Moved db fromPath toPath w'.db) (fun _ _ w' => w'.db = db) result w'

/-- The destination is the root and the source is stored. -/
def OntoRoot (db : Db) (fromPath toPath : Text) : Prop :=
  normalizePath toPath = .ok ['/'] ∧
    ∃ src r, normalizePath fromPath = .ok src ∧ db.lookup src = some r

section Elsewhere

variable {db db' : Db} {s d : List Text} {now : ℤ}

theorem movesSubtree_self (h : Rooted db) (hs : Names s) : MovesSubtree s s db db where
  moved := fun _ r _ hr => ⟨r, hr, rfl, rfl, rfl⟩
  kept := fun _ _ hr _ => hr
  only := fun path r hr => by
    by_cases hu : Under s r
    · obtain ⟨hpath, l, hl⟩ := h path r hr
      obtain ⟨x, rfl⟩ := (under_iff hl hs).mp hu
      have hkey : path = render (s ++ x) := hpath.symm.trans hl.path
      exact .inl ⟨x, r, hl.names, hkey ▸ hr, hkey⟩
    · exact .inr ⟨hr, hu⟩
  tree := h

theorem movesSubtree_of_relocates (hrel : Relocates s d now db db') (htree : Rooted db') :
    MovesSubtree s d db db' where
  moved := fun x r hx hr => ⟨_, hrel.moved x r hx hr, rfl, rfl, rfl⟩
  kept := hrel.kept
  only := fun path r' hr' => by
    refine (hrel.only path r' hr').imp_left ?_
    rintro ⟨x, r, hx, hr, hpath, -⟩
    exact ⟨x, r, hx, hr, hpath⟩
  tree := htree

/-- The transaction of a rename whose destination is no root moves the subtree
or leaves the records. -/
theorem renameTx_moves (h : Rooted db) (hs : Names s) (hd : Names d) (hsroot : s ≠ [])
    (hdroot : d ≠ []) (hunder : ¬ s <+: d) (now : ℤ) :
    (∃ db', renameTx (render s) (render d) now db = (.ok (), db') ∧ MovesSubtree s d db db') ∨
      ∃ e, renameTx (render s) (render d) now db = (.error e, db) := by
  cases hreads : renameReads (render s) (render d) db with
  | error e =>
      right
      refine ⟨e, ?_⟩
      rw [renameTx, hreads]
  | ok rs =>
      left
      have hren := renames_of_reads h hs hd hreads
      obtain ⟨db', hrename, hrel⟩ := h.relocates hs hd hsroot hdroot hunder hren now
      exact ⟨db', hrename,
        movesSubtree_of_relocates hrel (hrel.rooted h hs hd hsroot hdroot hunder hren)⟩

end Elsewhere

section Locked

variable {Q : Unit → Db → Prop} {E : Failure → Db → Prop}

/-- An event of the lock leaves the records. -/
def LockEvent : IdbOp → Prop
  | .lock _ | .begin _ | .settle .. | .tail _ | .release _ => True
  | _ => False

theorem lockEvent_db {o : IdbOp} {ans : IdbAns o} {w w' : World} (ho : LockEvent o)
    (h : Faulty w o ans w') : w'.db = w.db := by
  cases h with
  | get | put | renameTx | removeTx => exact ho.elim
  | served h =>
      cases h with
      | get | put | renameTx | removeTx | now => exact ho.elim
      | lock | begin | settle | tail | release => rfl

/-- What a method leaves of the records, whatever the lock is. -/
def Leaves (Q : Unit → Db → Prop) (E : Failure → Db → Prop) (m : IdbM Unit) (db : Db) : Prop :=
  ∀ w : World, w.db = db →
    Meets Faulty (fun _ _ => True) (fun a _ w => Q a w.db) (fun e _ w => E e w.db) m () w

theorem leaves_event {o : IdbOp} {f : IdbAns o → IdbM Unit} {db : Db} (ho : LockEvent o)
    (hf : ∀ ans, Leaves Q E (f ans) db) : Leaves Q E (idb o >>= f) db := by
  intro w hw
  rw [meets_bind]
  exact ⟨trivial, fun ans w' hserves => hf ans w' ((lockEvent_db ho hserves).trans hw)⟩

theorem leaves_ofExcept {result : Except Failure Unit} {db : Db}
    (h : Outcome (fun a (_ : Unit) db => Q a db) (fun e _ db => E e db) (result, ()) db) :
    Leaves Q E (Method.ofExcept id result) db := by
  intro w hw
  subst hw
  rw [meets_ofExcept]
  cases result with
  | ok a => exact ⟨fun _ hok => Except.ok.inj hok ▸ h, nofun⟩
  | error e => exact ⟨nofun, fun _ herror => Except.error.inj herror ▸ h⟩

theorem leaves_path {α : Type} {x : Except StorageError α} {f : α → IdbM Unit} {db : Db}
    (herror : ∀ e, E e db) (hok : ∀ a, x = .ok a → Leaves Q E (f a) db) :
    Leaves Q E (pathResult x >>= f) db := by
  intro w hw
  rw [meets_bind, pathResult, meets_ofExcept]
  subst hw
  exact ⟨fun a ha => hok a ha w rfl, fun _ _ => herror _⟩

theorem leaves_throw {e : Failure} {db : Db} (h : E e db) : Leaves Q E (throw e) db := by
  intro w hw
  rw [meets_throw, hw]
  exact h

/-- The lock around a method changes nothing of what it leaves. -/
theorem leaves_runExclusive (keys : List Text) {fn : IdbM Unit} {db : Db}
    (hfn : Leaves Q E fn db) : Leaves Q E (runExclusive keys fn) db := by
  refine leaves_event trivial fun n => leaves_event trivial fun _ => ?_
  intro w hw
  rw [meets_bind, meets_outcome]
  have hend : ∀ (result : Except Failure Unit) (w : World),
      Outcome (fun a (_ : Unit) db => Q a db) (fun e _ db => E e db) (result, ()) w.db →
      Meets Faulty (fun _ _ => True) (fun a _ w => Q a w.db) (fun e _ w => E e w.db)
        (do
          idb (.settle n result.isOk)
          idb (.tail n)
          idb (.release n)
          Method.ofExcept id result) () w := by
    intro result w h
    have hleaves : Leaves Q E _ w.db := leaves_event (Q := Q) (E := E) (o := .settle n result.isOk)
      trivial fun _ => leaves_event (o := .tail n) trivial fun _ =>
        leaves_event (o := .release n) trivial fun _ => leaves_ofExcept h
    exact hleaves w rfl
  exact (hfn w hw).imp (fun a _ w' h => hend (.ok a) w' h) fun e _ w' h => hend (.error e) w' h

/-- What is left by a call whose transaction either moves the subtree or throws. -/
theorem leaves_renameTx {db : Db} {src dst : Text} {P : Db → Prop} (hQ : ∀ db', P db' → Q () db')
    (hE : ∀ e, E e db)
    (htx : ∀ now, (∃ db', renameTx src dst now db = (.ok (), db') ∧ P db') ∨
      ∃ e, renameTx src dst now db = (.error e, db)) :
    Leaves Q E (do
      let answer ← idb (.renameTx src dst)
      Method.ofExcept id answer) db := by
  rintro w rfl
  rw [meets_bind]
  refine ⟨trivial, fun ans w' hserves => ?_⟩
  have hend : Outcome (fun a (_ : Unit) db => Q a db) (fun e _ db => E e db) (ans, ()) w'.db := by
    cases hserves with
    | renameTx => exact hE _
    | served hserves =>
        cases hserves with
        | renameTx _ _ _ now =>
            rcases htx now with ⟨db', hok, hP⟩ | ⟨e, herror⟩
            · rw [hok]
              exact hQ db' hP
            · rw [herror]
              exact hE _
  exact leaves_ofExcept hend w' rfl

end Locked

section Root

variable {db : Db} {s : List Text}

theorem parentPath_below_root {x : List Text} (hx : Names x) :
    ∃ parent, parentPath ('/' :: suffix x) = .ok parent := by
  have hnormal : normalizePath ('/' :: suffix x) = .ok (render x) := by
    rw [normalizePath, splitOn_cons_slash, splitOn_suffix hx]
    simp only [keepSegments, true_or, if_true, keepSegments_names _ hx]
    rfl
  rw [parentPath, hnormal]
  exact ⟨_, rfl⟩

theorem moved_below_root (hs : s ≠ []) (x : List Text) :
    ['/'] ++ (render (s ++ x)).drop (render s).length = '/' :: suffix x := by
  have hne : s ++ x ≠ [] := fun heq => hs (List.append_eq_nil_iff.mp heq).1
  rw [render_eq_suffix hne, render_eq_suffix hs, suffix_append, List.drop_left]
  rfl

/-- The moves below the root go through and store a record at the root itself. -/
theorem moveRecords_root (now : ℤ) (rs : List EntryRecord) (hsroot : s ≠ [])
    (hrs : ∀ r ∈ rs, ∃ x, Names (s ++ x) ∧ r.path = render (s ++ x)) (db : Db)
    (hroot : (db.lookup ['/']).isSome ∨ ∃ r ∈ rs, r.path = render s) :
    ∃ db', moveRecords (render s) ['/'] now rs db = (.ok (), db') ∧ (db'.lookup ['/']).isSome := by
  induction rs generalizing db with
  | nil => exact ⟨db, rfl, hroot.resolve_right (by simp)⟩
  | cons r rs ih =>
      obtain ⟨x, hx, hr⟩ := hrs r List.mem_cons_self
      obtain ⟨parent, hparent⟩ := parentPath_below_root (names_append.mp hx).2
      have hkey := moved_below_root hsroot x
      rw [← hr] at hkey
      have hpath : r.path ≠ ['/'] := by
        intro heq
        have hnil := (render_eq_root hx).mp (hr.symm.trans heq)
        exact hsroot (List.append_eq_nil_iff.mp hnil).1
      rw [moveRecords, hkey, hparent]
      apply ih (fun r' hr' => hrs r' (List.mem_cons_of_mem _ hr'))
      rcases hroot with hold | ⟨r', hr', hsource⟩
      · left
        rw [lookup_insert_eq, lookup_erase_eq, if_neg hpath.symm]
        split
        next => rfl
        next => exact hold
      · rcases List.mem_cons.mp hr' with rfl | hr'
        · left
          have hself : (moved (render s) ['/'] parent now r').path = ['/'] := by
            rw [moved, hsource, List.drop_length]
            rfl
          rw [hself, lookup_insert_eq, if_pos rfl]
          rfl
        · exact .inr ⟨r', hr', hsource⟩

theorem renameTx_root (h : Rooted db) (hs : Names s) {r : EntryRecord}
    (hr : db.lookup (render s) = some r) (now : ℤ) :
    ∃ db', renameTx (render s) ['/'] now db = (.ok (), db') ∧ (db'.lookup ['/']).isSome := by
  have hsroot : s ≠ [] := (h.placed hs hr).notRoot
  have hfree : db.lookup ['/'] = none := by
    cases hstored : db.lookup ['/'] with
    | none => rfl
    | some r' => exact absurd rfl (h.placed names_nil hstored).notRoot
  have hreads := renameReads_eq h hs names_nil
  rw [render_nil, hr, hfree, if_neg nofun, if_neg nofun, if_neg (by simp)] at hreads
  rw [renameTx, hreads]
  apply moveRecords_root now _ hsroot
  · intro r' hr'
    obtain ⟨hvalue, hunder⟩ := List.mem_filter.mp hr'
    obtain ⟨l, hl⟩ := h.values_placed r' hvalue
    obtain ⟨x, rfl⟩ := (under_iff hl hs).mp (of_decide_eq_true hunder)
    exact ⟨x, hl.names, hl.path⟩
  · right
    have hpath := (h _ r hr).1
    refine ⟨r, List.mem_filter.mpr ⟨mem_values.mpr ⟨_, hr⟩, ?_⟩, hpath⟩
    exact decide_eq_true (under_self hs hpath)

/-- A call that finds the lock free runs through. -/
theorem runExclusive_alone (keys : List Text) {fn : IdbM Unit} {db db' : Db}
    (hfn : ∀ mutex, Exec Faulty ⟨db, mutex⟩ (fn.call ()) (.ok (), ()) ⟨db', mutex⟩) :
    ∃ w', Exec Faulty ⟨db, KeyedMutex.empty⟩ ((runExclusive keys fn).call ()) (.ok (), ()) w' ∧
      w'.db = db' := by
  let c : Mutex.Call := ⟨(keys.map String.ofList).insertionSort (· ≤ ·), [], .waiting⟩
  obtain ⟨chains, hlocked⟩ : ∃ chains,
      KeyedMutex.empty.runExclusive (keys.map String.ofList) = ⟨chains, [c]⟩ := by
    refine ⟨(KeyedMutex.empty.runExclusive (keys.map String.ofList)).chains, ?_⟩
    simp [KeyedMutex.runExclusive, KeyedMutex.empty, c]
  have hlock := Serves.lock ⟨db, KeyedMutex.empty⟩ (keys.map String.ofList)
  rw [hlocked] at hlock
  let phased : Phase → KeyedMutex := fun p => ⟨chains, [{ c with phase := p }]⟩
  have hbegin : Serves ⟨db, ⟨chains, [c]⟩⟩ (.begin 0) () ⟨db, phased .running⟩ :=
    .begin _ 0 _ (by simp [KeyedMutex.after, KeyedMutex.setPhase, c, phased])
  have hsettle : Serves ⟨db', phased .running⟩ (.settle 0 true) () ⟨db', phased (.settled true)⟩ :=
    .settle _ 0 true _ (by simp [KeyedMutex.after, KeyedMutex.setPhase, phased])
  have htail : Serves ⟨db', phased (.settled true)⟩ (.tail 0) () ⟨db', phased .tailSettled⟩ :=
    .tail _ 0 _ (by simp [KeyedMutex.after, KeyedMutex.setPhase, phased, Phase.operationSettled,
      Phase.tailDone])
  let last : KeyedMutex := ((phased .tailSettled).release 0 c.keys).setPhase 0 .released
  have hrelease : Serves ⟨db', phased .tailSettled⟩ (.release 0) () ⟨db', last⟩ :=
    .release _ 0 _ (by simp [KeyedMutex.after, phased, last])
  refine ⟨⟨db', last⟩, exec_bind (exec_perform (.served hlock) ()) ?_, rfl⟩
  refine exec_bind (exec_perform (.served hbegin) ()) ?_
  refine exec_bind (exec_outcome (hfn _)) ?_
  refine exec_bind (exec_perform (.served hsettle) ()) ?_
  refine exec_bind (exec_perform (.served htail) ()) ?_
  refine exec_bind (exec_perform (.served hrelease) ()) ?_
  exact .refl _ _

/-- A rename of a stored source onto the root succeeds and stores a record there. -/
theorem rename_root (h : Rooted db) (hs : Names s) {r : EntryRecord}
    (hr : db.lookup (render s) = some r) {fromPath toPath : Text}
    (hfrom : normalizePath fromPath = .ok (render s)) (hto : normalizePath toPath = .ok ['/']) :
    ∃ w', Exec Faulty ⟨db, KeyedMutex.empty⟩ ((rename fromPath toPath).call ()) (.ok (), ()) w' ∧
      (w'.db.lookup ['/']).isSome := by
  have hsroot : s ≠ [] := (h.placed hs hr).notRoot
  have hdecided : rename fromPath toPath = runExclusive [render s, ['/']] (do
      let answer ← idb (.renameTx (render s) ['/'])
      Method.ofExcept id answer) := by
    have hne : render s ≠ ['/'] := mt (render_eq_root hs).mp hsroot
    have hunder : isUnder ['/'] (render s) = .ok false := by
      have hrender := isUnder_render names_nil hs
      rw [render_nil] at hrender
      rw [hrender]
      simp [hsroot]
    simp only [rename, hfrom, hto, isRoot_render hs, hunder, pathResult, Method.ofExcept, pure_bind]
    simp [hsroot, hne]
  obtain ⟨db', htx, hroot⟩ := renameTx_root h hs hr 0
  have hcall : ∀ mutex, Exec Faulty ⟨db, mutex⟩ (Method.call (do
      let answer ← idb (.renameTx (render s) ['/'])
      Method.ofExcept id answer) ()) (.ok (), ()) ⟨db', mutex⟩ := by
    intro mutex
    have hserves := Serves.renameTx ⟨db, mutex⟩ (render s) ['/'] 0
    rw [htx] at hserves
    exact .step (.served hserves) (.refl _ _)
  rw [hdecided]
  obtain ⟨w', hexec, hdb⟩ := runExclusive_alone [render s, ['/']] hcall
  exact ⟨w', hexec, hdb ▸ hroot⟩

end Root

/-- A rename that is not onto the root moves its subtree, whatever fails. -/
theorem renameMoves_elsewhere {db : Db} (h : Rooted db) {fromPath toPath : Text}
    (hroot : ¬ OntoRoot db fromPath toPath) : RenameMoves db fromPath toPath := by
  let Q : Unit → Db → Prop := fun _ => Moved db fromPath toPath
  let E : Failure → Db → Prop := fun _ db' => db' = db
  have hfails : ∀ e, E e db := fun _ => rfl
  have hleaves : Leaves Q E (rename fromPath toPath) db := by
    apply leaves_path hfails
    intro src hfrom
    obtain ⟨s, hs, rfl⟩ := normalizePath_eq_ok hfrom
    apply leaves_path hfails
    intro dst hto
    obtain ⟨d, hd, rfl⟩ := normalizePath_eq_ok hto
    apply leaves_path hfails
    intro root hroot
    rw [isRoot_render hs, Except.ok.injEq] at hroot
    subst hroot
    split
    next => exact leaves_throw rfl
    next hsroot =>
      rw [decide_eq_true_eq] at hsroot
      split
      next heq =>
        obtain rfl := render_inj hs hd heq
        intro w hw
        subst hw
        exact ⟨s, s, hs, hs, hfrom, hto, movesSubtree_self h hs⟩
      next hne =>
        apply leaves_path hfails
        intro under hunder
        rw [isUnder_render hd hs, Except.ok.injEq] at hunder
        subst hunder
        split
        next => exact leaves_throw rfl
        next hunder =>
          rw [decide_eq_true_eq] at hunder
          apply leaves_runExclusive
          apply leaves_renameTx
          · exact fun db' hmoved => ⟨s, d, hs, hd, hfrom, hto, hmoved⟩
          · exact hfails
          · intro now
            by_cases hdroot : d = []
            · right
              subst hdroot
              have hnone : db.lookup (render s) = none := by
                cases hr : db.lookup (render s) with
                | none => rfl
                | some r => exact absurd ⟨hto, _, r, hfrom, hr⟩ hroot
              have hreads := renameReads_eq h hs hd
              rw [hnone, if_pos (by simp)] at hreads
              exact ⟨_, by rw [renameTx, hreads]⟩
            · exact renameTx_moves h hs hd hsroot hdroot hunder now
  exact fun w w' hw result hexec => (hleaves w hw).exec hexec

theorem not_renameMoves_root {db : Db} (h : Rooted db) {fromPath toPath : Text}
    (hroot : OntoRoot db fromPath toPath) : ¬ RenameMoves db fromPath toPath := by
  obtain ⟨hto, src, r, hfrom, hr⟩ := hroot
  obtain ⟨s, hs, rfl⟩ := normalizePath_eq_ok hfrom
  obtain ⟨w', hexec, hstored⟩ := rename_root h hs hr hfrom hto
  intro hmoves
  obtain ⟨_, _, -, -, -, -, hmoved⟩ := hmoves _ w' rfl _ hexec
  obtain ⟨r', hr'⟩ := Option.isSome_iff_exists.mp hstored
  exact (hmoved.tree.placed names_nil hr').notRoot rfl

/-- A rename does what it says in every tree of records if and only if it does not put a
stored record at the root. -/
theorem renameMoves_iff {db : Db} (h : Rooted db) (fromPath toPath : Text) :
    RenameMoves db fromPath toPath ↔ ¬ OntoRoot db fromPath toPath := by
  constructor
  · exact fun hmoves hroot => not_renameMoves_root h hroot hmoves
  · exact renameMoves_elsewhere h

section Examples

def folder : EntryRecord :=
  { path := ['/', 'd'], parent := ['/'], kind := .dir, data := .text "", size := 0, mtime := 0
    ctime := 0 }

def note : EntryRecord :=
  { path := ['/', 'd', '/', 'f'], parent := ['/', 'd'], kind := .file, data := .text "hi", size := 2
    mtime := 1, ctime := 1 }

/-- A folder with a note in it. -/
def folderDb : Db := ((∅ : Db).insert folder.path folder).insert note.path note

theorem folderDb_rooted : Rooted folderDb := by
  have hplaced : Placed ∅ folder [['d']] := ⟨by decide, by decide, rfl, rfl, .inl rfl⟩
  have hfolder : Rooted ((∅ : Db).insert folder.path folder) := rooted_empty.put hplaced nofun
  have hnote : Placed ((∅ : Db).insert folder.path folder) note [['d'], ['f']] :=
    ⟨by decide, by decide, rfl, rfl, .inr rfl⟩
  exact hfolder.put hnote fun _ => rfl

theorem renameMoves_iff_note : RenameMoves folderDb ['/', 'd', '/', 'f'] ['g'] := by
  apply (renameMoves_iff folderDb_rooted _ _).mpr
  rintro ⟨hroot, -⟩
  exact absurd hroot (by decide)

/-- The folder of a note is renamed to the root. -/
theorem rename_corrupts : Rooted folderDb ∧ ¬ RenameMoves folderDb ['/', 'd'] ['/'] :=
  ⟨folderDb_rooted, not_renameMoves_root folderDb_rooted ⟨rfl, _, folder, rfl, rfl⟩⟩

end Examples

end Tactile.Storage.IdbRename

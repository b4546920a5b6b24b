import Tactile.Lib.Threads
import Tactile.Storage.IdbTree

/-!
Concurrent calls of the IndexedDB backend, and the tree that the store is as
long as a call's checks still hold when it puts its record.
-/

namespace Tactile.Storage.IdbThreads

open Tactile.Lib.Program Tactile.Lib.Script Tactile.Lib.FiniteMap Tactile.Lib.Transition
open Tactile.Lib.Threads
open Tactile.Storage.Paths Tactile.Storage.Mutex Tactile.Storage.Idb Tactile.Storage.IdbTree

/-- The store is a tree: the parent of every record is the root or a directory
and is the one that its path names, the root has no record, and no record is
below a file. -/
structure IsTree (db : Db) : Prop where
  parentKind : ∀ r ∈ values db, r.path ≠ ['/'] → r.parent = ['/'] ∨ db.isDir r.parent
  parentField : ∀ r ∈ values db, parentPath r.path = .ok r.parent
  noRoot : ∀ r ∈ values db, r.path ≠ ['/']
  fileLeaves : ∀ r ∈ values db, r.kind = .file → ∀ r' ∈ values db, r'.path ≠ r.path →
    isUnder r'.path r.path ≠ .ok true

theorem isTree_of_rooted {db : Db} (h : Rooted db) : IsTree db where
  parentKind := fun r hr _ => by
    obtain ⟨l, hl⟩ := h.values_placed r hr
    rw [hl.parent]
    refine hl.parentDir.imp_left fun hroot => ?_
    rw [hroot]
    rfl
  parentField := fun r hr => by
    obtain ⟨l, hl⟩ := h.values_placed r hr
    rw [hl.path, hl.parent, parentPath_render hl.names]
  noRoot := fun r hr => by
    obtain ⟨l, hl⟩ := h.values_placed r hr
    rw [hl.path]
    exact mt (render_eq_root hl.names).mp hl.notRoot
  fileLeaves := fun r hr hkind r' hr' hne hunder => by
    obtain ⟨path, hpath⟩ := mem_values.mp hr
    obtain ⟨path', hpath'⟩ := mem_values.mp hr'
    obtain ⟨hkey, l, hl⟩ := h path r hpath
    obtain ⟨hkey', l', hl'⟩ := h path' r' hpath'
    rw [hl.path] at hunder
    obtain ⟨m, rfl⟩ := (under_iff hl' hl.names).mp hunder
    have hm : m ≠ [] := by
      rintro rfl
      rw [hl'.path, hl.path, List.append_nil] at hne
      exact hne rfl
    rw [← hkey', hl'.path] at hpath'
    obtain ⟨d, hd, hdir⟩ := isDir_iff.mp (h.ancestor hl'.names hl.notRoot hm hpath')
    rw [← hl.path, hkey, hpath] at hd
    cases hd
    rw [hkind] at hdir
    cases hdir

section Calls

/-- The mutating calls of the backend. -/
inductive Call
  | writeTextFile (path : Text) (contents : String)
  | writeFile (path : Text) (contents : List UInt8)
  | mkdir (path : Text) (recursive : Bool)
  | rename (fromPath toPath : Text)
  | remove (path : Text) (recursive : Bool)

def Call.method : Call → IdbM Unit
  | .writeTextFile path contents => writeRecord path (.text contents)
  | .writeFile path contents => writeRecord path (.bytes contents)
  | .mkdir path recursive => Idb.mkdir path recursive
  | .rename fromPath toPath => Idb.rename fromPath toPath
  | .remove path recursive => Idb.remove path recursive

def observe (_ : Unit) (o : IdbOp) (_ : IdbAns o) : Unit := ()

abbrev IdbPool : Type := Pool IdbOp IdbAns (Except Failure Unit × Unit) Unit World

abbrev IdbEvent : Type := Event IdbOp IdbAns Unit

/-- A thread of the pool is a call with any arguments. -/
def StartCall (_ : World) (_ : Unit) (p : Prog IdbOp IdbAns (Except Failure Unit × Unit)) : Prop :=
  ∃ c : Call, p = c.method.call ()

/-- What the checks of a call have read still holds when it puts its record, and
neither a put nor a rename has the root as its path. -/
def ChecksHold (x : IdbPool) : IdbEvent → Prop
  | .op _ (.put r) (.ok ()) =>
      r.path ≠ ['/'] ∧ (r.parent = ['/'] ∨ x.shared.db.isDir r.parent) ∧
        (r.kind = .file → x.shared.db.isDir r.path = false)
  | .op _ (.renameTx _ dst) _ => dst ≠ ['/']
  | _ => True

/-- What a call guarantees of its operations: their paths are texts of names. -/
def Guard (_ : Unit) : IdbOp → Prop
  | .put r => ∃ l, Names l ∧ r.path = render l ∧ r.parent = render l.dropLast
  | .renameTx src dst =>
      ∃ s d, Names s ∧ Names d ∧ s ≠ [] ∧ ¬ s <+: d ∧ src = render s ∧ dst = render d
  | .removeTx path _ => ∃ l, Names l ∧ l ≠ [] ∧ path = render l
  | _ => True

/-- A method keeps to the guarantee and ends in a result of a kind. -/
def Guarded {α : Type} (Q : α → Prop) (m : IdbM α) : Prop :=
  Meets (Observes observe) Guard (fun a _ _ => Q a) (fun _ _ _ => True) m () ()

variable {α β : Type} {Q : α → Prop} {Q' : β → Prop}

theorem Guarded.bind {m : IdbM α} {f : α → IdbM β} (hm : Guarded Q m)
    (hf : ∀ a, Q a → Guarded Q' (f a)) : Guarded Q' (m >>= f) := by
  rw [Guarded, meets_bind]
  exact hm.imp (fun a _ _ ha => hf a ha) fun _ _ _ h => h

theorem guarded_op {o : IdbOp} {f : IdbAns o → IdbM β} (ho : Guard () o)
    (hf : ∀ ans, Guarded Q' (f ans)) : Guarded Q' (idb o >>= f) := by
  rw [Guarded, meets_bind]
  exact ⟨ho, fun ans _ _ => hf ans⟩

theorem guarded_answer {x : Except Failure α} :
    Guarded (fun _ => True) (Method.ofExcept id x : IdbM α) := by
  rw [Guarded, meets_ofExcept]
  exact ⟨fun _ _ => trivial, fun _ _ => trivial⟩

theorem guarded_ofExcept {ε : Type} (wrap : ε → Failure) (x : Except ε α) :
    Guarded (fun a => x = .ok a) (Method.ofExcept wrap x : IdbM α) := by
  rw [Guarded, meets_ofExcept]
  exact ⟨fun _ h => h, fun _ _ => trivial⟩

theorem guarded_throw (e : Failure) : Guarded Q (throw e : IdbM α) := trivial

theorem guarded_getRecord (path : Text) : Guarded (fun _ => True) (getRecord path) :=
  guarded_op trivial fun _ => guarded_answer

theorem guarded_putRecord {r : EntryRecord} {l : List Text} (hl : Names l) (hpath : r.path = render l)
    (hparent : r.parent = render l.dropLast) : Guarded (fun _ => True) (putRecord r) := by
  have hput : Guard () (.put r) := ⟨l, hl, hpath, hparent⟩
  exact guarded_op hput fun _ => guarded_answer

theorem guarded_runExclusive (keys : List Text) {fn : IdbM Unit}
    (hfn : Guarded (fun _ => True) fn) : Guarded (fun _ => True) (runExclusive keys fn) := by
  refine guarded_op trivial fun n => guarded_op trivial fun _ => ?_
  have houtcome : Guarded (fun _ => True) fn.outcome := by
    rw [Guarded, meets_outcome]
    exact hfn.imp (fun _ _ _ _ => trivial) fun _ _ _ _ => trivial
  refine houtcome.bind fun result _ => guarded_op trivial fun _ => ?_
  exact guarded_op trivial fun _ => guarded_op trivial fun _ => guarded_answer

theorem guarded_requireParent {l : List Text} (hl : Names l) :
    Guarded (fun parent => parent = render l.dropLast) (requireParent (render l)) := by
  refine (guarded_ofExcept .storage _).bind fun parent hparent => ?_
  rw [parentPath_render hl] at hparent
  cases hparent
  refine (guarded_ofExcept .storage _).bind fun root _ => ?_
  cases root with
  | true => exact rfl
  | false =>
      refine (guarded_getRecord _).bind fun record _ => ?_
      split
      next => exact rfl
      next => exact guarded_throw _

theorem guarded_writeRecord (path : Text) (data : Data) :
    Guarded (fun _ => True) (writeRecord path data) := by
  refine (guarded_ofExcept .storage _).bind fun normalized hnorm => ?_
  obtain ⟨l, hl, rfl⟩ := normalizePath_eq_ok hnorm
  refine guarded_runExclusive _ ?_
  refine (guarded_requireParent hl).bind fun parent hparent => ?_
  refine (guarded_getRecord _).bind fun existing _ => ?_
  split
  next => exact guarded_throw _
  next => exact guarded_op trivial fun now => guarded_putRecord hl rfl hparent

theorem guarded_makeDir (now : ℤ) {l : List Text} (hl : Names l) :
    Guarded (fun _ => True) (makeDir now (render l)) := by
  refine (guarded_getRecord _).bind fun existing _ => ?_
  cases existing with
  | some r =>
      dsimp only
      split
      next => exact guarded_throw _
      next => exact trivial
  | none =>
      refine (guarded_ofExcept .storage _).bind fun parent hparent => ?_
      rw [parentPath_render hl] at hparent
      cases hparent
      exact guarded_putRecord hl rfl rfl

theorem guarded_makeDirs (now : ℤ) {segments l : List Text} (hnames : Names (l ++ segments)) :
    Guarded (fun _ => True) (makeDirs now (suffix l) segments) := by
  induction segments generalizing l with
  | nil => exact trivial
  | cons segment rest ih =>
      have hdir : suffix l ++ '/' :: segment = suffix (l ++ [segment]) := by
        simp [suffix]
      have hrest : l ++ segment :: rest = (l ++ [segment]) ++ rest := by simp
      rw [hrest] at hnames
      rw [makeDirs, hdir]
      have hmake := guarded_makeDir now (names_append.mp hnames).1
      rw [render_eq_suffix (by simp)] at hmake
      exact hmake.bind fun _ _ => ih hnames

theorem guarded_mkdir (path : Text) (recursive : Bool) :
    Guarded (fun _ => True) (Idb.mkdir path recursive) := by
  refine (guarded_ofExcept .storage _).bind fun normalized hnorm => ?_
  obtain ⟨l, hl, rfl⟩ := normalizePath_eq_ok hnorm
  refine (guarded_ofExcept .storage _).bind fun root _ => ?_
  cases root with
  | true => exact trivial
  | false =>
      refine guarded_op trivial fun now => ?_
      cases recursive with
      | true =>
          refine (guarded_ofExcept .storage _).bind fun segments hsegments => ?_
          rw [pathSegments_render hl] at hsegments
          cases hsegments
          have hnames : Names ([] ++ l) := hl
          exact guarded_makeDirs now hnames
      | false => exact (guarded_requireParent hl).bind fun _ _ => guarded_makeDir now hl

theorem guarded_rename (fromPath toPath : Text) :
    Guarded (fun _ => True) (Idb.rename fromPath toPath) := by
  refine (guarded_ofExcept .storage _).bind fun src hsrc => ?_
  obtain ⟨s, hs, rfl⟩ := normalizePath_eq_ok hsrc
  refine (guarded_ofExcept .storage _).bind fun dst hdst => ?_
  obtain ⟨d, hd, rfl⟩ := normalizePath_eq_ok hdst
  refine (guarded_ofExcept .storage _).bind fun root hroot => ?_
  rw [isRoot_render hs] at hroot
  cases hroot
  split
  next => exact guarded_throw _
  next hsroot =>
    split
    next => exact trivial
    next =>
      refine (guarded_ofExcept .storage _).bind fun under hunder => ?_
      rw [isUnder_render hd hs] at hunder
      cases hunder
      split
      next => exact guarded_throw _
      next hunder =>
        have hguard : Guard () (.renameTx (render s) (render d)) :=
          ⟨s, d, hs, hd, by simpa using hsroot, by simpa using hunder, rfl, rfl⟩
        exact guarded_runExclusive _ (guarded_op hguard fun _ => guarded_answer)

theorem guarded_remove (path : Text) (recursive : Bool) :
    Guarded (fun _ => True) (Idb.remove path recursive) := by
  refine (guarded_ofExcept .storage _).bind fun normalized hnorm => ?_
  obtain ⟨l, hl, rfl⟩ := normalizePath_eq_ok hnorm
  refine (guarded_ofExcept .storage _).bind fun root hroot => ?_
  rw [isRoot_render hl] at hroot
  cases hroot
  split
  next => exact guarded_throw _
  next hroot =>
    have hguard : Guard () (.removeTx (render l) recursive) := ⟨l, hl, by simpa using hroot, rfl⟩
    exact guarded_runExclusive _ (guarded_op hguard fun _ => guarded_answer)

theorem guarded_call (c : Call) : Guarded (fun _ => True) c.method := by
  cases c with
  | writeTextFile path contents => exact guarded_writeRecord path (.text contents)
  | writeFile path contents => exact guarded_writeRecord path (.bytes contents)
  | mkdir path recursive => exact guarded_mkdir path recursive
  | rename fromPath toPath => exact guarded_rename fromPath toPath
  | remove path recursive => exact guarded_remove path recursive

end Calls

/-- The backend with an empty store and nothing called yet. -/
def fresh : IdbPool := ⟨⟨∅, KeyedMutex.empty⟩, ∅⟩

def StoreRooted (x : IdbPool) : Prop := Rooted x.shared.db

/-- Every operation that meets the condition keeps the tree. -/
theorem rooted_op {x : IdbPool} {n : ℕ} {o : IdbOp} {ans : IdbAns o} {w : World}
    (h : Rooted x.shared.db) (hguard : Guard () o) (hserves : Faulty x.shared o ans w)
    (hchecks : ChecksHold x (.op n o ans)) : Rooted w.db := by
  cases hserves with
  | get | put | renameTx | removeTx => exact h
  | served hserves =>
      cases hserves with
      | get | now | lock | begin | settle | tail | release => exact h
      | put _ r =>
          obtain ⟨l, hl, hpath, hparent⟩ := hguard
          obtain ⟨hroot, hparentDir, hkind⟩ := hchecks
          refine h.put ⟨hl, fun heq => hroot ?_, hpath, hparent, ?_⟩ hkind
          · rw [hpath, heq]
            rfl
          · rw [hparent, render_eq_root (names_dropLast hl)] at hparentDir
            exact hparentDir
      | renameTx _ src dst now =>
          obtain ⟨s, d, hs, hd, hsroot, hunder, rfl, rfl⟩ := hguard
          have hdroot : d ≠ [] := by
            rintro rfl
            exact hchecks rfl
          exact h.renameTx hs hd hsroot hdroot hunder now
      | removeTx _ path recursive =>
          obtain ⟨l, hl, hroot, rfl⟩ := hguard
          exact h.removeTx hl hroot recursive

/-- The store is a tree after every run of concurrent calls in which the checks
of a call still hold when it puts its record, and no call stores a record at the
root. -/
theorem idb_stays_tree (es : List IdbEvent) (y : IdbPool)
    (hrun : Runs (fun x e y => Step Faulty observe StartCall x e y ∧ ChecksHold x e) fresh es y) :
    IsTree y.shared.db := by
  have hstart : ∀ (s : World) t p, StartCall s t p →
      Holds (Observes observe) Guard (fun _ _ => True) p t := by
    rintro s t p ⟨c, rfl⟩
    refine Holds.imp (guarded_call c) fun _ _ _ => trivial
  have hempty : StoreRooted fresh := rooted_empty
  have hinv : Guarantees observe Guard (fun _ _ => True) y ∧ StoreRooted y := by
    refine invariant hstart ?_ ?_ hrun (guarantees_empty _) hempty
    · exact fun x n t p h _ _ _ => h
    · exact fun x n t o next ans s' h _ hguard hserves hchecks =>
        rooted_op h hguard hserves hchecks
  exact isTree_of_rooted hinv.2

section Examples

def folder : Text := ['/', 'd']

def note : Text := ['/', 'd', '/', 'f']

def folderRecord : EntryRecord :=
  { path := folder, parent := ['/'], kind := .dir, data := .text "", size := 0, mtime := 0
    ctime := 0 }

def noteRecord : EntryRecord :=
  { path := note, parent := folder, kind := .file, data := .text "hi", size := 2, mtime := 1
    ctime := 1 }

/-- A call that makes the folder. -/
def folderEvents : List IdbEvent :=
  [.start 1 (), .op 1 .now (0 : ℤ), .op 1 (.get folder) (.ok none),
    .op 1 (.put folderRecord) (.ok ())]

/-- A write of a note up to its check of the folder. -/
def noteChecked : List IdbEvent :=
  [.start 2 (), .op 2 (.lock [String.ofList note]) (0 : ℕ), .op 2 (.begin 0) (),
    .op 2 (.get folder) (.ok (some folderRecord))]

/-- The rest of the write up to its put. -/
def notePut : List IdbEvent :=
  [.op 2 (.get note) (.ok none), .op 2 .now (1 : ℤ), .op 2 (.put noteRecord) (.ok ())]

/-- A removal of the folder, which is empty. -/
def folderRemoved : List IdbEvent :=
  [.start 3 (), .op 3 (.lock [String.ofList folder]) (1 : ℕ), .op 3 (.begin 1) (),
    .op 3 (.removeTx folder false) (.ok ())]

theorem idb_stays_tree_note :
    ∃ y : IdbPool, y.shared.db.lookup note = some noteRecord ∧ IsTree y.shared.db := by
  have hrun : ∃ y : IdbPool, Runs (fun x e y => Step Faulty observe StartCall x e y ∧ ChecksHold x e) fresh
      (folderEvents ++ noteChecked ++ notePut) y ∧ y.shared.db.lookup note = some noteRecord := by
    refine ⟨_,
      .cons ⟨.start rfl ⟨.mkdir folder false, rfl⟩, trivial⟩ <|
      .cons ⟨.op rfl (.served (.now _ _)), trivial⟩ <|
      .cons ⟨.op rfl (.served (.get _ _)), trivial⟩ <|
      .cons ⟨.op rfl (.served (.put _ _)), nofun, .inl rfl, fun _ => rfl⟩ <|
      .cons ⟨.start rfl ⟨.writeTextFile note "hi", rfl⟩, trivial⟩ <|
      .cons ⟨.op rfl (.served (.lock _ _)), trivial⟩ <|
      .cons ⟨.op rfl (.served (.begin _ _ _ rfl)), trivial⟩ <|
      .cons ⟨.op rfl (.served (.get _ _)), trivial⟩ <|
      .cons ⟨.op rfl (.served (.get _ _)), trivial⟩ <|
      .cons ⟨.op rfl (.served (.now _ _)), trivial⟩ <|
      .cons ⟨.op rfl (.served (.put _ _)), nofun, .inr rfl, fun _ => rfl⟩ <| .nil _, rfl⟩
  obtain ⟨y, hruns, hnote⟩ := hrun
  exact ⟨y, hnote, idb_stays_tree _ y hruns⟩

/-- A write whose folder is removed between its check and its put leaves a file
without a parent. -/
theorem write_orphans_note :
    ∃ (es : List IdbEvent) (y : IdbPool), Runs (Step Faulty observe StartCall) fresh es y ∧
      ¬ IsTree y.shared.db := by
  have hrun : ∃ y : IdbPool, Runs (Step Faulty observe StartCall) fresh
      (folderEvents ++ noteChecked ++ folderRemoved ++ notePut) y ∧
      y.shared.db.lookup note = some noteRecord ∧ y.shared.db.lookup folder = none := by
    refine ⟨_,
      .cons (.start rfl ⟨.mkdir folder false, rfl⟩) <|
      .cons (.op rfl (.served (.now _ _))) <| .cons (.op rfl (.served (.get _ _))) <|
      .cons (.op rfl (.served (.put _ _))) <|
      .cons (.start rfl ⟨.writeTextFile note "hi", rfl⟩) <|
      .cons (.op rfl (.served (.lock _ _))) <| .cons (.op rfl (.served (.begin _ _ _ rfl))) <|
      .cons (.op rfl (.served (.get _ _))) <|
      .cons (.start rfl ⟨.remove folder false, rfl⟩) <|
      .cons (.op rfl (.served (.lock _ _))) <| .cons (.op rfl (.served (.begin _ _ _ rfl))) <|
      .cons (.op rfl (.served (.removeTx _ _ _))) <|
      .cons (.op rfl (.served (.get _ _))) <| .cons (.op rfl (.served (.now _ _))) <|
      .cons (.op rfl (.served (.put _ _))) <| .nil _, rfl, rfl⟩
  obtain ⟨y, hruns, hnote, hfolder⟩ := hrun
  refine ⟨_, y, hruns, fun htree => ?_⟩
  have hparent := htree.parentKind noteRecord (mem_values.mpr ⟨note, hnote⟩) nofun
  have hfolder' : y.shared.db.lookup noteRecord.parent = none := hfolder
  rw [Db.isDir, hfolder'] at hparent
  rcases hparent with hroot | hdir
  · cases hroot
  · cases hdir

end Examples

end Tactile.Storage.IdbThreads

import Tactile.Storage.History

/-!
When a write skips its snapshot for the last one being too recent: what the times
that the backend remembers stand for, over runs of writes and removals.
-/

namespace Tactile.Storage.Throttle

open Tactile.Lib.Program Tactile.Lib.Script Tactile.Lib.FiniteMap Tactile.Lib.Transition
open Tactile.Storage.Paths Tactile.Storage.Opfs Tactile.Storage.Backend
open Tactile.Storage.Idb (Failure DomError)
open Tactile.Storage.Versioned Tactile.Storage.History

abbrev Calls : Type := List (Call StorageOp StorageAns)

inductive Request
  | write (path : Text) (contents : Contents)
  | remove (path : Text) (recursive : Bool)

/-- A request that was served, with the calls of the backend below and their answers. -/
structure Event where
  request : Request
  clock : Clock
  calls : Calls

/-- A request goes through, or fails; the search for a free name comes to an end. -/
def Serves (codec : TextCodec) (cfg : Config) (s : Store) (e : Event) (s' : Store) : Prop :=
  match e.request with
  | .write path contents => ∃ fuel out, out ≠ .error .outOfFuel ∧
      Exec (Logged (Backend.Serves codec e.clock)) (s.tree, [])
        ((contents.write cfg fuel path).call s.last) (out, s'.last) (s'.tree, e.calls)
  | .remove path recursive => ∃ out,
      Exec (Logged (Backend.Serves codec e.clock)) (s.tree, [])
        ((remove cfg path recursive).call s.last) (out, s'.last) (s'.tree, e.calls)

section Calls

variable (cfg : Config) (path : Text) (calls : Calls)

/-- A version of the path was written. -/
def Stored : Prop :=
  ∃ dir time contents, versionDirFor cfg path = .ok (some dir) ∧
    ⟨.writeFile (inDir dir (versionName time)) contents, .ok ()⟩ ∈ calls

/-- A call between the mark of a snapshot and its version. -/
def Between : StorageOp → Prop
  | .readFile p => p = path
  | .mkdir p _ => versionDirFor cfg path = .ok (some p)
  | .exists p | .writeFile p _ =>
      ∃ dir time, versionDirFor cfg path = .ok (some dir) ∧ p = inDir dir (versionName time)
  | _ => False

/-- Such a call failed. -/
def Lost : Prop := ∃ o e, ⟨o, .error e⟩ ∈ calls ∧ Between cfg path o

/-- The write came to ask for the time, which it does for an existing file that is to be
versioned and not too large, and then did not read what it overwrites. -/
def Throttled : Prop :=
  (∃ now, ⟨.now, now⟩ ∈ calls) ∧ ∀ answer, ⟨.readFile path, answer⟩ ∉ calls

/-- What is at a place was removed. -/
def Removes (segs : List Text) : Prop :=
  ∃ p recursive l, ⟨.remove p recursive, .ok ()⟩ ∈ calls ∧ pathSegments p = .ok l ∧ l <+: segs

end Calls

/-- Among some events, a version of what is at a place was written at a time, and nothing
removed it since. -/
def StoredSince (cfg : Config) (events : List Event) (segs : List Text) (time : ℤ) : Prop :=
  ∃ pre e post path contents, events = pre ++ e :: post ∧ e.request = .write path contents ∧
    pathSegments path = .ok segs ∧ Stored cfg path e.calls ∧ e.clock.now = time ∧
    ∀ e' ∈ post, ¬ Removes e'.calls segs

section Writes

variable {codec : TextCodec} {clock : Clock} {cfg : Config} {path dir : Text}
variable {mem mem' : LastSnapshotAt} {t : Tree} {calls calls' : Calls}

def Skips (cfg : Config) (last : LastSnapshotAt) (path : Text) (now : ℤ) : Prop :=
  0 < cfg.minInterval ∧ now - (last.lookup path).getD 0 < cfg.minInterval

def HasRead (path : Text) (calls : Calls) : Prop := ∃ answer, ⟨.readFile path, answer⟩ ∈ calls

/-- What a snapshot leaves in the log once the path is marked. -/
def Taken (cfg : Config) (path : Text) (calls : Calls) : Prop :=
  HasRead path calls ∧
    (Stored cfg path calls ∨ Lost cfg path calls ∨ ∀ dir, versionDirFor cfg path ≠ .ok (some dir))

/-- What the mark of a path stands for after a write: no new one where the write did not
ask for the time or was throttled, and else a version, or a call that failed. -/
def Marks (cfg : Config) (path : Text) (now : ℤ) (mem mem' : LastSnapshotAt) (calls : Calls) : Prop :=
  (mem' = mem ∧ ((∃ time, ⟨.now, time⟩ ∈ calls) → Skips cfg mem path now)) ∨
    mem' = mem.insert path now ∧ cfg.shouldVersion path = .ok true ∧
      Taken cfg path calls

/-- A call of the backend below, logged. -/
theorem meets_logged {o : StorageOp} {Q : StorageVal o → LastSnapshotAt → Tree × Calls → Prop}
    {E : VersionError → LastSnapshotAt → Tree × Calls → Prop}
    (hok : ∀ val t', Q val mem (t', calls ++ [⟨o, .ok val⟩]))
    (herror : ∀ e t', E (.backend e) mem (t', calls ++ [⟨o, .error e⟩])) :
    Meets (Logged (Backend.Serves codec clock)) (fun _ _ => True) Q E (inner o) mem (t, calls) := by
  refine meets_asked (G := fun _ _ => True) trivial (fun val s' hans => ?_) fun e s' hans => ?_
  · obtain ⟨t', calls'⟩ := s'
    obtain ⟨-, rfl⟩ := hans
    exact hok val t'
  · obtain ⟨t', calls'⟩ := s'
    obtain ⟨-, rfl⟩ := hans
    exact herror e t'

theorem meets_now {Q : ℤ → LastSnapshotAt → Tree × Calls → Prop}
    {E : VersionError → LastSnapshotAt → Tree × Calls → Prop}
    (h : ∀ t', Q clock.now mem (t', calls ++ [⟨.now, .ok clock.now⟩])) :
    Meets (Logged (Backend.Serves codec clock)) (fun _ _ => True) Q E (inner .now) mem (t, calls) := by
  refine meets_asked (G := fun _ _ => True) trivial (fun val s' hans => ?_) fun e s' hans => ?_
  · obtain ⟨t', calls'⟩ := s'
    obtain ⟨hserved, rfl⟩ := hans
    cases serves_now hserved
    exact h t'
  · cases serves_now hans.1

theorem meets_pathResult_logged {α : Type} {x : Except StorageError α}
    {Q : α → LastSnapshotAt → Tree × Calls → Prop} {E : VersionError → LastSnapshotAt → Tree × Calls → Prop}
    (hok : ∀ a, x = .ok a → Q a mem (t, calls))
    (herror : ∀ e, x = .error e → E (.backend (.storage e)) mem (t, calls)) :
    Meets (Logged (Backend.Serves codec clock)) (fun _ _ => True) Q E (pathResult x) mem (t, calls) :=
  (meets_ofExcept ..).mpr ⟨hok, herror⟩

/-- A method that keeps the memory and adds calls to the log. -/
abbrev Adds {α : Type} (codec : TextCodec) (clock : Clock) (m : VersionedM α) (mem : LastSnapshotAt)
    (t : Tree) (calls : Calls) : Prop :=
  Meets (Logged (Backend.Serves codec clock)) (fun _ _ => True)
    (fun _ mem' s' => mem' = mem ∧ ∃ more, s'.2 = calls ++ more)
    (fun _ mem' s' => mem' = mem ∧ ∃ more, s'.2 = calls ++ more) m mem (t, calls)

theorem adds_inner (o : StorageOp) : Adds codec clock (inner o) mem t calls :=
  meets_logged (fun _ _ => ⟨rfl, _, rfl⟩) fun _ _ => ⟨rfl, _, rfl⟩

theorem Adds.bind {α β : Type} {m : VersionedM β} {f : β → VersionedM α}
    (hm : Adds codec clock m mem t calls) (hf : ∀ b t' calls', Adds codec clock (f b) mem t' calls') :
    Adds codec clock (m >>= f) mem t calls := by
  rw [Adds, meets_bind]
  refine hm.imp (fun b mem' s' h => ?_) fun _ _ _ h => h
  obtain ⟨t', calls'⟩ := s'
  obtain ⟨rfl, more, rfl⟩ := h
  refine (hf b t' _).imp (fun _ mem₂ s₂ h => ?_) fun _ mem₂ s₂ h => ?_
  · obtain ⟨rfl, more', hmore'⟩ := h
    exact ⟨rfl, more ++ more', by rw [hmore', List.append_assoc]⟩
  · obtain ⟨rfl, more', hmore'⟩ := h
    exact ⟨rfl, more ++ more', by rw [hmore', List.append_assoc]⟩

theorem adds_pure {α : Type} (a : α) : Adds codec clock (pure a) mem t calls := ⟨rfl, [], by simp⟩

theorem adds_pathResult {α : Type} (x : Except StorageError α) :
    Adds codec clock (pathResult x) mem t calls :=
  meets_pathResult_logged (fun _ _ => ⟨rfl, [], by simp⟩) fun _ _ => ⟨rfl, [], by simp⟩

theorem adds_forM {ι : Type} {f : ι → VersionedM Unit}
    (hf : ∀ x t' calls', Adds codec clock (f x) mem t' calls') (xs : List ι) :
    Adds codec clock (xs.forM f) mem t calls := by
  induction xs generalizing t calls with
  | nil => exact adds_pure ()
  | cons x xs ih => exact (hf x t calls).bind fun _ _ _ => ih

theorem adds_prune : Adds codec clock (prune cfg dir) mem t calls :=
  (adds_inner _).bind fun _ _ _ => adds_forM (fun _ _ _ => adds_inner _) _

theorem stored_append {more : Calls} (h : Stored cfg path calls) : Stored cfg path (calls ++ more) := by
  obtain ⟨dir, time, contents, hdir, hmem⟩ := h
  exact ⟨dir, time, contents, hdir, List.mem_append_left _ hmem⟩

theorem lost_append {more : Calls} (h : Lost cfg path calls) : Lost cfg path (calls ++ more) := by
  obtain ⟨o, e, hmem, hbetween⟩ := h
  exact ⟨o, e, List.mem_append_left _ hmem, hbetween⟩

theorem lost_last {o : StorageOp} {e : Failure} (h : Between cfg path o) :
    Lost cfg path (calls ++ [⟨o, .error e⟩]) :=
  ⟨o, e, List.mem_append_right _ List.mem_cons_self, h⟩

/-- The search for a free name finds one, or a call fails. -/
theorem freeTime_logged (hdir : versionDirFor cfg path = .ok (some dir)) (fuel : ℕ) (time : ℤ) :
    Meets (Logged (Backend.Serves codec clock)) (fun _ _ => True)
      (fun _ mem' s' => mem' = mem ∧ ∃ more, s'.2 = calls ++ more)
      (fun e mem' s' => mem' = mem ∧ (∃ more, s'.2 = calls ++ more) ∧
        (e = .outOfFuel ∨ Lost cfg path s'.2)) (freeTime dir fuel time) mem (t, calls) := by
  induction fuel generalizing time t calls with
  | zero => exact ⟨rfl, ⟨[], by simp⟩, .inl rfl⟩
  | succ fuel ih =>
      rw [freeTime, meets_bind]
      refine meets_logged (fun taken t₁ => ?_) fun e t₁ => ?_
      · split
        · refine (ih (time + 1)).imp (fun _ mem' s' h => ?_) fun _ mem' s' h => ?_
          · obtain ⟨rfl, more, hmore⟩ := h
            exact ⟨rfl, _, by rw [hmore, List.append_assoc]⟩
          · obtain ⟨rfl, ⟨more, hmore⟩, hlost⟩ := h
            exact ⟨rfl, ⟨_, by rw [hmore, List.append_assoc]⟩, hlost⟩
        · exact ⟨rfl, _, rfl⟩
      · exact ⟨rfl, ⟨_, rfl⟩, .inr (lost_last ⟨dir, time, hdir, rfl⟩)⟩

theorem HasRead.append {more : Calls} (h : HasRead path calls) : HasRead path (calls ++ more) :=
  h.imp fun _ hmem => List.mem_append_left _ hmem

theorem Taken.append {more : Calls} (h : Taken cfg path calls) : Taken cfg path (calls ++ more) :=
  ⟨h.1.append, h.2.imp stored_append (Or.imp_left lost_append)⟩

theorem taken_of_lost {o : StorageOp} {e : Failure} (h : HasRead path calls) (ho : Between cfg path o) :
    Taken cfg path (calls ++ [⟨o, .error e⟩]) :=
  ⟨h.append, .inr (.inl (lost_last ho))⟩

/-- From the directory of the versions on, a snapshot writes its version or a call fails. -/
theorem version_logged (h : HasRead path calls) (hdir : versionDirFor cfg path = .ok (some dir))
    (fuel : ℕ) (now : ℤ) (previous : List UInt8) :
    Meets (Logged (Backend.Serves codec clock)) (fun _ _ => True)
      (fun _ mem' s' => mem' = mem ∧ Taken cfg path s'.2)
      (fun e mem' s' => e = .outOfFuel ∨ mem' = mem ∧ Taken cfg path s'.2)
      (do
        inner (.mkdir dir true)
        let versionTime ← freeTime dir fuel now
        inner (.writeFile (inDir dir (versionName versionTime)) previous)
        prune cfg dir) mem (t, calls) := by
  rw [meets_bind]
  refine meets_logged (fun _ t₁ => ?_) fun e t₁ => .inr ⟨rfl, taken_of_lost h hdir⟩
  rw [meets_bind]
  refine (freeTime_logged hdir fuel now).imp (fun time mem' s' hfree => ?_) fun e mem' s' hfree => ?_
  · obtain ⟨rfl, more, hmore⟩ := hfree
    obtain ⟨t₂, calls₂⟩ := s'
    have hread : HasRead path calls₂ := by
      have hcalls : calls₂ = _ ++ more := hmore
      rw [hcalls]
      exact h.append.append
    rw [meets_bind]
    refine meets_logged (fun _ t₃ => ?_) fun e t₃ =>
      .inr ⟨rfl, taken_of_lost hread ⟨dir, time, hdir, rfl⟩⟩
    have htaken : Taken cfg path (calls₂ ++
        [⟨.writeFile (inDir dir (versionName time)) previous, .ok ()⟩]) :=
      ⟨hread.append, .inl ⟨dir, time, previous, hdir, List.mem_append_right _ List.mem_cons_self⟩⟩
    refine adds_prune.imp (fun _ mem₄ s₄ hadds => ?_) fun _ mem₄ s₄ hadds => .inr ?_
    · obtain ⟨rfl, more', hmore'⟩ := hadds
      exact ⟨rfl, hmore' ▸ htaken.append⟩
    · obtain ⟨rfl, more', hmore'⟩ := hadds
      exact ⟨rfl, hmore' ▸ htaken.append⟩
  · obtain ⟨rfl, ⟨more, hmore⟩, hfuel | hlost⟩ := hfree
    · exact .inl hfuel
    · refine .inr ⟨rfl, ?_, .inr (.inl hlost)⟩
      rw [hmore]
      exact h.append.append

/-- From the mark on, a snapshot that ends has written its version, or a call failed. -/
theorem snapshot_logged (fuel : ℕ) (now : ℤ) :
    Meets (Logged (Backend.Serves codec clock)) (fun _ _ => True)
      (fun _ mem' s' => mem' = mem.insert path now ∧ Taken cfg path s'.2)
      (fun e mem' s' => e = .outOfFuel ∨ mem' = mem.insert path now ∧ Taken cfg path s'.2)
      (snapshot cfg fuel path now) mem (t, calls) := by
  rw [snapshot, meets_bind, meets_update, meets_bind]
  refine meets_logged (fun previous t₁ => ?_) fun e t₁ => .inr ⟨rfl, ?_⟩
  · have hread : HasRead path (calls ++ [⟨.readFile path, .ok previous⟩]) :=
      ⟨_, List.mem_append_right _ List.mem_cons_self⟩
    rw [meets_bind]
    refine meets_pathResult_logged (fun place hplace => ?_) fun e he => .inr ⟨rfl, hread, ?_⟩
    · cases place with
      | none =>
          refine ⟨rfl, hread, .inr (.inr fun dir hdir => ?_)⟩
          rw [hplace] at hdir
          cases hdir
      | some dir => exact version_logged hread hplace fuel now previous
    · refine .inr (.inr fun dir hdir => ?_)
      rw [he] at hdir
      cases hdir
  · exact ⟨⟨_, List.mem_append_right _ List.mem_cons_self⟩, .inr (.inl (lost_last rfl))⟩

theorem Marks.append {now : ℤ} {o : StorageOp} {ans : StorageAns o}
    (h : Marks cfg path now mem mem' calls) (ho : o ≠ .now) :
    Marks cfg path now mem mem' (calls ++ [⟨o, ans⟩]) := by
  rcases h with ⟨hmem, hasked⟩ | ⟨hmem, hversioned, htaken⟩
  · refine .inl ⟨hmem, ?_⟩
    rintro ⟨time, htime⟩
    rcases List.mem_append.mp htime with hbefore | hlast
    · exact hasked ⟨time, hbefore⟩
    · exact absurd (Sigma.mk.inj (List.mem_singleton.mp hlast)).1.symm ho
  · exact .inr ⟨hmem, hversioned, Taken.append htaken⟩

theorem snapshotBeforeWrite_logged (hversioned : cfg.shouldVersion path = .ok true) (fuel : ℕ) :
    Meets (Logged (Backend.Serves codec clock)) (fun _ _ => True)
      (fun _ mem' s' => Marks cfg path clock.now mem mem' s'.2)
      (fun e mem' s' => e = .outOfFuel ∨ Marks cfg path clock.now mem mem' s'.2)
      (snapshotBeforeWrite cfg fuel path) mem (t, []) := by
  have hstart : Marks cfg path clock.now mem mem [] := .inl ⟨rfl, fun ⟨_, h⟩ => absurd h List.not_mem_nil⟩
  have hthere : ∀ ans, Marks cfg path clock.now mem mem ([] ++ [⟨.exists path, ans⟩]) :=
    fun ans => hstart.append nofun
  have hstat : ∀ ans ans', Marks cfg path clock.now mem mem
      ([] ++ [⟨.exists path, ans⟩] ++ [⟨.stat path, ans'⟩]) := fun ans ans' => (hthere ans).append nofun
  rw [snapshotBeforeWrite, meets_bind]
  refine meets_logged (fun there t₁ => ?_) fun e t₁ => .inr (hthere _)
  split
  · exact hthere _
  · rw [meets_bind]
    refine meets_logged (fun stat t₂ => ?_) fun e t₂ => .inr (hstat _ _)
    split
    · exact hstat _ _
    · rw [meets_bind]
      refine meets_now fun t₃ => ?_
      rw [meets_bind, meets_read]
      split
      next hskips => exact .inl ⟨rfl, fun _ => hskips⟩
      next =>
        refine (snapshot_logged fuel clock.now).imp (fun _ mem' s' h => ?_) fun e mem' s' h => ?_
        · exact .inr ⟨h.1, hversioned, h.2⟩
        · exact h.imp_right fun h => .inr ⟨h.1, hversioned, h.2⟩

/-- What a write does to the mark of its path. -/
theorem overwrite_logged (fuel : ℕ) {o : StorageOp} (ho : o ≠ .now) :
    Meets (Logged (Backend.Serves codec clock)) (fun _ _ => True)
      (fun _ mem' s' => Marks cfg path clock.now mem mem' s'.2)
      (fun e mem' s' => e = .outOfFuel ∨ Marks cfg path clock.now mem mem' s'.2)
      (do
        let versioned ← pathResult (cfg.shouldVersion path)
        if versioned then snapshotBeforeWrite cfg fuel path else pure ()
        inner o) mem (t, []) := by
  have hstart : Marks cfg path clock.now mem mem [] := .inl ⟨rfl, fun ⟨_, h⟩ => absurd h List.not_mem_nil⟩
  have hlast : ∀ mem' t' calls', Marks cfg path clock.now mem mem' calls' →
      Meets (Logged (Backend.Serves codec clock)) (fun _ _ => True)
        (fun _ mem₂ s₂ => Marks cfg path clock.now mem mem₂ s₂.2)
        (fun e mem₂ s₂ => e = .outOfFuel ∨ Marks cfg path clock.now mem mem₂ s₂.2)
        (inner o) mem' (t', calls') := by
    intro mem' t' calls' h
    exact meets_logged (fun val _ => h.append ho) fun e _ => .inr (h.append ho)
  rw [meets_bind]
  refine meets_pathResult_logged (fun versioned hversioned => ?_) fun _ _ => .inr hstart
  dsimp only
  split
  next htrue =>
    subst htrue
    rw [meets_bind]
    refine (snapshotBeforeWrite_logged hversioned fuel).imp (fun _ mem' s' h => ?_) fun _ _ _ h => h
    exact hlast mem' s'.1 s'.2 h
  next => exact hlast mem t [] hstart

theorem write_logged (fuel : ℕ) (contents : Contents) :
    Meets (Logged (Backend.Serves codec clock)) (fun _ _ => True)
      (fun _ mem' s' => Marks cfg path clock.now mem mem' s'.2)
      (fun e mem' s' => e = .outOfFuel ∨ Marks cfg path clock.now mem mem' s'.2)
      (contents.write cfg fuel path) mem (t, []) := by
  cases contents with
  | text contents => exact overwrite_logged fuel (o := .writeTextFile path contents) nofun
  | bytes contents => exact overwrite_logged fuel (o := .writeFile path contents) nofun

/-- A removal clears the mark of its path, as normalized. -/
theorem remove_logged (recursive : Bool) :
    Meets (Logged (Backend.Serves codec clock)) (fun _ _ => True)
      (fun _ mem' _ => ∃ normalized, normalizePath path = .ok normalized ∧ mem' = mem.erase normalized)
      (fun _ mem' s' => (mem' = mem ∧ s'.2 = []) ∨
        ∃ normalized, normalizePath path = .ok normalized ∧ mem' = mem.erase normalized)
      (remove cfg path recursive) mem (t, []) := by
  rw [remove, meets_bind]
  refine meets_pathResult_logged (fun normalized hnormal => ?_) fun _ _ => .inl ⟨rfl, rfl⟩
  rw [meets_bind, meets_update]
  refine (show Adds codec clock _ _ t [] from ?_).imp (fun _ mem' _ h => ?_) fun _ mem' _ h => ?_
  · apply (adds_inner _).bind
    intro _ t₁ calls₁
    apply (adds_pathResult _).bind
    intro versioned t₂ calls₂
    split
    · apply (adds_pathResult _).bind
      intro place t₃ calls₃
      cases place with
      | none => exact adds_pure ()
      | some dir =>
          apply (adds_inner (.exists dir)).bind
          intro there t₄ calls₄
          split
          · exact adds_inner _
          · exact adds_pure ()
    · exact adds_pure ()
  · exact ⟨normalized, hnormal, h.1⟩
  · exact .inr ⟨normalized, hnormal, h.1⟩

end Writes

/-- What keeps the marks honest at a step: a write spells its path as it is normalized,
the clock shows at least the interval where there is no mark yet, a path that is to be
versioned has a directory for versions, no call fails between the mark and the version,
and what is removed is without a mark or is the path of the removal. -/
structure Careful (cfg : Config) (s : Store) (e : Event) : Prop where
  spelled : ∀ path contents, e.request = .write path contents → normalizePath path = .ok path
  late : ∀ path contents, e.request = .write path contents → s.last.lookup path = none →
    cfg.minInterval ≤ e.clock.now
  placed : ∀ path contents, e.request = .write path contents → cfg.shouldVersion path = .ok true →
    ∃ dir, versionDirFor cfg path = .ok (some dir)
  stores : ∀ path contents, e.request = .write path contents → ¬ Lost cfg path e.calls
  clears : ∀ key time segs, s.last.lookup key = some time → pathSegments key = .ok segs →
    Removes e.calls segs →
    ∃ path recursive, e.request = .remove path recursive ∧ normalizePath path = .ok key

/-- Every mark is of a normalized path that had a version stored at its time, and was not
removed since. -/
def Honest (cfg : Config) (events : List Event) (s : Store) : Prop :=
  ∀ key time, s.last.lookup key = some time →
    ∃ segs, pathSegments key = .ok segs ∧ StoredSince cfg events segs time

section Runs

variable {codec : TextCodec} {cfg : Config} {s s' : Store} {e : Event} {events : List Event}

theorem StoredSince.concat {segs : List Text} {time : ℤ} (h : StoredSince cfg events segs time)
    (hkept : ¬ Removes e.calls segs) : StoredSince cfg (events ++ [e]) segs time := by
  obtain ⟨pre, e', post, path, contents, rfl, hrequest, hpath, hstored, htime, hpost⟩ := h
  refine ⟨pre, e', post ++ [e], path, contents, by simp, hrequest, hpath, hstored, htime, ?_⟩
  intro e'' he''
  rcases List.mem_append.mp he'' with hbefore | hlast
  · exact hpost e'' hbefore
  · rwa [List.mem_singleton.mp hlast]

/-- What a write that is served does to the mark of its path. -/
theorem Serves.marks {path : Text} {contents : Contents} (h : Serves codec cfg s e s')
    (hrequest : e.request = .write path contents) :
    Marks cfg path e.clock.now s.last s'.last e.calls := by
  rw [Serves, hrequest] at h
  obtain ⟨fuel, out, hfuel, hexec⟩ := h
  have hout := (write_logged fuel contents).steps hexec
  cases out with
  | error err => exact hout.resolve_left fun heq => hfuel (by rw [heq])
  | ok _ => exact hout

theorem Honest.serve (h : Honest cfg events s) (hstep : Serves codec cfg s e s')
    (hcareful : Careful cfg s e) : Honest cfg (events ++ [e]) s' := by
  cases hrequest : e.request with
  | write path contents =>
      have hold : ∀ key time, s.last.lookup key = some time →
          ∃ segs, pathSegments key = .ok segs ∧ StoredSince cfg (events ++ [e]) segs time := by
        intro key time hmark
        obtain ⟨segs, hsegs, hsince⟩ := h key time hmark
        refine ⟨segs, hsegs, hsince.concat fun hremoves => ?_⟩
        obtain ⟨_, _, hremove, -⟩ := hcareful.clears key time segs hmark hsegs hremoves
        rw [hrequest] at hremove
        cases hremove
      rcases hstep.marks hrequest with ⟨hmem, -⟩ | ⟨hmem, hversioned, -, hleft⟩
      · rw [Honest, hmem]
        exact hold
      · intro key time hmark
        rw [hmem, lookup_insert_eq] at hmark
        split at hmark
        next hkey =>
          subst hkey
          cases hmark
          obtain ⟨segs, hnames, heq⟩ := normalizePath_eq_ok (hcareful.spelled key contents hrequest)
          have hsegs : pathSegments key = .ok segs := by rw [heq, pathSegments_render hnames]
          have hstored : Stored cfg key e.calls := by
            rcases hleft with hstored | hlost | hnone
            · exact hstored
            · exact absurd hlost (hcareful.stores key contents hrequest)
            · obtain ⟨dir, hdir⟩ := hcareful.placed key contents hrequest hversioned
              exact absurd hdir (hnone dir)
          exact ⟨segs, hsegs, events, e, [], key, contents, rfl, hrequest, hsegs, hstored, rfl, nofun⟩
        next => exact hold key time hmark
  | remove path recursive =>
      rw [Serves, hrequest] at hstep
      obtain ⟨out, hexec⟩ := hstep
      have hout := (remove_logged recursive).steps hexec
      have hcases : (s'.last = s.last ∧ e.calls = []) ∨
          ∃ normalized, normalizePath path = .ok normalized ∧ s'.last = s.last.erase normalized := by
        cases out with
        | error err => exact hout
        | ok _ => exact .inr hout
      intro key time hmark
      have hbefore : s.last.lookup key = some time ∧
          (e.calls = [] ∨ normalizePath path ≠ .ok key) := by
        rcases hcases with ⟨hmem, hcalls⟩ | ⟨normalized, hnormal, hmem⟩
        · exact ⟨hmem ▸ hmark, .inl hcalls⟩
        · rw [hmem] at hmark
          have hne : key ≠ normalized := by
            rintro rfl
            simp at hmark
          rw [AList.lookup_erase_ne hne] at hmark
          refine ⟨hmark, .inr fun heq => hne ?_⟩
          rw [hnormal] at heq
          exact (Except.ok.inj heq).symm
      obtain ⟨segs, hsegs, hsince⟩ := h key time hbefore.1
      refine ⟨segs, hsegs, hsince.concat fun hremoves => ?_⟩
      rcases hbefore.2 with hnone | hother
      · obtain ⟨_, _, _, hmem, -⟩ := hremoves
        rw [hnone] at hmem
        exact List.not_mem_nil hmem
      · obtain ⟨path', recursive', hremove, hclears⟩ :=
          hcareful.clears key time segs hbefore.1 hsegs hremoves
        rw [hrequest] at hremove
        cases hremove
        exact hother hclears

end Runs

/-- In a run of careful steps, a write that is throttled has a version of its path stored
less than the interval before, and nothing removed the path since. -/
theorem throttled_stored (codec : TextCodec) (cfg : Config) (t : Tree) (events : List Event) (e : Event)
    (path : Text) (contents : Contents) (s s' : Store)
    (hrun : Runs (fun s e s' => Serves codec cfg s e s' ∧ Careful cfg s e) ⟨∅, t⟩ events s)
    (hstep : Serves codec cfg s e s') (hcareful : Careful cfg s e)
    (hrequest : e.request = .write path contents) (hthrottled : Throttled path e.calls) :
    ∃ segs time, pathSegments path = .ok segs ∧ StoredSince cfg events segs time ∧
      e.clock.now - time < cfg.minInterval := by
  have hhonest : Honest cfg events s := by
    refine hrun.history (fun _ _ _ _ hpre hstep => hpre.serve hstep.1 hstep.2) fun key time hmark => ?_
    simp at hmark
  obtain ⟨hasked, hunread⟩ := hthrottled
  rcases hstep.marks hrequest with ⟨-, hskips⟩ | ⟨-, -, ⟨answer, hread⟩, -⟩
  · obtain ⟨-, hrecent⟩ := hskips hasked
    cases hmark : s.last.lookup path with
    | none =>
        rw [hmark] at hrecent
        have hlate := hcareful.late path contents hrequest hmark
        have hzero : e.clock.now - 0 < cfg.minInterval := hrecent
        omega
    | some time =>
        rw [hmark] at hrecent
        obtain ⟨segs, hsegs, hsince⟩ := hhonest path time hmark
        exact ⟨segs, time, hsegs, hsince, hrecent⟩
  · exact absurd hread (hunread answer)

section Sample

/-- A world in which the calls of a kind fail, with its log. -/
def failing (fails : StorageOp → Bool) (clock : Clock) (o : StorageOp) (s : Tree × Calls) :
    StorageAns o × (Tree × Calls) :=
  if fails o then (.error (.dom .other), s.1, s.2 ++ [⟨o, .error (.dom .other)⟩])
  else
    ((respond latin clock o s.1).1, (respond latin clock o s.1).2,
      s.2 ++ [⟨o, (respond latin clock o s.1).1⟩])

theorem logged_of_failing {fails : StorageOp → Bool} {clock : Clock} (hnow : fails .now = false)
    {s s' : Tree × Calls} {o : StorageOp} {ans : StorageAns o}
    (h : Responds (failing fails clock) s o ans s') : Logged (Backend.Serves latin clock) s o ans s' := by
  have hans : failing fails clock o s = (ans, s') := h
  rw [failing] at hans
  split at hans
  next hfails =>
    cases hans
    refine ⟨.failed s.1 o _ ?_, rfl⟩
    rintro rfl
    rw [hnow] at hfails
    cases hfails
  next =>
    cases hans
    exact ⟨.served s.1 o, rfl⟩

/-- The write of a text over the note at a time, in such a world. -/
def noteWrite (fails : StorageOp → Bool) (time : ℤ) (text : String) (s : Store) :
    (Except VersionError Unit × LastSnapshotAt) × (Tree × Calls) :=
  eval (failing fails ⟨time, fun _ => none⟩) (((Contents.text text).write defaults 1 notePath).call s.last)
    (s.tree, [])

def noteEvent (fails : StorageOp → Bool) (time : ℤ) (text : String) (s : Store) : Event :=
  ⟨.write notePath (.text text), ⟨time, fun _ => none⟩, (noteWrite fails time text s).2.2⟩

def noteStore (fails : StorageOp → Bool) (time : ℤ) (text : String) (s : Store) : Store :=
  ⟨(noteWrite fails time text s).1.2, (noteWrite fails time text s).2.1⟩

theorem noteEvent_serves (fails : StorageOp → Bool) (hnow : fails .now = false) (time : ℤ)
    (text : String) (s : Store) (hout : (noteWrite fails time text s).1.1 ≠ .error .outOfFuel) :
    Serves latin defaults s (noteEvent fails time text s) (noteStore fails time text s) := by
  refine ⟨1, (noteWrite fails time text s).1.1, hout, ?_⟩
  exact Steps.mono (fun _ _ _ _ hans => logged_of_failing hnow hans) (exec_eval _ _ _)

def noFailure : StorageOp → Bool := fun _ => false

/-- Reading the bytes of a file fails. -/
def readsFail : StorageOp → Bool
  | .readFile _ => true
  | _ => false

/-- A call that went through and removes nothing. -/
def quiet (c : Call StorageOp StorageAns) : Bool :=
  c.2.isOk && match c.1 with
    | .remove _ _ => false
    | _ => true

theorem careful_of_quiet {s : Store} {e : Event} {text : String}
    (hrequest : e.request = .write notePath (.text text)) (hquiet : e.calls.all quiet = true)
    (hlate : s.last.lookup notePath = none → 30000 ≤ e.clock.now) : Careful defaults s e := by
  have hall := List.all_eq_true.mp hquiet
  have hpath : ∀ path contents, e.request = .write path contents → path = notePath := by
    intro path contents h
    rw [hrequest] at h
    cases h
    rfl
  constructor
  · intro path contents h
    rw [hpath path contents h]
    rfl
  · intro path contents h
    rw [hpath path contents h]
    exact hlate
  · intro path contents h _
    rw [hpath path contents h]
    exact ⟨_, rfl⟩
  · rintro path contents - ⟨o, err, hmem, -⟩
    cases hall _ hmem
  · rintro key time segs - - ⟨p, recursive, l, hmem, -⟩
    cases hall _ hmem

/-- A call that does not read a file. -/
def unread (c : Call StorageOp StorageAns) : Bool :=
  match c.1 with
  | .readFile _ => false
  | _ => true

/-- A call that does not write the bytes of a file. -/
def unstored (c : Call StorageOp StorageAns) : Bool :=
  match c.1 with
  | .writeFile _ _ => false
  | _ => true

/-- A call that asks the clock. -/
def asksClock (c : Call StorageOp StorageAns) : Bool :=
  match c.1 with
  | .now => true
  | _ => false

theorem throttled_of_unread {path : Text} {calls : Calls} (hasked : calls.any asksClock = true)
    (hunread : calls.all unread = true) : Throttled path calls := by
  obtain ⟨⟨o, ans⟩, hmem, hnow⟩ := List.any_eq_true.mp hasked
  have ho : o = .now := by
    cases o with
    | now => rfl
    | _ => cases hnow
  subst ho
  refine ⟨⟨ans, hmem⟩, fun answer hmem => ?_⟩
  cases List.all_eq_true.mp hunread _ hmem

theorem not_stored_of_unstored {cfg : Config} {path : Text} {calls : Calls}
    (h : calls.all unstored = true) : ¬ Stored cfg path calls := by
  rintro ⟨dir, time, contents, -, hmem⟩
  cases List.all_eq_true.mp h _ hmem

def firstNote : Store := noteStore noFailure 40000 "b" freshNote

/-- A second after a snapshot was stored, the next one is skipped. -/
theorem note_throttled : ∃ segs time, pathSegments notePath = .ok segs ∧
    StoredSince defaults [noteEvent noFailure 40000 "b" freshNote] segs time ∧
    41000 - time < defaults.minInterval := by
  have hfirst := noteEvent_serves noFailure rfl 40000 "b" freshNote nofun
  have hsecond := noteEvent_serves noFailure rfl 41000 "c" firstNote nofun
  have hcareful : Careful defaults freshNote (noteEvent noFailure 40000 "b" freshNote) :=
    careful_of_quiet rfl rfl fun _ => by decide
  have hcareful' : Careful defaults firstNote (noteEvent noFailure 41000 "c" firstNote) :=
    careful_of_quiet rfl rfl fun _ => by decide
  have hthrottled : Throttled notePath (noteEvent noFailure 41000 "c" firstNote).calls :=
    throttled_of_unread (by decide +kernel) (by decide +kernel)
  exact throttled_stored latin defaults freshNote.tree [noteEvent noFailure 40000 "b" freshNote]
    (noteEvent noFailure 41000 "c" firstNote) notePath (.text "c") firstNote _
    (.single ⟨hfirst, hcareful⟩) hsecond hcareful' rfl hthrottled

/-- After a snapshot whose reading failed, the next one is skipped although there is
no version. -/
theorem failed_snapshot_throttles : ∃ (e₁ e₂ : Event) (s s' : Store),
    Runs (Serves latin defaults) freshNote [e₁] s ∧ Serves latin defaults s e₂ s' ∧
      e₂.request = .write notePath (.text "c") ∧ Throttled notePath e₂.calls ∧
      ∀ time, ¬ StoredSince defaults [e₁] noteSegments time := by
  let s := noteStore readsFail 40000 "b" freshNote
  have hfirst := noteEvent_serves readsFail rfl 40000 "b" freshNote nofun
  have hsecond := noteEvent_serves noFailure rfl 41000 "c" s nofun
  have hunstored : (noteEvent readsFail 40000 "b" freshNote).calls.all unstored = true := by
    decide +kernel
  refine ⟨noteEvent readsFail 40000 "b" freshNote, noteEvent noFailure 41000 "c" s, s,
    noteStore noFailure 41000 "c" s, .single hfirst, hsecond, rfl, ?_, ?_⟩
  · exact throttled_of_unread (by decide +kernel) (by decide +kernel)
  · rintro time ⟨pre, e, post, path, contents, hsplit, -, -, hstored, -⟩
    have he : e = noteEvent readsFail 40000 "b" freshNote := by
      have hin : e ∈ [noteEvent readsFail 40000 "b" freshNote] := by simp [hsplit]
      exact List.mem_singleton.mp hin
    subst he
    exact not_stored_of_unstored hunstored hstored

end Sample

end Tactile.Storage.Throttle

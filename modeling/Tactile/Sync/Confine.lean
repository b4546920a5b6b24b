import Tactile.Sync.Merge
import Tactile.Sync.Walk

/-!
Which files a run changes: those that the merge names, whether inside of the
collection or not, and its own state.
-/

namespace Tactile.Sync.Confine

open Tactile.Lib.Program Tactile.Lib.Script Tactile.Lib.FiniteMap
open Tactile.Storage.Paths Tactile.Storage.Idb Tactile.Storage.Opfs Tactile.Storage.Backend
open Tactile.Sync.Records Tactile.Sync.SyncNow Tactile.Sync.Merge Tactile.Sync.Untrusted
open Tactile.Sync.Walk

variable {D P : Type}

/-- A place strictly below the collection that is not internal. -/
def Inside (collection : Text) (l : List Text) : Prop :=
  ∃ root rest, pathSegments collection = .ok root ∧ l = root ++ rest ∧ rest ≠ [] ∧
    isInternal rest = false

/-- The place of the run's own record of the last sync. -/
def IsStateFile (collection : Text) (l : List Text) : Prop :=
  Names l ∧ joinPath [collection, syncStateFile] = .ok (render l)

/-- The files that are not inside of the collection are as they were, the run's own
record aside. -/
def KeptOutside (collection : Text) (t t' : Tree) : Prop :=
  ∀ l, ¬ Inside collection l → ¬ IsStateFile collection l → ∀ contents,
    t'.lookup l = some (.file contents) ↔ t.lookup l = some (.file contents)

theorem KeptOutside.refl (collection : Text) (t : Tree) : KeptOutside collection t t :=
  fun _ _ _ _ => Iff.rfl

theorem KeptOutside.trans {collection : Text} {t t' t'' : Tree} (h : KeptOutside collection t t')
    (h' : KeptOutside collection t' t'') : KeptOutside collection t t'' :=
  fun l hin hstate contents => (h' l hin hstate contents).trans (h l hin hstate contents)

theorem keptOutside_of_same {collection : Text} {t t' : Tree} (h : SameFiles t t') :
    KeptOutside collection t t' :=
  fun l _ _ contents => h l contents

section Calls

variable {collection : Text}

/-- The calls that change no file outside. -/
def Harmless (collection : Text) : SyncOp D P → Prop
  | .storage (.writeFile path _) => ∃ l, Names l ∧ path = render l ∧ Inside collection l
  | .storage (.writeTextFile path _) => ∃ l, path = render l ∧ IsStateFile collection l
  | .storage (.remove path recursive) =>
    recursive = false ∧ ∃ l, Names l ∧ path = render l ∧ Inside collection l
  | .storage (.rename _ _) => False
  | _ => True

theorem keptOutside_write {t : Tree} {l : List Text} (hl : Inside collection l ∨ IsStateFile collection l)
    (contents : Bytes) : KeptOutside collection t (writeFileAt t l contents).2 := by
  rw [writeFileAt]
  split_ifs
  · exact .refl collection t
  · exact .refl collection t
  · intro p hin hstate contents'
    rw [lookup_insert_eq, if_neg]
    rintro rfl
    exact hl.elim hin hstate

/-- A removal that is not recursive takes one entry out. -/
theorem keptOutside_remove {t : Tree} (hv : t.Valid) {l : List Text} (hl : Inside collection l) :
    KeptOutside collection t (removeAt t l false).2 := by
  rw [removeAt]
  split_ifs with hroot hnone hfull
  · exact .refl collection t
  · exact .refl collection t
  · exact .refl collection t
  · intro p hin _ contents
    rw [lookup_removed]
    split
    next hpre =>
      refine ⟨(fun hstored => by cases hstored), fun hstored => absurd ?_ hfull⟩
      obtain ⟨rest, rfl⟩ := hpre
      cases rest with
      | nil =>
          rw [List.append_nil] at hin
          exact absurd hl hin
      | cons s rest =>
          refine ⟨rfl, fun hnil => ?_⟩
          have hchild := children_eq_nil.mp hnil s
          rw [show l ++ s :: rest = (l ++ [s]) ++ rest by simp, free_below hv hchild (by simp)] at hstored
          cases hstored
    next => exact Iff.rfl

variable {may : (o : RelayOp D P) → RelayAns D P o → Prop} {codec : TextCodec} {clock : Clock}

theorem Harmless.kept {t t' : Tree} {o : SyncOp D P} {ans : SyncAns D P o} (hv : t.Valid)
    (h : Harmless collection o) (hans : World may codec clock t o ans t') :
    KeptOutside collection t t' := by
  have hread : ∀ {α : Type} (path : Text) (f : List Text → Except Failure α),
      KeptOutside collection t (reading t path f).2 := by
    intro α path f
    rw [reading_snd]
    exact .refl collection t
  cases hans with
  | relay => exact .refl collection t
  | storage _ _ o _ hserves =>
      cases hserves with
      | failed => exact .refl collection t
      | served =>
          cases o with
          | readDir path => exact hread path _
          | readTextFile path => exact hread path _
          | readFile path => exact hread path _
          | stat path => exact hread path _
          | «exists» path => exact hread path _
          | now => exact .refl collection t
          | rename fromPath toPath => exact h.elim
          | writeTextFile path contents =>
              obtain ⟨l, rfl, hstate⟩ := h
              rw [respond, writing_ok (pathSegments_render hstate.1)]
              exact keptOutside_write (.inr hstate) _
          | writeFile path contents =>
              obtain ⟨l, hl, rfl, hin⟩ := h
              rw [respond, writing_ok (pathSegments_render hl)]
              exact keptOutside_write (.inl hin) _
          | mkdir path recursive =>
              refine keptOutside_of_same ?_
              rw [respond, writing]
              split
              · exact .refl t
              · exact sameFiles_mkdirAt t _ _
          | remove path recursive =>
              obtain ⟨rfl, l, hl, rfl, hin⟩ := h
              rw [respond, writing_ok (pathSegments_render hl)]
              exact keptOutside_remove hv hin

theorem valid_world {t t' : Tree} {o : SyncOp D P} {ans : SyncAns D P o} (hv : t.Valid)
    (hans : World may codec clock t o ans t') : t'.Valid := by
  cases hans with
  | relay => exact hv
  | storage _ _ _ _ hserves => exact valid_serves hserves hv

/-- A run of harmless calls keeps the files outside. -/
theorem keptOutside_steps {α : Type} {p q : SyncProg D P α} {Q : α → Tree → Prop} {t t' : Tree}
    (hv : t.Valid) (h : Holds (World may codec clock) (fun _ o => Harmless collection o) Q p t)
    (hs : Steps (World may codec clock) t p t' q) : KeptOutside collection t t' := by
  have hinv : t'.Valid ∧ KeptOutside collection t t' := by
    refine h.invariant (I := fun s => s.Valid ∧ KeptOutside collection t s) ?_ hs
      ⟨hv, .refl collection t⟩
    intro s o ans s' hs hharmless hans
    exact ⟨valid_world hs.1 hans, hs.2.trans (hharmless.kept hs.1 hans)⟩
  exact hinv.2

end Calls

section Gathering

variable {collection : Text} {C : Crypto D P}
variable {may : (o : RelayOp D P) → RelayAns D P o → Prop} {codec : TextCodec} {clock : Clock}
variable {m : Merge D} {t : Tree}

/-- What a run knows before it merges, from a tree and from what the relay may say. -/
structure Found (may : (o : RelayOp D P) → RelayAns D P o → Prop) (C : Crypto D P)
    (collection : Text) (g : Gathered D) : Prop where
  walked : AllWalked collection g.locals
  fetched : g.remote.files = ∅ ∨ ∃ payload,
    may (.get (manifestId C (collectionKey collection))) (.ok (some payload)) ∧
      openManifest C payload = some g.remote

theorem loadLocalState_reads (E : SyncError → Merge D → Tree → Prop) :
    Meets (World may codec clock) (fun _ o => Harmless collection o)
      (fun _ m' t' => m' = m ∧ t' = t) E (loadLocalState C collection) m t := by
  have hread : Meets (World may codec clock) (fun _ o => Harmless collection o)
      (fun _ m' t' => m' = m ∧ t' = t) (fun _ m' t' => m' = m ∧ t' = t)
      (do
        let file ← pathResult (joinPath [collection, syncStateFile])
        store (.readTextFile file) : SyncMethod D P String) m t := by
    rw [meets_bind]
    refine meets_path (fun file _ => ?_) fun e _ => ⟨rfl, rfl⟩
    have hsame : ∀ ans t', respond codec clock (.readTextFile file) t = (ans, t') → t' = t :=
      fun ans t' hans => (congrArg Prod.snd hans).symm.trans (reading_snd _)
    refine meets_stored (o := .readTextFile file) trivial (fun _ t' hans => ⟨rfl, hsame _ _ hans⟩)
      fun e t' hans => ⟨rfl, hans.elim id (hsame _ _)⟩
  rw [loadLocalState, meets_bind, meets_outcome]
  exact hread.imp (fun _ _ _ h => h) fun _ _ _ h => h

theorem fetchManifest_fetches (id : D) :
    Meets (World may codec clock) (fun _ o => Harmless collection o)
      (fun fetched m' t' => m' = m ∧ t' = t ∧ ∀ manifest, fetched = some manifest →
        ∃ payload, may (.get id) (.ok (some payload)) ∧ openManifest C payload = some manifest)
      (fun _ _ t' => t' = t) (fetchManifest C id) m t := by
  rw [fetchManifest, meets_bind]
  refine meets_request (o := .get id) trivial (fun blob hblob => ⟨rfl, rfl, ?_⟩) fun _ _ => rfl
  intro manifest hopen
  obtain ⟨payload, rfl, hopen⟩ := Option.bind_eq_some_iff.mp hopen
  exact ⟨payload, hblob, hopen⟩

theorem gather_found [DecidableEq D] (hv : t.Valid) (depth : ℕ) :
    Meets (World may codec clock) (fun _ o => Harmless collection o)
      (fun g _ t' => t' = t ∧ Found may C collection g) (fun _ _ t' => t' = t)
      (gather C collection depth) m t := by
  rw [gather, meets_bind, meets_outcome]
  have hrest : ∀ info : Except SyncError (Option ℤ),
      Meets (World may codec clock) (fun _ o => Harmless collection o)
        (fun g _ t' => t' = t ∧ Found may C collection g) (fun _ _ t' => t' = t) (do
          let maxFile := min ((info.toOption.bind fun size => size).getD maxFileBytes) maxFileBytes
          let fetched ← fetchManifest C (manifestId C (collectionKey collection))
          let state ← loadLocalState C collection
          let locals ← walkCollection C collection maxFile depth
          let now : ℤ ← store .now
          pure { remote := fetched.getD ⟨0, ∅⟩, state := state, locals := locals, now := now }
          : SyncMethod D P (Gathered D)) m t := by
    intro info
    dsimp only
    rw [meets_bind]
    refine (fetchManifest_fetches _).imp (fun fetched m' t' h => ?_) fun _ _ _ h => h
    obtain ⟨rfl, rfl, hfetched⟩ := h
    rw [meets_bind]
    refine (loadLocalState_reads _).imp (fun state m' t' h => ?_) fun _ _ _ h => h
    obtain ⟨rfl, rfl⟩ := h
    rw [meets_bind]
    have hadmits : Admits (P := P) (D := D) (fun _ o => Harmless collection o) t' :=
      fun path => ⟨trivial, trivial, trivial⟩
    refine (walkCollection_finds hv hadmits depth m').imp (fun locals m' t' h => ?_) fun _ _ _ h => h
    obtain ⟨rfl, hwalked⟩ := h
    rw [meets_bind]
    refine meets_stored (o := .now) trivial (fun now t₁ hans => ?_) fun e t₁ hans => ?_
    · cases hans
      refine ⟨rfl, hwalked, ?_⟩
      cases fetched with
      | none => exact .inl rfl
      | some manifest => exact .inr (hfetched manifest rfl)
    · rcases hans with rfl | hans
      · rfl
      · cases hans
  exact meets_request (o := .info) trivial (fun info _ => hrest (.ok info)) fun e _ => hrest _

end Gathering

section Merging

variable {collection : Text} {C : Crypto D P}

/-- What is downloaded to an absent path has a place inside, and the manifest wins
no conflict at `.tactile/daily`. -/
structure Confined [DecidableEq D] (collection : Text) (g : Gathered D) : Prop where
  downloads : ∀ rel r, g.remote.files.lookup rel = some r → r.d = false →
    g.locals.lookup rel = none → changed (g.state.files.lookup rel) r.h → ∀ l, Names l →
    joinPath [collection, rel] = .ok (render l) → Inside collection l
  copies : ∀ l r s, g.locals.lookup ".tactile/daily".toList = some l →
    g.remote.files.lookup ".tactile/daily".toList = some r → r.d = false → l.hash ≠ r.h →
    g.state.files.lookup ".tactile/daily".toList = s → changed s l.hash → changed s r.h →
    ¬ l.mtime < r.m

theorem placeAt_harmless {rel : Text} (data : Except SyncError Bytes)
    (h : ∀ l, Names l → joinPath [collection, rel] = .ok (render l) → Inside collection l) :
    (placeAt collection rel data : SyncProg D P PathOutcome).Only (Harmless collection) := by
  rw [placeAt]
  cases hjoin : joinPath [collection, rel] with
  | error e => exact trivial
  | ok abs =>
      obtain ⟨l, hl, rfl⟩ := joinPath_eq_ok hjoin
      unfold placeFile
      dsimp only
      rw [parentPath_render hl]
      refine ⟨trivial, fun made => ?_⟩
      rcases made with e | ⟨⟩
      · cases data <;> exact trivial
      · cases data with
        | error e => exact trivial
        | ok bytes => exact ⟨⟨l, hl, rfl, h l hl hjoin⟩, fun _ => trivial⟩

theorem getFile_harmless {rel : Text} (r : RemoteFileEntry D)
    (h : ∀ l, Names l → joinPath [collection, rel] = .ok (render l) → Inside collection l) :
    (getFile C collection r rel).Only (Harmless collection) := by
  refine ⟨trivial, fun ans => ?_⟩
  rcases ans with e | _ | payload
  · exact trivial
  · exact trivial
  · exact placeAt_harmless _ h

/-- A file that was walked has its place inside. -/
theorem walked_inside {rel : Text} {l : LocalFile D} {root segments : List Text}
    (h : Walked collection rel l root segments) : Inside collection (root ++ segments) :=
  ⟨root, segments, h.collection_eq, rfl, h.nonempty, h.notInternal⟩

theorem joinPath_relText {root segments : List Text} (hroot : pathSegments collection = .ok root)
    (hnames : Names segments) (hne : segments ≠ []) :
    joinPath [collection, relText segments] = .ok (render (root ++ segments)) := by
  rw [joinPath_pair]
  exact normalizePath_of_pathSegments (pathSegments_below hroot hnames hne)

theorem walked_download {rel : Text} {l : LocalFile D} {root segments : List Text}
    (h : Walked collection rel l root segments) {p : List Text} (hp : Names p)
    (hjoin : joinPath [collection, rel] = .ok (render p)) : Inside collection p := by
  rw [h.rel, joinPath_relText h.collection_eq h.names h.nonempty] at hjoin
  have hnames : Names (root ++ segments) := fun s hs => (List.mem_append.mp hs).elim
    (names_of_pathSegments h.collection_eq s) (h.names s)
  rw [← render_inj hnames hp (Except.ok.inj hjoin)]
  exact walked_inside h

/-- The conflict copy of a file other than `.tactile/daily` has its place inside. -/
theorem walked_copy {rel : Text} {l : LocalFile D} {root segments : List Text}
    (h : Walked collection rel l root segments) (hrel : rel ≠ ".tactile/daily".toList) (now : ℤ)
    {p : List Text} (hp : Names p)
    (hjoin : joinPath [collection, conflictPath rel now] = .ok (render p)) : Inside collection p := by
  rcases List.eq_nil_or_concat segments with hnil | ⟨init, name, hsegments⟩
  · exact absurd hnil h.nonempty
  rw [List.concat_eq_append] at hsegments
  subst hsegments
  have hname : IsName name := h.names name (by simp)
  obtain ⟨name', hpath, hname', hblank⟩ := conflictPath_relText hname now
  have hnames : Names (init ++ [name']) := by
    intro s hs
    rcases List.mem_append.mp hs with hs | hs
    · exact h.names s (List.mem_append_left _ hs)
    · exact List.mem_singleton.mp hs ▸ hname'
  rw [h.rel, hpath, joinPath_relText h.collection_eq hnames (by simp)] at hjoin
  have hall : Names (root ++ (init ++ [name'])) := fun s hs => (List.mem_append.mp hs).elim
    (names_of_pathSegments h.collection_eq s) (hnames s)
  refine ⟨root, init ++ [name'], h.collection_eq, (render_inj hall hp (Except.ok.inj hjoin)).symm,
    by simp, ?_⟩
  have hother : ∀ s : Text, ' ' ∉ s → s ≠ name' := by
    rintro s hs rfl
    exact hs hblank
  by_cases hmem : tactileDir ∈ init
  · have hhead := h.entered (List.mem_append_left _ hmem)
    cases init with
    | nil => cases hmem
    | cons first init =>
        cases hhead
        have hin := h.notInternal
        have htop : tactileDir = ".tactile".toList := rfl
        rw [List.cons_append, isInternal_cons, if_pos htop] at hin ⊢
        cases init with
        | nil =>
            have hdaily : name = "daily".toList := by simpa using hin
            rw [hdaily] at h
            exact absurd h.rel hrel
        | cons second init => exact hin
  · refine isInternal_of_notMem fun hlast => ?_
    rcases List.mem_append.mp hlast with hlast | hlast
    · exact hmem hlast
    · exact hother _ (by decide) (List.mem_singleton.mp hlast)

theorem effects_both [DecidableEq D] {g : Gathered D} (hconf : Confined collection g)
    {rel : Text} {l : LocalFile D} {r : RemoteFileEntry D} (hl : g.locals.lookup rel = some l)
    (hr : g.remote.files.lookup rel = some r) {root segments : List Text}
    (hwalked : Walked collection rel l root segments) (hlive : r.d = false) :
    (effects C collection g.now rel (decision g.now (some l) (some r)
      (g.state.files.lookup rel))).Only (Harmless collection) := by
  have hput : ∀ l : LocalFile D, (putFile C collection l).Only (Harmless collection) :=
    fun _ => ⟨trivial, fun _ => trivial⟩
  have hget := getFile_harmless (C := C) r fun p hp hjoin => walked_download hwalked hp hjoin
  rw [decision, hlive, if_neg Bool.false_ne_true]
  split
  next => exact trivial
  next hhash =>
    split
    next hlocal =>
      split
      next => exact hput l
      next hremote =>
        split
        next hlater =>
          have hrel : rel ≠ ".tactile/daily".toList := by
            rintro rfl
            exact hconf.copies l r _ hl hr hlive hhash rfl hlocal (by simpa using hremote) hlater
          refine (placeAt_harmless _ fun p hp hjoin =>
            walked_copy hwalked hrel g.now hp hjoin).bind fun copied => ?_
          rcases copied with e | ⟨⟩
          · exact trivial
          · exact hget
        next => exact hput l
    next =>
      split
      next => exact hget
      next => exact trivial

/-- What a run does for a path is harmless where it is confined. -/
theorem effects_harmless [DecidableEq D] {g : Gathered D} (hwalked : AllWalked collection g.locals)
    (hconf : Confined collection g) (rel : Text) :
    (effects C collection g.now rel (decision g.now (g.locals.lookup rel)
      (g.remote.files.lookup rel) (g.state.files.lookup rel))).Only (Harmless collection) := by
  have hput : ∀ l : LocalFile D, (putFile C collection l).Only (Harmless collection) :=
    fun _ => ⟨trivial, fun _ => trivial⟩
  cases hl : g.locals.lookup rel with
  | none =>
      cases hr : g.remote.files.lookup rel with
      | none => exact trivial
      | some r =>
          rw [decision]
          cases hlive : r.d with
          | true =>
              rw [if_pos rfl]
              split <;> exact trivial
          | false =>
              rw [if_neg Bool.false_ne_true]
              split
              next hchanged =>
                exact getFile_harmless r fun p hp hjoin =>
                  hconf.downloads rel r hr hlive hl hchanged p hp hjoin
              next => exact trivial
  | some l =>
      obtain ⟨root, segments, hw⟩ := hwalked rel l hl
      cases hr : g.remote.files.lookup rel with
      | none => exact hput l
      | some r =>
          cases hlive : r.d with
          | false => exact effects_both hconf hl hr hw hlive
          | true =>
              rw [decision, hlive, if_pos rfl]
              split
              next => exact hput l
              next =>
                refine ⟨⟨rfl, root ++ segments, ?_, hw.abs, walked_inside hw⟩, fun _ => trivial⟩
                exact fun s hs => (List.mem_append.mp hs).elim
                  (names_of_pathSegments hw.collection_eq s) (hw.names s)

variable {may : (o : RelayOp D P) → RelayAns D P o → Prop} {codec : TextCodec} {clock : Clock}
variable {m : Merge D} {t : Tree}

theorem mergePath_harmless [DecidableEq D] {g : Gathered D}
    (hwalked : AllWalked collection g.locals) (hconf : Confined collection g) (rel : Text) :
    Meets (World may codec clock) (fun _ o => Harmless collection o) (fun _ _ _ => True)
      (fun _ _ _ => True) (mergePath C collection g.remote g.state g.locals g.now rel) m t := by
  rw [Meets, mergePath_call C collection g.now g.remote g.state g.locals rel m rfl]
  refine Holds.imp (Prog.Only.holds (I := fun _ => True) (fun _ _ _ _ _ _ _ => trivial)
    (Prog.Only.bind (effects_harmless hwalked hconf rel) fun out => ?_) trivial) fun out _ _ => ?_
  · exact trivial
  · rcases out with ⟨e | ⟨⟩, m'⟩ <;> exact trivial

theorem syncGathered_harmless [DecidableEq D] {g : Gathered D}
    (hwalked : AllWalked collection g.locals) (hconf : Confined collection g) :
    Meets (World may codec clock) (fun _ o => Harmless collection o) (fun _ _ _ => True)
      (fun _ _ _ => True) (syncGathered C collection g) m t := by
  rw [syncGathered, meets_bind, mergeAll, meets_bind, meets_update]
  refine (meets_forM _ (fun _ _ _ => True) _ _ _ trivial fun pre rel post _ m t _ =>
    mergePath_harmless hwalked hconf rel).imp (fun _ m' t' _ => ?_) fun _ _ _ _ => trivial
  rw [publish, meets_bind, meets_read, meets_bind, writeManifest, meets_bind]
  refine meets_request (o := .remove _) trivial (fun _ _ => ?_) fun _ _ => trivial
  rw [meets_bind]
  refine meets_request (o := .put _ _ _) trivial (fun _ _ => ?_) fun _ _ => trivial
  rw [meets_pure, meets_bind]
  refine (meets_forM _ (fun _ _ _ => True) (E := fun _ _ _ => True) _ _ _ trivial
    fun pre b post _ m t _ => ?_).imp (fun _ m' t' _ => ?_) fun _ _ _ _ => trivial
  · rw [meets_bind, meets_outcome]
    exact meets_request (o := .remove b) trivial (fun _ _ => trivial) fun _ _ => trivial
  · rw [saveLocalState, meets_bind]
    refine meets_path (fun file hfile => ?_) fun _ _ => trivial
    obtain ⟨l, hl, rfl⟩ := joinPath_eq_ok hfile
    exact meets_stored (o := .writeTextFile _ _) ⟨l, rfl, hl, hfile⟩ (fun _ _ _ => trivial)
      fun _ _ _ => trivial

/-- A run changes no file outside of the collection and no internal one in any state
it reaches, where the manifest it has fetched is confined. -/
theorem syncNow_keptOutside [DecidableEq D] (C : Crypto D P) (collection : Text) (depth : ℕ)
    (may : (o : RelayOp D P) → RelayAns D P o → Prop) (codec : TextCodec) (clock : Clock)
    {t t' : Tree} {q : SyncProg D P (Option SyncResult)} (hv : t.Valid)
    (hrun : Steps (World may codec clock) t (syncNow C collection depth) t' q)
    (hconf : ∀ g m,
      Exec (World may codec clock) t ((gather C collection depth).call (Merge.empty D)) (.ok g, m) t →
      Steps (World may codec clock) t
        ((fun out => some (resultOf out)) <$> (syncGathered C collection g).call m) t' q →
      Confined collection g) :
    KeptOutside collection t t' := by
  unfold syncNow at hrun
  split at hrun
  next =>
    cases hrun
    exact .refl collection t
  next =>
    have hgather : Meets (World may codec clock) (fun _ o => Harmless collection o)
        (fun g _ t' => t' = t ∧ Found may C collection g) (fun _ _ t' => t' = t)
        (gather C collection depth) (Merge.empty D) t := gather_found hv depth
    rw [syncRun, Method.call_bind, ← bind_pure_comp, Prog.bind_assoc] at hrun
    rcases hrun.of_bind with ⟨p, rfl, hsteps⟩ | ⟨⟨out, m⟩, u, hexec, hsteps⟩
    · exact keptOutside_steps hv hgather hsteps
    · cases out with
      | error e =>
          have hu : u = t := hgather.exec hexec
          cases hsteps
          rw [hu]
          exact .refl collection t
      | ok g =>
          obtain ⟨rfl, hfound⟩ : u = t ∧ Found may C collection g := hgather.exec hexec
          have hsteps' : Steps (World may codec clock) u
              ((fun out => some (resultOf out)) <$> (syncGathered C collection g).call m) t' q := by
            rw [← bind_pure_comp]
            exact hsteps
          refine keptOutside_steps (Q := fun _ _ => True) hv ?_ hsteps'
          rw [holds_map]
          exact Holds.imp (syncGathered_harmless hfound.walked (hconf g m hexec hsteps'))
            fun _ _ _ => trivial

end Merging

section Sample

/-- A relay that has a manifest of these files, and one blob of one byte 1. -/
def manifestRelay (files : Dict Text (RemoteFileEntry Symbol)) :
    (o : RelayOp Symbol (Plaintext Symbol)) → RelayAns Symbol (Plaintext Symbol) o
  | .info => .ok none
  | .get (.manifest _) => .ok (some (.json ⟨0, files⟩))
  | .get _ => .ok (some (.bytes [1]))
  | .put .. => .ok true
  | .remove _ => .ok ()

def sampleRun (files : Dict Text (RemoteFileEntry Symbol)) : Option SyncResult × Tree :=
  eval (answer (manifestRelay files) ⟨fun _ => [], fun _ => ""⟩ ⟨0, fun _ => none⟩)
    (syncNow symbols sampleCollection 2) sampleTree

theorem sampleRun_steps (files : Dict Text (RemoteFileEntry Symbol)) :
    Steps (World (fun o ans => ans = manifestRelay files o) ⟨fun _ => [], fun _ => ""⟩
      ⟨0, fun _ => none⟩) sampleTree (syncNow symbols sampleCollection 2) (sampleRun files).2
      (.ret (sampleRun files).1) :=
  Steps.mono world_of_answer (exec_eval _ _ _)

def noteFiles : Dict Text (RemoteFileEntry Symbol) := AList.insert "a.md".toList sampleEntry ∅

/-- A note of the manifest is downloaded into the collection. -/
theorem sampleRun_keptOutside :
    (sampleRun noteFiles).2.lookup ["Notes".toList, "a.md".toList] = some (.file [1]) ∧
      KeptOutside sampleCollection sampleTree (sampleRun noteFiles).2 := by
  have hwritten : (sampleRun noteFiles).2.lookup ["Notes".toList, "a.md".toList] =
      some (.file [1]) := by
    decide +kernel
  refine ⟨hwritten,
    syncNow_keptOutside _ _ _ _ _ _ (by decide) (sampleRun_steps _) fun g m hexec _ => ?_⟩
  have hfound := (gather_found (by decide) 2).exec hexec
  have hfiles : g.remote.files = ∅ ∨ g.remote.files = noteFiles := by
    rcases hfound.2.fetched with hnone | ⟨payload, hpayload, hopen⟩
    · exact .inl hnone
    · cases hpayload
      exact .inr (congrArg Manifest.files (Option.some.inj hopen)).symm
  have honly : ∀ rel r, g.remote.files.lookup rel = some r → rel = "a.md".toList := by
    intro rel r hr
    rcases hfiles with hfiles | hfiles
    · rw [hfiles] at hr
      cases hr
    · rw [hfiles, noteFiles, lookup_insert_eq] at hr
      split at hr
      next heq => exact heq
      next => cases hr
  constructor
  · intro rel r hr _ _ _ l hl hjoin
    cases honly rel r hr
    refine ⟨["Notes".toList], ["a.md".toList], rfl, ?_, by simp, by decide⟩
    exact render_inj hl (by decide) (Except.ok.inj hjoin).symm
  · intro l r s _ hr
    exact absurd (honly _ r hr) (by decide)

def settingsFiles : Dict Text (RemoteFileEntry Symbol) :=
  AList.insert ".tactile/settings.json".toList sampleEntry ∅

/-- A manifest writes an internal file. -/
theorem syncNow_internal : ¬ ∀ (C : Crypto Symbol (Plaintext Symbol)) (collection : Text) (depth : ℕ)
    (codec : TextCodec) (clock : Clock)
    (relay : (o : RelayOp Symbol (Plaintext Symbol)) → RelayAns Symbol (Plaintext Symbol) o)
    (t t' : Tree) (q : SyncProg Symbol (Plaintext Symbol) (Option SyncResult)), t.Valid →
    Steps (World (fun o ans => ans = relay o) codec clock) t (syncNow C collection depth) t' q →
    KeptOutside collection t t' := by
  intro h
  let settings : List Text := ["Notes".toList, ".tactile".toList, "settings.json".toList]
  have hkept := h _ _ _ _ _ _ _ _ _ (by decide) (sampleRun_steps settingsFiles) settings
  have hin : ¬ Inside sampleCollection settings := by
    rintro ⟨root, rest, hroot, heq, -, hinternal⟩
    have hnotes : root = ["Notes".toList] := Except.ok.inj (hroot.symm.trans rfl)
    subst hnotes
    have hrest : rest = [".tactile".toList, "settings.json".toList] := (List.cons.inj heq).2.symm
    subst hrest
    revert hinternal
    decide
  have hstate : ¬ IsStateFile sampleCollection settings := by
    rintro ⟨-, hjoin⟩
    revert hjoin
    decide
  have hwritten : (sampleRun settingsFiles).2.lookup settings = some (.file [1]) := by
    decide +kernel
  have habsent : sampleTree.lookup settings = none := by decide
  rw [(hkept hin hstate [1]).mp hwritten] at habsent
  cases habsent

end Sample

end Tactile.Sync.Confine

import Tactile.Sync.Untrusted

/-!
What a walk of the collection finds: files at paths that are not internal, below
directories that it enters.
-/

namespace Tactile.Sync.Walk

open Tactile.Lib.Program Tactile.Lib.Script Tactile.Lib.FiniteMap
open Tactile.Storage.Paths Tactile.Storage.Idb Tactile.Storage.Opfs Tactile.Storage.Backend
open Tactile.Sync.Records Tactile.Sync.SyncNow Tactile.Sync.Untrusted

variable {D P : Type}

/-- The walk enters `.tactile` at the top of the collection only. -/
def Entered (segments : List Text) : Prop :=
  tactileDir ∈ segments → segments.head? = some tactileDir

/-- A file that the walk may find at a path. -/
structure Walked (collection rel : Text) (l : LocalFile D) (root segments : List Text) : Prop where
  collection_eq : pathSegments collection = .ok root
  names : Names segments
  nonempty : segments ≠ []
  rel : rel = relText segments
  abs : l.abs = render (root ++ segments)
  notInternal : isInternal segments = false
  entered : Entered segments

/-- Everything in a map of files is found by the walk. -/
def AllWalked (collection : Text) (out : Dict Text (LocalFile D)) : Prop :=
  ∀ rel l, out.lookup rel = some l → ∃ root segments, Walked collection rel l root segments

section Rules

variable {may : (o : RelayOp D P) → RelayAns D P o → Prop} {codec : TextCodec} {clock : Clock}
variable {m : Merge D} {t : Tree} {E : SyncError → Merge D → Tree → Prop}
variable {G : Tree → SyncOp D P → Prop}

/-- A read that may fail, its failure caught. -/
theorem meets_attempted {o : StorageOp} {Q : Option (StorageVal o) → Merge D → Tree → Prop}
    (hG : G t (.storage o)) (hread : (respond codec clock o t).2 = t)
    (hQ : ∀ x, (∀ val, x = some val → respond codec clock o t = (.ok val, t)) → Q x m t) :
    Meets (World may codec clock) G Q E (attempt o) m t := by
  rw [meets_attempt]
  refine ⟨hG, fun ans t' hans => ?_⟩
  cases hans with
  | storage _ _ _ _ hserves =>
      cases ans with
      | ok val =>
          have hans := served_ok hserves
          have hsame : t' = t := (congrArg Prod.snd hans).symm.trans hread
          subst hsame
          exact hQ _ fun val' hval => by rw [hans, Option.some.inj hval]
      | error e =>
          have hsame : t' = t := by
            rcases served_error hserves with hsame | hans
            · exact hsame
            · exact (congrArg Prod.snd hans).symm.trans hread
          subst hsame
          exact hQ _ nofun

end Rules

section Walking

variable {may : (o : RelayOp D P) → RelayAns D P o → Prop} {codec : TextCodec} {clock : Clock}
variable {G : Tree → SyncOp D P → Prop} {C : Crypto D P} {maxBytes : ℤ} {t : Tree}
variable {collection : Text} {root : List Text}

/-- A walk only reads. -/
def Admits (G : Tree → SyncOp D P → Prop) (t : Tree) : Prop :=
  ∀ path, G t (.storage (.readDir path)) ∧ G t (.storage (.stat path)) ∧ G t (.storage (.readFile path))

/-- A directory on the way of the walk, by its names below the collection. -/
structure AtDir (collection absDir relDir : Text) (root segments : List Text) : Prop where
  collection_eq : pathSegments collection = .ok root
  names : Names segments
  abs : pathSegments absDir = .ok (root ++ segments)
  rel : relDir = relText segments
  entered : Entered segments

/-- What the walk of a directory does to the files found so far. -/
def Finds (may : (o : RelayOp D P) → RelayAns D P o → Prop) (codec : TextCodec) (clock : Clock)
    (G : Tree → SyncOp D P → Prop) (collection : Text) (t : Tree)
    (f : Dict Text (LocalFile D) → SyncMethod D P (Dict Text (LocalFile D))) : Prop :=
  ∀ out m, AllWalked collection out →
    Meets (World may codec clock) G (fun out' _ t' => t' = t ∧ AllWalked collection out')
      (fun _ _ t' => t' = t) (f out) m t

theorem AtDir.relText_child {absDir relDir : Text} {segments : List Text}
    (h : AtDir collection absDir relDir root segments) (name : Text) :
    (if relDir = [] then name else relDir ++ '/' :: name) = relText (segments ++ [name]) := by
  have hnil := relText_eq_nil h.names
  rw [h.rel]
  by_cases hempty : segments = []
  · rw [if_pos (hnil.mpr hempty), hempty]
    simp [relText]
  · rw [if_neg (mt hnil.mp hempty), relText_append hempty]

theorem AtDir.names_child {absDir relDir : Text} {segments : List Text}
    (h : AtDir collection absDir relDir root segments) {name : Text} (hname : IsName name) :
    Names (segments ++ [name]) := by
  intro s hs
  rcases List.mem_append.mp hs with hs | hs
  · exact h.names s hs
  · exact List.mem_singleton.mp hs ▸ hname

theorem AtDir.abs_child {absDir relDir : Text} {segments : List Text}
    (h : AtDir collection absDir relDir root segments) {name : Text} (hname : IsName name) :
    joinPath [absDir, name] = .ok (render (root ++ (segments ++ [name]))) := by
  rw [joinPath_pair, ← List.append_assoc]
  exact normalizePath_of_pathSegments (pathSegments_name h.abs hname)

/-- A file of a directory that the walk reaches, where it is not internal. -/
theorem AtDir.walked {absDir relDir : Text} {segments : List Text}
    (h : AtDir collection absDir relDir root segments) {name : Text} (hname : IsName name)
    (hinternal : isInternal (segments ++ [name]) = false) {l : LocalFile D}
    (habs : l.abs = render (root ++ (segments ++ [name]))) :
    Walked collection (relText (segments ++ [name])) l root (segments ++ [name]) where
  collection_eq := h.collection_eq
  names := h.names_child hname
  nonempty := by simp
  rel := rfl
  abs := habs
  notInternal := hinternal
  entered := by
    intro hmem
    by_cases hdir : tactileDir ∈ segments
    · have hhead := h.entered hdir
      cases segments with
      | nil => cases hdir
      | cons s segments => exact hhead
    · have hlast := (List.mem_append.mp hmem).resolve_left hdir
      rw [List.mem_singleton] at hlast
      have htop : isInternal (segments ++ [tactileDir]) = true := isInternal_last hdir
      rw [hlast, hinternal] at htop
      cases htop

theorem AtDir.child {absDir relDir : Text} {segments : List Text}
    (h : AtDir collection absDir relDir root segments) {name : Text} (hname : IsName name)
    (hentered : Entered (segments ++ [name])) :
    AtDir collection (render (root ++ (segments ++ [name]))) (relText (segments ++ [name])) root
      (segments ++ [name]) where
  collection_eq := h.collection_eq
  names := h.names_child hname
  abs := by
    refine pathSegments_render fun s hs => ?_
    rcases List.mem_append.mp hs with hs | hs
    · exact names_of_pathSegments h.collection_eq s hs
    · exact h.names_child hname s hs
  rel := rfl
  entered := hentered

theorem AllWalked.insert {out : Dict Text (LocalFile D)} (h : AllWalked collection out) {rel : Text}
    {l : LocalFile D} {segments : List Text} (hl : Walked collection rel l root segments) :
    AllWalked collection (out.insert rel l) := by
  intro rel' l' hstored
  rw [lookup_insert_eq] at hstored
  split at hstored
  next heq =>
    cases hstored
    exact ⟨root, segments, heq ▸ hl⟩
  next => exact h rel' l' hstored

/-- An entry of a directory: its files below are found by walking it, a file is
found by reading it. -/
theorem finds_walkEntry (hG : Admits G t) {absDir relDir : Text} {segments : List Text}
    (hdir : AtDir collection absDir relDir root segments) {entry : DirEntry}
    (hname : IsName entry.name)
    {descend : Text → Text → Dict Text (LocalFile D) → SyncMethod D P (Dict Text (LocalFile D))}
    (hdescend : ∀ abs rel segments, AtDir collection abs rel root segments →
      Finds may codec clock G collection t (descend abs rel)) :
    Finds may codec clock G collection t
      (fun out => walkEntry C maxBytes descend absDir relDir out entry) := by
  intro out m hout
  have hsame : Meets (World may codec clock) G (fun out' _ t' => t' = t ∧ AllWalked collection out')
      (fun _ _ t' => t' = t) (pure out : SyncMethod D P (Dict Text (LocalFile D))) m t :=
    ⟨rfl, hout⟩
  have hsegments : pathSegments (relText (segments ++ [entry.name])) = .ok (segments ++ [entry.name]) :=
    pathSegments_relText (hdir.names_child hname) (by simp)
  have hinternal : isInternalPath (relText (segments ++ [entry.name])) =
      .ok (isInternal (segments ++ [entry.name])) := by
    rw [isInternalPath, hsegments]
    rfl
  unfold walkEntry
  dsimp only
  rw [hdir.relText_child entry.name, hdir.abs_child hname, hinternal]
  change Meets _ _ _ _ (if entry.isDirectory then _ else _) m t
  split
  next =>
    split
    next htactile =>
      refine hdescend _ _ _ (hdir.child hname fun hmem => ?_) out m hout
      have htop : Names [tactileDir] := by decide
      have hone : segments ++ [entry.name] = [tactileDir] :=
        relText_inj (hdir.names_child hname) htop htactile
      rw [hone]
      rfl
    next =>
      split
      next => exact hsame
      next hdot =>
        change Meets _ _ _ _ (if isInternal _ then _ else _) m t
        split
        next => exact hsame
        next =>
          refine hdescend _ _ _ (hdir.child hname fun hmem => ?_) out m hout
          have hbelow : tactileDir ∈ segments := by
            refine (List.mem_append.mp hmem).resolve_right fun hlast => hdot ?_
            rw [← List.mem_singleton.mp hlast]
            rfl
          have hhead := hdir.entered hbelow
          cases segments with
          | nil => cases hbelow
          | cons s segments => exact hhead
  next =>
    split
    next => exact hsame
    next =>
      change Meets _ _ _ _ (if isInternal _ then _ else _) m t
      split
      next => exact hsame
      next hnot =>
        rw [meets_bind]
        refine meets_attempted (hG _).2.1 (reading_snd _) fun stat _ => ?_
        split
        next => exact hsame
        next =>
          rw [meets_bind]
          refine meets_attempted (hG _).2.2 (reading_snd _) fun data _ => ?_
          cases data with
          | none => exact hsame
          | some data =>
              have hfound : isInternal (segments ++ [entry.name]) = false := by simpa using hnot
              exact ⟨rfl, hout.insert (hdir.walked hname hfound rfl)⟩

/-- A walk of a valid tree finds files at paths that are not internal. -/
theorem finds_walk (hv : t.Valid) (hG : Admits G t) (depth : ℕ) {absDir relDir : Text}
    {segments : List Text} (hdir : AtDir collection absDir relDir root segments) :
    Finds may codec clock G collection t (walk C maxBytes depth absDir relDir) := by
  induction depth generalizing absDir relDir segments with
  | zero => exact fun _ _ _ => rfl
  | succ depth ih =>
      intro out m hout
      rw [walk, meets_bind]
      refine meets_attempted (hG _).1 (reading_snd _) fun entries hentries => ?_
      have hnames : ∀ entry ∈ entries.getD [], IsName entry.name := by
        intro entry hentry
        cases entries with
        | none => cases hentry
        | some entries =>
            have hread := hentries entries rfl
            rw [respond, reading_ok hdir.abs] at hread
            obtain ⟨-, rfl⟩ := readDirAt_eq_ok.mp (Prod.mk.inj hread).1
            obtain ⟨⟨name, node⟩, hchild, rfl⟩ := List.mem_map.mp hentry
            have hstored := mem_children.mp hchild
            have hname := (hv _ _ hstored).2.1 name (by simp)
            cases node <;> exact hname
      refine (meets_foldlM _ (fun _ out' _ t' => t' = t ∧ AllWalked collection out') _ out m t
        ⟨rfl, hout⟩ ?_).imp (fun _ _ _ h => h) fun _ _ _ h => h
      rintro pre entry post hsplit out' m' t' ⟨rfl, hout'⟩
      refine finds_walkEntry hG hdir (hnames entry ?_) (fun _ _ _ h => ih h) out' m' hout'
      rw [hsplit]
      simp

theorem walkCollection_finds (hv : t.Valid) (hG : Admits G t) (depth : ℕ) (m : Merge D) :
    Meets (World may codec clock) G (fun out _ t' => t' = t ∧ AllWalked collection out)
      (fun _ _ t' => t' = t) (walkCollection C collection maxBytes depth) m t := by
  have hempty : AllWalked collection (∅ : Dict Text (LocalFile D)) := fun _ _ h => by simp at h
  cases hroot : pathSegments collection with
  | ok root =>
      refine finds_walk hv hG depth ⟨hroot, names_nil, ?_, rfl, nofun⟩ ∅ m hempty
      rw [List.append_nil]
      exact hroot
  | error e =>
      -- the collection cannot be listed
      rw [walkCollection]
      cases depth with
      | zero => exact rfl
      | succ depth =>
          rw [walk, meets_bind]
          refine meets_attempted (hG _).1 (reading_snd _) fun entries hentries => ?_
          cases entries with
          | none => exact ⟨rfl, hempty⟩
          | some entries =>
              have hread := hentries entries rfl
              rw [respond, reading, hroot] at hread
              cases hread

end Walking

end Tactile.Sync.Walk

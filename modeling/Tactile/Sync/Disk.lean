import Tactile.Sync.Walk

/-!
A file system in which the reads of some places fail, and exactly what a walk of it
finds.
-/

namespace Tactile.Sync.Disk

open Tactile.Lib.Program Tactile.Lib.Script Tactile.Lib.FiniteMap
open Tactile.Storage.Paths Tactile.Storage.Idb Tactile.Storage.Opfs Tactile.Storage.Backend
open Tactile.Sync.Records Tactile.Sync.SyncNow Tactile.Sync.Untrusted Tactile.Sync.Walk

variable {D P : Type}

section Faults

/-- The places whose listing, reading or stat fails. -/
structure Faults where
  listing : List Text → Bool
  reading : List Text → Bool
  stat : List Text → Bool

def failsAt (p : List Text → Bool) (path : Text) : Bool := (pathSegments path).toOption.any p

/-- Whether a call reads at a place where that fails. -/
def Faults.hits (faults : Faults) : StorageOp → Bool
  | .readDir path => failsAt faults.listing path
  | .readFile path => failsAt faults.reading path
  | .readTextFile path => failsAt faults.reading path
  | .stat path => failsAt faults.stat path
  | _ => false

def isRead : StorageOp → Bool
  | .readDir _ | .readFile _ | .readTextFile _ | .stat _ => true
  | _ => false

variable (faults : Faults) (codec : TextCodec) (clock : Clock)

/-- What a read returns, none where it fails. -/
def Faults.seen (o : StorageOp) (t : Tree) : Option (StorageVal o) :=
  if faults.hits o then none else (respond codec clock o t).1.toOption

/-- The reads fail at their places and nowhere else, the other calls may fail, and the
relay gives an answer that it may give. -/
def DiskWorld (may : (o : RelayOp D P) → RelayAns D P o → Prop) :
    Answers (SyncOp D P) (SyncAns D P) Tree :=
  fun t o ans t' => World may codec clock t o ans t' ∧
    match o, ans with
    | .storage o, ans => isRead o = true → Except.toOption ans = faults.seen codec clock o t
    | .relay _, _ => True

variable {faults codec clock} {may : (o : RelayOp D P) → RelayAns D P o → Prop}
variable {m : Merge D} {t : Tree} {path : Text} {l : List Text}

theorem respond_read {o : StorageOp} (h : isRead o = true) (t : Tree) :
    (respond codec clock o t).2 = t := by
  cases o with
  | readDir path => exact reading_snd _
  | readFile path => exact reading_snd _
  | readTextFile path => exact reading_snd _
  | stat path => exact reading_snd _
  | _ => cases h

/-- A read leaves the tree and returns what is seen. -/
theorem diskWorld_read {o : StorageOp} {ans : StorageAns o} {t' : Tree} (hread : isRead o = true)
    (h : DiskWorld faults codec clock may t (.storage o) ans t') :
    t' = t ∧ ans.toOption = faults.seen codec clock o t := by
  obtain ⟨hworld, hseen⟩ := h
  refine ⟨?_, hseen hread⟩
  cases hworld with
  | storage _ _ _ _ hserves =>
      cases hserves with
      | served => exact respond_read hread t
      | failed => rfl

theorem meets_seen {o : StorageOp} {Q : Option (StorageVal o) → Merge D → Tree → Prop}
    {E : SyncError → Merge D → Tree → Prop} (hread : isRead o = true)
    (hQ : Q (faults.seen codec clock o t) m t) :
    Meets (DiskWorld faults codec clock may) (fun _ _ => True) Q E (attempt o) m t := by
  rw [meets_attempt]
  refine ⟨trivial, fun ans t' hans => ?_⟩
  obtain ⟨rfl, hseen⟩ := diskWorld_read hread hans
  rw [hseen]
  exact hQ

theorem seen_readDir (h : pathSegments path = .ok l) :
    faults.seen codec clock (.readDir path) t =
      if faults.listing l then none else (readDirAt t l).toOption := by
  rw [Faults.seen, Faults.hits, failsAt, h, respond, reading_ok h]
  rfl

theorem seen_readFile (h : pathSegments path = .ok l) :
    faults.seen codec clock (.readFile path) t =
      if faults.reading l then none else (readFileAt t l).toOption := by
  rw [Faults.seen, Faults.hits, failsAt, h, respond, reading_ok h]
  rfl

theorem seen_stat (h : pathSegments path = .ok l) :
    faults.seen codec clock (.stat path) t =
      if faults.stat l then none
      else ((statAt t l).map fun size => (⟨size, clock.mtime l⟩ : FileStat)).toOption := by
  rw [Faults.seen, Faults.hits, failsAt, h, respond, reading_ok h]
  rfl

end Faults

section Found

variable (C : Crypto D P) (faults : Faults) (clock : Clock) (t : Tree) (root : List Text)
variable (maxBytes : ℤ)

/-- A directory below the collection that can be listed. -/
def Listed (dir : List Text) : Prop := faults.listing (root ++ dir) = false ∧ t.isDir (root ++ dir)

/-- A directory that the walk enters, by its names below the collection. -/
def Enters (dir : List Text) : Prop :=
  dir = [tactileDir] ∨ isInternal dir = false ∧ ∀ name ∈ dir.getLast?, name.head? ≠ some '.'

/-- The directories on the way from one of them are entered and listed. -/
def Reaches (dir : List Text) : List Text → Prop
  | [] => False
  | [_] => Listed faults t root dir
  | name :: next :: rest =>
    Listed faults t root dir ∧ Enters (dir ++ [name]) ∧ Reaches (dir ++ [name]) (next :: rest)

/-- A file that is read: its path is not internal, it is not too large as far as its
size can be told, and its reading does not fail. -/
structure Accepted (segments : List Text) (data : Bytes) : Prop where
  notInternal : isInternal segments = false
  size : faults.stat (root ++ segments) = false → (data.length : ℤ) ≤ maxBytes
  reads : faults.reading (root ++ segments) = false

/-- A file below a directory that the walk finds. -/
structure Wanted (dir rest : List Text) (data : Bytes) : Prop where
  names : Names rest
  reaches : Reaches faults t root dir rest
  stored : t.lookup (root ++ (dir ++ rest)) = some (.file data)
  accepted : Accepted faults root maxBytes (dir ++ rest) data

/-- The file as the walk notes it. -/
def fileAt (segments : List Text) (data : Bytes) : LocalFile D :=
  localFile C (relText segments) (render (root ++ segments)) data
    (if faults.stat (root ++ segments) then 0 else (clock.mtime (root ++ segments)).getD 0)

/-- What the walk notes at a path. -/
def Found (rel : Text) (l : LocalFile D) : Prop :=
  ∃ segments data, Wanted faults t root maxBytes [] segments data ∧ rel = relText segments ∧
    l = fileAt C faults clock root segments data

variable {C faults clock t root maxBytes}

theorem Reaches.cons {dir : List Text} {name : Text} {rest : List Text}
    (hlisted : Listed faults t root dir) (henters : Enters (dir ++ [name]))
    (h : Reaches faults t root (dir ++ [name]) rest) : Reaches faults t root dir (name :: rest) := by
  cases rest with
  | nil => exact h.elim
  | cons next rest => exact ⟨hlisted, henters, h⟩

theorem Reaches.listed {dir rest : List Text} (h : Reaches faults t root dir rest) :
    Listed faults t root dir := by
  match rest, h with
  | [_], h => exact h
  | _ :: _ :: _, h => exact h.1

/-- One path has one file. -/
theorem found_unique {rel : Text} {l l' : LocalFile D}
    (h : Found C faults clock t root maxBytes rel l)
    (h' : Found C faults clock t root maxBytes rel l') : l = l' := by
  obtain ⟨segments, data, hw, rfl, rfl⟩ := h
  obtain ⟨segments', data', hw', hrel, rfl⟩ := h'
  have hsegments := relText_inj hw.names hw'.names hrel
  subst hsegments
  have hdata := hw.stored.symm.trans hw'.stored
  cases hdata
  rfl

end Found

section Walking

variable {C : Crypto D P} {faults : Faults} {codec : TextCodec} {clock : Clock} {t : Tree}
variable {may : (o : RelayOp D P) → RelayAns D P o → Prop} {collection : Text}
variable {root : List Text} {maxBytes : ℤ}

/-- What the walk has noted of a part of a directory, and kept of before. -/
structure Explored (C : Crypto D P) (faults : Faults) (clock : Clock) (t : Tree) (root : List Text)
    (maxBytes : ℤ) (dir : List Text) (part : List Text → Prop)
    (out out' : Dict Text (LocalFile D)) : Prop where
  sound : ∀ rel l, out'.lookup rel = some l → Found C faults clock t root maxBytes rel l
  kept : ∀ rel l, out.lookup rel = some l → out'.lookup rel = some l
  complete : ∀ rest data, part rest → Wanted faults t root maxBytes dir rest data →
    out'.lookup (relText (dir ++ rest)) = some (fileAt C faults clock root (dir ++ rest) data)

/-- A part of the walk that explores a part of a directory. -/
def Explores (C : Crypto D P) (faults : Faults) (codec : TextCodec) (clock : Clock)
    (may : (o : RelayOp D P) → RelayAns D P o → Prop) (t : Tree) (root : List Text)
    (maxBytes : ℤ) (dir : List Text) (part : List Text → Prop)
    (f : Dict Text (LocalFile D) → SyncMethod D P (Dict Text (LocalFile D))) : Prop :=
  ∀ out m, (∀ rel l, out.lookup rel = some l → Found C faults clock t root maxBytes rel l) →
    Meets (DiskWorld faults codec clock may) (fun _ _ => True)
      (fun out' _ t' => t' = t ∧ Explored C faults clock t root maxBytes dir part out out')
      (fun _ _ t' => t' = t) (f out) m t

/-- The way to a directory. -/
def Reached (faults : Faults) (t : Tree) (root dir : List Text) : Prop :=
  ∀ rest, Reaches faults t root dir rest → Reaches faults t root [] (dir ++ rest)

theorem Reached.child {dir : List Text} {name : Text} (h : Reached faults t root dir)
    (hlisted : Listed faults t root dir) (henters : Enters (dir ++ [name])) :
    Reached faults t root (dir ++ [name]) := by
  intro rest hrest
  have hway := h (name :: rest) (.cons hlisted henters hrest)
  rw [List.append_assoc]
  exact hway

/-- What the walk enters below the top is not `.tactile`. -/
theorem entered_of_enters {absDir relDir : Text} {dir : List Text}
    (hdir : AtDir collection absDir relDir root dir) {name : Text}
    (henters : Enters (dir ++ [name])) : Entered (dir ++ [name]) := by
  rcases henters with htop | ⟨-, hvisible⟩
  · rw [htop]
    exact fun _ => rfl
  · intro hmem
    have hbelow : tactileDir ∈ dir := by
      refine (List.mem_append.mp hmem).resolve_right fun hlast => ?_
      refine hvisible name (by simp) ?_
      rw [← List.mem_singleton.mp hlast]
      rfl
    have hhead := hdir.entered hbelow
    cases dir with
    | nil => cases hbelow
    | cons s dir => exact hhead

theorem explored_none {dir : List Text} {part : List Text → Prop} {out : Dict Text (LocalFile D)}
    (hout : ∀ rel l, out.lookup rel = some l → Found C faults clock t root maxBytes rel l)
    (hnone : ∀ rest data, part rest → ¬ Wanted faults t root maxBytes dir rest data) :
    Explored C faults clock t root maxBytes dir part out out :=
  ⟨hout, fun _ _ h => h, fun rest data hpart hwanted => absurd hwanted (hnone rest data hpart)⟩

theorem explored_insert {dir : List Text} {name : Text} {data : Bytes}
    {out : Dict Text (LocalFile D)}
    (hout : ∀ rel l, out.lookup rel = some l → Found C faults clock t root maxBytes rel l)
    (hreached : Reached faults t root dir) (hdir : Names dir)
    (hwanted : Wanted faults t root maxBytes dir [name] data) :
    Explored C faults clock t root maxBytes dir (fun rest => rest.head? = some name) out
      (out.insert (relText (dir ++ [name])) (fileAt C faults clock root (dir ++ [name]) data)) := by
  have hfound : Found C faults clock t root maxBytes (relText (dir ++ [name]))
      (fileAt C faults clock root (dir ++ [name]) data) :=
    ⟨dir ++ [name], data, ⟨hdir.append hwanted.names, hreached _ hwanted.reaches, hwanted.stored,
      hwanted.accepted⟩, rfl, rfl⟩
  refine ⟨fun rel l h => ?_, fun rel l h => ?_, fun rest data' hhead hwanted' => ?_⟩
  · rw [lookup_insert_eq] at h
    split at h
    next heq =>
      cases h
      exact heq ▸ hfound
    next => exact hout rel l h
  · rw [lookup_insert_eq]
    split
    next heq => rw [found_unique (hout rel l h) (heq ▸ hfound)]
    next => exact h
  · cases rest with
    | nil => cases hhead
    | cons name' rest =>
        cases hhead
        cases rest with
        | nil =>
            have hdata := hwanted.stored.symm.trans hwanted'.stored
            cases hdata
            rw [lookup_insert_eq, if_pos rfl]
        | cons next rest =>
            have hlisted := hwanted'.reaches.2.2.listed.2
            rcases isDir_eq_true.mp hlisted with hroot | hstored
            · simp at hroot
            · rw [hwanted.stored] at hstored
              cases hstored

/-- What is wanted through a directory is wanted below it. -/
theorem Wanted.descend {dir rest : List Text} {name : Text} {data : Bytes}
    (h : Wanted faults t root maxBytes dir (name :: rest) data)
    (hdir : t.lookup (root ++ (dir ++ [name])) = some .dir) :
    Enters (dir ++ [name]) ∧ Wanted faults t root maxBytes (dir ++ [name]) rest data := by
  cases rest with
  | nil =>
      have hfile := h.stored
      rw [hdir] at hfile
      cases hfile
  | cons next rest =>
      have hsame : dir ++ name :: next :: rest = dir ++ [name] ++ next :: rest := by simp
      refine ⟨h.reaches.2.1, fun s hs => h.names s (List.mem_cons_of_mem _ hs), h.reaches.2.2, ?_, ?_⟩
      · rw [← hsame]
        exact h.stored
      · rw [← hsame]
        exact h.accepted

/-- What is wanted through a file is that file. -/
theorem Wanted.file {dir rest : List Text} {name : Text} {data contents : Bytes}
    (h : Wanted faults t root maxBytes dir (name :: rest) data)
    (hfile : t.lookup (root ++ (dir ++ [name])) = some (.file contents)) :
    rest = [] ∧ data = contents := by
  cases rest with
  | nil =>
      have hdata := h.stored
      rw [hfile] at hdata
      cases hdata
      exact ⟨rfl, rfl⟩
  | cons next rest =>
      have hlisted := h.reaches.2.2.listed.2
      rcases isDir_eq_true.mp hlisted with hroot | hstored
      · simp at hroot
      · rw [hfile] at hstored
        cases hstored

theorem explored_below {dir : List Text} {name : Text} {out out' : Dict Text (LocalFile D)}
    (hdir : t.lookup (root ++ (dir ++ [name])) = some .dir)
    (h : Explored C faults clock t root maxBytes (dir ++ [name]) (fun _ => True) out out') :
    Explored C faults clock t root maxBytes dir (fun rest => rest.head? = some name) out out' := by
  refine ⟨h.sound, h.kept, fun rest data hhead hwanted => ?_⟩
  cases rest with
  | nil => cases hhead
  | cons name' rest =>
      cases hhead
      have hcomplete := h.complete rest data trivial (hwanted.descend hdir).2
      rw [List.append_assoc] at hcomplete
      exact hcomplete

theorem explores_dir {dir : List Text} {absDir relDir : Text}
    (hdir : AtDir collection absDir relDir root dir) (hreached : Reached faults t root dir)
    (hlisted : Listed faults t root dir) {name : Text} (hname : IsName name)
    (hstored : t.lookup (root ++ (dir ++ [name])) = some .dir)
    {descend : Text → Text → Dict Text (LocalFile D) → SyncMethod D P (Dict Text (LocalFile D))}
    (hdescend : ∀ abs rel segments, AtDir collection abs rel root segments →
      Reached faults t root segments → Explores C faults codec clock may t root maxBytes segments
        (fun _ => True) (descend abs rel)) :
    Explores C faults codec clock may t root maxBytes dir (fun rest => rest.head? = some name)
      (fun out => walkEntry C maxBytes descend absDir relDir out (entryOf name .dir)) := by
  intro out m hout
  have hnames := hdir.names_child hname
  have hinternal : isInternalPath (relText (dir ++ [name])) = .ok (isInternal (dir ++ [name])) := by
    rw [isInternalPath, pathSegments_relText hnames (by simp)]
    rfl
  have hskip : ¬ Enters (dir ++ [name]) →
      Meets (DiskWorld faults codec clock may) (fun _ _ => True)
        (fun out' _ t' => t' = t ∧ Explored C faults clock t root maxBytes dir
          (fun rest => rest.head? = some name) out out')
        (fun _ _ t' => t' = t) (pure out : SyncMethod D P (Dict Text (LocalFile D))) m t := by
    refine fun hnot => ⟨rfl, explored_none hout fun rest data hhead hwanted => ?_⟩
    cases rest with
    | nil => cases hhead
    | cons name' rest =>
        cases hhead
        exact hnot (hwanted.descend hstored).1
  have hgo : Enters (dir ++ [name]) →
      Meets (DiskWorld faults codec clock may) (fun _ _ => True)
        (fun out' _ t' => t' = t ∧ Explored C faults clock t root maxBytes dir
          (fun rest => rest.head? = some name) out out')
        (fun _ _ t' => t' = t)
        (descend (render (root ++ (dir ++ [name]))) (relText (dir ++ [name])) out) m t := by
    intro henters
    have hchild := hdir.child hname (entered_of_enters hdir henters)
    refine (hdescend _ _ _ hchild (hreached.child hlisted henters) out m hout).imp
      (fun out' m' t' h => ?_) fun _ _ _ h => h
    exact ⟨h.1, explored_below hstored h.2⟩
  unfold walkEntry
  dsimp only [entryOf]
  rw [hdir.relText_child name, hdir.abs_child hname, hinternal]
  change Meets _ _ _ _ (if relText (dir ++ [name]) = tactileDir then _ else _) m t
  split
  next htactile =>
    have htop : Names [tactileDir] := by decide
    have hone : dir ++ [name] = [tactileDir] := relText_inj hnames htop htactile
    exact hgo (.inl hone)
  next htactile =>
    have hother : dir ++ [name] ≠ [tactileDir] := fun hone => htactile (by rw [hone]; rfl)
    change Meets _ _ _ _ (if name.head? = some '.' then _ else _) m t
    rcases Decidable.em (name.head? = some '.') with hdot | hdot
    · rw [if_pos hdot]
      refine hskip fun henters => ?_
      exact (henters.resolve_left hother).2 name (by simp) hdot
    · rw [if_neg hdot]
      change Meets _ _ _ _ (if isInternal (dir ++ [name]) then _ else _) m t
      cases hin : isInternal (dir ++ [name]) with
      | true =>
          refine hskip fun henters => ?_
          rw [(henters.resolve_left hother).1] at hin
          cases hin
      | false =>
          refine hgo (.inr ⟨hin, fun last hlast => ?_⟩)
          rw [List.getLast?_concat, Option.mem_def, Option.some.injEq] at hlast
          rw [← hlast]
          exact hdot

theorem explores_file {dir : List Text} {absDir relDir : Text}
    (hdir : AtDir collection absDir relDir root dir) (hreached : Reached faults t root dir)
    (hlisted : Listed faults t root dir) {name : Text} (hname : IsName name) {contents : Bytes}
    (hstored : t.lookup (root ++ (dir ++ [name])) = some (.file contents))
    (descend : Text → Text → Dict Text (LocalFile D) → SyncMethod D P (Dict Text (LocalFile D))) :
    Explores C faults codec clock may t root maxBytes dir (fun rest => rest.head? = some name)
      (fun out => walkEntry C maxBytes descend absDir relDir out (entryOf name (.file contents))) := by
  intro out m hout
  have hnames := hdir.names_child hname
  have hinternal : isInternalPath (relText (dir ++ [name])) = .ok (isInternal (dir ++ [name])) := by
    rw [isInternalPath, pathSegments_relText hnames (by simp)]
    rfl
  have hroot : Names root := names_of_pathSegments hdir.collection_eq
  have hplace := pathSegments_render (hroot.append hnames)
  have hbelow : root ++ (dir ++ [name]) ≠ [] := by simp
  have hskip : ¬ Accepted faults root maxBytes (dir ++ [name]) contents →
      Meets (DiskWorld faults codec clock may) (fun _ _ => True)
        (fun out' _ t' => t' = t ∧ Explored C faults clock t root maxBytes dir
          (fun rest => rest.head? = some name) out out')
        (fun _ _ t' => t' = t) (pure out : SyncMethod D P (Dict Text (LocalFile D))) m t := by
    refine fun hnot => ⟨rfl, explored_none hout fun rest data hhead hwanted => ?_⟩
    cases rest with
    | nil => cases hhead
    | cons name' rest =>
        cases hhead
        obtain ⟨rfl, rfl⟩ := hwanted.file hstored
        exact hnot hwanted.accepted
  unfold walkEntry
  dsimp only [entryOf]
  rw [hdir.relText_child name, hdir.abs_child hname, hinternal]
  change Meets _ _ _ _ (if isInternal (dir ++ [name]) then _ else _) m t
  cases hin : isInternal (dir ++ [name]) with
  | true =>
      refine hskip fun haccepted => ?_
      rw [haccepted.notInternal] at hin
      cases hin
  | false =>
      rw [if_neg Bool.false_ne_true, meets_bind]
      refine meets_seen rfl ?_
      rw [seen_stat hplace, statAt, if_neg hbelow, hstored]
      have hread : (faults.stat (root ++ (dir ++ [name])) = false →
          (contents.length : ℤ) ≤ maxBytes) →
          ∀ (next : Option Bytes → SyncMethod D P (Dict Text (LocalFile D))) (mtime : ℤ),
          next none = pure out →
          (∀ data, next (some data) = pure (out.insert (relText (dir ++ [name]))
            (localFile C (relText (dir ++ [name])) (render (root ++ (dir ++ [name]))) data mtime))) →
          (mtime = if faults.stat (root ++ (dir ++ [name])) then 0
            else (clock.mtime (root ++ (dir ++ [name]))).getD 0) →
          Meets (DiskWorld faults codec clock may) (fun _ _ => True)
            (fun out' _ t' => t' = t ∧ Explored C faults clock t root maxBytes dir
              (fun rest => rest.head? = some name) out out')
            (fun _ _ t' => t' = t)
            (attempt (.readFile (render (root ++ (dir ++ [name])))) >>= next) m t := by
        intro hsize next mtime hnone hsome hmtime
        rw [meets_bind]
        refine meets_seen rfl ?_
        rw [seen_readFile hplace, readFileAt, hstored]
        cases hfault : faults.reading (root ++ (dir ++ [name])) with
        | true =>
            change Meets _ _ _ _ (next none) m t
            rw [hnone]
            refine hskip fun haccepted => ?_
            rw [haccepted.reads] at hfault
            cases hfault
        | false =>
            rw [if_neg Bool.false_ne_true]
            change Meets _ _ _ _ (next (some contents)) m t
            rw [hsome, hmtime]
            refine ⟨rfl, ?_⟩
            exact explored_insert hout hreached hdir.names ⟨fun s hs =>
              List.mem_singleton.mp hs ▸ hname, hlisted, hstored, hin, hsize, hfault⟩
      cases hstat : faults.stat (root ++ (dir ++ [name])) with
      | true =>
          rw [if_pos rfl]
          refine hread (fun h => ?_) _ 0 rfl (fun _ => rfl) ?_
          · rw [hstat] at h
            cases h
          · rw [hstat]
            rfl
      | false =>
          rw [if_neg Bool.false_ne_true]
          change Meets _ _ _ _ (if decide (maxBytes < (contents.length : ℤ)) then _ else _) m t
          rcases Decidable.em (maxBytes < (contents.length : ℤ)) with hlarge | hfits
          · rw [decide_eq_true hlarge, if_pos rfl]
            exact hskip fun haccepted => absurd (haccepted.size hstat) (not_le.mpr hlarge)
          · rw [decide_eq_false hfits, if_neg Bool.false_ne_true]
            refine hread (fun _ => not_lt.mp hfits) _
              ((clock.mtime (root ++ (dir ++ [name]))).getD 0) rfl (fun _ => rfl) ?_
            rw [hstat]
            rfl

/-- What is known of two parts, one explored after the other. -/
theorem Explored.trans {dir : List Text} {part part' : List Text → Prop}
    {out out' out'' : Dict Text (LocalFile D)}
    (h : Explored C faults clock t root maxBytes dir part out out')
    (h' : Explored C faults clock t root maxBytes dir part' out' out'') :
    Explored C faults clock t root maxBytes dir (fun rest => part rest ∨ part' rest) out out'' where
  sound := h'.sound
  kept rel l hl := h'.kept rel l (h.kept rel l hl)
  complete rest data hpart hwanted := by
    rcases hpart with hpart | hpart
    · exact h'.kept _ _ (h.complete rest data hpart hwanted)
    · exact h'.complete rest data hpart hwanted

theorem Explored.mono {dir : List Text} {part part' : List Text → Prop}
    {out out' : Dict Text (LocalFile D)}
    (h : Explored C faults clock t root maxBytes dir part out out')
    (hpart : ∀ rest data, part' rest → Wanted faults t root maxBytes dir rest data → part rest) :
    Explored C faults clock t root maxBytes dir part' out out' :=
  ⟨h.sound, h.kept, fun rest data hrest hwanted =>
    h.complete rest data (hpart rest data hrest hwanted) hwanted⟩

/-- What is wanted below a directory is one of its entries, or below one. -/
theorem Wanted.entry {dir rest : List Text} {data : Bytes}
    (h : Wanted faults t root maxBytes dir rest data) :
    ∃ name node, rest.head? = some name ∧ (name, node) ∈ t.children (root ++ dir) := by
  cases rest with
  | nil => exact h.reaches.elim
  | cons name rest =>
      cases rest with
      | nil =>
          refine ⟨name, .file data, rfl, mem_children.mpr ?_⟩
          rw [List.append_assoc]
          exact h.stored
      | cons next rest =>
          refine ⟨name, .dir, rfl, mem_children.mpr ?_⟩
          rw [List.append_assoc]
          exact (isDir_eq_true.mp h.reaches.2.2.listed.2).resolve_left (by simp)

theorem explores_entry {dir : List Text} {absDir relDir : Text}
    (hdir : AtDir collection absDir relDir root dir) (hreached : Reached faults t root dir)
    (hlisted : Listed faults t root dir) {name : Text} {node : Node} (hname : IsName name)
    (hstored : t.lookup (root ++ (dir ++ [name])) = some node)
    {descend : Text → Text → Dict Text (LocalFile D) → SyncMethod D P (Dict Text (LocalFile D))}
    (hdescend : ∀ abs rel segments, AtDir collection abs rel root segments →
      Reached faults t root segments → Explores C faults codec clock may t root maxBytes segments
        (fun _ => True) (descend abs rel)) :
    Explores C faults codec clock may t root maxBytes dir (fun rest => rest.head? = some name)
      (fun out => walkEntry C maxBytes descend absDir relDir out (entryOf name node)) := by
  cases node with
  | dir => exact explores_dir hdir hreached hlisted hname hstored hdescend
  | file contents => exact explores_file hdir hreached hlisted hname hstored descend

/-- A walk that returns has noted what is wanted below its directory. -/
theorem explores_walk (hv : t.Valid) (depth : ℕ) {absDir relDir : Text} {dir : List Text}
    (hdir : AtDir collection absDir relDir root dir) (hreached : Reached faults t root dir) :
    Explores C faults codec clock may t root maxBytes dir (fun _ => True)
      (walk C maxBytes depth absDir relDir) := by
  induction depth generalizing absDir relDir dir with
  | zero => exact fun _ _ _ => rfl
  | succ depth ih =>
      intro out m hout
      rw [walk, meets_bind]
      refine meets_seen rfl ?_
      rw [seen_readDir hdir.abs]
      rcases Classical.em (Listed faults t root dir) with hlisted | hnot
      · rw [if_neg (by rw [hlisted.1]; exact Bool.false_ne_true), readDirAt, if_pos hlisted.2]
        change Meets _ _ _ _ (List.foldlM _ out ((t.children (root ++ dir)).map fun e =>
          entryOf e.1 e.2)) m t
        have hsplits : ∀ e ∈ t.children (root ++ dir), t.lookup (root ++ (dir ++ [e.1])) = some e.2 := by
          intro e he
          rw [← List.append_assoc]
          exact mem_children.mp he
        refine (meets_foldlM _ (fun pre out' _ t' => t' = t ∧
          Explored C faults clock t root maxBytes dir
            (fun rest => ∃ entry ∈ pre, rest.head? = some entry.name) out out') _ out m t
          ⟨rfl, explored_none hout fun _ _ hpart => ?_⟩ ?_).imp (fun out' m' t' h => ?_)
            fun _ _ _ h => h
        · obtain ⟨_, hmem, _⟩ := hpart
          cases hmem
        · rintro pre entry post hsplit out' m' t' ⟨rfl, hexplored⟩
          have hentry : entry ∈ (t'.children (root ++ dir)).map fun e => entryOf e.1 e.2 := by
            rw [hsplit]
            simp
          obtain ⟨⟨name, node⟩, hchild, rfl⟩ := List.mem_map.mp hentry
          have hstored := hsplits _ hchild
          have hname : IsName name := (hv _ _ hstored).2.1 name (by simp)
          have hnext : Explores C faults codec clock may t' root maxBytes dir
              (fun rest => rest.head? = some name) (fun out => walkEntry C maxBytes
                (walk C maxBytes depth) absDir relDir out (entryOf name node)) :=
            explores_entry hdir hreached hlisted hname hstored fun _ _ _ h h' => ih h h'
          refine (hnext out' m' hexplored.sound).imp (fun out'' m'' t'' h => ⟨h.1, ?_⟩) fun _ _ _ h => h
          refine (hexplored.trans h.2).mono fun rest data hpart _ => ?_
          obtain ⟨entry, hmem, hhead⟩ := hpart
          rcases List.mem_append.mp hmem with hmem | hmem
          · exact .inl ⟨entry, hmem, hhead⟩
          · rw [List.mem_singleton.mp hmem] at hhead
            cases node with
            | dir => exact .inr hhead
            | file contents => exact .inr hhead
        · refine ⟨h.1, h.2.mono fun rest data _ hwanted => ?_⟩
          obtain ⟨name, node, hhead, hchild⟩ := hwanted.entry
          refine ⟨entryOf name node, List.mem_map.mpr ⟨_, hchild, rfl⟩, ?_⟩
          cases node with
          | dir => exact hhead
          | file contents => exact hhead
      · have hnone : (if faults.listing (root ++ dir) then none
            else (readDirAt t (root ++ dir)).toOption) = none := by
          split
          next => rfl
          next hlist =>
            rw [readDirAt, if_neg fun hisDir => hnot ⟨by simpa using hlist, hisDir⟩]
            split
            · rfl
            · rfl
        rw [hnone]
        exact ⟨rfl, explored_none hout fun _ _ _ hwanted => hnot hwanted.reaches.listed⟩

/-- What a walk of the collection notes is what is wanted in it. -/
theorem walkCollection_explores (hv : t.Valid) (hroot : pathSegments collection = .ok root)
    (depth : ℕ) (m : Merge D) :
    Meets (DiskWorld faults codec clock may) (fun _ _ => True)
      (fun locals _ t' => t' = t ∧ ∀ rel l, locals.lookup rel = some l ↔
        Found C faults clock t root maxBytes rel l)
      (fun _ _ t' => t' = t) (walkCollection C collection maxBytes depth) m t := by
  have hdir : AtDir collection collection [] root [] :=
    ⟨hroot, names_nil, by rw [List.append_nil]; exact hroot, rfl, nofun⟩
  refine (explores_walk hv depth hdir (fun rest h => h) ∅ m fun rel l h => by simp at h).imp
    (fun locals m' t' h => ⟨h.1, fun rel l => ⟨h.2.sound rel l, ?_⟩⟩) fun _ _ _ h => h
  rintro ⟨segments, data, hwanted, rfl, rfl⟩
  exact h.2.complete segments data trivial hwanted

end Walking

section Gathering

variable {C : Crypto D P} {faults : Faults} {codec : TextCodec} {clock : Clock} {t : Tree}
variable {collection : Text} {root : List Text} {info : RelayAns D P .info}

/-- The limit on the size of a file under an answer of the relay. -/
def sizeLimit (info : RelayAns D P .info) : ℤ :=
  min ((info.toOption.bind fun size => size).getD maxFileBytes) maxFileBytes

/-- A relay whose answers but one may be anything. -/
def Informs (info : RelayAns D P .info) : (o : RelayOp D P) → RelayAns D P o → Prop
  | .info, ans => ans = info
  | _, _ => True

theorem diskWorld_relay {may : (o : RelayOp D P) → RelayAns D P o → Prop} {o : RelayOp D P}
    {ans : RelayAns D P o} {t' : Tree}
    (h : DiskWorld faults codec clock may t (.relay o) ans t') : may o ans ∧ t' = t := by
  cases h.1 with
  | relay _ _ _ hmay => exact ⟨hmay, rfl⟩

theorem meets_fetched (id : D) (m : Merge D)
    {Q : Option (Manifest D) → Merge D → Tree → Prop} (hQ : ∀ fetched, Q fetched m t) :
    Meets (DiskWorld faults codec clock (Informs info)) (fun _ _ => True) Q (fun _ _ _ => True)
      (fetchManifest C id) m t := by
  rw [fetchManifest, meets_bind]
  refine (meets_call (.get id) _ m t).mpr ⟨trivial, fun ans t' hans => ⟨fun val _ => ?_,
    fun _ _ => trivial⟩⟩
  obtain ⟨-, rfl⟩ := diskWorld_relay hans
  exact hQ _

theorem meets_loaded (m : Merge D) {Q : LocalSyncState D → Merge D → Tree → Prop}
    (hQ : ∀ state, Q state m t) :
    Meets (DiskWorld faults codec clock (Informs info)) (fun _ _ => True) Q (fun _ _ _ => True)
      (loadLocalState C collection) m t := by
  rw [loadLocalState, meets_bind, meets_outcome, meets_bind]
  refine (meets_ofExcept _ _ _ _).mpr ⟨fun file _ => ?_, fun _ _ => hQ _⟩
  refine (meets_store (.readTextFile file) _ m t).mpr ⟨trivial, fun ans t' hans => ?_⟩
  obtain ⟨rfl, -⟩ := diskWorld_read rfl hans
  exact ⟨fun _ _ => hQ _, fun _ _ => hQ _⟩

/-- The files that a run gathers are those that are wanted. -/
theorem gather_finds (hv : t.Valid) (hroot : pathSegments collection = .ok root) (depth : ℕ)
    (m : Merge D) :
    Meets (DiskWorld faults codec clock (Informs info)) (fun _ _ => True)
      (fun g _ _ => ∀ rel l, g.locals.lookup rel = some l ↔
        Found C faults clock t root (sizeLimit info) rel l)
      (fun _ _ _ => True) (gather C collection depth) m t := by
  have hrest : Meets (DiskWorld faults codec clock (Informs info)) (fun _ _ => True)
      (fun g _ _ => ∀ rel l, g.locals.lookup rel = some l ↔
        Found C faults clock t root (sizeLimit info) rel l)
      (fun _ _ _ => True) (do
        let fetched ← fetchManifest C (manifestId C (collectionKey collection))
        let state ← loadLocalState C collection
        let locals ← walkCollection C collection (sizeLimit info) depth
        let now : ℤ ← store .now
        pure { remote := fetched.getD ⟨0, ∅⟩, state := state, locals := locals, now := now }
        : SyncMethod D P (Gathered D)) m t := by
    rw [meets_bind]
    refine meets_fetched _ m fun fetched => ?_
    rw [meets_bind]
    refine meets_loaded m fun state => ?_
    rw [meets_bind]
    refine (walkCollection_explores hv hroot depth m).imp (fun locals m' t' h => ?_)
      fun _ _ _ _ => trivial
    rw [meets_bind]
    exact (meets_store .now _ m' t').mpr ⟨trivial, fun ans t'' _ => ⟨fun _ _ => h.2,
      fun _ _ => trivial⟩⟩
  rw [gather, meets_bind, meets_outcome]
  refine (meets_call .info _ m t).mpr ⟨trivial, fun ans t' hans => ?_⟩
  obtain ⟨hinfo, rfl⟩ := diskWorld_relay hans
  have hans : info = ans := hinfo.symm
  subst hans
  constructor
  · rintro val rfl
    exact hrest
  · rintro e rfl
    exact hrest

end Gathering

end Tactile.Sync.Disk

import Tactile.Lib.Threads
import Tactile.Publish.Extraction

/-!
The objects of a file-system store and the index of them in memory, while calls that put,
open and delete objects cross and the store is opened again.
-/

namespace Tactile.Publish.ObjectIndex

open Tactile.Lib.Program Tactile.Lib.Threads Tactile.Lib.Transition Tactile.Lib.FiniteMap
open Tactile.Lib.ByteString
open Tactile.Publish.Bundle (Digest)

section Store

/-- The index with its total, and the object files. -/
structure FS where
  objIndex : Dict Digest ℤ
  totalBytes : ℤ
  objects : Dict Digest Bytes

/-- A file below the directory of the objects: one left over from a write, one whose name is
no hash, or an object. -/
inductive ObjFile
  | temp (name : String)
  | stray (name : String)
  | object (hash : Digest) (data : Bytes)

def ObjFile.entry : ObjFile → Option (Digest × Bytes)
  | .object hash data => some (hash, data)
  | .temp _ | .stray _ => none

/-- What `load` does with one file: what is no object is removed. -/
def loadFile (s : FS) : ObjFile → FS
  | .temp _ | .stray _ => s
  | .object hash data =>
    { objIndex := s.objIndex.insert hash data.length
      totalBytes := s.totalBytes + data.length
      objects := s.objects.insert hash data }

/-- Rebuilds the object index from the files, in the order of the walk. -/
def load (files : List ObjFile) : FS := files.foldl loadFile ⟨∅, 0, ∅⟩

/-- What a put does with its temporary file, which is its own until it is renamed. -/
inductive TempAct
  | mkdir
  | create
  | write (data : Bytes)
  | sync
  | close
  | remove

inductive Opened
  | file (data : Bytes)
  | missing
  | failed

inductive Removal
  | removed
  | missing
  | failed
  deriving DecidableEq

/-- The sections under the lock (`known` and `size` look an object up, `index` adds one that
is not there, `unindex` drops one) and the operations on files. -/
inductive Op
  | known (hash : Digest)
  | stat (hash : Digest)
  | temp (act : TempAct)
  | rename (hash : Digest) (data : Bytes)
  | index (hash : Digest) (size : ℤ)
  | size (hash : Digest)
  | read (hash : Digest)
  | unindex (hash : Digest)
  | remove (hash : Digest)

abbrev Ans : Op → Type
  | .known _ | .stat _ | .temp _ | .rename .. => Bool
  | .index .. | .unindex _ => Unit
  | .size _ => Option ℤ
  | .read _ => Opened
  | .remove _ => Removal

def FS.index (s : FS) (hash : Digest) (size : ℤ) : FS :=
  match s.objIndex.lookup hash with
  | some _ => s
  | none =>
    { s with
      objIndex := s.objIndex.insert hash size
      totalBytes := s.totalBytes + size }

def FS.unindex (s : FS) (hash : Digest) : FS :=
  match s.objIndex.lookup hash with
  | none => s
  | some size =>
    { s with
      objIndex := s.objIndex.erase hash
      totalBytes := s.totalBytes - size }

/-- How a store answers. Every operation on a file may fail, and then leaves the object files
as they are. -/
inductive Serves : Answers Op Ans FS
  | known (s : FS) (hash : Digest) : Serves s (.known hash) (s.objIndex.lookup hash).isSome s
  | stat (s : FS) (hash : Digest) (there : Bool) :
      (there = true → (s.objects.lookup hash).isSome = true) → Serves s (.stat hash) there s
  | temp (s : FS) (act : TempAct) (ok : Bool) : Serves s (.temp act) ok s
  | renamed (s : FS) (hash : Digest) (data : Bytes) :
      Serves s (.rename hash data) true { s with objects := s.objects.insert hash data }
  | notRenamed (s : FS) (hash : Digest) (data : Bytes) : Serves s (.rename hash data) false s
  | index (s : FS) (hash : Digest) (size : ℤ) : Serves s (.index hash size) () (s.index hash size)
  | size (s : FS) (hash : Digest) : Serves s (.size hash) (s.objIndex.lookup hash) s
  | opened (s : FS) (hash : Digest) (data : Bytes) :
      s.objects.lookup hash = some data → Serves s (.read hash) (.file data) s
  | notThere (s : FS) (hash : Digest) :
      s.objects.lookup hash = none → Serves s (.read hash) .missing s
  | notOpened (s : FS) (hash : Digest) : Serves s (.read hash) .failed s
  | unindex (s : FS) (hash : Digest) : Serves s (.unindex hash) () (s.unindex hash)
  | removed (s : FS) (hash : Digest) :
      (s.objects.lookup hash).isSome = true →
      Serves s (.remove hash) .removed { s with objects := s.objects.erase hash }
  | gone (s : FS) (hash : Digest) :
      s.objects.lookup hash = none → Serves s (.remove hash) .missing s
  | notRemoved (s : FS) (hash : Digest) : Serves s (.remove hash) .failed s

end Store

section Calls

abbrev ObjM : Type → Type := Prog Op Ans

def obj (o : Op) : ObjM (Ans o) := Prog.op o

/-- What a call returns. -/
inductive Result
  | done
  | opened (data : Bytes) (size : ℤ)
  | notFound
  | failed

/-- Writes the temporary file, renames it and adds the object to the index. -/
def fill (hash : Digest) (data : Bytes) : ObjM Result := do
  let written : Bool ← obj (.temp (.write data))
  if written = false then do
    let _ : Bool ← obj (.temp .close)
    pure .failed
  else do
    let synced : Bool ← obj (.temp .sync)
    if synced = false then do
      let _ : Bool ← obj (.temp .close)
      pure .failed
    else do
      let closed : Bool ← obj (.temp .close)
      if closed = false then pure .failed
      else do
        let renamed : Bool ← obj (.rename hash data)
        if renamed = false then pure .failed
        else do
          obj (.index hash data.length)
          pure .done

/-- Whether an object is known and its file is there. -/
def deduped (hash : Digest) : ObjM Bool := do
  let known : Bool ← obj (.known hash)
  if known then obj (.stat hash) else pure false

/-- Stores data under its content hash, skipping duplicates. -/
def putObject (hash : Digest) (data : Bytes) : ObjM Result := do
  let hit ← deduped hash
  if hit then pure .done
  else do
    let made : Bool ← obj (.temp .mkdir)
    if made = false then pure .failed
    else do
      let created : Bool ← obj (.temp .create)
      if created = false then pure .failed
      else do
        let result ← fill hash data
        let _ : Bool ← obj (.temp .remove)
        pure result

/-- Opens an object for streaming reads. -/
def openObject (hash : Digest) : ObjM Result := do
  let size : Option ℤ ← obj (.size hash)
  match size with
  | none => pure .notFound
  | some size => do
    let f : Opened ← obj (.read hash)
    match f with
    | .file data => pure (.opened data size)
    | .missing => pure .notFound
    | .failed => pure .failed

/-- Removes an object. -/
def deleteObject (hash : Digest) : ObjM Result := do
  obj (.unindex hash)
  let removal : Removal ← obj (.remove hash)
  if removal = .failed then pure .failed else pure .done

/-- Where a call is: between its rename and its entry in the index, between dropping an entry
and removing the file, or elsewhere. -/
inductive Doing
  | other
  | renamed (hash : Digest)
  | removing (hash : Digest)
  deriving DecidableEq

def observe (t : Doing) : (o : Op) → Ans o → Doing
  | .rename hash _, (ok : Bool) => if ok then .renamed hash else t
  | .unindex hash, _ => .removing hash
  | .index .., _ | .remove _, _ => .other
  | .known _, _ | .stat _, _ | .temp _, _ | .size _, _ | .read _, _ => t

variable (content : Digest → Bytes)

/-- The calls on the store. The objects are addressed by their content: all puts of a hash
bring the same data. -/
inductive Start : FS → Doing → ObjM Result → Prop
  | put (s : FS) (hash : Digest) : Start s .other (putObject hash (content hash))
  | read (s : FS) (hash : Digest) : Start s .other (openObject hash)
  | delete (s : FS) (hash : Digest) : Start s .other (deleteObject hash)

abbrev ObjPool : Type := Pool Op Ans Result Doing FS

/-- What happens to a store: a call starts or goes on, or the store is opened again, with
which all calls are gone. -/
inductive Event
  | call (e : Lib.Threads.Event Op Ans Doing)
  | reopen (files : List ObjFile)

/-- A reopened store finds the object files that there are, in any order, among others. -/
inductive Step : ObjPool → Event → ObjPool → Prop
  | call {x y : ObjPool} {e : Lib.Threads.Event Op Ans Doing} :
      Lib.Threads.Step Serves observe (Start content) x e y → Step x (.call e) y
  | reopen {x : ObjPool} {files : List ObjFile} :
      (files.filterMap ObjFile.entry).Perm (pairs x.shared.objects) →
      Step x (.reopen files) ⟨load files, ∅⟩

/-- A file is removed only while its hash is not in the index and no put is about to add it,
and the removal of a file fails only while the hash is in the index. -/
def Keeps (x : ObjPool) : Event → Prop
  | .call (.op _ (.remove hash) .removed) =>
      x.shared.objIndex.lookup hash = none ∧
        All (fun _ th => th.track ≠ .renamed hash) x.threads
  | .call (.op _ (.remove hash) .failed) =>
      x.shared.objects.lookup hash = none ∨ (x.shared.objIndex.lookup hash).isSome = true
  | _ => True

/-- Every hash in the index has its file with the indexed size, every object file is in the
index, and the total is the sum of the sizes. -/
structure Matches (s : FS) : Prop where
  files : All (fun hash size => ∃ data, s.objects.lookup hash = some data ∧
    (data.length : ℤ) = size) s.objIndex
  indexed : All (fun hash _ => (s.objIndex.lookup hash).isSome = true) s.objects
  total : s.totalBytes = total s.objIndex fun _ size => size

/-- All calls have returned. -/
def Quiet (x : ObjPool) : Prop := All (fun _ th => ∃ result, th.left = .ret result) x.threads

def fresh : ObjPool := ⟨load [], ∅⟩

end Calls

section Guarantee

variable {content : Digest → Bytes} {hash : Digest}

/-- The operations of a call, by where it is. -/
def Allows (content : Digest → Bytes) (t : Doing) : Op → Prop
  | .rename hash data => t = .other ∧ data = content hash
  | .index hash size => t = .renamed hash ∧ size = (content hash).length
  | .unindex _ => t = .other
  | .remove hash => t = .removing hash
  | .known _ | .stat _ | .temp _ | .size _ | .read _ => True

abbrev Stays (content : Digest → Bytes) {α : Type} (p : Prog Op Ans α) (t : Doing) : Prop :=
  Holds (Observes observe) (Allows content) (fun _ t' => t' = .other) p t

theorem deduped_stays (hash : Digest) : Stays content (deduped hash) .other := by
  refine ⟨trivial, ?_⟩
  rintro known t rfl
  cases known with
  | false => rfl
  | true =>
      refine ⟨trivial, ?_⟩
      rintro there t rfl
      rfl

theorem fill_stays (hash : Digest) : Stays content (fill hash (content hash)) .other := by
  refine ⟨trivial, ?_⟩
  rintro written t rfl
  cases written with
  | false => exact ⟨trivial, fun _ _ h => h⟩
  | true =>
      refine ⟨trivial, ?_⟩
      rintro synced t rfl
      cases synced with
      | false => exact ⟨trivial, fun _ _ h => h⟩
      | true =>
          refine ⟨trivial, ?_⟩
          rintro closed t rfl
          cases closed with
          | false => rfl
          | true =>
              refine ⟨⟨rfl, rfl⟩, ?_⟩
              rintro renamed t rfl
              cases renamed with
              | false => rfl
              | true => exact ⟨⟨rfl, rfl⟩, fun _ _ h => h⟩

theorem putObject_stays (hash : Digest) : Stays content (putObject hash (content hash)) .other := by
  rw [putObject, Stays, holds_bind]
  refine (deduped_stays hash).imp ?_
  rintro hit t rfl
  cases hit with
  | true => rfl
  | false =>
      refine ⟨trivial, ?_⟩
      rintro made t rfl
      cases made with
      | false => rfl
      | true =>
          refine ⟨trivial, ?_⟩
          rintro created t rfl
          cases created with
          | false => rfl
          | true =>
              change Holds _ _ _ (fill hash (content hash) >>= _) _
              rw [holds_bind]
              refine (fill_stays hash).imp ?_
              rintro result t rfl
              exact ⟨trivial, fun _ _ h => h⟩

theorem openObject_stays (hash : Digest) : Stays content (openObject hash) .other := by
  refine ⟨trivial, ?_⟩
  rintro size t rfl
  cases size with
  | none => rfl
  | some size =>
      refine ⟨trivial, ?_⟩
      rintro f t rfl
      cases f with
      | file => rfl
      | missing => rfl
      | failed => rfl

theorem deleteObject_stays (hash : Digest) : Stays content (deleteObject hash) .other := by
  refine ⟨rfl, ?_⟩
  rintro _ t rfl
  refine ⟨rfl, ?_⟩
  rintro removal t rfl
  cases removal with
  | removed => rfl
  | missing => rfl
  | failed => rfl

theorem start_stays (s : FS) (t : Doing) (p : ObjM Result) (h : Start content s t p) :
    Stays content p t := by
  cases h with
  | put hash => exact putObject_stays hash
  | read hash => exact openObject_stays hash
  | delete hash => exact deleteObject_stays hash

end Guarantee

section Invariant

variable {content : Digest → Bytes} {x : ObjPool} {s : FS} {hash : Digest} {data : Bytes} {n : ℕ}
variable {size : ℤ} {th : Thread Op Ans Result Doing}

/-- A call that has put or is about to remove the file of a hash. -/
def Pending (x : ObjPool) (hash : Digest) : Prop :=
  ∃ n th, x.threads.lookup n = some th ∧ (th.track = .renamed hash ∨ th.track = .removing hash)

/-- While calls cross, a file may be out of the index for a call that is about to add it or to
remove it. -/
structure Agrees (content : Digest → Bytes) (x : ObjPool) : Prop where
  contents : All (fun hash data => data.length = (content hash).length) x.shared.objects
  files : All (fun hash size => ∃ data, x.shared.objects.lookup hash = some data ∧
    (data.length : ℤ) = size) x.shared.objIndex
  indexed : All (fun hash _ => (x.shared.objIndex.lookup hash).isSome = true ∨ Pending x hash)
    x.shared.objects
  renamed : All (fun _ th => ∀ hash, th.track = .renamed hash →
    (x.shared.objects.lookup hash).isSome = true) x.threads
  total : x.shared.totalBytes = total x.shared.objIndex fun _ size => size

theorem lookup_index (s : FS) (hash hash' : Digest) (size : ℤ) :
    (s.index hash size).objIndex.lookup hash' =
      if hash' = hash ∧ s.objIndex.lookup hash = none then some size
      else s.objIndex.lookup hash' := by
  rw [FS.index]
  cases h : s.objIndex.lookup hash with
  | none =>
      rw [lookup_insert_eq]
      simp
  | some _ => simp

theorem total_index (s : FS) (hash : Digest) (size : ℤ)
    (h : s.totalBytes = total s.objIndex fun _ size => size) :
    (s.index hash size).totalBytes = total (s.index hash size).objIndex fun _ size => size := by
  rw [FS.index]
  cases hsize : s.objIndex.lookup hash with
  | none =>
      change s.totalBytes + size = total (s.objIndex.insert hash size) _
      rw [total_insert, hsize, h]
      simp
  | some _ => exact h

theorem lookup_unindex (s : FS) (hash hash' : Digest) :
    (s.unindex hash).objIndex.lookup hash' =
      if hash' = hash then none else s.objIndex.lookup hash' := by
  rw [FS.unindex]
  cases h : s.objIndex.lookup hash with
  | none =>
      dsimp only
      split
      next heq => exact heq ▸ h
      next => rfl
  | some size => exact lookup_erase_eq s.objIndex hash hash'

theorem total_unindex (s : FS) (hash : Digest)
    (h : s.totalBytes = total s.objIndex fun _ size => size) :
    (s.unindex hash).totalBytes = total (s.unindex hash).objIndex fun _ size => size := by
  rw [FS.unindex]
  cases hsize : s.objIndex.lookup hash with
  | none => exact h
  | some size =>
      change s.totalBytes - size = total (s.objIndex.erase hash) _
      rw [total_erase, hsize, h]
      rfl

/-- A pending call stays pending while another takes a step, or itself, to where it is pending
still. -/
theorem Pending.step (h : Pending x hash) {p : ObjM Result} {t t' : Doing} {q : ObjM Result}
    (hthread : x.threads.lookup n = some ⟨q, t⟩)
    (hstays : t = .renamed hash ∨ t = .removing hash → t' = .renamed hash ∨ t' = .removing hash) :
    Pending { shared := s, threads := x.threads.insert n ⟨p, t'⟩ } hash := by
  obtain ⟨m, th, hm, hpending⟩ := h
  by_cases hmn : m = n
  · subst hmn
    obtain rfl := Option.some.inj (hthread.symm.trans hm)
    exact ⟨m, ⟨p, t'⟩, AList.lookup_insert _, hstays hpending⟩
  · exact ⟨m, th, (AList.lookup_insert_ne hmn).trans hm, hpending⟩

section Threads

variable {p q : ObjM Result} {t t' : Doing}

theorem Agrees.start (h : Agrees content x) (hfree : x.threads.lookup n = none) :
    Agrees content { x with threads := x.threads.insert n ⟨p, .other⟩ } where
  contents := h.contents
  files := h.files
  indexed := by
    intro hash data hdata
    refine (h.indexed hash data hdata).imp_right ?_
    rintro ⟨m, th, hm, hpending⟩
    have hne : m ≠ n := by
      rintro rfl
      rw [hfree] at hm
      cases hm
    exact ⟨m, th, (AList.lookup_insert_ne hne).trans hm, hpending⟩
  renamed := h.renamed.insert nofun
  total := h.total

/-- A step that leaves the store as it is. -/
theorem Agrees.quiet (h : Agrees content x) (hthread : x.threads.lookup n = some ⟨q, t⟩)
    (hrenamed : ∀ hash, t' = .renamed hash → t = t')
    (hstays : ∀ hash, t = .renamed hash ∨ t = .removing hash → t' = t ∨
      x.shared.objects.lookup hash = none ∨ (x.shared.objIndex.lookup hash).isSome = true) :
    Agrees content { x with threads := x.threads.insert n ⟨p, t'⟩ } where
  contents := h.contents
  files := h.files
  indexed := by
    intro hash data hdata
    rcases h.indexed hash data hdata with hindexed | hpending
    · exact .inl hindexed
    · by_cases hindexed : (x.shared.objIndex.lookup hash).isSome = true
      · exact .inl hindexed
      · refine .inr (hpending.step hthread fun ht => ?_)
        rcases hstays hash ht with rfl | hnone | hsome
        · exact ht
        · exact nomatch hnone.symm.trans hdata
        · exact absurd hsome hindexed
  renamed := by
    refine h.renamed.insert fun hash ht => ?_
    exact h.renamed n _ hthread hash (hrenamed hash ht ▸ ht)
  total := h.total

theorem Agrees.rename (h : Agrees content x) (hthread : x.threads.lookup n = some ⟨q, .other⟩) :
    Agrees content
      { shared := { x.shared with objects := x.shared.objects.insert hash (content hash) }
        threads := x.threads.insert n ⟨p, .renamed hash⟩ } where
  contents := h.contents.insert rfl
  files := by
    intro hash' size hsize
    obtain ⟨data, hdata, hlength⟩ := h.files hash' size hsize
    rw [lookup_insert_eq]
    split
    next heq =>
      subst heq
      exact ⟨_, rfl, by rw [← hlength, h.contents hash' data hdata]⟩
    next => exact ⟨data, hdata, hlength⟩
  indexed := by
    refine All.insert (fun hash' data hdata => ?_) (.inr ⟨n, _, AList.lookup_insert _, .inl rfl⟩)
    exact (h.indexed hash' data hdata).imp_right fun hpending =>
      hpending.step hthread fun ht => nomatch ht
  renamed := by
    apply All.insert
    · intro m th hm hash' ht
      rw [lookup_insert_eq]
      split
      · rfl
      · exact h.renamed m th hm hash' ht
    · intro hash' ht
      cases ht
      rw [AList.lookup_insert]
      rfl
  total := h.total

theorem Agrees.index (h : Agrees content x)
    (hthread : x.threads.lookup n = some ⟨q, .renamed hash⟩) :
    Agrees content
      { shared := x.shared.index hash (content hash).length
        threads := x.threads.insert n ⟨p, .other⟩ } := by
  have hobjects : (x.shared.index hash (content hash).length).objects = x.shared.objects := by
    rw [FS.index]
    split
    · rfl
    · rfl
  obtain ⟨data, hdata⟩ := Option.isSome_iff_exists.mp (h.renamed n _ hthread hash rfl)
  constructor
  · rw [hobjects]
    exact h.contents
  · intro hash' size hsize
    rw [lookup_index] at hsize
    rw [hobjects]
    split at hsize
    next heq =>
      cases hsize
      obtain ⟨rfl, -⟩ := heq
      exact ⟨data, hdata, by rw [h.contents hash' data hdata]⟩
    next => exact h.files hash' size hsize
  · rw [hobjects]
    intro hash' data' hdata'
    dsimp only
    rw [lookup_index]
    by_cases heq : hash' = hash
    · left
      cases hsize : x.shared.objIndex.lookup hash with
      | none => rw [if_pos ⟨heq, rfl⟩, Option.isSome_some]
      | some size => rw [if_neg (fun hnone => nomatch hnone.2), heq, hsize, Option.isSome_some]
    · rw [if_neg fun hboth => heq hboth.1]
      refine (h.indexed hash' data' hdata').imp_right fun hpending => hpending.step hthread ?_
      rintro (ht | ht)
      · cases ht
        exact absurd rfl heq
      · cases ht
  · rw [hobjects]
    refine h.renamed.insert nofun
  · exact total_index x.shared hash _ h.total

theorem Agrees.unindex (h : Agrees content x) (hthread : x.threads.lookup n = some ⟨q, .other⟩) :
    Agrees content
      { shared := x.shared.unindex hash, threads := x.threads.insert n ⟨p, .removing hash⟩ } := by
  have hobjects : (x.shared.unindex hash).objects = x.shared.objects := by
    rw [FS.unindex]
    split
    · rfl
    · rfl
  constructor
  · rw [hobjects]
    exact h.contents
  · intro hash' size hsize
    rw [lookup_unindex] at hsize
    rw [hobjects]
    split at hsize
    next => cases hsize
    next => exact h.files hash' size hsize
  · rw [hobjects]
    intro hash' data hdata
    dsimp only
    rw [lookup_unindex]
    split
    next heq => exact .inr ⟨n, _, AList.lookup_insert _, .inr (heq ▸ rfl)⟩
    next =>
      exact (h.indexed hash' data hdata).imp_right fun hpending =>
        hpending.step hthread fun ht => nomatch ht
  · rw [hobjects]
    refine h.renamed.insert nofun
  · exact total_unindex x.shared hash h.total

theorem Agrees.remove (h : Agrees content x)
    (hthread : x.threads.lookup n = some ⟨q, .removing hash⟩)
    (hout : x.shared.objIndex.lookup hash = none)
    (hfree : All (fun _ th => th.track ≠ .renamed hash) x.threads) :
    Agrees content
      { shared := { x.shared with objects := x.shared.objects.erase hash }
        threads := x.threads.insert n ⟨p, .other⟩ } where
  contents := h.contents.erase hash
  files := by
    intro hash' size hsize
    rw [lookup_erase_eq, if_neg]
    · exact h.files hash' size hsize
    · rintro rfl
      rw [hout] at hsize
      cases hsize
  indexed := by
    intro hash' data hdata
    rw [lookup_erase_eq] at hdata
    split at hdata
    next => cases hdata
    next hne =>
      refine (h.indexed hash' data hdata).imp_right fun hpending => hpending.step hthread ?_
      rintro (ht | ht)
      · cases ht
      · cases ht
        exact absurd rfl hne
  renamed := by
    apply All.insert
    · intro m th hm hash' ht
      rw [lookup_erase_eq, if_neg]
      · exact h.renamed m th hm hash' ht
      · rintro rfl
        exact hfree m th hm ht
    · exact nofun
  total := h.total

end Threads

end Invariant

section Load

variable {content : Digest → Bytes} {s : FS} {files : List ObjFile} {hash : Digest} {data : Bytes}

/-- A store as it is loaded: the index lists the files. -/
structure Loaded (s : FS) : Prop where
  index : ∀ hash, s.objIndex.lookup hash =
    (s.objects.lookup hash).map fun data => (data.length : ℤ)
  total : s.totalBytes = total s.objIndex fun _ size => size

theorem Loaded.object (h : Loaded s) (hfresh : s.objects.lookup hash = none) :
    Loaded (loadFile s (.object hash data)) where
  index := by
    intro hash'
    change (s.objIndex.insert hash _).lookup hash' = ((s.objects.insert hash data).lookup hash').map _
    rw [lookup_insert_eq, lookup_insert_eq, h.index hash']
    split
    · rfl
    · rfl
  total := by
    change s.totalBytes + _ = Lib.FiniteMap.total (s.objIndex.insert hash _) _
    rw [total_insert, h.index, hfresh, h.total]
    simp

/-- A walk over files of different hashes loads each. -/
theorem Loaded.walk (h : Loaded s) (files : List ObjFile)
    (hnodup : ((files.filterMap ObjFile.entry).map Prod.fst).Nodup)
    (hfresh : ∀ e ∈ files.filterMap ObjFile.entry, s.objects.lookup e.1 = none) :
    Loaded (files.foldl loadFile s) ∧
      ∀ hash data, (files.foldl loadFile s).objects.lookup hash = some data →
        s.objects.lookup hash = some data ∨ (hash, data) ∈ files.filterMap ObjFile.entry := by
  induction files generalizing s with
  | nil => exact ⟨h, fun _ _ => .inl⟩
  | cons f files ih =>
      cases f with
      | temp name => exact ih h hnodup hfresh
      | stray name => exact ih h hnodup hfresh
      | object hash data =>
          obtain ⟨hnew, hnodup⟩ := List.nodup_cons.mp hnodup
          have hobject : Loaded (loadFile s (.object hash data)) :=
            h.object (hfresh (hash, data) List.mem_cons_self)
          have hfresh' : ∀ e ∈ files.filterMap ObjFile.entry,
              (loadFile s (.object hash data)).objects.lookup e.1 = none := by
            intro e he
            change (s.objects.insert hash data).lookup e.1 = none
            rw [lookup_insert_eq, if_neg]
            · exact hfresh e (List.mem_cons_of_mem _ he)
            · rintro rfl
              exact hnew (List.mem_map.mpr ⟨e, he, rfl⟩)
          obtain ⟨hloaded, hfrom⟩ := ih hobject hnodup hfresh'
          refine ⟨hloaded, fun hash' data' hdata => ?_⟩
          rcases hfrom hash' data' hdata with hold | hmem
          · change (s.objects.insert hash data).lookup hash' = some data' at hold
            rw [lookup_insert_eq] at hold
            split at hold
            next heq =>
              cases hold
              exact .inr (heq ▸ List.mem_cons_self)
            next => exact .inl hold
          · exact .inr (List.mem_cons_of_mem _ hmem)

theorem loaded_empty : Loaded ⟨∅, 0, ∅⟩ := ⟨fun _ => rfl, rfl⟩

theorem Loaded.agrees (h : Loaded s)
    (hcontents : All (fun hash data => data.length = (content hash).length) s.objects) :
    Agrees content ⟨s, ∅⟩ where
  contents := hcontents
  files := by
    intro hash size hsize
    rw [h.index, Option.map_eq_some_iff] at hsize
    exact hsize
  indexed := by
    intro hash data hdata
    dsimp only at hdata ⊢
    rw [h.index, hdata]
    exact .inl rfl
  renamed := all_empty
  total := h.total

/-- A store that is opened again agrees with its files, whatever calls it leaves behind. -/
theorem Agrees.reopen {x : ObjPool} (h : Agrees content x)
    (hperm : (files.filterMap ObjFile.entry).Perm (pairs x.shared.objects)) :
    Agrees content ⟨load files, ∅⟩ := by
  have hnodup : ((files.filterMap ObjFile.entry).map Prod.fst).Nodup := by
    refine (hperm.map Prod.fst).nodup_iff.mpr ?_
    rw [map_fst_pairs]
    exact x.shared.objects.keys_nodup
  obtain ⟨hloaded, hfrom⟩ := loaded_empty.walk files hnodup fun e _ => AList.lookup_empty e.1
  refine hloaded.agrees fun hash data hdata => ?_
  rcases hfrom hash data hdata with hnone | hmem
  · cases (AList.lookup_empty hash).symm.trans hnone
  · exact h.contents hash data (mem_pairs.mp (hperm.mem_iff.mp hmem))

end Load

section Runs

variable {content : Digest → Bytes} {x y : ObjPool} {es : List Event}

theorem Agrees.op (h : Agrees content x) {n : ℕ} {t : Doing} {o : Op} {next : Ans o → ObjM Result}
    {ans : Ans o} {s' : FS} (hthread : x.threads.lookup n = some ⟨.call o next, t⟩)
    (hallowed : Allows content t o) (hserves : Serves x.shared o ans s')
    (hkeeps : Keeps x (.call (.op n o ans))) :
    Agrees content { shared := s', threads := x.threads.insert n ⟨next ans, observe t o ans⟩ } := by
  have hsame (p : ObjM Result) :
      Agrees content { x with threads := x.threads.insert n ⟨p, t⟩ } :=
    h.quiet hthread (fun _ _ => rfl) fun _ _ => .inl rfl
  cases hserves with
  | known => exact hsame _
  | stat => exact hsame _
  | temp => exact hsame _
  | renamed =>
      obtain ⟨rfl, rfl⟩ := hallowed
      exact h.rename hthread
  | notRenamed => exact hsame _
  | index =>
      obtain ⟨rfl, rfl⟩ := hallowed
      exact h.index hthread
  | size => exact hsame _
  | opened => exact hsame _
  | notThere => exact hsame _
  | notOpened => exact hsame _
  | unindex =>
      obtain rfl : t = .other := hallowed
      exact h.unindex hthread
  | removed =>
      obtain rfl : t = .removing _ := hallowed
      exact h.remove hthread hkeeps.1 hkeeps.2
  | gone _ _ hnone =>
      obtain rfl : t = .removing _ := hallowed
      refine h.quiet hthread nofun fun hash' ht => .inr (.inl ?_)
      rcases ht with ht | ht
      · cases ht
      · cases ht
        exact hnone
  | notRemoved =>
      obtain rfl : t = .removing _ := hallowed
      refine h.quiet hthread nofun fun hash' ht => .inr ?_
      rcases ht with ht | ht
      · cases ht
      · cases ht
        exact hkeeps

/-- Every call keeps to its order, and the index agrees with the files. -/
def Good (content : Digest → Bytes) (x : ObjPool) : Prop :=
  Guarantees observe (Allows content) (fun _ t => t = .other) x ∧ Agrees content x

theorem good_step {e : Event} (h : Good content x) (hstep : Step content x e y)
    (hkeeps : Keeps x e) : Good content y := by
  cases hstep with
  | reopen hperm => exact ⟨guarantees_empty _, h.2.reopen hperm⟩
  | call hcall =>
      refine ⟨h.1.step start_stays hcall, ?_⟩
      cases hcall with
      | start hfree hstart =>
          cases hstart with
          | put => exact h.2.start hfree
          | read => exact h.2.start hfree
          | delete => exact h.2.start hfree
      | op hthread hserves =>
          exact h.2.op hthread (h.1 _ _ hthread).1 hserves hkeeps

theorem Good.matches (h : Good content x) (hquiet : Quiet x) : Matches x.shared where
  files := h.2.files
  indexed := by
    intro hash data hdata
    refine (h.2.indexed hash data hdata).resolve_right ?_
    rintro ⟨n, ⟨left, t⟩, hth, hpending⟩
    obtain ⟨result, rfl⟩ := hquiet n _ hth
    obtain rfl : t = .other := h.1 n _ hth
    rcases hpending with ht | ht
    · cases ht
    · cases ht
  total := h.2.total

/-- In every run that removes no file which a put has brought back, the index matches the
files whenever all calls have returned. -/
theorem index_matches (hrun : Runs (fun x e y => Step content x e y ∧ Keeps x e) fresh es y)
    (hquiet : Quiet y) : Matches y.shared := by
  have hfresh : Good content fresh := ⟨guarantees_empty _, loaded_empty.agrees all_empty⟩
  have hstep : ∀ x e y, Good content x → Step content x e y ∧ Keeps x e → Good content y :=
    fun x e y h hs => good_step h hs.1 hs.2
  exact (hrun.invariant hstep hfresh).matches hquiet

end Runs

section Sample

open Tactile.Publish.Extraction (letterDigest)

def letter (_ : Digest) : Bytes := [97]

def call (n : ℕ) (o : Op) (ans : Ans o) : Event := .call (.op n o ans)

/-- A put of an object that is not known. -/
def putEvents (n : ℕ) : List Event :=
  [.call (.start n .other), call n (.known letterDigest) false, call n (.temp .mkdir) true,
    call n (.temp .create) true, call n (.temp (.write [97])) true, call n (.temp .sync) true,
    call n (.temp .close) true, call n (.rename letterDigest [97]) true,
    call n (.index letterDigest 1) (), call n (.temp .remove) false]

/-- Such a put as it runs on its own. -/
theorem put_runs {x : ObjPool} {n : ℕ} (hfree : x.threads.lookup n = none)
    (hunknown : x.shared.objIndex.lookup letterDigest = none) :
    ∃ y, Runs (fun x e y => Step letter x e y ∧ Keeps x e) x (putEvents n) y ∧
      y.shared = ⟨x.shared.objIndex.insert letterDigest 1, x.shared.totalBytes + 1,
        x.shared.objects.insert letterDigest [97]⟩ ∧
      y.threads.lookup n = some ⟨.ret .done, .other⟩ ∧
      ∀ m, m ≠ n → y.threads.lookup m = x.threads.lookup m := by
  have hknown : Serves x.shared (.known letterDigest) false x.shared := by
    have hserves := Serves.known x.shared letterDigest
    rwa [hunknown] at hserves
  have hindex : ({ x.shared with objects := x.shared.objects.insert letterDigest [97] } : FS).index
      letterDigest 1 = ⟨x.shared.objIndex.insert letterDigest 1, x.shared.totalBytes + 1,
        x.shared.objects.insert letterDigest [97]⟩ := by
    rw [FS.index, hunknown]
  have hindexed := Serves.index
    { x.shared with objects := x.shared.objects.insert letterDigest [97] } letterDigest 1
  rw [hindex] at hindexed
  have hthread {d : Dict ℕ (Thread Op Ans Result Doing)} {th : Thread Op Ans Result Doing} :
      (d.insert n th).lookup n = some th := AList.lookup_insert d
  refine ⟨_, .cons ⟨.call (.start hfree (.put _ letterDigest)), trivial⟩
    (.cons ⟨.call (.op hthread hknown), trivial⟩
      (.cons ⟨.call (.op hthread (.temp _ _ _)), trivial⟩
        (.cons ⟨.call (.op hthread (.temp _ _ _)), trivial⟩
          (.cons ⟨.call (.op hthread (.temp _ _ _)), trivial⟩
            (.cons ⟨.call (.op hthread (.temp _ _ _)), trivial⟩
              (.cons ⟨.call (.op hthread (.temp _ _ _)), trivial⟩
                (.cons ⟨.call (.op hthread (.renamed _ _ _)), trivial⟩
                  (.cons ⟨.call (.op hthread hindexed), trivial⟩
                    (.cons ⟨.call (.op hthread (.temp _ _ _)), trivial⟩ (.nil _)))))))))),
    rfl, hthread, fun m hm => ?_⟩
  simp only [AList.lookup_insert_ne hm]

/-- The object is put, and the store opened again with a file left over. -/
theorem put_reopened : ∃ y, Runs (fun x e y => Step letter x e y ∧ Keeps x e) fresh
    (putEvents 0 ++ [.reopen [.temp ".tmp-1", .object letterDigest [97]]]) y ∧
      Matches y.shared := by
  have hfree : fresh.threads.lookup 0 = none := rfl
  obtain ⟨x, hput, hshared, -⟩ := put_runs hfree rfl
  have hperm : List.Perm [(letterDigest, [97])] (pairs x.shared.objects) := by
    rw [hshared]
    exact .refl _
  have hreopen : Step letter x (.reopen [.temp ".tmp-1", .object letterDigest [97]]) _ :=
    .reopen hperm
  have hrun := hput.append (.single ⟨hreopen, trivial⟩)
  exact ⟨_, hrun, index_matches hrun all_empty⟩

/-- The first half of a delete. -/
theorem drop_runs {x : ObjPool} {n : ℕ} (hfree : x.threads.lookup n = none) :
    ∃ y next, Runs (Step letter) x
        [.call (.start n .other), call n (.unindex letterDigest) ()] y ∧
      y.shared = x.shared.unindex letterDigest ∧
      y.threads.lookup n = some ⟨.call (.remove letterDigest) next, .removing letterDigest⟩ ∧
      next .removed = .ret .done ∧ ∀ m, m ≠ n → y.threads.lookup m = x.threads.lookup m := by
  refine ⟨_, _, .cons (.call (.start hfree (.delete _ letterDigest)))
    (.cons (.call (.op (AList.lookup_insert _) (.unindex _ _))) (.nil _)), rfl,
    AList.lookup_insert _, rfl, fun m hm => ?_⟩
  simp only [AList.lookup_insert_ne hm]

/-- An object is dropped from the index, put again by another call, and then its file is
removed. -/
theorem crossing_loses_file : ∃ y, Runs (Step letter) fresh
    (putEvents 0 ++ ([.call (.start 1 .other), call 1 (.unindex letterDigest) ()] ++
      (putEvents 2 ++ [call 1 (.remove letterDigest) .removed]))) y ∧
    Quiet y ∧ y.shared.objIndex.lookup letterDigest = some 1 ∧
    y.shared.objects.lookup letterDigest = none ∧ ¬Matches y.shared := by
  have hfree : fresh.threads.lookup 0 = none := rfl
  obtain ⟨x, hput, hshared, hdone, hothers⟩ := put_runs hfree rfl
  obtain ⟨y, next, hdrop, hdropped, hleft, hnext, hothers'⟩ := drop_runs (hothers 1 (by decide))
  have hfree' : y.threads.lookup 2 = none := by
    rw [hothers' 2 (by decide), hothers 2 (by decide)]
    rfl
  have hunknown : y.shared.objIndex.lookup letterDigest = none := by
    rw [hdropped, lookup_unindex, if_pos rfl]
  obtain ⟨z, hput', hshared', hdone', hothers''⟩ := put_runs hfree' hunknown
  have hthere : (z.shared.objects.lookup letterDigest).isSome = true := by
    rw [hshared', AList.lookup_insert]
    rfl
  have hthread := (hothers'' 1 (by decide)).trans hleft
  have hremove : Step letter z (call 1 (.remove letterDigest) .removed) _ :=
    .call (.op hthread (.removed z.shared letterDigest hthere))
  have hmono := hput'.mono fun _ _ _ h => h.1
  have hindex : z.shared.objIndex.lookup letterDigest = some 1 := by
    rw [hshared']
    exact AList.lookup_insert _
  have hgone : (z.shared.objects.erase letterDigest).lookup letterDigest = none :=
    AList.lookup_erase _ _
  refine ⟨_, (hput.mono fun _ _ _ h => h.1).append (hdrop.append (hmono.append (.single hremove))),
    ?_, hindex, hgone, fun hmatches => ?_⟩
  · have hreturned : All (fun _ th => ∃ result, th.left = .ret result) (z.threads.erase 1) := by
      intro m th hm
      rw [lookup_erase_eq] at hm
      split at hm
      next => cases hm
      next hone =>
        by_cases htwo : m = 2
        · obtain rfl := Option.some.inj (hdone'.symm.trans (htwo ▸ hm))
          exact ⟨.done, rfl⟩
        · rw [hothers'' m htwo, hothers' m hone] at hm
          by_cases hzero : m = 0
          · obtain rfl := Option.some.inj (hdone.symm.trans (hzero ▸ hm))
            exact ⟨.done, rfl⟩
          · rw [hothers m hzero] at hm
            cases hm
    intro m th hm
    dsimp only at hm
    rw [lookup_insert_eq] at hm
    split at hm
    next =>
      cases hm
      exact ⟨.done, hnext⟩
    next hone => exact hreturned m th (by rw [lookup_erase_eq, if_neg hone, hm])
  · obtain ⟨data, hdata, -⟩ := hmatches.files letterDigest 1 hindex
    cases hgone.symm.trans hdata

end Sample

end Tactile.Publish.ObjectIndex

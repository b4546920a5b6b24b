import Tactile.Storage.Backend

/-!
Filling a tree: directories are made and files written, nothing is taken out. A
filling that is cut and begun again ends as one that was not cut.
-/

namespace Tactile.Storage.Filling

open Tactile.Lib.FiniteMap
open Tactile.Storage.Paths Tactile.Storage.Idb Tactile.Storage.Opfs Tactile.Storage.Backend

/-- A directory with those above it, or a file. -/
inductive Fill
  | dir (path : Text)
  | file (path : Text) (text : String)

/-- The call of the backend. -/
def Fill.op : Fill → StorageOp
  | .dir path => .mkdir path true
  | .file path text => .writeTextFile path text

def Fill.path : Fill → Text
  | .dir path => path
  | .file path _ => path

variable (codec : TextCodec)

def Fill.apply : Fill → Tree → Except Failure Unit × Tree
  | .dir path, t => writing t path fun l => mkdirAt t l true
  | .file path text, t => writing t path fun l => writeFileAt t l (codec.encode text)

/-- What a filling puts at a place. -/
def Fill.put (f : Fill) (p : List Text) : Option Node :=
  match f with
  | .dir path => (pathSegments path).toOption.bind fun l => if p ∈ l.inits.tail then some .dir else none
  | .file path text =>
    (pathSegments path).toOption.bind fun l =>
      if p = l then some (.file (codec.encode text)) else none

/-- Each call of the list succeeds, one after another. -/
inductive Filled : List Fill → Tree → Tree → Prop
  | nil (t : Tree) : Filled [] t t
  | cons {f : Fill} {fs : List Fill} {t t' t'' : Tree} :
      f.apply codec t = (.ok (), t') → Filled fs t' t'' → Filled (f :: fs) t t''

def kindOf : Node → Bool
  | .dir => true
  | .file _ => false

/-- Directories stay directories and files stay files. -/
def Grows (t t' : Tree) : Prop :=
  ∀ p node, t.lookup p = some node → ∃ node', t'.lookup p = some node' ∧ kindOf node' = kindOf node

theorem Grows.refl (t : Tree) : Grows t t := fun _ node h => ⟨node, h, rfl⟩

theorem Grows.trans {t t' t'' : Tree} (h : Grows t t') (h' : Grows t' t'') : Grows t t'' := by
  intro p node hp
  obtain ⟨node', hp', hkind⟩ := h p node hp
  obtain ⟨node'', hp'', hkind'⟩ := h' p node' hp'
  exact ⟨node'', hp'', hkind'.trans hkind⟩

theorem Grows.isDir {t t' : Tree} (h : Grows t t') {l : List Text} (hl : t.isDir l) : t'.isDir l := by
  refine isDir_kept hl fun hstored => ?_
  obtain ⟨node, hnode, hkind⟩ := h l .dir hstored
  cases node with
  | dir => exact hnode
  | file contents => cases hkind

section Steps

variable {codec} {f : Fill} {fs : List Fill} {t t' s T : Tree}

/-- After a filling, each place has what is put there or what it had. -/
theorem Fill.lookup_apply (h : f.apply codec t = (.ok (), t')) (p : List Text) :
    t'.lookup p = (f.put codec p).or (t.lookup p) := by
  cases f with
  | dir path =>
      obtain ⟨l, hl, hmade⟩ := of_writing h
      rw [mkdirAt, if_pos rfl] at hmade
      rw [lookup_makeDirs hmade, Fill.put, hl]
      change _ = Option.or (if p ∈ l.inits.tail then some Node.dir else none) _
      split <;> rfl
  | file path text =>
      obtain ⟨l, hl, hwritten⟩ := of_writing h
      obtain ⟨-, -, rfl⟩ := writeFileAt_eq_ok.mp hwritten
      rw [lookup_insert_eq, Fill.put, hl]
      change _ = Option.or (if p = l then some (Node.file (codec.encode text)) else none) _
      split <;> rfl

/-- What is put at a place is of the kind that was there. -/
theorem Fill.fits (h : f.apply codec t = (.ok (), t')) {p : List Text} {node node' : Node}
    (hput : f.put codec p = some node) (hp : t.lookup p = some node') : kindOf node = kindOf node' := by
  cases f with
  | dir path =>
      obtain ⟨l, hl, hmade⟩ := of_writing h
      rw [mkdirAt, if_pos rfl] at hmade
      rw [Fill.put, hl] at hput
      change (if p ∈ l.inits.tail then some .dir else none) = some node at hput
      split at hput
      next hmem =>
        cases hput
        cases node' with
        | dir => rfl
        | file contents => exact absurd hp (makeDirs_ok_iff.mp ⟨t', hmade⟩ p hmem contents)
      next => cases hput
  | file path text =>
      obtain ⟨l, hl, hwritten⟩ := of_writing h
      obtain ⟨-, hdir, rfl⟩ := writeFileAt_eq_ok.mp hwritten
      rw [Fill.put, hl] at hput
      change (if p = l then some (.file (codec.encode text)) else none) = some node at hput
      split at hput
      next heq =>
        subst heq
        cases hput
        cases node' with
        | dir => exact absurd (isDir_eq_true.mpr (.inr hp)) hdir
        | file contents => rfl
      next => cases hput

theorem Fill.grows (h : f.apply codec t = (.ok (), t')) : Grows t t' := by
  intro p node hp
  rw [Fill.lookup_apply h]
  cases hput : f.put codec p with
  | none => exact ⟨node, hp, rfl⟩
  | some node' => exact ⟨node', rfl, Fill.fits h hput hp⟩

/-- What succeeds in a tree succeeds in a larger one that can still grow to what
comes after. -/
theorem Fill.again (h : f.apply codec t = (.ok (), t')) (hts : Grows t s) (hs : Grows s T)
    (hT : Grows t' T) : ∃ s', f.apply codec s = (.ok (), s') ∧ Grows t' s' ∧ Grows s' T := by
  have hfits : ∀ p node node', f.put codec p = some node → s.lookup p = some node' →
      kindOf node = kindOf node' := by
    intro p node node' hput hp
    have hp' : t'.lookup p = some node := by rw [Fill.lookup_apply h, hput]; rfl
    obtain ⟨last, hlast, hkind⟩ := hT p node hp'
    obtain ⟨last', hlast', hkind'⟩ := hs p node' hp
    rw [hlast] at hlast'
    cases hlast'
    exact hkind.symm.trans hkind'
  obtain ⟨s', hs'⟩ : ∃ s', f.apply codec s = (.ok (), s') := by
    cases f with
    | dir path =>
        obtain ⟨l, hl, -⟩ := of_writing h
        rw [Fill.apply, writing_ok hl, mkdirAt, if_pos rfl, makeDirs_ok_iff]
        intro p hp contents hstored
        have hput : (Fill.dir path).put codec p = some .dir := by
          rw [Fill.put, hl]
          exact if_pos hp
        cases hfits p _ _ hput hstored
    | file path text =>
        obtain ⟨l, hl, hwritten⟩ := of_writing h
        obtain ⟨hparent, hdir, -⟩ := writeFileAt_eq_ok.mp hwritten
        refine ⟨s.insert l (.file (codec.encode text)), ?_⟩
        rw [Fill.apply, writing_ok hl, writeFileAt_eq_ok]
        refine ⟨hts.isDir hparent, fun hstored => ?_, rfl⟩
        rcases isDir_eq_true.mp hstored with rfl | hstored
        · exact hdir (isDir_nil t)
        · have hput : (Fill.file path text).put codec l = some (.file (codec.encode text)) := by
            rw [Fill.put, hl]
            exact if_pos rfl
          cases hfits l _ _ hput hstored
  refine ⟨s', hs', fun p node hp => ?_, fun p node hp => ?_⟩
  · rw [Fill.lookup_apply h] at hp
    rw [Fill.lookup_apply hs']
    cases hput : f.put codec p with
    | none =>
        rw [hput] at hp
        exact hts p node hp
    | some node' =>
        rw [hput] at hp
        cases hp
        exact ⟨node, rfl, rfl⟩
  · rw [Fill.lookup_apply hs'] at hp
    cases hput : f.put codec p with
    | none =>
        rw [hput] at hp
        exact hs p node hp
    | some node' =>
        rw [hput] at hp
        cases hp
        exact hT p node (by rw [Fill.lookup_apply h, hput]; rfl)

theorem Filled.grows (h : Filled codec fs t t') : Grows t t' := by
  induction h with
  | nil t => exact .refl t
  | cons hf _ ih => exact (Fill.grows hf).trans ih

theorem Filled.append {gs : List Fill} (h : Filled codec fs t s) (h' : Filled codec gs s t') :
    Filled codec (fs ++ gs) t t' := by
  induction h with
  | nil => exact h'
  | cons hf _ ih => exact .cons hf (ih h')

theorem Filled.of_append {gs : List Fill} (h : Filled codec (fs ++ gs) t t') :
    ∃ s, Filled codec fs t s ∧ Filled codec gs s t' := by
  induction fs generalizing t with
  | nil => exact ⟨t, .nil t, h⟩
  | cons f fs ih =>
      cases h with
      | cons hf hrest =>
          obtain ⟨s, hfs, hgs⟩ := ih hrest
          exact ⟨s, .cons hf hfs, hgs⟩

theorem Filled.unique (h : Filled codec fs t s) (h' : Filled codec fs t t') : s = t' := by
  induction h with
  | nil =>
      cases h'
      rfl
  | cons hf _ ih =>
      cases h' with
      | cons hf' hrest =>
          rw [hf] at hf'
          cases hf'
          exact ih hrest

theorem Filled.path_ok (h : Filled codec fs t t') (hf : f ∈ fs) :
    ∃ l, pathSegments f.path = .ok l := by
  induction h with
  | nil => cases hf
  | cons hg _ ih =>
      rcases List.mem_cons.mp hf with rfl | hf
      · cases f with
        | dir path =>
            obtain ⟨l, hl, -⟩ := of_writing hg
            exact ⟨l, hl⟩
        | file path text =>
            obtain ⟨l, hl, -⟩ := of_writing hg
            exact ⟨l, hl⟩
      · exact ih hf

/-- What is put at a place stays, up to the content of a file. -/
theorem Filled.kind_put (h : Filled codec fs t t') (hf : f ∈ fs) {p : List Text} {node : Node}
    (hput : f.put codec p = some node) :
    ∃ node', t'.lookup p = some node' ∧ kindOf node' = kindOf node := by
  induction h with
  | nil => cases hf
  | cons hg hrest ih =>
      rcases List.mem_cons.mp hf with rfl | hf
      · refine hrest.grows p node ?_
        rw [Fill.lookup_apply hg, hput]
        rfl
      · exact ih hf

/-- A place where nothing is put is as it was. -/
theorem Filled.frame (h : Filled codec fs t t') {p : List Text}
    (hp : ∀ f ∈ fs, f.put codec p = none) : t'.lookup p = t.lookup p := by
  induction h with
  | nil => rfl
  | @cons f _ _ _ _ hf _ ih =>
      rw [ih fun g hg => hp g (List.mem_cons_of_mem f hg), Fill.lookup_apply hf,
        hp f List.mem_cons_self]
      rfl

/-- Where all that is put at a place is the same, it is there in the end. -/
theorem Filled.lookup_put (h : Filled codec fs t t') {p : List Text} {node : Node}
    (hsame : ∀ f ∈ fs, ∀ node', f.put codec p = some node' → node' = node)
    (hp : t.lookup p = some node ∨ ∃ f ∈ fs, f.put codec p = some node) :
    t'.lookup p = some node := by
  induction h with
  | nil => exact hp.resolve_right fun ⟨_, hf, _⟩ => nomatch hf
  | @cons f fs t t₁ _ hf _ ih =>
      refine ih (fun g hg => hsame g (List.mem_cons_of_mem f hg)) ?_
      rw [Fill.lookup_apply hf]
      cases hput : f.put codec p with
      | some node' => exact .inl (congrArg some (hsame f List.mem_cons_self node' hput))
      | none =>
          refine hp.imp id ?_
          rintro ⟨g, hg, hnode⟩
          rcases List.mem_cons.mp hg with rfl | hg
          · rw [hput] at hnode
            cases hnode
          · exact ⟨g, hg, hnode⟩

/-- Begun again in a tree that the list can still fill, the list succeeds again and
ends in the same tree. -/
theorem Filled.again (h : Filled codec fs t T) (hts : Grows t s) (hs : Grows s T)
    (hsame : ∀ p, (∃ f ∈ fs, f.put codec p ≠ none) ∨ s.lookup p = t.lookup p) :
    ∃ T', Filled codec fs s T' ∧ ∀ p, T'.lookup p = T.lookup p := by
  induction h generalizing s with
  | nil t => exact ⟨s, .nil s, fun p => (hsame p).resolve_left fun ⟨_, hf, _⟩ => nomatch hf⟩
  | @cons f fs t t' T hf hrest ih =>
      obtain ⟨s', hs', hts', hsT⟩ := Fill.again hf hts hs hrest.grows
      have hsame' : ∀ p, (∃ g ∈ fs, g.put codec p ≠ none) ∨ s'.lookup p = t'.lookup p := by
        intro p
        rw [Fill.lookup_apply hs', Fill.lookup_apply hf]
        cases hput : f.put codec p with
        | some node => exact .inr rfl
        | none =>
            refine (hsame p).imp ?_ id
            rintro ⟨g, hg, hne⟩
            rcases List.mem_cons.mp hg with rfl | hg
            · exact absurd hput hne
            · exact ⟨g, hg, hne⟩
      obtain ⟨T', hT', hlookup⟩ := ih hts' hsT hsame'
      exact ⟨T', .cons hs' hT', hlookup⟩

/-- A filling that is cut and begun again ends in the tree of one that is not. -/
theorem Filled.resume {pre post : List Fill} (h : Filled codec pre t s) (h' : Filled codec post s T) :
    ∃ T', Filled codec (pre ++ post) s T' ∧ ∀ p, T'.lookup p = T.lookup p := by
  refine (h.append h').again h.grows h'.grows fun p => ?_
  by_cases hput : ∃ f ∈ pre, f.put codec p ≠ none
  · obtain ⟨f, hf, hne⟩ := hput
    exact .inl ⟨f, List.mem_append_left post hf, hne⟩
  · refine .inr (h.frame fun f hf => ?_)
    by_contra hne
    exact hput ⟨f, hf, hne⟩

end Steps

end Tactile.Storage.Filling

import Mathlib.Data.List.Infix
import Tactile.Lib.Split

/-!
The path helpers of the storage backends, on texts as lists of characters, and
what they compute on the text of a list of names.
-/

namespace Tactile.Storage.Paths

open Tactile.Lib.Split

abbrev Text : Type := List Char

/-- The codes of `StorageError`. -/
inductive ErrCode
  | invalidPath
  | notFound
  | alreadyExists
  | notEmpty
  | isDirectory
  | notDirectory
  | unsupported
  | locked
  | quota
  deriving DecidableEq

structure StorageError where
  message : String
  code : ErrCode
  deriving DecidableEq

def storageError (message : String) (path : Text) (code : ErrCode) : StorageError :=
  ⟨message ++ String.ofList path, code⟩

/-- The segments that `normalizePath` keeps. -/
def keepSegments (path : Text) : List Text → Except StorageError (List Text)
  | [] => .ok []
  | segment :: rest =>
    if segment = [] ∨ segment = ['.'] then keepSegments path rest
    else if segment = ['.', '.'] then
      .error (storageError "Path traversal is not allowed: " path .invalidPath)
    else do
      let segments ← keepSegments path rest
      pure (segment :: segments)

def normalizePath (path : Text) : Except StorageError Text :=
  if path = [] then .error (storageError "Invalid path: " path .invalidPath)
  else do
    let segments ← keepSegments path (path.splitOn '/')
    pure ('/' :: ['/'].intercalate segments)

/-- The place of the last slash, -1 where there is none. -/
def lastIndexOfSlash (s : Text) : ℤ := (s.length : ℤ) - 1 - (s.reverse.idxOf '/' : ℤ)

def parentPath (path : Text) : Except StorageError Text := do
  let normalized ← normalizePath path
  let idx := lastIndexOfSlash normalized
  pure (if idx ≤ 0 then ['/'] else normalized.take idx.toNat)

def isRoot (path : Text) : Except StorageError Bool := do
  let normalized ← normalizePath path
  pure (normalized = ['/'])

def pathSegments (path : Text) : Except StorageError (List Text) := do
  let normalized ← normalizePath path
  pure (if normalized = ['/'] then [] else (normalized.drop 1).splitOn '/')

/-- Whether a path is an ancestor of another one or the same. -/
def isUnder (child ancestor : Text) : Except StorageError Bool := do
  let c ← normalizePath child
  let a ← normalizePath ancestor
  pure (a = ['/'] ∨ c = a ∨ (a ++ ['/']) <+: c)

def joinPath (parts : List Text) : Except StorageError Text :=
  normalizePath (['/'].intercalate parts)

def baseName (path : Text) : Except StorageError Text := do
  let normalized ← normalizePath path
  pure (normalized.drop (lastIndexOfSlash normalized + 1).toNat)

/-- Whether a segment starts with a dot. -/
def hasHiddenSegment (path : Text) : Except StorageError Bool := do
  let segments ← pathSegments path
  pure (segments.any fun s => s.head? = some '.')

/-- Whether a path is internal, by its segments: one under `.tactile` that is not in
`daily` there. -/
def isInternal (segments : List Text) : Bool :=
  match segments.idxOf? ".tactile".toList with
  | none => false
  | some tactileIndex => segments[tactileIndex + 1]? ≠ some "daily".toList

@[simp] theorem isInternal_nil : isInternal [] = false := rfl

theorem isInternal_cons (s : Text) (l : List Text) :
    isInternal (s :: l) =
      if s = ".tactile".toList then decide (l.head? ≠ some "daily".toList) else isInternal l := by
  rw [isInternal, List.idxOf?_cons]
  by_cases h : s = ".tactile".toList
  · rw [if_pos (beq_iff_eq.mpr h), if_pos h]
    cases l <;> rfl
  · rw [if_neg (mt beq_iff_eq.mp h), if_neg h, isInternal]
    cases l.idxOf? ".tactile".toList <;> rfl

theorem isInternal_of_notMem {l : List Text} (h : ".tactile".toList ∉ l) :
    isInternal l = false := by
  induction l with
  | nil => rfl
  | cons s l ih =>
      obtain ⟨hs, hl⟩ := not_or.mp (mt List.mem_cons.mpr h)
      rw [isInternal_cons, if_neg (Ne.symm hs)]
      exact ih hl

theorem isInternal_last {l : List Text} (h : ".tactile".toList ∉ l) :
    isInternal (l ++ [".tactile".toList]) = true := by
  induction l with
  | nil => rfl
  | cons s l ih =>
      obtain ⟨hs, hl⟩ := not_or.mp (mt List.mem_cons.mpr h)
      rw [List.cons_append, isInternal_cons, if_neg (Ne.symm hs)]
      exact ih hl

def isInternalPath (path : Text) : Except StorageError Bool := do
  let segments ← pathSegments path
  pure (isInternal segments)

/-- The UTF-16 code units of a text. -/
def codeUnits (s : Text) : List ℕ :=
  s.flatMap fun c =>
    if c.toNat < 0x10000 then [c.toNat]
    else [0xD800 + (c.toNat - 0x10000) / 0x400, 0xDC00 + (c.toNat - 0x10000) % 0x400]

/-- FNV-1a 32 bit hash, in hexadecimal digits. -/
def fnv1a (input : Text) : Text :=
  let hash := (codeUnits input).foldl
    (fun (hash : UInt32) unit => (hash ^^^ UInt32.ofNat unit) * 0x01000193) 0x811c9dc5
  let digits := Nat.toDigits 16 hash.toNat
  List.replicate (8 - digits.length) '0' ++ digits

def unreserved (c : Char) : Bool := c.isAlphanum ∨ c ∈ "-_.!~*()".toList ∨ c.toNat = 39

def percent (b : UInt8) : Text :=
  ['%', (b.toNat / 16).digitChar.toUpper, (b.toNat % 16).digitChar.toUpper]

def encodeURIComponent (s : Text) : Text :=
  s.flatMap fun c => if unreserved c then [c] else (String.utf8EncodeChar c).flatMap percent

/-- Encodes an absolute path as a single safe directory name. -/
def encodePathAsDir (path : Text) : Except StorageError Text := do
  let normalized ← normalizePath path
  pure ((encodeURIComponent normalized).take 120 ++ '-' :: fnv1a normalized)

section Names

/-- A name of a file or directory. -/
structure IsName (s : Text) : Prop where
  nonempty : s ≠ []
  notDot : s ≠ ['.']
  notDotDot : s ≠ ['.', '.']
  noSlash : '/' ∉ s

def Names (segments : List Text) : Prop := ∀ s ∈ segments, IsName s

instance (s : Text) : Decidable (IsName s) :=
  decidable_of_iff (s ≠ [] ∧ s ≠ ['.'] ∧ s ≠ ['.', '.'] ∧ '/' ∉ s)
    ⟨fun h => ⟨h.1, h.2.1, h.2.2.1, h.2.2.2⟩, fun h => ⟨h.1, h.2, h.3, h.4⟩⟩

instance (segments : List Text) : Decidable (Names segments) :=
  inferInstanceAs (Decidable (∀ s ∈ segments, IsName s))

/-- The path text of a list of names. -/
def render (segments : List Text) : Text := '/' :: ['/'].intercalate segments

/-- The text that a list of names adds to a path other than the root. -/
def suffix (segments : List Text) : Text := segments.flatMap ('/' :: ·)

theorem names_nil : Names [] := fun _ h => by cases h

theorem Names.append {l l' : List Text} (h : Names l) (h' : Names l') : Names (l ++ l') :=
  fun s hs => (List.mem_append.mp hs).elim (h s) (h' s)

theorem Names.of_subset {l l' : List Text} (h : Names l) (hsub : ∀ s ∈ l', s ∈ l) : Names l' :=
  fun s hs => h s (hsub s hs)

theorem names_append {l l' : List Text} : Names (l ++ l') ↔ Names l ∧ Names l' := by
  constructor
  · intro h
    exact ⟨h.of_subset fun _ => List.mem_append_left _, h.of_subset fun _ => List.mem_append_right _⟩
  · exact fun h => h.1.append h.2

@[simp] theorem render_nil : render [] = ['/'] := rfl

theorem render_eq_suffix {l : List Text} (h : l ≠ []) : render l = suffix l := by
  induction l with
  | nil => exact absurd rfl h
  | cons s l ih =>
      cases l with
      | nil => simp [render, suffix]
      | cons s' l =>
          have hrest := ih (List.cons_ne_nil s' l)
          rw [suffix, List.flatMap_cons, ← suffix, ← hrest, render, render,
            List.intercalate_cons_cons]
          simp

theorem suffix_append (l l' : List Text) : suffix (l ++ l') = suffix l ++ suffix l' :=
  List.flatMap_append

theorem render_concat (l : List Text) (s : Text) : render (l ++ [s]) = suffix l ++ '/' :: s := by
  rw [render_eq_suffix (by simp), suffix_append]
  simp [suffix]

theorem splitOn_cons_slash (t : Text) : ('/' :: t).splitOn '/' = [] :: t.splitOn '/' := by
  rw [List.splitOn_cons_eq_if_modifyHead]
  simp

theorem splitOn_suffix {l : List Text} (hl : Names l) : (suffix l).splitOn '/' = [] :: l := by
  by_cases hne : l = []
  · subst hne
    rfl
  · rw [← render_eq_suffix hne, render, splitOn_cons_slash]
    rw [List.splitOn_intercalate '/' (fun s hs => (hl s hs).noSlash) hne]

theorem keepSegments_names (path : Text) {l : List Text} (hl : Names l) :
    keepSegments path l = .ok l := by
  induction l with
  | nil => rfl
  | cons s l ih =>
      have hs := hl s List.mem_cons_self
      have hrest := ih fun s' hs' => hl s' (List.mem_cons_of_mem _ hs')
      rw [keepSegments, if_neg (not_or.mpr ⟨hs.nonempty, hs.notDot⟩), if_neg hs.notDotDot, hrest]
      rfl

theorem names_of_keepSegments {path : Text} {l r : List Text} (h : keepSegments path l = .ok r)
    (hl : ∀ s ∈ l, '/' ∉ s) : Names r := by
  induction l generalizing r with
  | nil =>
      cases h
      exact names_nil
  | cons s l ih =>
      have hrest : ∀ s' ∈ l, '/' ∉ s' := fun s' hs' => hl s' (List.mem_cons_of_mem _ hs')
      rw [keepSegments] at h
      split at h
      next => exact ih h hrest
      next hkeep =>
        split at h
        next => cases h
        next hdots =>
          cases hkept : keepSegments path l with
          | error e =>
              rw [hkept] at h
              cases h
          | ok segments =>
              rw [hkept] at h
              cases h
              obtain ⟨hempty, hdot⟩ := not_or.mp hkeep
              intro s' hs'
              rcases List.mem_cons.mp hs' with rfl | hs'
              · exact ⟨hempty, hdot, hdots, hl _ List.mem_cons_self⟩
              · exact ih hkept hrest s' hs'

theorem keepSegments_render (path : Text) {l : List Text} (hl : Names l) :
    keepSegments path ((render l).splitOn '/') = .ok l := by
  by_cases hne : l = []
  · subst hne
    rfl
  · rw [render_eq_suffix hne, splitOn_suffix hl, keepSegments, if_pos (.inl rfl)]
    exact keepSegments_names path hl

/-- The path that is named in errors does not matter to the segments kept. -/
theorem keepSegments_congr {path : Text} (path' : Text) {l r : List Text}
    (h : keepSegments path l = .ok r) : keepSegments path' l = .ok r := by
  induction l generalizing r with
  | nil => exact h
  | cons s l ih =>
      rw [keepSegments] at h ⊢
      split at h
      next hskip =>
        rw [if_pos hskip]
        exact ih h
      next hskip =>
        rw [if_neg hskip]
        split at h
        next => cases h
        next hdots =>
          rw [if_neg hdots]
          cases hkept : keepSegments path l with
          | error e =>
              rw [hkept] at h
              cases h
          | ok segments =>
              rw [hkept] at h
              rw [ih hkept]
              exact h

theorem keepSegments_append {path : Text} {l l' r : List Text}
    (h : keepSegments path l = .ok r) :
    keepSegments path (l ++ l') = (keepSegments path l').map (r ++ ·) := by
  induction l generalizing r with
  | nil =>
      cases h
      rw [List.nil_append]
      cases keepSegments path l' <;> rfl
  | cons s l ih =>
      rw [keepSegments] at h
      rw [List.cons_append, keepSegments]
      split at h
      next hskip => rw [if_pos hskip, ih h]
      next hskip =>
        rw [if_neg hskip]
        split at h
        next => cases h
        next hdots =>
          rw [if_neg hdots]
          cases hkept : keepSegments path l with
          | error e =>
              rw [hkept] at h
              cases h
          | ok segments =>
              rw [hkept] at h
              cases h
              rw [ih hkept]
              cases keepSegments path l' <;> rfl

/-- Where the segments of a text are kept, so are those of its first part. -/
theorem keepSegments_left {path : Text} {l l' r : List Text}
    (h : keepSegments path (l ++ l') = .ok r) : ∃ r', keepSegments path l = .ok r' := by
  induction l generalizing r with
  | nil => exact ⟨[], rfl⟩
  | cons s l ih =>
      rw [List.cons_append, keepSegments] at h
      rw [keepSegments]
      split at h
      next hskip =>
        rw [if_pos hskip]
        exact ih h
      next hskip =>
        rw [if_neg hskip]
        split at h
        next => cases h
        next hdots =>
          rw [if_neg hdots]
          cases hkept : keepSegments path (l ++ l') with
          | error e =>
              rw [hkept] at h
              cases h
          | ok segments =>
              obtain ⟨r', hr'⟩ := ih hkept
              rw [hr']
              exact ⟨s :: r', rfl⟩

theorem render_inj {l l' : List Text} (hl : Names l) (hl' : Names l')
    (h : render l = render l') : l = l' := by
  have hkept := keepSegments_render [] hl
  rw [h, keepSegments_render [] hl'] at hkept
  exact (Except.ok.inj hkept).symm

@[simp] theorem normalizePath_render {l : List Text} (hl : Names l) :
    normalizePath (render l) = .ok (render l) := by
  have hne : render l ≠ [] := List.cons_ne_nil _ _
  rw [normalizePath, if_neg hne, keepSegments_render _ hl]
  rfl

/-- What `normalizePath` returns is the text of a list of names. -/
theorem normalizePath_eq_ok {path q : Text} (h : normalizePath path = .ok q) :
    ∃ l, Names l ∧ q = render l := by
  rw [normalizePath] at h
  split at h
  next => cases h
  next =>
    cases hkept : keepSegments path (path.splitOn '/') with
    | error e =>
        rw [hkept] at h
        cases h
    | ok l =>
        rw [hkept] at h
        cases h
        exact ⟨l, names_of_keepSegments hkept fun s hs => notMem_of_mem_splitOn hs, rfl⟩

theorem keepSegments_code {path : Text} {l : List Text} {e : StorageError}
    (h : keepSegments path l = .error e) : e.code = .invalidPath := by
  induction l with
  | nil => cases h
  | cons s l ih =>
      rw [keepSegments] at h
      split at h
      next => exact ih h
      next =>
        split at h
        next =>
          cases h
          rfl
        next =>
          cases hkept : keepSegments path l with
          | error e' =>
              rw [hkept] at h
              cases h
              exact ih hkept
          | ok segments =>
              rw [hkept] at h
              cases h

theorem normalizePath_code {path : Text} {e : StorageError} (h : normalizePath path = .error e) :
    e.code = .invalidPath := by
  rw [normalizePath] at h
  split at h
  next =>
    cases h
    rfl
  next =>
    cases hkept : keepSegments path (path.splitOn '/') with
    | error e' =>
        rw [hkept] at h
        cases h
        exact keepSegments_code hkept
    | ok segments =>
        rw [hkept] at h
        cases h

theorem pathSegments_code {path : Text} {e : StorageError} (h : pathSegments path = .error e) :
    e.code = .invalidPath := by
  rw [pathSegments] at h
  cases hnorm : normalizePath path with
  | error e' =>
      rw [hnorm] at h
      cases h
      exact normalizePath_code hnorm
  | ok normalized =>
      rw [hnorm] at h
      cases h

theorem render_eq_root {l : List Text} (hl : Names l) : render l = ['/'] ↔ l = [] := by
  constructor
  · exact fun h => render_inj hl names_nil h
  · rintro rfl
    rfl

theorem isRoot_render {l : List Text} (hl : Names l) : isRoot (render l) = .ok (l = [] : Bool) := by
  rw [isRoot, normalizePath_render hl]
  change Except.ok _ = _
  simp only [render_eq_root hl]

theorem pathSegments_render {l : List Text} (hl : Names l) : pathSegments (render l) = .ok l := by
  rw [pathSegments, normalizePath_render hl]
  change Except.ok _ = _
  by_cases hne : l = []
  · subst hne
    rfl
  · rw [if_neg (mt (render_eq_root hl).mp hne)]
    have hsplit := splitOn_suffix hl
    rw [← render_eq_suffix hne, render, splitOn_cons_slash] at hsplit
    rw [render, List.drop_one, List.tail_cons, (List.cons.inj hsplit).2]

/-- The segments of a text are those that are kept of its parts. -/
theorem pathSegments_eq_ok {path : Text} {l : List Text} :
    pathSegments path = .ok l ↔ path ≠ [] ∧ keepSegments path (path.splitOn '/') = .ok l := by
  constructor
  · intro h
    rw [pathSegments, normalizePath] at h
    by_cases hempty : path = []
    · rw [if_pos hempty] at h
      cases h
    · rw [if_neg hempty] at h
      refine ⟨hempty, ?_⟩
      cases hkept : keepSegments path (path.splitOn '/') with
      | error e =>
          rw [hkept] at h
          cases h
      | ok segments =>
          have hnames := names_of_keepSegments hkept fun s hs => notMem_of_mem_splitOn hs
          have hnormal : pathSegments path = pathSegments (render segments) := by
            rw [pathSegments, pathSegments, normalizePath_render hnames, normalizePath,
              if_neg hempty, hkept]
            rfl
          rw [pathSegments, normalizePath, if_neg hempty] at hnormal
          rw [hnormal, pathSegments_render hnames] at h
          exact h
  · rintro ⟨hempty, hkept⟩
    have hnames := names_of_keepSegments hkept fun s hs => notMem_of_mem_splitOn hs
    rw [← pathSegments_render hnames, pathSegments, pathSegments, normalizePath_render hnames,
      normalizePath, if_neg hempty, hkept]
    rfl

theorem normalizePath_of_pathSegments {path : Text} {l : List Text}
    (h : pathSegments path = .ok l) : normalizePath path = .ok (render l) := by
  obtain ⟨hempty, hkept⟩ := pathSegments_eq_ok.mp h
  rw [normalizePath, if_neg hempty, hkept]
  rfl

theorem pathSegments_of_normalizePath {path : Text} {l : List Text} (hl : Names l)
    (h : normalizePath path = .ok (render l)) : pathSegments path = .ok l := by
  have hsame : pathSegments path = pathSegments (render l) := by
    rw [pathSegments, pathSegments, h, normalizePath_render hl]
  rw [hsame, pathSegments_render hl]

theorem joinPath_pair (p q : Text) : joinPath [p, q] = normalizePath (p ++ '/' :: q) := by
  simp [joinPath]

theorem names_of_pathSegments {path : Text} {l : List Text} (h : pathSegments path = .ok l) :
    Names l :=
  names_of_keepSegments (pathSegments_eq_ok.mp h).2 fun _ hs => notMem_of_mem_splitOn hs

/-- Two texts joined with a slash have the segments of the one and of the other. -/
theorem pathSegments_slash {p q : Text} {l r : List Text} (hp : pathSegments p = .ok l)
    (hq : keepSegments q (q.splitOn '/') = .ok r) :
    pathSegments (p ++ '/' :: q) = .ok (l ++ r) := by
  obtain ⟨-, hkept⟩ := pathSegments_eq_ok.mp hp
  refine pathSegments_eq_ok.mpr ⟨by simp, ?_⟩
  rw [List.splitOn_append_cons_self, keepSegments_append (keepSegments_congr _ hkept),
    keepSegments_congr _ hq]
  rfl

theorem pathSegments_name {p s : Text} {l : List Text} (hp : pathSegments p = .ok l)
    (hs : IsName s) : pathSegments (p ++ '/' :: s) = .ok (l ++ [s]) := by
  refine pathSegments_slash hp ?_
  rw [List.splitOn_eq_singleton hs.noSlash]
  exact keepSegments_names s fun s' hs' => List.mem_singleton.mp hs' ▸ hs

theorem pathSegments_left {p q : Text} {l : List Text} (hp : p ≠ [])
    (h : pathSegments (p ++ '/' :: q) = .ok l) : ∃ l', pathSegments p = .ok l' := by
  obtain ⟨-, hkept⟩ := pathSegments_eq_ok.mp h
  rw [List.splitOn_append_cons_self] at hkept
  obtain ⟨l', hl'⟩ := keepSegments_left hkept
  exact ⟨l', pathSegments_eq_ok.mpr ⟨hp, keepSegments_congr _ hl'⟩⟩

theorem pathSegments_prefix {p q : Text} {l : List Text} (hp : p ≠ [])
    (h : pathSegments (p ++ '/' :: q) = .ok l) : ∃ l', pathSegments p = .ok l' ∧ l' <+: l := by
  obtain ⟨l', hl'⟩ := pathSegments_left hp h
  refine ⟨l', hl', ?_⟩
  obtain ⟨-, hkept⟩ := pathSegments_eq_ok.mp h
  obtain ⟨-, hleft⟩ := pathSegments_eq_ok.mp hl'
  rw [List.splitOn_append_cons_self, keepSegments_append (keepSegments_congr _ hleft)] at hkept
  cases hrest : keepSegments (p ++ '/' :: q) (q.splitOn '/') with
  | error e =>
      rw [hrest] at hkept
      cases hkept
  | ok r =>
      rw [hrest] at hkept
      cases hkept
      exact List.prefix_append l' r

/-- The text of a relative path. -/
def relText (segments : List Text) : Text := ['/'].intercalate segments

theorem relText_append {l : List Text} (hl : l ≠ []) (s : Text) :
    relText (l ++ [s]) = relText l ++ '/' :: s := by
  have hboth : '/' :: relText (l ++ [s]) = '/' :: (relText l ++ '/' :: s) := by
    have hl' := render_eq_suffix hl
    have hls := render_eq_suffix (l := l ++ [s]) (by simp)
    change '/' :: relText l = suffix l at hl'
    change '/' :: relText (l ++ [s]) = suffix (l ++ [s]) at hls
    rw [hls, suffix_append, ← hl']
    simp [suffix]
  exact (List.cons.inj hboth).2

theorem relText_eq_nil {l : List Text} (hl : Names l) : relText l = [] ↔ l = [] := by
  constructor
  · intro h
    have hrender : render l = render [] := congrArg ('/' :: ·) h
    exact render_inj hl names_nil hrender
  · rintro rfl
    rfl

theorem relText_inj {l l' : List Text} (hl : Names l) (hl' : Names l')
    (h : relText l = relText l') : l = l' :=
  render_inj hl hl' (congrArg ('/' :: ·) h)

theorem keepSegments_relText {l : List Text} (hl : Names l) (hne : l ≠ []) (path : Text) :
    keepSegments path ((relText l).splitOn '/') = .ok l := by
  rw [relText, List.splitOn_intercalate '/' (fun s hs => (hl s hs).noSlash) hne]
  exact keepSegments_names path hl

theorem pathSegments_relText {l : List Text} (hl : Names l) (hne : l ≠ []) :
    pathSegments (relText l) = .ok l :=
  pathSegments_eq_ok.mpr ⟨mt (relText_eq_nil hl).mp hne, keepSegments_relText hl hne _⟩

theorem pathSegments_below {p : Text} {l m : List Text} (hp : pathSegments p = .ok l)
    (hm : Names m) (hne : m ≠ []) : pathSegments (p ++ '/' :: relText m) = .ok (l ++ m) :=
  pathSegments_slash hp (keepSegments_relText hm hne _)

theorem lastIndexOfSlash_append {s : Text} (hs : '/' ∉ s) (t : Text) :
    lastIndexOfSlash (t ++ '/' :: s) = t.length := by
  have hrev : (t ++ '/' :: s).reverse = s.reverse ++ ('/' :: t.reverse) := by simp
  have hidx : (t ++ '/' :: s).reverse.idxOf '/' = s.length := by
    rw [hrev, List.idxOf_append, if_neg (by simpa using hs), List.idxOf_cons_self]
    simp
  rw [lastIndexOfSlash, hidx, List.length_append, List.length_cons]
  omega

theorem parentPath_render {l : List Text} (hl : Names l) :
    parentPath (render l) = .ok (render l.dropLast) := by
  rw [parentPath, normalizePath_render hl]
  change Except.ok _ = _
  rcases List.eq_nil_or_concat l with rfl | ⟨l', s, rfl⟩
  · rfl
  · rw [List.concat_eq_append] at hl ⊢
    have hs := hl s (by simp)
    rw [render_concat, lastIndexOfSlash_append hs.noSlash, List.dropLast_concat, Int.toNat_natCast]
    by_cases hne : l' = []
    · subst hne
      rfl
    · have hpos : ¬ ((suffix l').length : ℤ) ≤ 0 := by
        rw [← render_eq_suffix hne, render, List.length_cons]
        omega
      rw [if_neg hpos, List.take_left, render_eq_suffix hne]

theorem baseName_render {l : List Text} {s : Text} (hl : Names (l ++ [s])) :
    baseName (render (l ++ [s])) = .ok s := by
  have hs := hl s (by simp)
  have hplace : ((suffix l).length + 1 : ℤ).toNat = (suffix l).length + 1 := rfl
  rw [baseName, normalizePath_render hl]
  change Except.ok _ = _
  rw [render_concat, lastIndexOfSlash_append hs.noSlash, hplace, List.drop_append,
    Nat.add_sub_cancel_left, List.drop_one, List.tail_cons,
    List.drop_eq_nil_of_le (Nat.le_succ _), List.nil_append]

/-- A path text with a slash behind it starts the texts of the paths below it. -/
theorem slash_prefix_iff {a c : List Text} (ha : Names a) (hc : Names c) :
    (suffix a ++ ['/']) <+: suffix c ↔ ∃ rest, rest ≠ [] ∧ c = a ++ rest := by
  constructor
  · rintro ⟨t, ht⟩
    have hsplit : (suffix a ++ '/' :: t).splitOn '/' = (suffix c).splitOn '/' := by
      rw [← ht, List.append_assoc]
      rfl
    rw [List.splitOn_append_cons_self, splitOn_suffix ha, splitOn_suffix hc] at hsplit
    exact ⟨t.splitOn '/', List.splitOn_ne_nil _ _, (List.cons.inj hsplit).2.symm⟩
  · rintro ⟨rest, hne, rfl⟩
    obtain ⟨s, rest, rfl⟩ := List.exists_cons_of_ne_nil hne
    rw [suffix_append]
    exact ⟨s ++ suffix rest, by simp [suffix]⟩

theorem isUnder_render {c a : List Text} (hc : Names c) (ha : Names a) :
    isUnder (render c) (render a) = .ok (a <+: c : Bool) := by
  rw [isUnder, normalizePath_render hc, normalizePath_render ha]
  change Except.ok (decide _) = _
  congr 1
  rw [decide_eq_decide, render_eq_root ha]
  by_cases hne : a = []
  · simp [hne]
  have hslash : (render a ++ ['/']) <+: render c ↔ ∃ rest, rest ≠ [] ∧ c = a ++ rest := by
    rw [render_eq_suffix hne]
    by_cases hroot : c = []
    · subst hroot
      constructor
      · intro hpre
        have hlen := hpre.length_le
        rw [← render_eq_suffix hne, List.length_append] at hlen
        have hpos : 0 < (render a).length := Nat.succ_pos _
        have hone : (render []).length = 1 := rfl
        rw [List.length_singleton] at hlen
        omega
      · rintro ⟨rest, hrest, heq⟩
        exact absurd (List.append_eq_nil_iff.mp heq.symm).1 hne
    · rw [render_eq_suffix hroot]
      exact slash_prefix_iff ha hc
  rw [hslash]
  constructor
  · rintro (h | h | ⟨rest, -, rfl⟩)
    · exact absurd h hne
    · rw [render_inj hc ha h]
    · exact List.prefix_append a rest
  · rintro ⟨rest, rfl⟩
    by_cases hrest : rest = []
    · subst hrest
      exact .inr (.inl (by rw [List.append_nil]))
    · exact .inr (.inr ⟨rest, hrest, rfl⟩)

end Names

end Tactile.Storage.Paths

import Mathlib.Algebra.BigOperators.Group.List.Basic
import Mathlib.Data.List.Infix
import Mathlib.Data.List.Nodup
import Tactile.Lib.CleanPath
import Tactile.Publish.Bundle

/-!
The extraction of a whole bundle: what the entries of an accepted bundle satisfy, which
files are returned and what the sink is called with, for every stream of entries.
-/

namespace Tactile.Publish.Extraction

open Tactile.Lib.ByteString Tactile.Lib.Split Tactile.Publish.Bundle
open scoped List

section Spec

def isRegular (e : TarEntry) : Bool := decide (e.typeflag = .reg)

/-- A regular file that is part of the site. -/
def isFile (e : TarEntry) : Bool := isRegular e && decide (e.name ≠ manifestName)

def regulars (es : List TarEntry) : List TarEntry := es.filter isRegular

def siteFiles (es : List TarEntry) : List TarEntry := es.filter isFile

/-- The content of an entry. -/
def data (e : TarEntry) : Bytes := e.content.toOption.getD []

/-- The file of an entry and its content, as a sink gets them. -/
def call (codec : Codec) (read : TarEntry → Bytes) (e : TarEntry) : File × Bytes :=
  (⟨"/" ++ e.name, codec.sha256 (read e), (read e).length, codec.mimeOf ("/" ++ e.name) (read e)⟩,
    read e)

def calls (codec : Codec) (read : TarEntry → Bytes) (es : List TarEntry) : List (File × Bytes) :=
  (siteFiles es).map (call codec read)

/-- A relative name without a part that is empty, dotted or has a backslash or a NUL. -/
structure SafeName (name : String) : Prop where
  relative : name.toList.head? ≠ some '/'
  parts : ∀ part ∈ name.toList.splitOn '/',
    part ≠ [] ∧ part ≠ ['.'] ∧ part ≠ ['.', '.'] ∧ '\\' ∉ part ∧ '\x00' ∉ part

/-- What a bundle has to satisfy. A negative limit allows what zero does. -/
structure Within (lim : Limits) (es : List TarEntry) : Prop where
  types : ∀ e ∈ es, e.typeflag = .dir ∨ e.typeflag = .reg
  names : ∀ e ∈ regulars es, SafeName e.name
  once : ((regulars es).map TarEntry.name).Nodup
  readable : ∀ e ∈ regulars es, ∃ content, e.content = .ok content
  count : ((siteFiles es).length : ℤ) ≤ max lim.maxFiles 0
  sizes : ∀ e ∈ regulars es, ((data e).length : ℤ) ≤ lim.maxFileBytes.toInt
  total : ((regulars es).map fun e => ((data e).length : ℤ)).sum ≤ max lim.maxSiteBytes 0

/-- A successful extraction accepts a bundle within its limits, returns its files and has
called the sink for each, in order; a failed one has called it for the first of them. -/
def Exact (codec : Codec) (lim : Limits) (es : List TarEntry) :
    Except BundleErr (List File × Options) → List (File × Bytes) → Prop
  | .ok (files, _), sunk =>
      Within lim es ∧ sunk = calls codec data es ∧ files = sunk.map Prod.fst
  | .error _, sunk => sunk <+: calls codec data es

def entriesOf : TarStream → List TarEntry
  | .unreadable => []
  | .entries es _ => es

/-- A sink that keeps a record of its calls. -/
def logged {σ : Type} (sink : File → Bytes → StateM σ (Except String Unit)) (f : File)
    (content : Bytes) : StateM (σ × List (File × Bytes)) (Except String Unit) :=
  fun x => ((sink f content x.1).1, (sink f content x.1).2, x.2 ++ [(f, content)])

/-- The result of an extraction and the calls of its sink. -/
def outcome (codec : Codec) (lim : Limits) {σ : Type}
    (sink : File → Bytes → StateM σ (Except String Unit)) (stream : TarStream) (s : σ) :
    Except BundleErr (List File × Options) × List (File × Bytes) :=
  let run := extract codec lim (logged sink) stream (s, [])
  (run.1, run.2.2)

end Spec

section Names

variable {name p : String}

theorem cleanPath_eq (h : cleanPath name = some p) : p = "/" ++ name := by
  unfold cleanPath at h
  split_ifs at h
  exact (Option.some.inj h).symm

theorem safeName (h : cleanPath name = some p) : SafeName name := by
  unfold cleanPath at h
  split_ifs at h with hstart hparts hnul
  simp only [not_or] at hstart
  refine ⟨hstart.2.2.2, fun part hpart => ?_⟩
  have hplain : ¬(part = [] ∨ part = ['.'] ∨ part = ['.', '.']) := fun hbad =>
    hparts (List.any_eq_true.mpr ⟨part, hpart, decide_eq_true hbad⟩)
  simp only [not_or] at hplain
  obtain ⟨hempty, hdot, hdotdot⟩ := hplain
  exact ⟨hempty, hdot, hdotdot, fun hmem => hstart.2.2.1 (mem_of_mem_splitOn hpart hmem),
    fun hmem => hnul (mem_of_mem_splitOn hpart hmem)⟩

/-- An accepted name is its own cleaned form. -/
theorem clean_of_safeName (h : SafeName name) :
    Lib.CleanPath.clean name.toList = ⟨false, (name.toList.splitOn '/').reverse⟩ := by
  have hrooted : (name.toList.head? == some '/') = false := beq_false_of_ne h.relative
  rw [Lib.CleanPath.clean, hrooted, Lib.CleanPath.walk_plains, List.append_nil]
  exact fun part hpart => ⟨(h.parts part hpart).1, (h.parts part hpart).2.1,
    (h.parts part hpart).2.2.1⟩

end Names

section Accepted

/-- What is read of the content of an entry. -/
def readUpTo (lim : Limits) (e : TarEntry) : Bytes := limitReader (data e) (lim.maxFileBytes + 1)

def totalRead (lim : Limits) (es : List TarEntry) : ℤ :=
  ((regulars es).map fun e => ((readUpTo lim e).length : ℤ)).sum

/-- A regular entry that is accepted after the entries before it. -/
structure AcceptedFile (lim : Limits) (pre : List TarEntry) (e : TarEntry) : Prop where
  name : (cleanPath e.name).isSome = true
  fresh : e.name ∉ (regulars pre).map TarEntry.name
  header : e.size ≤ lim.maxFileBytes.toInt
  readable : ∃ content, e.content = .ok content
  size : ((readUpTo lim e).length : ℤ) ≤ lim.maxFileBytes.toInt
  total : totalRead lim pre + (readUpTo lim e).length ≤ lim.maxSiteBytes
  count : e.name ≠ manifestName → ((siteFiles pre).length : ℤ) + 1 ≤ lim.maxFiles

def Accepted (lim : Limits) (pre : List TarEntry) (e : TarEntry) : Prop :=
  e.typeflag = .dir ∨ e.typeflag = .reg ∧ AcceptedFile lim pre e

/-- Every entry is accepted after those before it. -/
def Accepts (lim : Limits) (es : List TarEntry) : Prop :=
  ∀ pre e, pre ++ [e] <+: es → Accepted lim pre e

variable {codec : Codec} {lim : Limits} {pre es : List TarEntry} {e : TarEntry}

theorem accepts_nil : Accepts lim [] := fun pre e h => by
  cases List.append_eq_nil_iff.mp (List.prefix_nil.mp h) |>.2

theorem accepts_concat : Accepts lim (es ++ [e]) ↔ Accepts lim es ∧ Accepted lim es e := by
  constructor
  · intro h
    exact ⟨fun pre e' hpre => h pre e' (hpre.trans (List.prefix_append es [e])),
      h es e (List.prefix_refl _)⟩
  · rintro ⟨h, he⟩ pre e' hpre
    rcases List.prefix_concat_iff.mp hpre with heq | hpre
    · obtain ⟨rfl, hlast⟩ := List.append_inj' heq rfl
      obtain rfl := List.singleton_inj.mp hlast
      exact he
    · exact h pre e' hpre

theorem regulars_append (es es' : List TarEntry) :
    regulars (es ++ es') = regulars es ++ regulars es' := List.filter_append es es'

theorem siteFiles_append (es es' : List TarEntry) :
    siteFiles (es ++ es') = siteFiles es ++ siteFiles es' := List.filter_append es es'

theorem calls_append (read : TarEntry → Bytes) (es es' : List TarEntry) :
    calls codec read (es ++ es') = calls codec read es ++ calls codec read es' := by
  rw [calls, siteFiles_append, List.map_append]
  rfl

theorem regulars_regular (h : e.typeflag = .reg) : regulars [e] = [e] :=
  List.filter_cons_of_pos (decide_eq_true h)

theorem regulars_other (h : e.typeflag ≠ .reg) : regulars [e] = [] :=
  List.filter_cons_of_neg (by simp [isRegular, h])

theorem siteFiles_file (h : e.typeflag = .reg) (hname : e.name ≠ manifestName) :
    siteFiles [e] = [e] :=
  List.filter_cons_of_pos (by simp [isFile, isRegular, h, hname])

theorem siteFiles_other (h : e.typeflag ≠ .reg ∨ e.name = manifestName) : siteFiles [e] = [] := by
  refine List.filter_cons_of_neg ?_
  rcases h with h | h <;> simp [isFile, isRegular, h]

end Accepted

section Steps

variable {codec : Codec} {lim : Limits} {pre : List TarEntry} {acc : Extracted} {e : TarEntry}
variable {σ : Type} {sink : File → Bytes → StateM σ (Except String Unit)}

/-- What an extraction has gathered after the entries before. -/
structure Gathered (codec : Codec) (lim : Limits) (pre : List TarEntry) (acc : Extracted) :
    Prop where
  files : acc.files = (calls codec (readUpTo lim) pre).map Prod.fst
  total : acc.total = totalRead lim pre
  seen : ∀ name, "/" ++ name ∈ acc.seen ↔ name ∈ (regulars pre).map TarEntry.name
  manifest : ∀ e ∈ regulars pre, e.name = manifestName → acc.manifest = some (readUpTo lim e)

theorem gathered_none : Gathered codec lim [] .none := 
  ⟨rfl, rfl, fun _ => iff_of_false List.not_mem_nil List.not_mem_nil, nofun⟩

theorem slash_inj {name name' : String} : "/" ++ name = "/" ++ name' ↔ name = name' := by
  constructor
  · intro h
    have hlist := congrArg String.toList h
    rw [String.toList_append, String.toList_append] at hlist
    exact String.toList_inj.mp (List.append_cancel_left hlist)
  · exact congrArg _

theorem Gathered.skip (h : Gathered codec lim pre acc) (he : e.typeflag ≠ .reg) :
    Gathered codec lim (pre ++ [e]) acc where
  files := by rw [calls_append, calls, calls, siteFiles_other (.inl he), List.map_nil,
    List.append_nil, ← calls, h.files]
  total := by rw [totalRead, regulars_append, regulars_other he, List.append_nil, h.total, totalRead]
  seen := by rw [regulars_append, regulars_other he, List.append_nil]; exact h.seen
  manifest := by rw [regulars_append, regulars_other he, List.append_nil]; exact h.manifest

theorem totalRead_concat (he : e.typeflag = .reg) :
    totalRead lim (pre ++ [e]) = totalRead lim pre + (readUpTo lim e).length := by
  simp [totalRead, regulars_append, regulars_regular he]

theorem Gathered.seen_concat (h : Gathered codec lim pre acc) (he : e.typeflag = .reg)
    (name : String) : "/" ++ name ∈ ("/" ++ e.name) :: acc.seen ↔
      name ∈ (regulars (pre ++ [e])).map TarEntry.name := by
  rw [List.mem_cons, slash_inj, h.seen, regulars_append, regulars_regular he]
  simp [or_comm]

/-- A regular entry that is not part of the site. -/
theorem Gathered.control (h : Gathered codec lim pre acc) (he : e.typeflag = .reg)
    (hname : e.name = manifestName) (hfresh : e.name ∉ (regulars pre).map TarEntry.name) :
    Gathered codec lim (pre ++ [e])
      { acc with total := acc.total + (readUpTo lim e).length
                 seen := ("/" ++ e.name) :: acc.seen
                 manifest := some (readUpTo lim e) } where
  files := by rw [calls_append, calls, calls, siteFiles_other (.inr hname), List.map_nil,
    List.append_nil, ← calls, h.files]
  total := by rw [totalRead_concat he, h.total]
  seen := h.seen_concat he
  manifest := by
    intro e' he' hname'
    rw [regulars_append, regulars_regular he, List.mem_append] at he'
    rcases he' with he' | he'
    · rw [hname, ← hname'] at hfresh
      exact absurd (List.mem_map_of_mem he') hfresh
    · rw [List.mem_singleton.mp he']

theorem Gathered.file (h : Gathered codec lim pre acc) (he : e.typeflag = .reg)
    (hname : e.name ≠ manifestName) :
    Gathered codec lim (pre ++ [e])
      { acc with files := acc.files ++ [(call codec (readUpTo lim) e).1]
                 total := acc.total + (readUpTo lim e).length
                 seen := ("/" ++ e.name) :: acc.seen } where
  files := by rw [calls_append, List.map_append, ← h.files, calls, siteFiles_file he hname]; rfl
  total := by rw [totalRead_concat he, h.total]
  seen := h.seen_concat he
  manifest := by
    intro e' he' hname'
    rw [regulars_append, regulars_regular he, List.mem_append] at he'
    rcases he' with he' | he'
    · exact h.manifest e' he' hname'
    · exact absurd (List.mem_singleton.mp he' ▸ hname') hname

theorem Accepted.regular (h : Accepted lim pre e) (he : e.typeflag = .reg) :
    AcceptedFile lim pre e := by
  rcases h with h | h
  · rw [he] at h
    cases h
  · exact h.2

theorem readUpTo_ok {content : Bytes} (h : e.content = .ok content) :
    limitReader content (lim.maxFileBytes + 1) = readUpTo lim e := by
  rw [readUpTo, data, h]
  rfl

theorem Gathered.length_files (h : Gathered codec lim pre acc) :
    acc.files.length = (siteFiles pre).length := by
  rw [h.files, calls, List.length_map, List.length_map]

variable {m : Type → Type} [Monad m] {put : File → Bytes → m (Except String Unit)}

variable (put) in
/-- An entry that is refused is refused before the sink is called. -/
theorem extractEntry_refused (h : Gathered codec lim pre acc) (hno : ¬Accepted lim pre e) :
    ∃ err, extractEntry codec lim put acc e = pure (.error err) := by
  rw [extractEntry]
  cases he : e.typeflag with
  | dir => exact absurd (.inl he) hno
  | other flag => exact ⟨_, rfl⟩
  | reg =>
      cases hclean : cleanPath e.name with
      | none => exact ⟨_, rfl⟩
      | some p =>
          obtain rfl := cleanPath_eq hclean
          dsimp only
          split
          next => exact ⟨_, rfl⟩
          next hfresh =>
            split
            next => exact ⟨_, rfl⟩
            next hheader =>
              cases hcontent : e.content with
              | error cause => exact ⟨_, rfl⟩
              | ok content =>
                  dsimp only
                  rw [readUpTo_ok hcontent]
                  split
                  next => exact ⟨_, rfl⟩
                  next hsize =>
                    split
                    next => exact ⟨_, rfl⟩
                    next htotal =>
                      have haccepted (hcount : e.name ≠ manifestName →
                          ((siteFiles pre).length : ℤ) + 1 ≤ lim.maxFiles) : False :=
                        hno (.inr ⟨he, by rw [hclean]; rfl,
                          fun hmem => hfresh ((h.seen _).mpr hmem), not_lt.mp hheader,
                          ⟨content, hcontent⟩, not_lt.mp hsize, h.total ▸ not_lt.mp htotal, hcount⟩)
                      split
                      next hname =>
                        exact (haccepted fun hne => absurd (slash_inj.mp hname) hne).elim
                      next =>
                        split
                        next => exact ⟨_, rfl⟩
                        next hcount =>
                          exact (haccepted fun _ => h.length_files ▸ not_lt.mp hcount).elim

theorem extractEntry_control (h : Gathered codec lim pre acc) (he : e.typeflag = .reg)
    (hacc : AcceptedFile lim pre e) (hname : e.name = manifestName) :
    extractEntry codec lim put acc e =
      pure (.ok { acc with total := acc.total + (readUpTo lim e).length
                           seen := ("/" ++ e.name) :: acc.seen
                           manifest := some (readUpTo lim e) }) := by
  obtain ⟨content, hcontent⟩ := hacc.readable
  obtain ⟨p, hclean⟩ := Option.isSome_iff_exists.mp hacc.name
  obtain rfl := cleanPath_eq hclean
  have htotal := hacc.total
  rw [← h.total] at htotal
  simp only [extractEntry, he, hclean, hcontent, readUpTo_ok hcontent]
  rw [if_neg fun hseen => hacc.fresh ((h.seen _).mp hseen), if_neg (not_lt.mpr hacc.header),
    if_neg (not_lt.mpr hacc.size), if_neg (not_lt.mpr htotal), if_pos (slash_inj.mpr hname)]

theorem extractEntry_file (h : Gathered codec lim pre acc) (he : e.typeflag = .reg)
    (hacc : AcceptedFile lim pre e) (hname : e.name ≠ manifestName) :
    extractEntry codec lim put acc e = (do
      let sunk ← put (call codec (readUpTo lim) e).1 (readUpTo lim e)
      match sunk with
      | .error cause => pure (.error (.sink cause))
      | .ok () =>
        pure (.ok { acc with files := acc.files ++ [(call codec (readUpTo lim) e).1]
                             total := acc.total + (readUpTo lim e).length
                             seen := ("/" ++ e.name) :: acc.seen })) := by
  obtain ⟨content, hcontent⟩ := hacc.readable
  obtain ⟨p, hclean⟩ := Option.isSome_iff_exists.mp hacc.name
  obtain rfl := cleanPath_eq hclean
  have htotal := hacc.total
  rw [← h.total] at htotal
  have hcount := hacc.count hname
  rw [← h.length_files] at hcount
  simp only [extractEntry, he, hclean, hcontent, readUpTo_ok hcontent]
  rw [if_neg fun hseen => hacc.fresh ((h.seen _).mp hseen), if_neg (not_lt.mpr hacc.header),
    if_neg (not_lt.mpr hacc.size), if_neg (not_lt.mpr htotal),
    if_neg fun heq => hname (slash_inj.mp heq), if_neg (not_lt.mpr hcount)]
  rfl

/-- The sink refuses something. -/
def Refuses (sink : File → Bytes → StateM σ (Except String Unit)) : Prop :=
  ∃ f content s cause, (sink f content s).1 = .error cause

theorem logged_bind {α : Type} (f : File) (content : Bytes) (s : σ) (sunk : List (File × Bytes))
    (next : Except String Unit → StateM (σ × List (File × Bytes)) α) :
    (logged sink f content >>= next) (s, sunk) =
      next (sink f content s).1 ((sink f content s).2, sunk ++ [(f, content)]) := rfl

variable (sink) in
/-- What one entry does: it is accepted, it is refused before the sink is called, or the
sink refuses it. -/
theorem extractEntry_cases (h : Gathered codec lim pre acc) (e : TarEntry) (s : σ)
    (sunk : List (File × Bytes)) :
    (∃ acc' s', extractEntry codec lim (logged sink) acc e (s, sunk) =
        (.ok acc', s', sunk ++ calls codec (readUpTo lim) [e]) ∧
      Accepted lim pre e ∧ Gathered codec lim (pre ++ [e]) acc') ∨
    (∃ err, extractEntry codec lim (logged sink) acc e (s, sunk) = (.error err, s, sunk) ∧
      ¬Accepted lim pre e) ∨
    ∃ err s', extractEntry codec lim (logged sink) acc e (s, sunk) =
        (.error err, s', sunk ++ calls codec (readUpTo lim) [e]) ∧
      Accepted lim pre e ∧ Refuses sink := by
  by_cases hacc : Accepted lim pre e
  swap
  · obtain ⟨err, herr⟩ := extractEntry_refused (logged sink) h hacc
    exact .inr (.inl ⟨err, by rw [herr]; rfl, hacc⟩)
  by_cases he : e.typeflag = .reg
  swap
  · have hdir := hacc.resolve_right fun hreg => he hreg.1
    refine .inl ⟨acc, s, ?_, hacc, h.skip he⟩
    rw [calls, siteFiles_other (.inl he), List.map_nil, List.append_nil, extractEntry, hdir]
    rfl
  have hfile := hacc.regular he
  by_cases hname : e.name = manifestName
  · refine .inl ⟨_, s, ?_, hacc, h.control he hname hfile.fresh⟩
    rw [calls, siteFiles_other (.inr hname), List.map_nil, List.append_nil,
      extractEntry_control h he hfile hname]
    rfl
  · rw [calls, siteFiles_file he hname, extractEntry_file h he hfile hname]
    cases hans : (sink (call codec (readUpTo lim) e).1 (readUpTo lim e) s).1 with
    | error cause =>
        refine .inr (.inr ⟨.sink cause, (sink (call codec (readUpTo lim) e).1 (readUpTo lim e) s).2,
          ?_, hacc, _, _, _, _, hans⟩)
        rw [logged_bind, hans]
        rfl
    | ok =>
        refine .inl ⟨_, (sink (call codec (readUpTo lim) e).1 (readUpTo lim e) s).2, ?_, hacc,
          h.file he hname⟩
        rw [logged_bind, hans]
        rfl

end Steps

section Runs

variable {codec : Codec} {lim : Limits} {pre : List TarEntry} {acc : Extracted}
variable {σ : Type} {sink : File → Bytes → StateM σ (Except String Unit)}

theorem bind_run {α β τ : Type} {p : StateM τ α} {next : α → StateM τ β} {x y : τ} {a : α}
    (h : p x = (a, y)) : (p >>= next) x = next a y := by
  change next (p x).1 (p x).2 = next a y
  rw [h]

variable (sink) in
/-- What the entries after `pre` do: all are accepted, or the extraction ends at the first
one that the checks or the sink refuse. -/
theorem extractEntries_cases (es : List TarEntry) (h : Gathered codec lim pre acc)
    (hpre : Accepts lim pre) (s : σ) (sunk : List (File × Bytes)) :
    (∃ acc' s', extractEntries codec lim (logged sink) es acc (s, sunk) =
        (.ok acc', s', sunk ++ calls codec (readUpTo lim) es) ∧
      Accepts lim (pre ++ es) ∧ Gathered codec lim (pre ++ es) acc') ∨
    ∃ err s' read rest, es = read ++ rest ∧
      extractEntries codec lim (logged sink) es acc (s, sunk) =
        (.error err, s', sunk ++ calls codec (readUpTo lim) read) ∧
      Accepts lim (pre ++ read) ∧
      (Refuses sink ∨ ∃ e, [e] <+: rest ∧ ¬Accepted lim (pre ++ read) e) := by
  induction es generalizing pre acc s sunk with
  | nil =>
      refine .inl ⟨acc, s, ?_, ?_, ?_⟩
      · rw [calls, siteFiles, List.filter_nil, List.map_nil, List.append_nil]
        rfl
      · rwa [List.append_nil]
      · rwa [List.append_nil]
  | cons e es ih =>
      rw [extractEntries]
      rcases extractEntry_cases sink h e s sunk with
        ⟨acc', s', hrun, hacc, hgathered⟩ | ⟨err, hrun, hno⟩ | ⟨err, s', hrun, hacc, hrefuses⟩
      · have hcalls (done : List TarEntry) : sunk ++ calls codec (readUpTo lim) (e :: done) =
            sunk ++ calls codec (readUpTo lim) [e] ++ calls codec (readUpTo lim) done := by
          rw [List.append_assoc, ← calls_append, List.singleton_append]
        rw [bind_run hrun]
        rcases ih hgathered (accepts_concat.mpr ⟨hpre, hacc⟩) s'
            (sunk ++ calls codec (readUpTo lim) [e]) with
          ⟨acc'', s'', hrest, haccs, hgathered'⟩ | ⟨err, s'', read, rest, rfl, hrest, haccs, hend⟩
        · refine .inl ⟨acc'', s'', hcalls es ▸ hrest, ?_, ?_⟩
          · rwa [List.append_assoc] at haccs
          · rwa [List.append_assoc] at hgathered'
        · rw [List.append_assoc] at haccs hend
          exact .inr ⟨err, s'', e :: read, rest, rfl, hcalls read ▸ hrest, haccs, hend⟩
      · rw [bind_run hrun]
        refine .inr ⟨err, s, [], e :: es, rfl, ?_, ?_, .inr ⟨e, ⟨es, rfl⟩, ?_⟩⟩
        · rw [calls, siteFiles, List.filter_nil, List.map_nil, List.append_nil]
          rfl
        · rwa [List.append_nil]
        · rwa [List.append_nil]
      · rw [bind_run hrun]
        exact .inr ⟨err, s', [e], es, rfl, rfl, accepts_concat.mpr ⟨hpre, hacc⟩, .inl hrefuses⟩

end Runs

section Exactness

variable {codec : Codec} {lim : Limits} {es read : List TarEntry} {e : TarEntry}

theorem Accepts.entry (h : Accepts lim es) (he : e ∈ es) : ∃ pre, pre ++ [e] <+: es ∧
    Accepted lim pre e := by
  obtain ⟨pre, post, rfl⟩ := List.append_of_mem he
  have hpre : pre ++ [e] <+: pre ++ e :: post := ⟨post, by simp⟩
  exact ⟨pre, hpre, h pre e hpre⟩

theorem Accepts.regular (h : Accepts lim es) (he : e ∈ regulars es) :
    ∃ pre, pre ++ [e] <+: es ∧ AcceptedFile lim pre e := by
  obtain ⟨hmem, hreg⟩ := List.mem_filter.mp he
  obtain ⟨pre, hpre, hacc⟩ := h.entry hmem
  exact ⟨pre, hpre, hacc.regular (of_decide_eq_true hreg)⟩

/-- Below the largest limit an accepted content is read as it is. -/
theorem readUpTo_eq (hmax : lim.maxFileBytes ≠ Int64.maxValue)
    (hsize : ((readUpTo lim e).length : ℤ) ≤ lim.maxFileBytes.toInt) : readUpTo lim e = data e := by
  have hnonneg : 0 ≤ lim.maxFileBytes.toInt := le_trans (Int.natCast_nonneg _) hsize
  have hlimit : (lim.maxFileBytes + 1).toNatClampNeg = lim.maxFileBytes.toInt.toNat + 1 := by
    have hne : lim.maxFileBytes.toInt ≠ Int64.maxValue.toInt := fun h => hmax (Int64.toInt_inj.mp h)
    have hle := Int64.toInt_le lim.maxFileBytes
    have hlargest : Int64.maxValue.toInt = 2 ^ 63 - 1 := by decide
    have hone : (1 : Int64).toInt = 1 := by decide
    rw [Int64.toNatClampNeg, Int64.toInt_add, hone, Int.bmod_eq_of_le] <;> omega
  rw [readUpTo, limitReader, hlimit] at hsize ⊢
  rw [List.length_take] at hsize
  exact List.take_of_length_le (by omega)

/-- With the largest limit nothing is read. -/
theorem readUpTo_max (hmax : lim.maxFileBytes = Int64.maxValue) : readUpTo lim e = [] := by
  rw [readUpTo, limitReader, hmax]
  exact List.take_zero

theorem Accepts.once (h : Accepts lim es) : ((regulars es).map TarEntry.name).Nodup := by
  induction es using List.reverseRecOn with
  | nil => exact List.nodup_nil
  | append_singleton es e ih =>
      obtain ⟨hes, he⟩ := accepts_concat.mp h
      rw [regulars_append]
      by_cases hreg : e.typeflag = .reg
      · rw [regulars_regular hreg, List.map_append]
        refine List.nodup_append.mpr ⟨ih hes, List.pairwise_singleton _ e.name, ?_⟩
        intro name hname name' hname' heq
        rw [List.mem_singleton.mp hname'] at heq
        exact (he.regular hreg).fresh (heq ▸ hname)
      · rw [regulars_other hreg, List.append_nil]
        exact ih hes

theorem Accepts.count (h : Accepts lim es) : ((siteFiles es).length : ℤ) ≤ max lim.maxFiles 0 := by
  induction es using List.reverseRecOn with
  | nil => exact le_max_right _ _
  | append_singleton es e ih =>
      obtain ⟨hes, he⟩ := accepts_concat.mp h
      rw [siteFiles_append]
      by_cases hfile : e.typeflag = .reg ∧ e.name ≠ manifestName
      · rw [siteFiles_file hfile.1 hfile.2, List.length_append, List.length_singleton, Nat.cast_add]
        exact ((he.regular hfile.1).count hfile.2).trans (le_max_left _ _)
      · rw [siteFiles_other (not_and_or.mp hfile |>.imp_right not_not.mp), List.append_nil]
        exact ih hes

theorem Accepts.total (h : Accepts lim es) : totalRead lim es ≤ max lim.maxSiteBytes 0 := by
  induction es using List.reverseRecOn with
  | nil => exact le_max_right _ _
  | append_singleton es e ih =>
      obtain ⟨hes, he⟩ := accepts_concat.mp h
      by_cases hreg : e.typeflag = .reg
      · rw [totalRead_concat hreg]
        exact (he.regular hreg).total.trans (le_max_left _ _)
      · rw [totalRead, regulars_append, regulars_other hreg, List.append_nil]
        exact ih hes

/-- An accepted bundle whose contents are read as they are is within the limits. -/
theorem Accepts.within (h : Accepts lim es)
    (hread : ∀ e ∈ regulars es, readUpTo lim e = data e) : Within lim es where
  types e he := by
    obtain ⟨pre, -, hacc⟩ := h.entry he
    exact hacc.imp_right And.left
  names e he := by
    obtain ⟨pre, -, hacc⟩ := h.regular he
    obtain ⟨p, hclean⟩ := Option.isSome_iff_exists.mp hacc.name
    exact safeName hclean
  once := h.once
  readable e he := by
    obtain ⟨pre, -, hacc⟩ := h.regular he
    exact hacc.readable
  count := h.count
  sizes e he := by
    obtain ⟨pre, -, hacc⟩ := h.regular he
    exact hread e he ▸ hacc.size
  total := by
    have htotal := h.total
    rwa [totalRead, List.map_congr_left fun e he => by rw [hread e he]] at htotal

/-- The contents are read as they are: the limit for a file is not the largest number, or
every file up to which the bundle is accepted is empty. -/
def ReadWhole (lim : Limits) (es : List TarEntry) : Prop :=
  lim.maxFileBytes ≠ Int64.maxValue ∨
    ∀ pre e, pre ++ [e] <+: es → isFile e = true → Accepts lim (pre ++ [e]) → data e = []

theorem regular_of_isFile (h : isFile e = true) : isRegular e = true :=
  (Bool.and_eq_true_iff.mp h).1

theorem ReadWhole.read_eq (h : ReadWhole lim es) (hread : read <+: es) (hacc : Accepts lim read)
    (he : e ∈ siteFiles read) : readUpTo lim e = data e := by
  obtain ⟨hmem, hfile⟩ := List.mem_filter.mp he
  have hreg : e ∈ regulars read := List.mem_filter.mpr ⟨hmem, regular_of_isFile hfile⟩
  obtain ⟨pre, hpre, hfileAcc⟩ := hacc.regular hreg
  by_cases hmax : lim.maxFileBytes = Int64.maxValue
  · have hempty := h.resolve_left (not_not.mpr hmax) pre e (hpre.trans hread) hfile
      fun pre' e' hpre' => hacc pre' e' (hpre'.trans hpre)
    rw [readUpTo_max hmax, hempty]
  · exact readUpTo_eq hmax hfileAcc.size

theorem ReadWhole.calls_eq (h : ReadWhole lim es) (hread : read <+: es) (hacc : Accepts lim read)
    (codec : Codec) : calls codec (readUpTo lim) read = calls codec data read :=
  List.map_congr_left fun e he => by rw [call, call, h.read_eq hread hacc he]

theorem calls_mono (codec : Codec) (content : TarEntry → Bytes) (h : read <+: es) :
    calls codec content read <+: calls codec content es := (h.filter isFile).map _

end Exactness

section Outcome

variable {codec : Codec} {lim : Limits} {es : List TarEntry} {broken : Option String}
variable {σ : Type} {sink : File → Bytes → StateM σ (Except String Unit)} {s s' : σ}
variable {sunk : List (File × Bytes)}

theorem outcome_of_ok {acc : Extracted}
    (h : extractEntries codec lim (logged sink) es .none (s, []) = (.ok acc, s', sunk)) :
    outcome codec lim sink (.entries es broken) s =
      (match broken with
        | some cause => .error (.badTar cause)
        | none => finish codec acc, sunk) := by
  rw [outcome, extract, bind_run h]
  cases broken with
  | none => rfl
  | some cause => rfl

theorem outcome_of_error {err : BundleErr}
    (h : extractEntries codec lim (logged sink) es .none (s, []) = (.error err, s', sunk)) :
    outcome codec lim sink (.entries es broken) s = (.error err, sunk) := by
  rw [outcome, extract, bind_run h]
  rfl

theorem finish_files {acc : Extracted} {files : List File} {opts : Options}
    (h : finish codec acc = .ok (files, opts)) : files = acc.files := by
  rw [finish] at h
  split at h
  next => cases h; rfl
  next =>
    split at h
    next => cases h
    next => cases h; rfl

/-- An empty control file is not accepted. -/
theorem finish_manifest (hparse : ∀ opts, ∃ cause, codec.parse opts [] = .error cause)
    {acc : Extracted} {out : List File × Options} (h : finish codec acc = .ok out) :
    acc.manifest ≠ some [] := by
  intro hempty
  obtain ⟨cause, hcause⟩ := hparse Options.zero
  rw [finish, hempty] at h
  simp only [hcause] at h
  cases h

/-- The files of a successful extraction are those of its calls, with safe paths of their own. -/
theorem extracted {stream : TarStream} {files : List File} {opts : Options}
    (h : outcome codec lim sink stream s = (.ok (files, opts), sunk)) :
    files = sunk.map Prod.fst ∧ (sunk.map fun c => c.1.path).Nodup ∧
      ∀ c ∈ sunk, ∃ name, c.1.path = "/" ++ name ∧ SafeName name := by
  cases stream with
  | unreadable => cases h
  | entries es broken =>
      rcases extractEntries_cases sink es gathered_none accepts_nil s [] with
        ⟨acc, s', hrun, hacc, hgathered⟩ | ⟨err, s', read, rest, -, hrun, -, -⟩
      swap
      · rw [outcome_of_error hrun] at h
        cases h
      · rw [outcome_of_ok hrun] at h
        cases broken with
        | some cause => cases h
        | none =>
            obtain ⟨hfinish, rfl⟩ := Prod.mk.inj h
            have hregular : (siteFiles es).Sublist (regulars es) :=
              List.monotone_filter_right es fun _ => regular_of_isFile
            refine ⟨(finish_files hfinish).trans hgathered.files, ?_, ?_⟩
            · have hnames : ((siteFiles es).map TarEntry.name).Nodup :=
                (hregular.map TarEntry.name).nodup hacc.once
              have hslash : Function.Injective fun name : String => "/" ++ name :=
                fun _ _ => slash_inj.mp
              have hpaths := hnames.map hslash
              rw [List.map_map] at hpaths
              rw [List.nil_append, calls, List.map_map]
              exact hpaths
            · intro c hc
              obtain ⟨e, he, rfl⟩ := List.mem_map.mp hc
              obtain ⟨pre, -, hfile⟩ := hacc.regular (hregular.subset he)
              obtain ⟨p, hclean⟩ := Option.isSome_iff_exists.mp hfile.name
              exact ⟨e.name, rfl, safeName hclean⟩

/-- Every bundle is extracted exactly, whatever the sink does, when its contents are read
as they are. -/
theorem exact_of_readWhole (hparse : ∀ opts, ∃ cause, codec.parse opts [] = .error cause)
    {stream : TarStream} (h : ReadWhole lim (entriesOf stream)) :
    Exact codec lim (entriesOf stream) (outcome codec lim sink stream s).1
      (outcome codec lim sink stream s).2 := by
  cases stream with
  | unreadable => exact List.nil_prefix
  | entries es broken =>
      rcases extractEntries_cases sink es gathered_none accepts_nil s [] with
        ⟨acc, s', hrun, hacc, hgathered⟩ | ⟨err, s', read, rest, rfl, hrun, hacc, -⟩
      · have hcalls := h.calls_eq (List.prefix_refl es) hacc codec
        rw [outcome_of_ok hrun]
        cases broken with
        | some cause => exact hcalls ▸ List.prefix_refl _
        | none =>
            cases hfinish : finish codec acc with
            | error err => exact hcalls ▸ List.prefix_refl _
            | ok out =>
                have hcontrol := finish_manifest hparse hfinish
                refine ⟨hacc.within fun e he => ?_, hcalls,
                  (finish_files hfinish).trans hgathered.files⟩
                by_cases hname : e.name = manifestName
                · obtain ⟨pre, -, hfileAcc⟩ := hacc.regular he
                  refine readUpTo_eq (fun hmax => hcontrol ?_) hfileAcc.size
                  rw [hgathered.manifest e he hname, readUpTo_max hmax]
                · refine h.read_eq (List.prefix_refl es) hacc (List.mem_filter.mpr ?_)
                  obtain ⟨hmem, hreg⟩ := List.mem_filter.mp he
                  exact ⟨hmem, Bool.and_eq_true_iff.mpr ⟨hreg, decide_eq_true hname⟩⟩
      · rw [outcome_of_error hrun]
        have hread : read <+: read ++ rest := List.prefix_append read rest
        exact h.calls_eq hread hacc codec ▸ calls_mono codec data hread

theorem sunk_of_exact {out : Except BundleErr (List File × Options)}
    (h : Exact codec lim es out sunk) : sunk <+: calls codec data es := by
  cases out with
  | error err => exact h
  | ok => exact h.2.1 ▸ List.prefix_refl sunk

/-- A sink that takes everything. -/
def taking (_ : File) (_ : Bytes) : StateM Unit (Except String Unit) := pure (.ok ())

variable (codec broken) in
/-- With such a sink an extraction calls it for every entry up to which it accepts. -/
theorem taking_calls {pre : List TarEntry} (hpre : pre <+: es) (hacc : Accepts lim pre) :
    calls codec (readUpTo lim) pre <+: (outcome codec lim taking (.entries es broken) ()).2 := by
  have hstart : Gathered codec lim [] .none := gathered_none
  rcases extractEntries_cases taking es hstart accepts_nil () [] with
    ⟨acc, s', hrun, -, -⟩ | ⟨err, s', read, rest, hes, hrun, -, hend⟩
  · rw [outcome_of_ok hrun]
    exact calls_mono codec _ hpre
  · rw [outcome_of_error hrun]
    refine calls_mono codec _ ?_
    have hread : read <+: es := hes ▸ List.prefix_append read rest
    by_contra hlonger
    rcases hend with ⟨_, _, _, _, hrefuses⟩ | ⟨e, ⟨post, rfl⟩, hno⟩
    · cases hrefuses
    · -- The extraction ends at an entry that is accepted.
      have hlength : read.length < pre.length := by
        by_contra hle
        exact hlonger (List.prefix_of_prefix_length_le hpre hread (not_lt.mp hle))
      refine hno (hacc read e (List.prefix_of_prefix_length_le ?_ hpre ?_))
      · exact ⟨post, by rw [hes, List.append_assoc]⟩
      · rwa [List.length_append, List.length_singleton]

/-- An extraction is exact for every sink if and only if the bundle's contents are read
whole: the only limit with which they are not is the largest number for a file's size, and then the
first file that is not empty goes wrong. -/
theorem extract_exact_iff (hparse : ∀ opts, ∃ cause, codec.parse opts [] = .error cause)
    (lim : Limits) (stream : TarStream) :
    (∀ (σ : Type) (sink : File → Bytes → StateM σ (Except String Unit)) (s : σ),
      Exact codec lim (entriesOf stream) (outcome codec lim sink stream s).1
        (outcome codec lim sink stream s).2) ↔ ReadWhole lim (entriesOf stream) := by
  constructor
  · intro hexact
    by_cases hmax : lim.maxFileBytes = Int64.maxValue
    swap
    · exact .inl hmax
    refine .inr fun pre e hpre hfile hacc => ?_
    cases stream with
    | unreadable => cases List.append_eq_nil_iff.mp (List.prefix_nil.mp hpre) |>.2
    | entries es broken =>
        have hread := taking_calls codec broken hpre hacc
        have hsunk : calls codec (readUpTo lim) (pre ++ [e]) <+: calls codec data es := by
          exact hread.trans (sunk_of_exact (hexact Unit taking ()))
        have hspec := calls_mono codec data hpre
        have hlength : (calls codec (readUpTo lim) (pre ++ [e])).length =
            (calls codec data (pre ++ [e])).length := by
          rw [calls, calls, List.length_map, List.length_map]
        have heq := (List.prefix_of_prefix_length_le hsunk hspec hlength.le).eq_of_length hlength
        have hmem : e ∈ siteFiles (pre ++ [e]) :=
          List.mem_filter.mpr ⟨List.mem_append_right pre List.mem_cons_self, hfile⟩
        have hcall := List.map_inj_left.mp heq e hmem
        exact (congrArg Prod.snd hcall).symm.trans (readUpTo_max hmax)
  · exact fun h _ _ _ => exact_of_readWhole hparse h

end Outcome

section Sample

/-- The SHA-256 digest of the letter a. -/
def letterDigest : Digest :=
  ⟨[202, 151, 129, 18, 202, 27, 189, 202, 250, 194, 49, 179, 154, 35, 220, 77, 167, 134, 239,
    248, 20, 124, 78, 114, 185, 128, 119, 133, 175, 238, 72, 187], rfl⟩

/-- The SHA-256 digest of nothing. -/
def emptyDigest : Digest :=
  ⟨[227, 176, 196, 66, 152, 252, 28, 20, 154, 251, 244, 200, 153, 111, 185, 36, 39, 174, 65,
    228, 100, 155, 147, 76, 164, 149, 153, 27, 120, 82, 184, 85], rfl⟩

def sampleCodec : Codec where
  sha256 content := if content = [97] then letterDigest else emptyDigest
  mimeOf _ _ := "text/plain; charset=utf-8"
  parse opts content :=
    if content = [] then .error "unexpected end of JSON input" else .ok opts

theorem sampleCodec_parse (opts : Options) : ∃ cause, sampleCodec.parse opts [] = .error cause :=
  ⟨_, rfl⟩

/-- A directory, a file in it and an empty control object. -/
def letterBundle : TarStream :=
  .entries
    [⟨"pages/", .dir, 0, .ok []⟩, ⟨"pages/a.txt", .reg, 1, .ok [97]⟩,
      ⟨"publish.json", .reg, 2, .ok [123, 125]⟩]
    none

theorem letterBundle_exact :
    Exact sampleCodec ⟨10, 64, 640⟩ (entriesOf letterBundle)
      (outcome sampleCodec ⟨10, 64, 640⟩ taking letterBundle ()).1
      (outcome sampleCodec ⟨10, 64, 640⟩ taking letterBundle ()).2 :=
  (extract_exact_iff sampleCodec_parse ⟨10, 64, 640⟩ letterBundle).mpr (.inl (by decide)) Unit
    taking ()

/-- With the largest limit the file is handed out empty. -/
theorem largest_limit_empties :
    (outcome sampleCodec ⟨10, Int64.maxValue, 640⟩ taking
        (.entries [⟨"a.txt", .reg, 1, .ok [97]⟩] none) ()).2 =
      [(⟨"/a.txt", emptyDigest, 0, "text/plain; charset=utf-8"⟩, [])] ∧
    ¬Exact sampleCodec ⟨10, Int64.maxValue, 640⟩ [⟨"a.txt", .reg, 1, .ok [97]⟩]
      (outcome sampleCodec ⟨10, Int64.maxValue, 640⟩ taking
        (.entries [⟨"a.txt", .reg, 1, .ok [97]⟩] none) ()).1
      (outcome sampleCodec ⟨10, Int64.maxValue, 640⟩ taking
        (.entries [⟨"a.txt", .reg, 1, .ok [97]⟩] none) ()).2 := by
  refine ⟨by decide +kernel, fun hexact => ?_⟩
  exact absurd (sunk_of_exact hexact) (by decide +kernel)

end Sample

end Tactile.Publish.Extraction

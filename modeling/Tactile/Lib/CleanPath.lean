import Mathlib.Data.List.Infix
import Tactile.Lib.Split

/-!
Paths that are joined and cleaned without looking at a file system: `.` and empty
segments are dropped, and `..` takes the name before it back.
-/

namespace Tactile.Lib.CleanPath

open Tactile.Lib.Split
open scoped List

abbrev Text : Type := List Char

def dot : Text := ['.']

def dotdot : Text := ['.', '.']

/-- A cleaned path: whether it starts at the root, and its names, the last first. -/
structure CleanedPath where
  rooted : Bool
  names : List Text
deriving DecidableEq

/-- Takes the last name back. There is nothing above the root, and above the start of a
relative path `..` stays. -/
def up (rooted : Bool) : List Text → List Text
  | [] => if rooted then [] else [dotdot]
  | name :: above => if name = dotdot then dotdot :: name :: above else above

/-- What one segment makes of the names before it. -/
def step (rooted : Bool) (names : List Text) (seg : Text) : List Text :=
  if seg = [] ∨ seg = dot then names
  else if seg = dotdot then up rooted names
  else seg :: names

def walk (rooted : Bool) (names segs : List Text) : List Text := segs.foldl (step rooted) names

def clean (path : Text) : CleanedPath :=
  ⟨path.head? == some '/', walk (path.head? == some '/') [] (path.splitOn '/')⟩

/-- Elements joined with slashes, from the first that is not empty on. -/
def join (elems : List Text) : CleanedPath :=
  clean (List.intercalate ['/'] (elems.dropWhile fun elem => elem = []))

/-- A path of one more element. -/
def CleanedPath.join (p : CleanedPath) (elem : Text) : CleanedPath :=
  ⟨p.rooted, walk p.rooted p.names (elem.splitOn '/')⟩

/-- The path is another one or lies below it. -/
def CleanedPath.Under (p dir : CleanedPath) : Prop := p.rooted = dir.rooted ∧ dir.names <:+ p.names

section Walking

variable (rooted : Bool) {names segs base : List Text} {seg : Text}

/-- A segment that names something. -/
def Plain (seg : Text) : Prop := seg ≠ [] ∧ seg ≠ dot ∧ seg ≠ dotdot

theorem step_plain (names : List Text) (hseg : Plain seg) :
    step rooted names seg = seg :: names := by
  obtain ⟨hempty, hdot, hdotdot⟩ := hseg
  rw [step, if_neg (not_or.mpr ⟨hempty, hdot⟩), if_neg hdotdot]

theorem walk_append (names left right : List Text) :
    walk rooted names (left ++ right) = walk rooted (walk rooted names left) right :=
  List.foldl_append

theorem walk_plain (names : List Text) (hseg : Plain seg) :
    walk rooted names [seg] = seg :: names := step_plain rooted names hseg

theorem walk_plains (names : List Text) (hsegs : ∀ seg ∈ segs, Plain seg) :
    walk rooted names segs = segs.reverse ++ names := by
  induction segs generalizing names with
  | nil => rfl
  | cons seg segs ih =>
      rw [List.forall_mem_cons] at hsegs
      change walk rooted (step rooted names seg) segs = _
      rw [step_plain rooted names hsegs.1, ih _ hsegs.2, List.reverse_cons, List.append_assoc]
      rfl

/-- A `..` above the start of a relative path stays. -/
theorem dotdot_mem_walk (hmem : dotdot ∈ names) (segs : List Text) :
    dotdot ∈ walk false names segs := by
  induction segs generalizing names with
  | nil => exact hmem
  | cons seg segs ih =>
      apply ih
      rw [step]
      split
      · exact hmem
      · split
        · cases names with
          | nil => cases hmem
          | cons name above =>
              rw [up]
              split
              · exact List.mem_cons_self
              next hne => exact (List.mem_cons.mp hmem).resolve_left fun heq => hne heq.symm
        · exact List.mem_cons_of_mem _ hmem

/-- A walk that stays below its start does the same below any other. -/
theorem walk_base (base : List Text) (hstays : dotdot ∉ walk false names segs) :
    walk rooted (names ++ base) segs = walk false names segs ++ base := by
  induction segs generalizing names with
  | nil => rfl
  | cons seg segs ih =>
      have hstep : step rooted (names ++ base) seg = step false names seg ++ base := by
        have hbefore : dotdot ∉ step false names seg :=
          fun hmem => hstays (dotdot_mem_walk hmem segs)
        rw [step, step]
        split
        next => rfl
        next hseg =>
          split
          next hup =>
            cases names with
            | nil =>
                rw [step, if_neg hseg, if_pos hup] at hbefore
                exact absurd List.mem_cons_self hbefore
            | cons name above =>
                rw [List.cons_append, up, up]
                split
                · rfl
                · rfl
          next => rfl
      change walk rooted (step rooted (names ++ base) seg) segs = _
      rw [hstep]
      exact ih hstays

/-- Where a walk leaves its start, the start of its path is a `..`. -/
theorem getLast_of_dotdot (hbottom : dotdot ∈ names → names.getLast? = some dotdot)
    (hmem : dotdot ∈ walk false names segs) : (walk false names segs).getLast? = some dotdot := by
  induction segs generalizing names with
  | nil => exact hbottom hmem
  | cons seg segs ih =>
      refine ih ?_ hmem
      rw [step]
      split
      next => exact hbottom
      next hseg =>
        split
        next =>
          cases names with
          | nil => exact fun _ => rfl
          | cons name above =>
              rw [up]
              split
              next hname =>
                intro _
                rw [List.getLast?_cons_cons]
                exact hbottom (List.mem_cons.mpr (.inl hname.symm))
              next =>
                intro h
                have hlast := hbottom (List.mem_cons_of_mem _ h)
                rwa [List.getLast?_cons_of_ne_nil (List.ne_nil_of_mem h)] at hlast
        next hup =>
          intro h
          have habove := (List.mem_cons.mp h).resolve_left fun heq => hup heq.symm
          rw [List.getLast?_cons_of_ne_nil (List.ne_nil_of_mem habove)]
          exact hbottom habove

end Walking

section Joining

theorem splitOn_intercalate_cons (elem : Text) (elems : List Text) :
    (List.intercalate ['/'] (elem :: elems)).splitOn '/' =
      (elem :: elems).flatMap fun elem => elem.splitOn '/' := by
  induction elems generalizing elem with
  | nil => rw [List.intercalate_singleton, List.flatMap_singleton]
  | cons next elems ih =>
      rw [List.intercalate_cons_cons, List.append_assoc, List.singleton_append,
        List.splitOn_append_cons_self, ih, List.flatMap_cons, List.flatMap_cons, List.flatMap_cons]

/-- Elements joined to a directory, the first of which is not empty and no path from the
root. -/
theorem join_cons (dir elem : Text) (elems : List Text) (helem : elem ≠ [])
    (hslash : elem.head? ≠ some '/') :
    join (dir :: elem :: elems) =
      ⟨(clean dir).rooted, walk (clean dir).rooted (clean dir).names
        ((elem :: elems).flatMap fun elem => elem.splitOn '/')⟩ := by
  cases dir with
  | nil =>
      have hhead : (List.intercalate ['/'] (elem :: elems)).head? = elem.head? := by
        cases elems with
        | nil => rw [List.intercalate_singleton]
        | cons next elems =>
            rw [List.intercalate_cons_cons, List.append_assoc,
              List.head?_append_of_ne_nil _ helem]
      have hrel : (elem.head? == some '/') = false := beq_eq_false_iff_ne.mpr hslash
      rw [join, List.dropWhile_cons_of_pos (by simp),
        List.dropWhile_cons_of_neg (by simpa using helem), clean, hhead, hrel, splitOn_intercalate_cons]
      rfl
  | cons c rest =>
      have hhead : (List.intercalate ['/'] ((c :: rest) :: elem :: elems)).head? = some c := by
        rw [List.intercalate_cons_cons]
        rfl
      rw [join, List.dropWhile_cons_of_neg (by simp), clean, hhead, splitOn_intercalate_cons,
        List.flatMap_cons, walk_append]
      rfl

/-- What is put after a text is put after its last segment. -/
theorem splitOn_append (path : Text) :
    ∃ init last, '/' ∉ last ∧ ∀ ext : Text, '/' ∉ ext →
      (path ++ ext).splitOn '/' = init ++ [last ++ ext] := by
  induction path with
  | nil => exact ⟨[], [], List.not_mem_nil, fun ext hext => List.splitOn_eq_singleton hext⟩
  | cons c path ih =>
      obtain ⟨init, last, hlast, hsplit⟩ := ih
      rcases Decidable.em (c = '/') with rfl | hc
      · refine ⟨[] :: init, last, hlast, fun ext hext => ?_⟩
        have hfirst := List.splitOn_append_cons_self (a := '/') [] (path ++ ext)
        rw [List.nil_append] at hfirst
        rw [List.cons_append, hfirst, hsplit ext hext]
        rfl
      · cases init with
        | nil =>
            refine ⟨[], c :: last, ?_, fun ext hext => ?_⟩
            · rw [List.mem_cons, not_or]
              exact ⟨fun h => hc h.symm, hlast⟩
            · rw [List.cons_append, List.splitOn_cons_eq_if_modifyHead, if_neg (by simpa using hc),
                hsplit ext hext]
              rfl
        | cons first init =>
            refine ⟨(c :: first) :: init, last, hlast, fun ext hext => ?_⟩
            rw [List.cons_append, List.splitOn_cons_eq_if_modifyHead, if_neg (by simpa using hc),
              hsplit ext hext]
            rfl

end Joining

end Tactile.Lib.CleanPath

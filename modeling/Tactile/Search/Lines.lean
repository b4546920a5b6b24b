import Tactile.Lib.Split
import Tactile.Search.Safety

/-!
The lines of a text in the two apps: the parts between newlines, and the lines that
end before a newline or a carriage return with a newline.
-/

namespace Tactile.Search.Lines

open Tactile.Lib.Matching Tactile.Lib.Split
open Tactile.Search.Fuzzy (Text Unicode MatchMode)
open Tactile.Search.Engine Tactile.Search.Spots Tactile.Search.Rows Tactile.Search.Safety
open scoped List

section Parts

/-- A text after which a word can start. -/
def Before (a : Text) : Prop := (a.getLast?).any Fuzzy.isWordChar = false

/-- A text before which a word can end. -/
def After (b : Text) : Prop := (b.head?).any Fuzzy.isWordChar = false

/-- A part of a text, with the text around it. -/
theorem mem_splitOn {content line : Text} (hline : line ∈ content.splitOn '\n') :
    ∃ a b, content = a ++ line ++ b ∧ (a = [] ∨ a.getLast? = some '\n') ∧
      (b = [] ∨ b.head? = some '\n') := by
  obtain ⟨a, b, hcontent, ha, hb⟩ := around_of_mem_splitOn hline
  refine ⟨a, b, hcontent, ha.imp_right ?_, hb.imp_right ?_⟩
  · rintro ⟨a', rfl⟩
    exact List.getLast?_concat
  · rintro ⟨b', rfl⟩
    rfl

/-- The lines of the parts of a text. -/
def endings : List Text → List Text
  | [] => []
  | [line] => if line = [] then [] else [line]
  | line :: next :: rest => stripReturn line :: endings (next :: rest)

theorem linesOf_eq (content : Text) : linesOf content = endings (content.splitOn '\n') := by
  rw [linesOf]
  generalize content.splitOn '\n' = parts
  induction parts with
  | nil => rfl
  | cons line rest ih =>
      cases rest with
      | nil =>
          rw [endings]
          rcases Decidable.em (line = []) with rfl | hne
          · rfl
          · rw [if_neg hne]
            simp [hne]
      | cons next rest =>
          rw [endings, ← ih, List.dropLast_cons_cons, List.map_cons, List.getLast?_cons_cons,
            List.cons_append]

/-- The line of a part: not the empty last one, and without the carriage return before
a newline. -/
theorem getElem?_endings (parts : List Text) (j : ℕ) :
    (endings parts)[j]? =
      if j + 1 < parts.length then parts[j]?.map stripReturn
      else parts[j]?.filter fun line => line ≠ [] := by
  induction parts generalizing j with
  | nil => rfl
  | cons line rest ih =>
      cases rest with
      | nil =>
          rw [endings]
          rcases Decidable.em (line = []) with rfl | hne
          · cases j with
            | zero => rfl
            | succ j => simp
          · rw [if_neg hne]
            cases j with
            | zero =>
                change some line = (some line).filter fun l => decide (l ≠ [])
                rw [Option.filter_some, if_pos (decide_eq_true hne)]
            | succ j => simp
      | cons next rest =>
          rw [endings]
          cases j with
          | zero => simp
          | succ j =>
              rw [List.getElem?_cons_succ, ih, List.getElem?_cons_succ]
              simp only [List.length_cons, Nat.add_lt_add_iff_right]

theorem stripReturn_front (line : Text) : stripReturn line <+: line := by
  rw [stripReturn]
  split
  · exact List.dropLast_prefix line
  · exact List.prefix_refl line

theorem stripReturn_eq_iff (line : Text) : stripReturn line = line ↔ line.getLast? ≠ some '\r' := by
  rw [stripReturn]
  split
  next hreturn =>
    refine iff_of_false (fun heq => ?_) (not_not_intro hreturn)
    have hlen := congrArg List.length heq
    have hpos : 0 < line.length := by
      cases line with
      | nil => cases hreturn
      | cons c rest => exact Nat.succ_pos _
    rw [List.length_dropLast] at hlen
    omega
  next hother => exact iff_of_true rfl hother

/-- A part is its line, with a carriage return or without. -/
theorem eq_stripReturn_append (line : Text) :
    ∃ b, line = stripReturn line ++ b ∧ (b = [] ∨ b = ['\r']) := by
  rw [stripReturn]
  split
  next hreturn =>
    obtain ⟨rest, rfl⟩ := List.getLast?_eq_some_iff.mp hreturn
    refine ⟨['\r'], ?_, .inr rfl⟩
    rw [List.dropLast_concat]
  next => exact ⟨[], (List.append_nil _).symm, .inl rfl⟩

/-- A line that both apps read alike: before a newline, one without a carriage return
at its end, and after the last newline, one that is not empty. -/
def Kept (parts : List Text) (j : ℕ) : Prop :=
  ∀ line ∈ parts[j]?, if j + 1 < parts.length then line.getLast? ≠ some '\r' else line ≠ []

theorem kept_iff (parts : List Text) (j : ℕ) :
    Kept parts j ↔ (endings parts)[j]? = parts[j]? := by
  rw [Kept, getElem?_endings]
  cases parts[j]? with
  | none => simp
  | some line =>
      split
      next => simp [← stripReturn_eq_iff]
      next => simp [Option.filter_some]

/-- The hits among the lines are those among the parts, when each part with a hit is its
own line and every line with a hit is one of a part with a hit. -/
theorem firstHits_endings {β : Type} (f : Text → Option β) (hempty : f [] = none)
    (parts : List Text)
    (hmono : ∀ line ∈ parts, (f (stripReturn line)).isSome → (f line).isSome) (cap i : ℕ)
    (hown : ∀ k b, (i + k, b) ∈ firstHits f cap i parts → (endings parts)[k]? = parts[k]?) :
    firstHits f cap i (endings parts) = firstHits f cap i parts := by
  induction parts generalizing cap i with
  | nil => rfl
  | cons line rest ih =>
      cases cap with
      | zero => rw [firstHits_zero, firstHits_zero]
      | succ cap =>
          cases rest with
          | nil =>
              rw [endings]
              split
              next hline => rw [hline, firstHits, firstHits, hempty, firstHits]
              next => rfl
          | cons next rest =>
              rw [List.forall_mem_cons] at hmono
              rw [endings, firstHits, firstHits]
              cases hline : f line with
              | none =>
                  have hstrip : f (stripReturn line) = none := by
                    rw [← Option.not_isSome_iff_eq_none]
                    intro hsome
                    have := hmono.1 hsome
                    rw [hline] at this
                    cases this
                  rw [hstrip]
                  refine ih hmono.2 (cap + 1) (i + 1) fun k b hmem => ?_
                  refine hown (k + 1) b ?_
                  rw [firstHits, hline, show i + (k + 1) = i + 1 + k by omega]
                  exact hmem
              | some b =>
                  have hfirst := hown 0 b (by rw [firstHits, hline]; exact List.mem_cons_self)
                  rw [Option.some.inj hfirst, hline]
                  have hrest := ih hmono.2 cap (i + 1) fun k b' hmem => by
                    refine hown (k + 1) b' ?_
                    rw [firstHits, hline, show i + (k + 1) = i + 1 + k by omega]
                    exact List.mem_cons_of_mem _ hmem
                  exact congrArg ((i, b) :: ·) hrest

end Parts

section Monotone

variable {p h a b : Text} {i : ℕ}

theorem getElem?_between (a h b : Text) (k : ℕ) :
    (a ++ h ++ b)[a.length + k]? = if k < h.length then h[k]? else b[k - h.length]? := by
  rw [List.append_assoc, List.getElem?_append_right (Nat.le_add_right _ _),
    Nat.add_sub_cancel_left]
  split
  next hlt => exact List.getElem?_append_left hlt
  next hge => exact List.getElem?_append_right (Nat.le_of_not_lt hge)

theorem stands_append (a b : Text) (hi : i + p.length ≤ h.length) (hstands : Stands p h i) :
    Stands p (a ++ h ++ b) (a.length + i) := by
  rw [Stands, List.append_assoc, ← List.drop_drop, List.drop_left,
    List.drop_append_of_le_length (by omega)]
  exact List.IsPrefix.trans hstands (List.prefix_append _ _)

/-- A whole word of a text is one in a text around it. -/
theorem wordAt_append (hp : p ≠ []) (ha : Before a) (hb : After b) (hword : WordAt p h i) :
    WordAt p (a ++ h ++ b) (a.length + i) := by
  obtain ⟨hstands, hbefore, hafter⟩ := hword
  have hle := hstands.add_le hp
  have hpos := List.length_pos_of_ne_nil hp
  refine ⟨stands_append a b hle hstands, ?_, ?_⟩
  · rcases Nat.eq_zero_or_pos i with rfl | hi
    · cases a with
      | nil => exact .inl rfl
      | cons c rest =>
          right
          have hlt : (c :: rest).length + 0 - 1 < (c :: rest).length := by simp
          rw [List.append_assoc, List.getElem?_append_left hlt, Nat.add_zero,
            ← List.getLast?_eq_getElem?]
          exact ha
    · right
      have hprev : a.length + i - 1 = a.length + (i - 1) := by omega
      rw [hprev, getElem?_between, if_pos (by omega)]
      exact hbefore.resolve_left (by omega)
  · rw [Nat.add_assoc, getElem?_between]
    split
    next => exact hafter
    next hge =>
      have hzero : i + p.length - h.length = 0 := by omega
      rw [hzero, ← List.head?_eq_getElem?]
      exact hb

/-- What is found in a text is found in a text around it. -/
theorem finds_append (mode : MatchMode) (ha : Before a) (hb : After b)
    (hfinds : Finds mode p h) : Finds mode p (a ++ h ++ b) := by
  have hinside : h <:+: a ++ h ++ b := ⟨a, b, rfl⟩
  cases mode with
  | word =>
      rcases hfinds with hempty | ⟨i, hword⟩
      · exact .inl hempty
      · rcases Decidable.em (p = []) with hempty | hp
        · exact .inl hempty
        · exact .inr ⟨_, wordAt_append hp ha hb hword⟩
  | exact => exact List.IsInfix.trans hfinds hinside
  | fuzzy => exact List.Sublist.trans hfinds hinside.sublist

end Monotone

section Windows

/-- The length of a line and the newline after it. -/
def size (lines : List Text) (j : ℕ) : ℕ := (lines[j]?.toList.map fun l => l.length + 1).sum

/-- The lines before a line in its window. -/
theorem before_eq (lines : List Text) (i : ℕ) :
    (lines.drop (i - 1)).take (i - (i - 1)) = if i = 0 then [] else lines[i - 1]?.toList := by
  cases i with
  | zero => rfl
  | succ i =>
      have hone : i + 1 - (i + 1 - 1) = 1 := by omega
      rw [hone, if_neg (Nat.succ_ne_zero i), Nat.add_sub_cancel]
      cases hline : lines[i]? with
      | none =>
          rw [List.drop_of_length_le (List.getElem?_eq_none_iff.mp hline)]
          rfl
      | some line =>
          obtain ⟨hlt, hget⟩ := List.getElem?_eq_some_iff.mp hline
          rw [List.drop_eq_getElem_cons hlt, hget]
          rfl

theorem offset_eq (lines : List Text) (i : ℕ) :
    offset lines i = if i = 0 then 0 else size lines (i - 1) := by
  rw [offset, before_eq]
  split
  next => rfl
  next => rfl

/-- The lengths of the lines in a window. -/
theorem length_window {lines : List Text} {i : ℕ} {line : Text} (hline : lines[i]? = some line) :
    (joinLines (window lines i)).length + 1 =
      (if i = 0 then 0 else size lines (i - 1)) + size lines i + size lines (i + 1) := by
  have hwindow := window_eq hline
  have hne : window lines i ≠ [] := by
    rw [hwindow]
    simp
  rw [length_joinLines hne, hwindow, List.map_append, List.sum_append, ← offset_eq, offset,
    List.map_cons, List.sum_cons, size, size, hline]
  simp [Nat.add_assoc]

/-- Lists with the same lines around a line have the same window and offset. -/
theorem window_congr {lines lines' : List Text} {i : ℕ} {line : Text}
    (hline : lines[i]? = some line)
    (hsame : ∀ j, i ≤ j + 1 → j ≤ i + 1 → lines'[j]? = lines[j]?) :
    window lines' i = window lines i ∧ offset lines' i = offset lines i := by
  have hline' := (hsame i (by omega) (by omega)).trans hline
  have hbefore : (if i = 0 then [] else lines'[i - 1]?.toList) =
      if i = 0 then [] else lines[i - 1]?.toList := by
    split
    next => rfl
    next hi => rw [hsame (i - 1) (by omega) (by omega)]
  rw [window_eq hline, window_eq hline', offset, offset, before_eq, before_eq, hbefore,
    hsame (i + 1) (by omega) (by omega)]
  exact ⟨rfl, rfl⟩

theorem size_endings (parts : List Text) (j : ℕ) :
    size (endings parts) j ≤ size parts j ∧
      (size (endings parts) j = size parts j → (endings parts)[j]? = parts[j]?) := by
  rw [size, size, getElem?_endings]
  cases parts[j]? with
  | none => simp
  | some line =>
      split
      next =>
        have hfront := stripReturn_front line
        have hlen := hfront.length_le
        simp only [Option.map_some, Option.toList_some, List.map_cons, List.map_nil, List.sum_cons,
          List.sum_nil]
        refine ⟨by omega, fun heq => ?_⟩
        rw [hfront.eq_of_length (by omega)]
      next =>
        rw [Option.filter_some]
        split
        next => exact ⟨le_refl _, fun _ => rfl⟩
        next => simp

/-- The windows of a line are alike when both apps read the lines around it alike. -/
theorem joinLines_window_iff {parts : List Text} {i : ℕ} {line line' : Text}
    (hline : parts[i]? = some line) (hline' : (endings parts)[i]? = some line') :
    joinLines (window parts i) = joinLines (window (endings parts) i) ↔
      ∀ j, i ≤ j + 1 → j ≤ i + 1 → Kept parts j := by
  constructor
  · intro heq
    have hlen := length_window hline
    have hlen' := length_window hline'
    have hnext := size_endings parts (i + 1)
    have hown := size_endings parts i
    have hprev := size_endings parts (i - 1)
    rw [← heq] at hlen'
    intro j hij hji
    rw [kept_iff]
    apply (size_endings parts j).2
    rcases Nat.lt_trichotomy j i with hlt | rfl | hgt
    · have hj : j = i - 1 := by omega
      rw [if_neg (by omega)] at hlen hlen'
      rw [hj]
      omega
    · split at hlen
      · rw [if_pos (by assumption)] at hlen'
        omega
      · rw [if_neg (by assumption)] at hlen'
        omega
    · have hj : j = i + 1 := by omega
      rw [hj]
      split at hlen
      · rw [if_pos (by assumption)] at hlen'
        omega
      · rw [if_neg (by assumption)] at hlen'
        omega
  · intro hkept
    have hsame := window_congr hline fun j hij hji => (kept_iff parts j).mp (hkept j hij hji)
    rw [hsame.1]

end Windows

end Tactile.Search.Lines

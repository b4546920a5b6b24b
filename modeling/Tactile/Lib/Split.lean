import Mathlib.Data.List.Basic

/-!
Lists cut at a separator, and lists put together of codes.
-/

namespace Tactile.Lib.Split

variable {α : Type} [DecidableEq α] {c d : α} {l part : List α}

/-- A part of a longer list is empty, a part of the rest, or one with the first element. -/
theorem mem_splitOn_cons (h : part ∈ (c :: l).splitOn d) :
    part = [] ∨ part ∈ l.splitOn d ∨ c ≠ d ∧ ∃ first ∈ l.splitOn d, part = c :: first := by
  rw [List.splitOn_cons_eq_if_modifyHead] at h
  split at h
  next => exact (List.mem_cons.mp h).imp id Or.inl
  next hc =>
    cases hsplit : l.splitOn d with
    | nil => exact absurd hsplit (List.splitOn_ne_nil d l)
    | cons first rest =>
        rw [hsplit] at h
        rcases List.mem_cons.mp h with rfl | h
        · exact .inr (.inr ⟨by simpa using hc, first, List.mem_cons_self, rfl⟩)
        · exact .inr (.inl (List.mem_cons_of_mem _ h))

/-- No part has the separator. -/
theorem notMem_of_mem_splitOn (h : part ∈ l.splitOn d) : d ∉ part := by
  induction l generalizing part with
  | nil =>
      rw [List.splitOn_nil, List.mem_singleton] at h
      exact h ▸ List.not_mem_nil
  | cons c l ih =>
      rcases mem_splitOn_cons h with rfl | h | ⟨hne, first, hfirst, rfl⟩
      · exact List.not_mem_nil
      · exact ih h
      · exact fun hmem => (List.mem_cons.mp hmem).elim (fun heq => hne heq.symm) (ih hfirst)

theorem mem_of_mem_splitOn {a : α} (h : part ∈ l.splitOn d) (ha : a ∈ part) : a ∈ l := by
  induction l generalizing part with
  | nil =>
      rw [List.splitOn_nil, List.mem_singleton] at h
      exact h ▸ ha
  | cons c l ih =>
      rcases mem_splitOn_cons h with rfl | h | ⟨-, first, hfirst, rfl⟩
      · cases ha
      · exact List.mem_cons_of_mem _ (ih h ha)
      · rcases List.mem_cons.mp ha with rfl | ha
        · exact List.mem_cons_self
        · exact List.mem_cons_of_mem _ (ih hfirst ha)

omit [DecidableEq α] in
theorem intercalate_append (c : α) (pre : List (List α)) (part : List α)
    (post : List (List α)) :
    List.intercalate [c] (pre ++ part :: post) =
      pre.flatMap (fun l => l ++ [c]) ++ part ++ post.flatMap fun l => c :: l := by
  induction pre with
  | nil =>
      rw [List.nil_append, List.flatMap_nil, List.nil_append]
      induction post generalizing part with
      | nil => rw [List.intercalate_singleton, List.flatMap_nil, List.append_nil]
      | cons next post ih =>
          rw [List.intercalate_cons_cons, ih, List.flatMap_cons]
          simp
  | cons first pre ih =>
      have hne : pre ++ part :: post ≠ [] := by simp
      rw [List.cons_append, List.intercalate_cons_of_ne_nil hne, ih, List.flatMap_cons]
      simp

/-- A part of a list, with the list around it, which is cut off by separators. -/
theorem around_of_mem_splitOn (h : part ∈ l.splitOn d) :
    ∃ a b, l = a ++ part ++ b ∧ (a = [] ∨ ∃ a', a = a' ++ [d]) ∧ (b = [] ∨ ∃ b', b = d :: b') := by
  obtain ⟨pre, post, hsplit⟩ := List.append_of_mem h
  refine ⟨pre.flatMap fun l => l ++ [d], post.flatMap fun l => d :: l, ?_, ?_, ?_⟩
  · rw [← intercalate_append, ← hsplit, List.intercalate_splitOn]
  · rcases List.eq_nil_or_concat pre with rfl | ⟨pre', l, rfl⟩
    · exact .inl rfl
    · refine .inr ⟨(pre'.flatMap fun l => l ++ [d]) ++ l, ?_⟩
      rw [List.concat_eq_append, List.flatMap_append, List.flatMap_singleton, List.append_assoc]
  · cases post with
    | nil => exact .inl rfl
    | cons l post => exact .inr ⟨_, rfl⟩

/-- A list is cut before its first separator. -/
theorem exists_firstPart (l : List α) (d : α) :
    ∃ x b, l = x ++ b ∧ d ∉ x ∧ (b = [] ∨ ∃ b', b = d :: b') := by
  by_cases h : d ∈ l
  · obtain ⟨x, b, rfl, hx⟩ := List.eq_append_cons_of_mem h
    exact ⟨x, d :: b, rfl, hx, .inr ⟨b, rfl⟩⟩
  · exact ⟨l, [], (List.append_nil l).symm, h, .inl rfl⟩

/-- A list is cut after its last separator. -/
theorem exists_lastPart (l : List α) (d : α) :
    ∃ a x, l = a ++ x ∧ d ∉ x ∧ (a = [] ∨ ∃ a', a = a' ++ [d]) := by
  obtain ⟨x, b, hl, hx, hb⟩ := exists_firstPart l.reverse d
  refine ⟨b.reverse, x.reverse, ?_, fun hmem => hx (List.mem_reverse.mp hmem), ?_⟩
  · rw [← List.reverse_append, ← hl, List.reverse_reverse]
  · rcases hb with rfl | ⟨b', rfl⟩
    · exact .inl rfl
    · exact .inr ⟨b'.reverse, List.reverse_cons⟩

/-- What separators cut off is a part, and not the first one after a separator. -/
theorem mem_splitOn_around {a b : List α} (hpart : d ∉ part) (ha : a = [] ∨ ∃ a', a = a' ++ [d])
    (hb : b = [] ∨ ∃ b', b = d :: b') :
    part ∈ (a ++ part ++ b).splitOn d ∧ (a ≠ [] → part ∈ ((a ++ part ++ b).splitOn d).tail) := by
  have hrest : part ∈ (part ++ b).splitOn d := by
    rcases hb with rfl | ⟨b', rfl⟩
    · rw [List.append_nil, List.splitOn_eq_singleton hpart]
      exact List.mem_singleton_self part
    · rw [List.splitOn_append_cons_self, List.splitOn_eq_singleton hpart]
      exact List.mem_append_left _ (List.mem_singleton_self part)
  rcases ha with rfl | ⟨a', rfl⟩
  · exact ⟨hrest, fun h => absurd rfl h⟩
  · have hcut : (a' ++ [d] ++ part ++ b).splitOn d = a'.splitOn d ++ (part ++ b).splitOn d := by
      rw [List.append_assoc, List.append_assoc, List.singleton_append, List.splitOn_append_cons_self]
    rw [hcut]
    refine ⟨List.mem_append_right _ hrest, fun _ => ?_⟩
    rw [List.tail_append_of_ne_nil (List.splitOn_ne_nil d a')]
    exact List.mem_append_right _ hrest

omit [DecidableEq α] in
/-- The first place of an element cuts a list. -/
theorem cut_inj {a b post post' : List α} (ha : c ∉ a) (hb : c ∉ b)
    (h : a ++ c :: post = b ++ c :: post') : a = b ∧ post = post' := by
  induction a generalizing b with
  | nil =>
      cases b with
      | nil => exact ⟨rfl, (List.cons.inj h).2⟩
      | cons d b => exact absurd (List.mem_cons.mpr (.inl (List.cons.inj h).1)) hb
  | cons d a ih =>
      cases b with
      | nil => exact absurd (List.mem_cons.mpr (.inl (List.cons.inj h).1.symm)) ha
      | cons e b =>
          obtain ⟨rfl, htail⟩ := List.cons.inj h
          obtain ⟨rfl, hpost⟩ := ih (fun hmem => ha (List.mem_cons_of_mem d hmem))
            (fun hmem => hb (List.mem_cons_of_mem d hmem)) htail
          exact ⟨rfl, hpost⟩

omit [DecidableEq α] in
/-- Codes of which none begins another one are read off their concatenation. -/
theorem flatMap_inj {β : Type} {f : α → List β} (hne : ∀ a, f a ≠ []) (hfree : ∀ a b, f a <+: f b → a = b)
    {xs ys : List α} (h : xs.flatMap f = ys.flatMap f) : xs = ys := by
  induction xs generalizing ys with
  | nil =>
      cases ys with
      | nil => rfl
      | cons b ys => simp [hne b] at h
  | cons a xs ih =>
      cases ys with
      | nil => simp [hne a] at h
      | cons b ys =>
          rw [List.flatMap_cons, List.flatMap_cons] at h
          have hab : a = b := by
            rcases List.prefix_or_prefix_of_prefix (List.prefix_append (f a) (xs.flatMap f))
              (h ▸ List.prefix_append (f b) (ys.flatMap f)) with hpre | hpre
            · exact hfree a b hpre
            · exact (hfree b a hpre).symm
          subst hab
          rw [ih (List.append_cancel_left h)]

end Tactile.Lib.Split

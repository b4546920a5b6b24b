import Mathlib.Data.List.Basic
import Mathlib.Data.List.Forall2

/-!
Regular expressions as they are matched with backtracking: a pattern has a list of ways
to match at a place, in the order in which they are tried.
-/

namespace Tactile.Lib.Regex

variable {α : Type}

/-- A pattern; only single characters are repeated. -/
inductive Pattern (α : Type)
  | empty
  | char (p : α → Bool)
  | many (p : α → Bool)
  | maybe (r : Pattern α)
  | group (r : Pattern α)
  | seq (r q : Pattern α)
  | final

namespace Pattern

def literal [BEq α] : List α → Pattern α
  | [] => empty
  | c :: cs => seq (char (· == c)) (literal cs)

/-- One character of each class. -/
def chars : List (α → Bool) → Pattern α
  | [] => empty
  | p :: ps => seq (char p) (chars ps)

def some (p : α → Bool) : Pattern α := seq (char p) (many p)

def groupCount : Pattern α → ℕ
  | maybe r => groupCount r
  | group r => groupCount r + 1
  | seq r q => groupCount r + groupCount q
  | _ => 0

end Pattern

/-- What a pattern takes, what it leaves, and the texts of its groups. -/
structure Way (α : Type) where
  taken : List α
  rest : List α
  groups : List (Option (List α))
  deriving DecidableEq

namespace Way

def andThen (w v : Way α) : Way α := ⟨w.taken ++ v.taken, v.rest, w.groups ++ v.groups⟩

def asGroup (w : Way α) : Way α := ⟨w.taken, w.rest, .some w.taken :: w.groups⟩

end Way

/-- The ways to take characters of a class, the longest first. -/
def longestFirst (p : α → Bool) : List α → List (Way α)
  | [] => [⟨[], [], []⟩]
  | c :: s =>
    if p c then (longestFirst p s).map (fun w => ⟨c :: w.taken, w.rest, []⟩) ++ [⟨[], c :: s, []⟩]
    else [⟨[], c :: s, []⟩]

/-- The ways of a pattern to match at the start of a list. -/
def ways : Pattern α → List α → List (Way α)
  | .empty, s => [⟨[], s, []⟩]
  | .char _, [] => []
  | .char p, c :: s => if p c then [⟨[c], s, []⟩] else []
  | .many p, s => longestFirst p s
  | .maybe r, s => ways r s ++ [⟨[], s, List.replicate r.groupCount none⟩]
  | .group r, s => (ways r s).map Way.asGroup
  | .seq r q, s => (ways r s).flatMap fun w => (ways q w.rest).map w.andThen
  | .final, [] => [⟨[], [], []⟩]
  | .final, _ :: _ => []

/-- The match at the start of a list. -/
def matchHere (r : Pattern α) (s : List α) : Option (Way α) := (ways r s).head?

/-- The first place at which a pattern matches, with what stands before it. -/
def search (r : Pattern α) : List α → Option (List α × Way α)
  | [] => (matchHere r []).map fun w => ([], w)
  | c :: s =>
    match matchHere r (c :: s) with
    | some w => some ([], w)
    | none => (search r s).map fun found => (c :: found.1, found.2)

/-- The matches of a pattern that takes something, each after the end of the last one. -/
def matchesFrom (r : Pattern α) : ℕ → List α → List (Way α)
  | 0, _ => []
  | _ + 1, [] => []
  | n + 1, c :: s =>
    match matchHere r (c :: s) with
    | some w => w :: matchesFrom r n w.rest
    | none => matchesFrom r n s

def allMatches (r : Pattern α) (s : List α) : List (Way α) := matchesFrom r s.length s

/-- A pattern takes a text, with its groups, from before a rest. -/
def Reads : Pattern α → List α → List α → List (Option (List α)) → Prop
  | .empty, taken, _, groups => taken = [] ∧ groups = []
  | .char p, taken, _, groups => (∃ c, p c = true ∧ taken = [c]) ∧ groups = []
  | .many p, taken, _, groups => (∀ c ∈ taken, p c = true) ∧ groups = []
  | .maybe r, taken, rest, groups =>
    Reads r taken rest groups ∨ taken = [] ∧ groups = List.replicate r.groupCount none
  | .group r, taken, rest, groups => ∃ inner, Reads r taken rest inner ∧ groups = some taken :: inner
  | .seq r q, taken, rest, groups =>
    ∃ t u g h, Reads r t (u ++ rest) g ∧ Reads q u rest h ∧ taken = t ++ u ∧ groups = g ++ h
  | .final, taken, rest, groups => taken = [] ∧ rest = [] ∧ groups = []

theorem mem_longestFirst {p : α → Bool} {s : List α} {w : Way α} :
    w ∈ longestFirst p s ↔ (∀ c ∈ w.taken, p c = true) ∧ w.groups = [] ∧ s = w.taken ++ w.rest := by
  induction s generalizing w with
  | nil =>
      rw [longestFirst, List.mem_singleton, eq_comm (a := []), List.append_eq_nil_iff]
      constructor
      · rintro rfl
        exact ⟨fun _ hc => absurd hc List.not_mem_nil, rfl, rfl, rfl⟩
      · obtain ⟨taken, rest, groups⟩ := w
        rintro ⟨-, rfl, rfl, rfl⟩
        rfl
  | cons c s ih =>
      obtain ⟨taken, rest, groups⟩ := w
      have hstop : (⟨taken, rest, groups⟩ : Way α) = ⟨[], c :: s, []⟩ ↔
          taken = [] ∧ groups = [] ∧ c :: s = taken ++ rest := by
        rw [Way.mk.injEq]
        constructor
        · rintro ⟨rfl, rfl, rfl⟩
          exact ⟨rfl, rfl, rfl⟩
        · rintro ⟨rfl, rfl, hrest⟩
          exact ⟨rfl, hrest.symm, rfl⟩
      rw [longestFirst]
      split
      next hc =>
        rw [List.mem_append, List.mem_map, List.mem_singleton, hstop]
        constructor
        · rintro (⟨w, hw, heq⟩ | ⟨rfl, rfl, hs⟩)
          · obtain ⟨hall, -, hs⟩ := ih.mp hw
            cases heq
            exact ⟨List.forall_mem_cons.mpr ⟨hc, hall⟩, rfl, congrArg (c :: ·) hs⟩
          · exact ⟨fun _ hd => absurd hd List.not_mem_nil, rfl, hs⟩
        · rintro ⟨hall, hgroups, hs⟩
          cases taken with
          | nil => exact .inr ⟨rfl, hgroups, hs⟩
          | cons d taken =>
              obtain ⟨rfl, hs⟩ := List.cons.inj hs
              obtain rfl : groups = [] := hgroups
              exact .inl ⟨⟨taken, rest, []⟩, ih.mpr ⟨(List.forall_mem_cons.mp hall).2, rfl, hs⟩, rfl⟩
      next hc =>
        rw [List.mem_singleton, hstop]
        constructor
        · rintro ⟨rfl, hgroups, hs⟩
          exact ⟨fun _ hd => absurd hd List.not_mem_nil, hgroups, hs⟩
        · rintro ⟨hall, hgroups, hs⟩
          cases taken with
          | nil => exact ⟨rfl, hgroups, hs⟩
          | cons d taken =>
              obtain ⟨rfl, -⟩ := List.cons.inj hs
              exact absurd (hall c List.mem_cons_self) hc

/-- The ways of a pattern are those in which it takes a text at the start of the list. -/
theorem mem_ways {r : Pattern α} {s : List α} {w : Way α} :
    w ∈ ways r s ↔ Reads r w.taken w.rest w.groups ∧ s = w.taken ++ w.rest := by
  induction r generalizing s w with
  | empty =>
      rw [ways, List.mem_singleton]
      constructor
      · rintro rfl
        exact ⟨⟨rfl, rfl⟩, rfl⟩
      · obtain ⟨taken, rest, groups⟩ := w
        rintro ⟨⟨rfl, rfl⟩, rfl⟩
        rfl
  | char p =>
      obtain ⟨taken, rest, groups⟩ := w
      constructor
      · intro hw
        cases s with
        | nil => cases hw
        | cons c s =>
            rw [ways] at hw
            split at hw
            next hc =>
              cases List.mem_singleton.mp hw
              exact ⟨⟨⟨c, hc, rfl⟩, rfl⟩, rfl⟩
            next => cases hw
      · rintro ⟨⟨⟨c, hc, rfl⟩, rfl⟩, rfl⟩
        rw [List.singleton_append, ways, if_pos hc]
        exact List.mem_singleton_self _
  | many p =>
      rw [ways, mem_longestFirst, ← and_assoc]
      rfl
  | maybe r ih =>
      obtain ⟨taken, rest, groups⟩ := w
      rw [ways, List.mem_append, ih, List.mem_singleton, Way.mk.injEq]
      constructor
      · rintro (⟨hreads, hs⟩ | ⟨rfl, rfl, rfl⟩)
        · exact ⟨.inl hreads, hs⟩
        · exact ⟨.inr ⟨rfl, rfl⟩, rfl⟩
      · rintro ⟨hreads | ⟨rfl, rfl⟩, hs⟩
        · exact .inl ⟨hreads, hs⟩
        · exact .inr ⟨rfl, hs.symm, rfl⟩
  | group r ih =>
      obtain ⟨taken, rest, groups⟩ := w
      rw [ways, List.mem_map]
      constructor
      · rintro ⟨w, hw, heq⟩
        cases heq
        obtain ⟨hreads, hs⟩ := ih.mp hw
        exact ⟨⟨w.groups, hreads, rfl⟩, hs⟩
      · rintro ⟨⟨inner, hreads, hgroups⟩, hs⟩
        obtain rfl : groups = some taken :: inner := hgroups
        exact ⟨⟨taken, rest, inner⟩, ih.mpr ⟨hreads, hs⟩, rfl⟩
  | seq r q ihr ihq =>
      obtain ⟨taken, rest, groups⟩ := w
      rw [ways, List.mem_flatMap]
      constructor
      · rintro ⟨w, hw, hmap⟩
        obtain ⟨v, hv, heq⟩ := List.mem_map.mp hmap
        cases heq
        obtain ⟨hr, hs⟩ := ihr.mp hw
        obtain ⟨hq, hrest⟩ := ihq.mp hv
        rw [hrest] at hr
        refine ⟨⟨w.taken, v.taken, w.groups, v.groups, hr, hq, rfl, rfl⟩, ?_⟩
        show s = w.taken ++ v.taken ++ v.rest
        rw [hs, hrest, List.append_assoc]
      · rintro ⟨⟨t, u, g, h, hr, hq, rfl, rfl⟩, hs⟩
        refine ⟨⟨t, u ++ rest, g⟩, ihr.mpr ⟨hr, ?_⟩, List.mem_map.mpr ⟨⟨u, rest, h⟩,
          ihq.mpr ⟨hq, rfl⟩, rfl⟩⟩
        rw [hs]
        exact List.append_assoc t u rest
  | final =>
      obtain ⟨taken, rest, groups⟩ := w
      constructor
      · intro hw
        cases s with
        | nil =>
            cases List.mem_singleton.mp hw
            exact ⟨⟨rfl, rfl, rfl⟩, rfl⟩
        | cons c s => cases hw
      · rintro ⟨⟨rfl, rfl, rfl⟩, rfl⟩
        exact List.mem_singleton_self _

theorem matchHere_eq_none {r : Pattern α} {s : List α} :
    matchHere r s = none ↔ ∀ taken rest groups, s = taken ++ rest → ¬ Reads r taken rest groups := by
  rw [matchHere, List.head?_eq_none_iff, List.eq_nil_iff_forall_not_mem]
  constructor
  · intro h taken rest groups hs hreads
    exact h ⟨taken, rest, groups⟩ (mem_ways.mpr ⟨hreads, hs⟩)
  · intro h w hw
    obtain ⟨hreads, hs⟩ := mem_ways.mp hw
    exact h w.taken w.rest w.groups hs hreads

/-- A match reads the text that it takes. -/
theorem matchHere_reads {r : Pattern α} {s : List α} {w : Way α} (h : matchHere r s = some w) :
    Reads r w.taken w.rest w.groups ∧ s = w.taken ++ w.rest :=
  mem_ways.mp (List.mem_of_head? h)

/-- A way to read that is the only one is the match. -/
theorem matchHere_eq_some {r : Pattern α} {taken rest : List α} {groups : List (Option (List α))}
    (hreads : Reads r taken rest groups)
    (honly : ∀ taken' rest' groups', taken ++ rest = taken' ++ rest' →
      Reads r taken' rest' groups' → taken' = taken ∧ groups' = groups) :
    matchHere r (taken ++ rest) = some ⟨taken, rest, groups⟩ := by
  cases hmatch : matchHere r (taken ++ rest) with
  | none => exact absurd hreads (matchHere_eq_none.mp hmatch taken rest groups rfl)
  | some w =>
      obtain ⟨hw, hs⟩ := matchHere_reads hmatch
      obtain ⟨taken', rest', groups'⟩ := w
      obtain ⟨rfl, rfl⟩ := honly taken' rest' groups' hs hw
      rw [List.append_cancel_left hs]

/-- A text is what stands before a match, what the match takes, and its rest. -/
theorem search_split {r : Pattern α} {s pre : List α} {w : Way α} (h : search r s = some (pre, w)) :
    s = pre ++ w.taken ++ w.rest := by
  induction s generalizing pre with
  | nil =>
      obtain ⟨v, hv, heq⟩ := Option.map_eq_some_iff.mp h
      cases heq
      exact (matchHere_reads hv).2
  | cons c s ih =>
      rw [search] at h
      split at h
      next v hv =>
        cases h
        exact (matchHere_reads hv).2
      next =>
        obtain ⟨⟨pre', v⟩, hv, heq⟩ := Option.map_eq_some_iff.mp h
        cases heq
        exact congrArg (c :: ·) (ih hv)

theorem reads_literal [BEq α] [LawfulBEq α] {cs taken rest : List α}
    {groups : List (Option (List α))} :
    Reads (.literal cs) taken rest groups ↔ taken = cs ∧ groups = [] := by
  induction cs generalizing taken groups with
  | nil => rfl
  | cons c cs ih =>
      constructor
      · rintro ⟨t, u, g, h, ⟨⟨d, hd, rfl⟩, rfl⟩, hcs, rfl, rfl⟩
        obtain ⟨rfl, rfl⟩ := ih.mp hcs
        rw [beq_iff_eq.mp hd]
        exact ⟨rfl, rfl⟩
      · rintro ⟨rfl, rfl⟩
        exact ⟨[c], cs, [], [], ⟨⟨c, beq_self_eq_true c, rfl⟩, rfl⟩, ih.mpr ⟨rfl, rfl⟩, rfl, rfl⟩

theorem reads_chars {ps : List (α → Bool)} {taken rest : List α} {groups : List (Option (List α))} :
    Reads (.chars ps) taken rest groups ↔
      List.Forall₂ (fun p c => p c = true) ps taken ∧ groups = [] := by
  induction ps generalizing taken groups with
  | nil =>
      rw [List.forall₂_nil_left_iff]
      rfl
  | cons p ps ih =>
      rw [List.forall₂_cons_left_iff]
      constructor
      · rintro ⟨t, u, g, h, ⟨⟨c, hc, rfl⟩, rfl⟩, hps, rfl, rfl⟩
        obtain ⟨hu, rfl⟩ := ih.mp hps
        exact ⟨⟨c, u, hc, hu, rfl⟩, rfl⟩
      · rintro ⟨⟨c, u, hc, hu, rfl⟩, rfl⟩
        exact ⟨[c], u, [], [], ⟨⟨c, hc, rfl⟩, rfl⟩, ih.mpr ⟨hu, rfl⟩, rfl, rfl⟩

theorem reads_some {p : α → Bool} {taken rest : List α} {groups : List (Option (List α))} :
    Reads (.some p) taken rest groups ↔ taken ≠ [] ∧ (∀ c ∈ taken, p c = true) ∧ groups = [] := by
  constructor
  · rintro ⟨t, u, g, h, ⟨⟨c, hc, rfl⟩, rfl⟩, ⟨hu, rfl⟩, rfl, rfl⟩
    exact ⟨List.cons_ne_nil _ _, List.forall_mem_cons.mpr ⟨hc, hu⟩, rfl⟩
  · rintro ⟨hne, hall, rfl⟩
    obtain ⟨c, u, rfl⟩ := List.exists_cons_of_ne_nil hne
    obtain ⟨hc, hu⟩ := List.forall_mem_cons.mp hall
    exact ⟨[c], u, [], [], ⟨⟨c, hc, rfl⟩, rfl⟩, ⟨hu, rfl⟩, rfl, rfl⟩

/-- Every match takes something. -/
def Progressive (r : Pattern α) : Prop :=
  ∀ taken rest groups, Reads r taken rest groups → taken ≠ []

theorem Progressive.length_rest_lt {r : Pattern α} (hr : Progressive r) {s : List α} {w : Way α}
    (h : matchHere r s = some w) : w.rest.length < s.length := by
  obtain ⟨hreads, hs⟩ := matchHere_reads h
  have hlen := List.length_pos_of_ne_nil (hr _ _ _ hreads)
  rw [hs, List.length_append]
  omega

theorem matchesFrom_eq {r : Pattern α} (hr : Progressive r) {n : ℕ} {s : List α}
    (hn : s.length ≤ n) : matchesFrom r n s = allMatches r s := by
  rw [allMatches]
  induction hlen : s.length using Nat.strongRecOn generalizing n s with
  | _ len ih =>
      cases s with
      | nil => cases n <;> cases hlen <;> rfl
      | cons c s =>
          rw [List.length_cons] at hn hlen
          obtain ⟨m, rfl⟩ : ∃ m, n = m + 1 := ⟨n - 1, by omega⟩
          obtain rfl : s.length + 1 = len := hlen
          rw [matchesFrom, matchesFrom]
          cases hmatch : matchHere r (c :: s) with
          | none =>
              dsimp only
              rw [ih s.length (by omega) (by omega) rfl]
          | some w =>
              have hlt := hr.length_rest_lt hmatch
              rw [List.length_cons] at hlt
              dsimp only
              rw [ih w.rest.length (by omega) (by omega) rfl,
                ih w.rest.length (by omega) (n := s.length) (by omega) rfl]

/-- The matches in a text: one at its start and those after it, or those after its first
character. -/
theorem allMatches_cons {r : Pattern α} (hr : Progressive r) (c : α) (s : List α) :
    allMatches r (c :: s) =
      match matchHere r (c :: s) with
      | some w => w :: allMatches r w.rest
      | none => allMatches r s := by
  rw [allMatches, List.length_cons, matchesFrom]
  cases hmatch : matchHere r (c :: s) with
  | none => rfl
  | some w =>
      have hlt := hr.length_rest_lt hmatch
      rw [List.length_cons] at hlt
      dsimp only
      rw [matchesFrom_eq hr (by omega)]

end Tactile.Lib.Regex

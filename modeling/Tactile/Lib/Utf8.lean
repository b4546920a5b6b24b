import Tactile.Lib.Text

/-!
The decoder of UTF-8 that replaces what is malformed and drops a byte order mark,
as browsers decode it.
-/

namespace Tactile.Lib.Utf8

open Tactile.Lib.ByteString Tactile.Lib.Text

/-- A character of which bytes are still to come, and the bounds of the next one. -/
structure Unfinished where
  codePoint : ℕ
  needed : ℕ
  lower : ℕ
  upper : ℕ

def replacement : Char := '\uFFFD'

/-- A byte where a character starts. -/
def start (b : ℕ) : List Char × Option Unfinished :=
  if b ≤ 0x7F then ([Char.ofNat b], none)
  else if 0xC2 ≤ b ∧ b ≤ 0xDF then ([], some ⟨b % 0x20, 1, 0x80, 0xBF⟩)
  else if 0xE0 ≤ b ∧ b ≤ 0xEF then
    ([], some ⟨b % 0x10, 2, if b = 0xE0 then 0xA0 else 0x80, if b = 0xED then 0x9F else 0xBF⟩)
  else if 0xF0 ≤ b ∧ b ≤ 0xF4 then
    ([], some ⟨b % 8, 3, if b = 0xF0 then 0x90 else 0x80, if b = 0xF4 then 0x8F else 0xBF⟩)
  else ([replacement], none)

def step : Option Unfinished → ℕ → List Char × Option Unfinished
  | none, b => start b
  | some u, b =>
    if u.lower ≤ b ∧ b ≤ u.upper then
      let codePoint := u.codePoint * 64 + b % 64
      if u.needed = 1 then ([Char.ofNat codePoint], none)
      else ([], some ⟨codePoint, u.needed - 1, 0x80, 0xBF⟩)
    -- what was begun is malformed, and the byte starts the next character
    else (replacement :: (start b).1, (start b).2)

def decodeFrom : Option Unfinished → Bytes → List Char
  | none, [] => []
  | some _, [] => [replacement]
  | u, b :: rest => (step u b.toNat).1 ++ decodeFrom (step u b.toNat).2 rest

/-- The byte order mark. -/
def bom : Bytes := [0xEF, 0xBB, 0xBF]

def decode (bytes : Bytes) : List Char :=
  decodeFrom none (if bom <+: bytes then bytes.drop 3 else bytes)

section Characters

variable {n : ℕ} {rest : Bytes}

theorem decodeFrom_cons (u : Option Unfinished) (b : UInt8) (rest : Bytes) :
    decodeFrom u (b :: rest) = (step u b.toNat).1 ++ decodeFrom (step u b.toNat).2 rest := by
  rw [decodeFrom]

theorem start_two (hlow : 2 ≤ n) (hhigh : n < 0x20) :
    start (n + 0xC0) = ([], some ⟨n, 1, 0x80, 0xBF⟩) := by
  have hrest : (n + 0xC0) % 0x20 = n := by omega
  rw [start, if_neg (by omega), if_pos (by omega), hrest]

theorem start_three (hhigh : n < 0x10) :
    start (n + 0xE0) =
      ([], some ⟨n, 2, if n = 0 then 0xA0 else 0x80, if n = 0xD then 0x9F else 0xBF⟩) := by
  have hrest : (n + 0xE0) % 0x10 = n := by omega
  rw [start, if_neg (by omega), if_neg (by omega), if_pos (by omega), hrest]
  simp

theorem start_four (hhigh : n < 5) :
    start (n + 0xF0) =
      ([], some ⟨n, 3, if n = 0 then 0x90 else 0x80, if n = 4 then 0x8F else 0xBF⟩) := by
  have hrest : (n + 0xF0) % 8 = n := by omega
  rw [start, if_neg (by omega), if_neg (by omega), if_neg (by omega), if_pos (by omega), hrest]
  simp

theorem step_last {codePoint lower upper : ℕ} (hn : n < 64) (hlow : lower ≤ n + 0x80)
    (hhigh : n + 0x80 ≤ upper) :
    step (some ⟨codePoint, 1, lower, upper⟩) (n + 0x80) = ([Char.ofNat (codePoint * 64 + n)], none) := by
  have hrest : (n + 0x80) % 64 = n := by omega
  simp [step, hlow, hhigh, hrest]

theorem step_more {codePoint lower upper needed : ℕ} (hn : n < 64) (hlow : lower ≤ n + 0x80)
    (hhigh : n + 0x80 ≤ upper) :
    step (some ⟨codePoint, needed + 2, lower, upper⟩) (n + 0x80) =
      ([], some ⟨codePoint * 64 + n, needed + 1, 0x80, 0xBF⟩) := by
  have hrest : (n + 0x80) % 64 = n := by omega
  simp [step, hlow, hhigh, hrest]

theorem toNat_ofNat_add {m : ℕ} (h : n + m < 256) : (UInt8.ofNat (n + m)).toNat = n + m :=
  UInt8.toNat_ofNat_of_lt' h

/-- The bytes of a character are decoded to it, whatever comes after them. -/
theorem decodeFrom_encodeChar (c : Char) (rest : Bytes) :
    decodeFrom none (String.utf8EncodeChar c ++ rest) = c :: decodeFrom none rest := by
  obtain ⟨v, hv⟩ : ∃ v, c.toNat = v := ⟨_, rfl⟩
  have hchar : Char.ofNat v = c := by rw [← hv, Char.ofNat_toNat]
  have hvalid : v < 0xD800 ∨ 0xDFFF < v ∧ v < 0x110000 := by
    rw [← hv]
    exact c.valid
  have hval : c.val.toNat = v := hv
  simp only [String.utf8EncodeChar, hval]
  split
  next hone =>
    have hbyte : (UInt8.ofNat v).toNat = v := toNat_ofNat_add (n := v) (m := 0) (by omega)
    simp [decodeFrom_cons, step, start, hbyte, hone, hchar]
  next hone =>
    split
    next htwo =>
      have hsum : v / 64 % 0x20 * 64 + v % 64 = v := by omega
      rw [List.cons_append, decodeFrom_cons, toNat_ofNat_add (by omega), step,
        start_two (by omega) (by omega), List.cons_append, decodeFrom_cons, toNat_ofNat_add (by omega),
        step_last (by omega) (by omega) (by omega), hsum, hchar]
      rfl
    next htwo =>
      split
      next hthree =>
        have hsum : (v / 4096 % 0x10 * 64 + v / 64 % 0x40) * 64 + v % 0x40 = v := by omega
        rw [List.cons_append, decodeFrom_cons, toNat_ofNat_add (by omega), step,
          start_three (by omega), List.cons_append, decodeFrom_cons, toNat_ofNat_add (by omega),
          step_more (by omega) (by split <;> omega) (by split <;> omega), List.cons_append,
          decodeFrom_cons, toNat_ofNat_add (by omega), step_last (by omega) (by omega) (by omega), hsum,
          hchar]
        rfl
      next hthree =>
        have hsum : ((v / 262144 % 8 * 64 + v / 4096 % 0x40) * 64 + v / 64 % 0x40) * 64 + v % 0x40 = v := by
          omega
        rw [List.cons_append, decodeFrom_cons, toNat_ofNat_add (by omega), step,
          start_four (by omega), List.cons_append, decodeFrom_cons, toNat_ofNat_add (by omega),
          step_more (by omega) (by split <;> omega) (by split <;> omega), List.cons_append,
          decodeFrom_cons, toNat_ofNat_add (by omega), step_more (by omega) (by omega) (by omega),
          List.cons_append, decodeFrom_cons, toNat_ofNat_add (by omega),
          step_last (by omega) (by omega) (by omega), hsum, hchar]
        rfl

/-- A byte of ASCII is among the bytes of its own character only. -/
theorem mem_encodeChar_ascii {b : UInt8} (hb : b.toNat < 128) {c : Char}
    (h : b ∈ String.utf8EncodeChar c) : c.toNat = b.toNat := by
  obtain ⟨v, hv⟩ : ∃ v, c.toNat = v := ⟨_, rfl⟩
  have hval : c.val.toNat = v := hv
  have hhigh : ∀ {n m : ℕ}, 128 ≤ m → n + m < 256 → b ≠ UInt8.ofNat (n + m) := by
    rintro n m hm hsum rfl
    rw [toNat_ofNat_add hsum] at hb
    omega
  simp only [String.utf8EncodeChar, hval] at h
  rw [hv]
  split at h
  next hone =>
    rw [List.mem_singleton.mp h]
    exact (toNat_ofNat_add (n := v) (m := 0) (by omega)).symm
  next =>
    exfalso
    split at h
    next =>
      simp only [List.mem_cons, List.not_mem_nil, or_false] at h
      exact h.elim (hhigh (by decide) (by omega)) (hhigh (by decide) (by omega))
    next =>
      split at h
      next =>
        simp only [List.mem_cons, List.not_mem_nil, or_false] at h
        rcases h with h | h | h
        · exact hhigh (by decide) (by omega) h
        · exact hhigh (by decide) (by omega) h
        · exact hhigh (by decide) (by omega) h
      next =>
        simp only [List.mem_cons, List.not_mem_nil, or_false] at h
        rcases h with h | h | h | h
        · exact hhigh (by decide) (by omega) h
        · exact hhigh (by decide) (by omega) h
        · exact hhigh (by decide) (by omega) h
        · exact hhigh (by decide) (by omega) h

end Characters

theorem zero_notMem_utf8 {text : List Char} (h : '\x00' ∉ text) : 0 ∉ utf8 text := by
  intro hmem
  obtain ⟨c, hc, hbyte⟩ := List.mem_flatMap.mp hmem
  have hzero : c.toNat = 0 := mem_encodeChar_ascii (by decide) hbyte
  have hchar : c = '\x00' := by
    rw [← Char.ofNat_toNat c, hzero]
  exact h (hchar ▸ hc)

theorem decodeFrom_utf8 (text : List Char) : decodeFrom none (utf8 text) = text := by
  induction text with
  | nil => rfl
  | cons c text ih => rw [utf8_cons, decodeFrom_encodeChar, ih]

theorem decode_utf8 {text : List Char} (h : ¬ bom <+: utf8 text) : decode (utf8 text) = text := by
  rw [decode, if_neg h, decodeFrom_utf8]

theorem decodeFrom_bom (rest : Bytes) :
    decodeFrom none (bom ++ rest) = '\uFEFF' :: decodeFrom none rest := by
  have hbytes : String.utf8EncodeChar '\uFEFF' = bom := by decide
  rw [← hbytes]
  exact decodeFrom_encodeChar '\uFEFF' rest

theorem decode_bom (rest : Bytes) : decode (bom ++ rest) = decodeFrom none rest := by
  rw [decode, if_pos (List.prefix_append _ _)]
  rfl

/-- A text is read back, but for a byte order mark at its start. -/
theorem decode_utf8_cases (text : List Char) :
    decode (utf8 text) = text ∨ text = '\uFEFF' :: decode (utf8 text) := by
  by_cases hmark : bom <+: utf8 text
  · obtain ⟨rest, hrest⟩ := hmark
    right
    calc
      text = decodeFrom none (utf8 text) := (decodeFrom_utf8 text).symm
      _ = '\uFEFF' :: decodeFrom none rest := by rw [← hrest, decodeFrom_bom]
      _ = '\uFEFF' :: decode (utf8 text) := by rw [← hrest, decode_bom]
  · exact .inl (decode_utf8 hmark)

/-- Bytes come back from the text they are decoded to exactly if they are the bytes
of a text and do not start with the mark. -/
theorem utf8_decode_iff (bytes : Bytes) :
    utf8 (decode bytes) = bytes ↔ (∃ text, utf8 text = bytes) ∧ ¬ bom <+: bytes := by
  constructor
  · intro hback
    refine ⟨⟨_, hback⟩, ?_⟩
    rintro ⟨rest, rfl⟩
    rw [decode_bom] at hback
    have hagain := decodeFrom_utf8 (decodeFrom none rest)
    rw [hback, decodeFrom_bom] at hagain
    have hlen := congrArg List.length hagain
    simp at hlen
  · rintro ⟨⟨text, rfl⟩, hmark⟩
    rw [decode_utf8 hmark]

end Tactile.Lib.Utf8

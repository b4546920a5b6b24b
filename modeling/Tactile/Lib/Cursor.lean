import Tactile.Lib.ByteString
import Mathlib.Control.Monad.Basic

/-!
Buffers of a fixed size that are written from their start, readers that take
values off the front of a byte string, and the rules for both.
-/

namespace Tactile.Lib.Cursor

open Tactile.Lib.ByteString

variable {α β : Type}

section Writers

structure Buffer where
  out : Bytes
  offset : ℕ
  deriving DecidableEq

abbrev Writer (α : Type) : Type := StateT Buffer Option α

/-- Bytes at the offset; a write past the end of the buffer throws. -/
def put (bs : Bytes) : Writer Unit := fun c =>
  if c.offset + bs.length ≤ c.out.length then
    some ((), ⟨c.out.take c.offset ++ bs ++ c.out.drop (c.offset + bs.length),
      c.offset + bs.length⟩)
  else none

def position : Writer ℕ := fun c => some (c.offset, c)

/-- The buffer with its first bytes written and `room` bytes left. -/
def written (done : Bytes) (room : ℕ) : Buffer := ⟨done ++ List.replicate room 0, done.length⟩

/-- After `done` the writer appends `bs` and returns `a`. -/
def Writes (p : Writer α) (done : Bytes) (a : α) (bs : Bytes) : Prop :=
  ∀ room, p.run (written done (bs.length + room)) = some (a, written (done ++ bs) room)

variable {p : Writer α} {f : α → Writer β} {done bs cs : Bytes} {a : α} {b : β}

theorem Writes.put (done bs : Bytes) : Writes (put bs) done () bs := by
  intro room
  have hroom : done.length + bs.length ≤
      (done ++ List.replicate (bs.length + room) (0 : UInt8)).length := by
    rw [List.length_append, List.length_replicate]
    omega
  have htake : (done ++ List.replicate (bs.length + room) (0 : UInt8)).take done.length = done :=
    List.take_left' rfl
  have hdrop : (done ++ List.replicate (bs.length + room) (0 : UInt8)).drop
      (done.length + bs.length) = List.replicate room 0 := by
    rw [List.drop_append, List.drop_eq_nil_of_le (by omega), List.nil_append, List.drop_replicate]
    congr 1
    omega
  change (if done.length + bs.length ≤ (done ++ List.replicate (bs.length + room) 0).length then
    some ((), (⟨_, _⟩ : Buffer)) else none) = _
  rw [if_pos hroom]
  change some ((), (⟨(done ++ List.replicate (bs.length + room) 0).take done.length ++ bs ++
    (done ++ List.replicate (bs.length + room) 0).drop (done.length + bs.length),
      done.length + bs.length⟩ : Buffer)) = _
  rw [htake, hdrop, written, List.length_append]

theorem Writes.position (done : Bytes) : Writes position done done.length [] := by
  intro room
  rw [List.append_nil, List.length_nil, Nat.zero_add]
  rfl

theorem Writes.pure (done : Bytes) (a : α) : Writes (pure a) done a [] := by
  intro room
  rw [List.append_nil, List.length_nil, Nat.zero_add]
  rfl

theorem Writes.bind (hp : Writes p done a bs) (hf : Writes (f a) (done ++ bs) b cs) :
    Writes (p >>= f) done b (bs ++ cs) := by
  intro room
  rw [StateT.run_bind, List.length_append, Nat.add_assoc, hp, ← List.append_assoc]
  exact hf room

theorem Writes.map (hp : Writes p done a bs) (g : α → β) :
    Writes (do let x ← p; return g x) done (g a) bs := by
  have hbind := hp.bind (f := fun x => Pure.pure (g x)) (Writes.pure _ (g a))
  rwa [List.append_nil] at hbind

/-- A writer for each of the values. -/
theorem Writes.forM {w : α → Writer Unit} {enc : α → Bytes}
    (h : ∀ done x, Writes (w x) done () (enc x)) (xs : List α) (done : Bytes) :
    Writes (xs.forM w) done () (xs.flatMap enc) := by
  induction xs generalizing done with
  | nil => exact Writes.pure done ()
  | cons x xs ih =>
      rw [List.flatMap_cons]
      exact (h done x).bind (ih (done ++ enc x))

/-- The positions at which the encodings of the values start. -/
def offsets (enc : α → Bytes) : ℕ → List α → List ℕ
  | _, [] => []
  | start, x :: xs => start :: offsets enc (start + (enc x).length) xs

@[simp] theorem length_offsets (enc : α → Bytes) (start : ℕ) (xs : List α) :
    (offsets enc start xs).length = xs.length := by
  induction xs generalizing start with
  | nil => rfl
  | cons x xs ih => rw [offsets, List.length_cons, List.length_cons, ih]

/-- An encoding lies between its offset and the end of all encodings. -/
theorem mem_zip_offsets {enc : α → Bytes} {start : ℕ} {xs : List α} {e : α × ℕ}
    (h : e ∈ xs.zip (offsets enc start xs)) :
    e.1 ∈ xs ∧ e.2 + (enc e.1).length ≤ start + (xs.flatMap enc).length := by
  induction xs generalizing start with
  | nil => cases h
  | cons x xs ih =>
      rw [offsets, List.zip_cons_cons, List.mem_cons] at h
      rw [List.flatMap_cons, List.length_append]
      rcases h with rfl | h
      · exact ⟨List.mem_cons_self, by change start + (enc x).length ≤ _; omega⟩
      · obtain ⟨hmem, hle⟩ := ih h
        exact ⟨List.mem_cons_of_mem x hmem, by omega⟩

/-- A writer for each of the values that notes where it has started. -/
theorem Writes.mapM {w : α → Writer ℕ} {enc : α → Bytes}
    (h : ∀ done x, Writes (w x) done done.length (enc x)) (xs : List α) (done : Bytes) :
    Writes (xs.mapM w) done (offsets enc done.length xs) (xs.flatMap enc) := by
  induction xs generalizing done with
  | nil => exact Writes.pure done []
  | cons x xs ih =>
      rw [List.mapM_cons, List.flatMap_cons]
      have hrest := ih (done ++ enc x)
      rw [List.length_append] at hrest
      exact (h done x).bind (hrest.map (done.length :: ·))

end Writers

section Readers

abbrev Reader (α : Type) : Type := StateT Bytes Option α

def take (n : ℕ) : Reader Bytes := fun bs =>
  if n ≤ bs.length then some (bs.take n, bs.drop n) else none

/-- A number of `width` bytes. -/
def number (width : ℕ) : Reader ℕ := do
  let bs ← take width
  return readLE bs

/-- A number that must have this value. -/
def expect (width value : ℕ) : Reader Unit := do
  let v ← number width
  if v = value then return () else failure

/-- As many values as asked for. -/
def many (r : Reader α) : ℕ → Reader (List α)
  | 0 => return []
  | n + 1 => do
    let x ← r
    let xs ← many r n
    return x :: xs

/-- The reader takes exactly `bs` off whatever follows, and returns `a`. -/
def Reads (r : Reader α) (bs : Bytes) (a : α) : Prop :=
  ∀ rest, r.run (bs ++ rest) = some (a, rest)

variable {r : Reader α} {f : α → Reader β} {bs cs : Bytes} {a : α} {b : β}

theorem Reads.take (bs : Bytes) {n : ℕ} (h : bs.length = n) : Reads (take n) bs bs := by
  intro rest
  have hlen : n ≤ (bs ++ rest).length := by
    rw [List.length_append]
    omega
  change (if n ≤ (bs ++ rest).length then some ((bs ++ rest).take n, (bs ++ rest).drop n)
    else none) = _
  rw [if_pos hlen, List.take_left' h, List.drop_left' h]

theorem Reads.pure (a : α) : Reads (pure a) [] a := fun _ => rfl

theorem Reads.bind (hr : Reads r bs a) (hf : Reads (f a) cs b) :
    Reads (r >>= f) (bs ++ cs) b := by
  intro rest
  rw [StateT.run_bind, List.append_assoc, hr]
  exact hf rest

theorem Reads.map (hr : Reads r bs a) (g : α → β) :
    Reads (do let x ← r; return g x) bs (g a) := by
  have hbind := hr.bind (f := fun x => Pure.pure (g x)) (Reads.pure (g a))
  rwa [List.append_nil] at hbind

theorem Reads.number (width value : ℕ) :
    Reads (number width) (putLE width value) (value % 256 ^ width) := by
  rw [← readLE_putLE]
  exact (Reads.take (putLE width value) (length_putLE width value)).map readLE

theorem Reads.expect {width value : ℕ} (h : value < 256 ^ width) :
    Reads (expect width value) (putLE width value) () := by
  have hcheck : Reads (if value % 256 ^ width = value then (return () : Reader Unit) else failure)
      [] () := by
    rw [if_pos (Nat.mod_eq_of_lt h)]
    exact Reads.pure ()
  have hbind := (Reads.number width value).bind (f := fun v =>
    if v = value then (return () : Reader Unit) else failure) hcheck
  rwa [List.append_nil] at hbind

/-- As many values as there are encodings. -/
theorem Reads.many {enc : α → Bytes} {val : α → β} {r : Reader β} (xs : List α)
    (h : ∀ x ∈ xs, Reads r (enc x) (val x)) :
    Reads (many r xs.length) (xs.flatMap enc) (xs.map val) := by
  induction xs with
  | nil => exact Reads.pure []
  | cons x xs ih =>
      rw [List.flatMap_cons, List.map_cons]
      have hrest := ih fun y hy => h y (List.mem_cons_of_mem x hy)
      exact (h x List.mem_cons_self).bind (hrest.map (val x :: ·))

end Readers

end Tactile.Lib.Cursor

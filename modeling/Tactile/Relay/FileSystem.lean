import Mathlib.Algebra.Order.BigOperators.Group.List
import Tactile.Lib.Program
import Tactile.Lib.FiniteMap
import Tactile.Relay.Blob

/-!
The file system under the relay's data directory, as the operations the store
calls on it.
-/

namespace Tactile.Relay.FileSystem

open Tactile.Lib.Program Tactile.Lib.FiniteMap Tactile.Lib.ByteString Tactile.Relay.Blob

/-- A path below the data directory, as its segments. -/
abbrev Path : Type := List String

inductive DiskOp
  | mkdirAll (dir : Path)
  | createTemp (dir : Path)
  | write (file : Path) (data : Bytes)
  | sync (file : Path)
  | close (file : Path)
  | rename (src dst : Path)
  | remove (file : Path)
  | readFile (file : Path)
  | walkDir
  deriving DecidableEq

/-- What an operation returns when it succeeds: the name of the new temp file,
the contents of a file, the regular files in the order of the walk. -/
abbrev DiskVal : DiskOp → Type
  | .createTemp _ => Path
  | .readFile _ => Bytes
  | .walkDir => List Path
  | _ => Unit

abbrev DiskAns (o : DiskOp) : Type := Except Errno (DiskVal o)

structure Disk where
  dirs : List Path
  files : Dict Path Bytes

/-- The name `os.CreateTemp` makes of the pattern `".tmp-*"` and a random
number. -/
def tempName (n : ℕ) : String := String.ofList (".tmp-".toList ++ Nat.toDigits 10 n)

theorem toList_tempName (n : ℕ) :
    (tempName n).toList = ".tmp-".toList ++ Nat.toDigits 10 n := String.toList_ofList

/-- A file system on which no operation fails for an outside reason. -/
inductive Serves : Answers DiskOp DiskAns Disk
  | mkdirAll (d : Disk) (dir : Path) :
      Serves d (.mkdirAll dir) (.ok ()) { d with dirs := dir.inits ++ d.dirs }
  | createTemp (d : Disk) (dir : Path) (n : ℕ) :
      dir ∈ d.dirs → d.files.lookup (dir ++ [tempName n]) = none →
      Serves d (.createTemp dir) (.ok (dir ++ [tempName n]))
        { d with files := d.files.insert (dir ++ [tempName n]) [] }
  | createTempMissing (d : Disk) (dir : Path) :
      dir ∉ d.dirs → Serves d (.createTemp dir) (.error .notExist) d
  | write (d : Disk) (file : Path) (data : Bytes) :
      Serves d (.write file data) (.ok ())
        { d with files := d.files.insert file ((d.files.lookup file).getD [] ++ data) }
  | sync (d : Disk) (file : Path) : Serves d (.sync file) (.ok ()) d
  | close (d : Disk) (file : Path) : Serves d (.close file) (.ok ()) d
  | rename (d : Disk) (src dst : Path) (data : Bytes) :
      d.files.lookup src = some data →
      Serves d (.rename src dst) (.ok ())
        { d with files := (d.files.erase src).insert dst data }
  | renameMissing (d : Disk) (src dst : Path) :
      d.files.lookup src = none → Serves d (.rename src dst) (.error .notExist) d
  | remove (d : Disk) (file : Path) (data : Bytes) :
      d.files.lookup file = some data →
      Serves d (.remove file) (.ok ()) { d with files := d.files.erase file }
  | removeMissing (d : Disk) (file : Path) :
      d.files.lookup file = none → Serves d (.remove file) (.error .notExist) d
  | readFile (d : Disk) (file : Path) (data : Bytes) :
      d.files.lookup file = some data → Serves d (.readFile file) (.ok data) d
  | readMissing (d : Disk) (file : Path) :
      d.files.lookup file = none → Serves d (.readFile file) (.error .notExist) d
  | walkDir (d : Disk) (files : List Path) :
      files.Perm d.files.keys → Serves d .walkDir (.ok files) d

private theorem lt_length_toDigits (k : ℕ) : k < (Nat.toDigits 10 (10 ^ (k + 1))).length := by
  refine Nat.lt_of_succ_lt ?_
  rw [← Nat.not_le, Nat.length_toDigits_le_iff (by decide) (Nat.succ_pos k)]
  exact Nat.lt_irrefl _

/-- There is a temp name that no file of the directory has. -/
theorem exists_tempName_free (d : Disk) (dir : Path) :
    ∃ n, d.files.lookup (dir ++ [tempName n]) = none := by
  let lengths := d.files.keys.map fun path => (path.getLastD "").toList.length
  obtain ⟨n, hn⟩ : ∃ n, lengths.sum < (Nat.toDigits 10 n).length :=
    ⟨_, lt_length_toDigits lengths.sum⟩
  refine ⟨n, AList.lookup_eq_none.mpr fun hmem => ?_⟩
  have hname : (tempName n).toList.length ∈ lengths :=
    List.mem_map.mpr ⟨dir ++ [tempName n], AList.mem_keys.mp hmem, by rw [List.getLastD_concat]⟩
  have hlong : (Nat.toDigits 10 n).length ≤ (tempName n).toList.length := by
    rw [toList_tempName, List.length_append]
    exact Nat.le_add_left _ _
  exact absurd (List.le_sum_of_mem hname) (by omega)

/-- Such a file system answers every operation. -/
theorem serves_total (d : Disk) (o : DiskOp) : ∃ ans d', Serves d o ans d' := by
  cases o with
  | mkdirAll dir => exact ⟨_, _, .mkdirAll d dir⟩
  | createTemp dir =>
      by_cases hdir : dir ∈ d.dirs
      · obtain ⟨n, hn⟩ := exists_tempName_free d dir
        exact ⟨_, _, .createTemp d dir n hdir hn⟩
      · exact ⟨_, _, .createTempMissing d dir hdir⟩
  | write file data => exact ⟨_, _, .write d file data⟩
  | sync file => exact ⟨_, _, .sync d file⟩
  | close file => exact ⟨_, _, .close d file⟩
  | rename src dst =>
      cases h : d.files.lookup src with
      | none => exact ⟨_, _, .renameMissing d src dst h⟩
      | some data => exact ⟨_, _, .rename d src dst data h⟩
  | remove file =>
      cases h : d.files.lookup file with
      | none => exact ⟨_, _, .removeMissing d file h⟩
      | some data => exact ⟨_, _, .remove d file data h⟩
  | readFile file =>
      cases h : d.files.lookup file with
      | none => exact ⟨_, _, .readMissing d file h⟩
      | some data => exact ⟨_, _, .readFile d file data h⟩
  | walkDir => exact ⟨_, _, .walkDir d _ (List.Perm.refl _)⟩

/-- What an operation that is stopped midway can leave: nothing done yet, or a
write cut short. -/
inductive Torn : Disk → DiskOp → Disk → Prop
  | untouched (d : Disk) (o : DiskOp) : Torn d o d
  | write (d : Disk) (file : Path) (data : Bytes) (n : ℕ) :
      Torn d (.write file data)
        { d with files := d.files.insert file ((d.files.lookup file).getD [] ++ data.take n) }

end Tactile.Relay.FileSystem

import Tactile.Lib.Crc
import Tactile.Lib.Cursor
import Tactile.Lib.Text
import Mathlib.Data.List.Infix
import Mathlib.Data.List.Nodup

/-!
The archive writer of the export, and a reader of the format that starts from
the end record.
-/

namespace Tactile.Utils.Zip

open Tactile.Lib.ByteString Tactile.Lib.Cursor

section Checksum

/-- The register of CRC-32 after eight shifts of a byte. -/
def tableEntry : ℕ → UInt32 → UInt32
  | 0, c => c
  | k + 1, c => tableEntry k (if c &&& 1 ≠ 0 then (0xedb88320 : UInt32) ^^^ (c >>> 1) else c >>> 1)

def crcTable : List UInt32 := (List.range 256).map fun n => tableEntry 8 (UInt32.ofNat n)

/-- The register with one more byte. -/
def crcByte (crc : UInt32) (b : UInt8) : UInt32 :=
  crcTable.getD ((crc ^^^ b.toUInt32) &&& 0xff).toNat 0 ^^^ (crc >>> 8)

def crc32 (data : Bytes) : UInt32 := data.foldl crcByte 0xffffffff ^^^ (0xffffffff : UInt32)

end Checksum

section Names

/-- A well-formed string, by its code points. -/
abbrev Text : Type := List Char

/-- The bytes of a text in UTF-8. -/
def encode (text : Text) : Bytes := Tactile.Lib.Text.utf8 text

def sanitizeName (name : Text) : Text :=
  let segments := (name.map fun c => if c = '\\' then '/' else c).splitOn '/'
  ['/'].intercalate (segments.filter fun s => s ≠ [] ∧ s ≠ ['.'] ∧ s ≠ ['.', '.'])

/-- The place of the last dot, -1 where there is none. -/
def lastIndexOfDot (s : Text) : ℤ := (s.length : ℤ) - 1 - (s.reverse.idxOf '.' : ℤ)

/-- A name with a number before its extension. -/
def numbered (stem ext : Text) (i : ℕ) : Text :=
  stem ++ " (".toList ++ Nat.toDigits 10 i ++ ")".toList ++ ext

theorem lawfulBEq_text : LawfulBEq Text := inferInstance

attribute [local instance] lawfulBEq_text

/-- The first number from `i` on whose name is free, among as many as `fuel`. -/
def firstFree (usedNames : List Text) (stem ext : Text) : ℕ → ℕ → ℕ
  | 0, i => i
  | fuel + 1, i =>
    if numbered stem ext i ∈ usedNames then firstFree usedNames stem ext fuel (i + 1) else i

/-- The name of an entry in the archive. -/
def archiveName (usedNames : List Text) (name : Text) : Text :=
  let name := if sanitizeName name = [] then "untitled".toList else sanitizeName name
  if name ∈ usedNames then
    let dot := lastIndexOfDot name
    let stem := if 0 < dot then name.take dot.toNat else name
    let ext := if 0 < dot then name.drop dot.toNat else []
    numbered stem ext (firstFree usedNames stem ext usedNames.length 1)
  else name

end Names

section Writer

/-- A `Date`, by its local fields; those of an invalid one are NaN. -/
inductive JsDate
  | invalid
  | fields (hours minutes seconds : ℕ) (fullYear : ℤ) (month date : ℕ)

structure DosDateTime where
  time : ℕ
  date : ℕ

/-- The bit operations take NaN for 0. -/
def dosDateTime : JsDate → DosDateTime
  | .invalid => ⟨0, 0⟩
  | .fields hours minutes seconds fullYear month date =>
    { time := (hours <<< 11) ||| (minutes <<< 5) ||| (seconds / 2)
      date := ((fullYear - 1980).toNat <<< 9) ||| ((month + 1) <<< 5) ||| date }

structure ZipEntry where
  name : Text
  data : Bytes
  modified : Option JsDate := none

structure Prepared where
  nameBytes : Bytes
  data : Bytes
  crc : UInt32
  mtime : DosDateTime

/-- The entries from the `i`-th on; `now` is what the clock says at each of them. -/
def prepare (now : ℕ → JsDate) : ℕ → List Text → List ZipEntry → List Prepared
  | _, _, [] => []
  | i, usedNames, entry :: entries =>
    let name := archiveName usedNames entry.name
    { nameBytes := encode name
      data := entry.data
      crc := crc32 entry.data
      mtime := dosDateTime (entry.modified.getD (now i)) } ::
        prepare now (i + 1) (name :: usedNames) entries

def centralSize (prepared : List Prepared) : ℕ :=
  prepared.foldl (fun sum e => sum + 46 + e.nameBytes.length) 0

/-- The size of the buffer. -/
def totalSize (prepared : List Prepared) : ℕ :=
  prepared.foldl (fun size e => size + (30 + e.nameBytes.length + e.data.length)) 0 +
    centralSize prepared + 22

def write16 (v : ℕ) : Writer Unit := put (putLE 2 v)

def write32 (v : ℕ) : Writer Unit := put (putLE 4 v)

/-- A local header with the data; returns its offset. -/
def writeLocal (e : Prepared) : Writer ℕ := do
  let offset ← position
  write32 0x04034b50
  write16 20
  write16 0x0800
  write16 0
  write16 e.mtime.time
  write16 e.mtime.date
  write32 e.crc.toNat
  write32 e.data.length
  write32 e.data.length
  write16 e.nameBytes.length
  write16 0
  put e.nameBytes
  put e.data
  return offset

/-- The central header of an entry and the offset of its local one. -/
def writeCentral (e : Prepared × ℕ) : Writer Unit := do
  write32 0x02014b50
  write16 20
  write16 20
  write16 0x0800
  write16 0
  write16 e.1.mtime.time
  write16 e.1.mtime.date
  write32 e.1.crc.toNat
  write32 e.1.data.length
  write32 e.1.data.length
  write16 e.1.nameBytes.length
  write16 0
  write16 0
  write16 0
  write16 0
  write32 0
  write32 e.2
  put e.1.nameBytes

/-- The three parts of the archive. -/
def writeZip (prepared : List Prepared) : Writer Unit := do
  let centralOffsets ← prepared.mapM writeLocal
  let centralStart ← position
  (prepared.zip centralOffsets).forM writeCentral
  let offset ← position
  write32 0x06054b50
  write16 0
  write16 0
  write16 prepared.length
  write16 prepared.length
  write32 (offset - centralStart)
  write32 centralStart
  write16 0

/-- The bytes of the archive up to the offset; a write that does not fit throws. -/
def createZip (now : ℕ → JsDate) (entries : List ZipEntry) : Option Bytes :=
  let prepared := prepare now 0 [] entries
  let out := (writeZip prepared).run ⟨List.replicate (totalSize prepared) 0, 0⟩
  out.map fun done => done.2.out.take done.2.offset

end Writer

section Reader

/-- What a local header and its central one both say. -/
structure Shared where
  version : ℕ
  flags : ℕ
  method : ℕ
  time : ℕ
  date : ℕ
  crc : ℕ
  compressed : ℕ
  size : ℕ
  nameLength : ℕ
  extraLength : ℕ
  deriving DecidableEq

structure Central where
  shared : Shared
  name : Bytes
  offset : ℕ

structure EndRecord where
  count : ℕ
  size : ℕ
  start : ℕ
  comment : ℕ

/-- What a reader gets of an entry. -/
structure Record where
  name : Bytes
  data : Bytes
  size : ℕ
  crc : ℕ
  deriving DecidableEq

def sharedFields : Reader Shared := do
  let version ← number 2
  let flags ← number 2
  let method ← number 2
  let time ← number 2
  let date ← number 2
  let crc ← number 4
  let compressed ← number 4
  let size ← number 4
  let nameLength ← number 2
  let extraLength ← number 2
  return ⟨version, flags, method, time, date, crc, compressed, size, nameLength, extraLength⟩

def localHeader : Reader (Shared × Bytes) := do
  expect 4 0x04034b50
  let shared ← sharedFields
  let name ← take shared.nameLength
  let _ ← take shared.extraLength
  return (shared, name)

def centralHeader : Reader Central := do
  expect 4 0x02014b50
  let _ ← number 2
  let shared ← sharedFields
  let comment ← number 2
  expect 2 0
  let _ ← number 2
  let _ ← number 4
  let offset ← number 4
  let name ← take shared.nameLength
  let _ ← take shared.extraLength
  let _ ← take comment
  return ⟨shared, name, offset⟩

/-- The end record of an archive on one disk. -/
def endRecord : Reader EndRecord := do
  expect 4 0x06054b50
  expect 2 0
  expect 2 0
  let count ← number 2
  expect 2 count
  let size ← number 4
  let start ← number 4
  let comment ← number 2
  return ⟨count, size, start, comment⟩

/-- The end record at this place, if its comment is what follows. -/
def endAt (archive : Bytes) (place : ℕ) : Option (ℕ × EndRecord) := do
  let (record, rest) ← endRecord.run (archive.drop place)
  if rest.length = record.comment then some (place, record) else none

/-- The last end record. -/
def findEnd (archive : Bytes) : Option (ℕ × EndRecord) :=
  (List.range (archive.length - 21)).reverse.findSome? (endAt archive)

/-- The entry of a central header; its local one must say the same. -/
def readEntry (archive : Bytes) (c : Central) : Option Record := do
  let ((shared, name), rest) ← localHeader.run (archive.drop c.offset)
  if shared = c.shared ∧ name = c.name ∧ shared.method = 0 ∧ shared.compressed = shared.size then
    let (data, _) ← (take shared.compressed).run rest
    some ⟨name, data, shared.size, shared.crc⟩
  else none

/-- The entries of an archive, in the order of its central directory. -/
def readZip (archive : Bytes) : Option (List Record) := do
  let (place, record) ← findEnd archive
  if record.start + record.size = place then
    let directory := (archive.drop record.start).take record.size
    let (centrals, rest) ← (many centralHeader record.count).run directory
    if rest = [] then centrals.mapM (readEntry archive) else none
  else none

end Reader

end Tactile.Utils.Zip

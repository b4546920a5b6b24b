import Tactile.Utils.ZipNames

/-!
What the archive writer writes, record by record, and that the reader gets the
entries back from it.
-/

namespace Tactile.Utils.Zip

open Tactile.Lib.ByteString Tactile.Lib.Cursor

section Checksum

/-- The CRC-32 of the format, with its reflected polynomial. -/
def crcOf (data : Bytes) : BitVec 32 :=
  Tactile.Lib.Crc.checksum 0xedb88320#32 0xffffffff#32 0xffffffff#32 data

theorem toBitVec_tableEntry (k : ℕ) (c : UInt32) :
    (tableEntry k c).toBitVec = (Tactile.Lib.Crc.shift 0xedb88320#32)^[k] c.toBitVec := by
  induction k generalizing c with
  | zero => rfl
  | succ k ih =>
      have hstep : (if c &&& 1 ≠ 0 then (0xedb88320 : UInt32) ^^^ (c >>> 1) else c >>> 1).toBitVec =
          Tactile.Lib.Crc.shift 0xedb88320#32 c.toBitVec := by
        have hlow : (c &&& 1 ≠ 0) ↔ c.toBitVec.getLsbD 0 = true := by
          rw [ne_eq, ← UInt32.toBitVec_inj, UInt32.toBitVec_and]
          change ¬c.toBitVec &&& 1#32 = 0#32 ↔ _
          rw [BitVec.and_one_eq_setWidth_ofBool_getLsbD]
          cases c.toBitVec.getLsbD 0 <;> decide
        rw [Tactile.Lib.Crc.shift, apply_ite UInt32.toBitVec]
        simp only [hlow]
        rfl
      rw [tableEntry, ih, hstep]
      rfl

theorem toBitVec_crcByte (crc : UInt32) (b : UInt8) :
    (crcByte crc b).toBitVec = Tactile.Lib.Crc.feed 0xedb88320#32 crc.toBitVec b := by
  have hindex : ((crc ^^^ b.toUInt32) &&& 0xff).toNat < 256 := by
    rw [UInt32.toNat_and]
    exact Nat.lt_of_le_of_lt Nat.and_le_right (by decide)
  have hentry : crcTable.getD ((crc ^^^ b.toUInt32) &&& 0xff).toNat 0 =
      tableEntry 8 ((crc ^^^ b.toUInt32) &&& 0xff) := by
    rw [crcTable, List.getD_eq_getElem?_getD, List.getElem?_map, List.getElem?_range hindex,
      Option.map_some, Option.getD_some, UInt32.ofNat_toNat]
  rw [crcByte, UInt32.toBitVec_xor, hentry, toBitVec_tableEntry, Tactile.Lib.Crc.feed_table]
  rfl

/-- The table computes CRC-32. -/
theorem toBitVec_crc32 (data : Bytes) : (crc32 data).toBitVec = crcOf data := by
  have hfold : ∀ crc : UInt32, (data.foldl crcByte crc).toBitVec =
      data.foldl (Tactile.Lib.Crc.feed 0xedb88320#32) crc.toBitVec := by
    induction data with
    | nil => exact fun _ => rfl
    | cons b data ih =>
        intro crc
        rw [List.foldl_cons, List.foldl_cons, ih, toBitVec_crcByte]
  rw [crc32, UInt32.toBitVec_xor, hfold]
  rfl

end Checksum

section Records

/-- The fields that both headers of an entry have. -/
def sharedBytes (e : Prepared) : Bytes :=
  [putLE 2 20, putLE 2 0x0800, putLE 2 0, putLE 2 e.mtime.time, putLE 2 e.mtime.date,
    putLE 4 e.crc.toNat, putLE 4 e.data.length, putLE 4 e.data.length,
    putLE 2 e.nameBytes.length, putLE 2 0].flatten

/-- A local header. -/
def headerBytes (e : Prepared) : Bytes :=
  [putLE 4 0x04034b50, sharedBytes e, e.nameBytes].flatten

def localBytes (e : Prepared) : Bytes := headerBytes e ++ e.data

def centralBytes (e : Prepared × ℕ) : Bytes :=
  [putLE 4 0x02014b50, putLE 2 20, sharedBytes e.1, putLE 2 0, putLE 2 0, putLE 2 0, putLE 4 0,
    putLE 4 e.2, e.1.nameBytes].flatten

def endBytes (count size start : ℕ) : Bytes :=
  [putLE 4 0x06054b50, putLE 2 0, putLE 2 0, putLE 2 count, putLE 2 count, putLE 4 size,
    putLE 4 start, putLE 2 0].flatten

def localsBytes (prepared : List Prepared) : Bytes := prepared.flatMap localBytes

/-- The central directory, whose entries start at this offset. -/
def directoryBytes (start : ℕ) (prepared : List Prepared) : Bytes :=
  (prepared.zip (offsets localBytes start prepared)).flatMap centralBytes

/-- The whole archive. -/
def archiveBytes (prepared : List Prepared) : Bytes :=
  localsBytes prepared ++ (directoryBytes 0 prepared ++
    endBytes prepared.length (directoryBytes 0 prepared).length (localsBytes prepared).length)

theorem length_localBytes (e : Prepared) :
    (localBytes e).length = 30 + e.nameBytes.length + e.data.length := by
  simp only [localBytes, headerBytes, sharedBytes, List.flatten_cons, List.flatten_nil,
    List.length_append, length_putLE, List.length_nil]
  omega

theorem length_centralBytes (e : Prepared × ℕ) :
    (centralBytes e).length = 46 + e.1.nameBytes.length := by
  simp only [centralBytes, sharedBytes, List.flatten_cons, List.flatten_nil, List.length_append,
    length_putLE, List.length_nil]
  omega

theorem length_endBytes (count size start : ℕ) : (endBytes count size start).length = 22 := by
  simp only [endBytes, List.flatten_cons, List.flatten_nil, List.length_append, length_putLE,
    List.length_nil]

theorem length_localsBytes (prepared : List Prepared) (n : ℕ) :
    prepared.foldl (fun size e => size + (30 + e.nameBytes.length + e.data.length)) n =
      n + (localsBytes prepared).length := by
  induction prepared generalizing n with
  | nil => rfl
  | cons e prepared ih =>
      rw [List.foldl_cons, ih, localsBytes, localsBytes, List.flatMap_cons, List.length_append,
        length_localBytes, Nat.add_assoc n]

theorem length_directoryBytes (start : ℕ) (prepared : List Prepared) (n : ℕ) :
    prepared.foldl (fun sum e => sum + 46 + e.nameBytes.length) n =
      n + (directoryBytes start prepared).length := by
  induction prepared generalizing start n with
  | nil => rfl
  | cons e prepared ih =>
      rw [List.foldl_cons, ih (start + (localBytes e).length), directoryBytes, directoryBytes,
        offsets, List.zip_cons_cons, List.flatMap_cons, List.length_append, length_centralBytes]
      change _ = n + (46 + e.nameBytes.length + _)
      omega

/-- The buffer has the size of the archive. -/
theorem totalSize_eq (prepared : List Prepared) :
    totalSize prepared = (archiveBytes prepared).length := by
  rw [totalSize, length_localsBytes, centralSize, length_directoryBytes 0, archiveBytes,
    List.length_append, List.length_append, length_endBytes]
  omega

end Records

section Writing

theorem writes_local (done : Bytes) (e : Prepared) :
    Writes (writeLocal e) done done.length (localBytes e) := by
  have hflat : localBytes e = [] ++ [putLE 4 0x04034b50, putLE 2 20, putLE 2 0x0800, putLE 2 0,
      putLE 2 e.mtime.time, putLE 2 e.mtime.date, putLE 4 e.crc.toNat, putLE 4 e.data.length,
      putLE 4 e.data.length, putLE 2 e.nameBytes.length, putLE 2 0, e.nameBytes,
      e.data].flatten := by
    simp only [localBytes, headerBytes, sharedBytes, List.flatten_cons, List.flatten_nil,
      List.append_assoc, List.nil_append, List.append_nil]
  rw [hflat]
  refine (Writes.position done).bind ?_
  iterate 13 refine (Writes.put _ _).bind ?_
  exact Writes.pure _ _

theorem writes_central (done : Bytes) (e : Prepared × ℕ) :
    Writes (writeCentral e) done () (centralBytes e) := by
  have hflat : centralBytes e = [putLE 4 0x02014b50, putLE 2 20, putLE 2 20, putLE 2 0x0800,
      putLE 2 0, putLE 2 e.1.mtime.time, putLE 2 e.1.mtime.date, putLE 4 e.1.crc.toNat,
      putLE 4 e.1.data.length, putLE 4 e.1.data.length, putLE 2 e.1.nameBytes.length, putLE 2 0,
      putLE 2 0, putLE 2 0, putLE 2 0, putLE 4 0, putLE 4 e.2, e.1.nameBytes].flatten := by
    simp only [centralBytes, sharedBytes, List.flatten_cons, List.flatten_nil, List.append_assoc,
      List.append_nil]
  rw [hflat]
  iterate 17 refine (Writes.put _ _).bind ?_
  rw [List.flatten_singleton]
  exact Writes.put _ _

theorem writes_zip (prepared : List Prepared) :
    Writes (writeZip prepared) [] () (archiveBytes prepared) := by
  have hlocals := Writes.mapM writes_local prepared []
  have hdirectory := Writes.forM writes_central (prepared.zip (offsets localBytes 0 prepared))
    (localsBytes prepared)
  refine hlocals.bind ?_
  change Writes _ (localsBytes prepared) _ ([] ++ (directoryBytes 0 prepared ++ ([] ++ _)))
  refine (Writes.position _).bind ?_
  rw [List.append_nil]
  refine hdirectory.bind ?_
  refine (Writes.position _).bind ?_
  have hsize : (localsBytes prepared ++ directoryBytes 0 prepared).length -
      (localsBytes prepared).length = (directoryBytes 0 prepared).length := by
    rw [List.length_append, Nat.add_sub_cancel_left]
  change Writes _ _ _ (endBytes _ _ _)
  rw [← hsize]
  iterate 7 refine (Writes.put _ _).bind ?_
  rw [List.flatten_singleton]
  exact Writes.put _ _

/-- The writer fills its buffer to the last byte. -/
theorem createZip_eq (now : ℕ → JsDate) (entries : List ZipEntry) :
    createZip now entries = some (archiveBytes (prepare now 0 [] entries)) := by
  have hrun := writes_zip (prepare now 0 [] entries) 0
  rw [Nat.add_zero, ← totalSize_eq] at hrun
  have hbuffer : ∀ room, written [] room = ⟨List.replicate room 0, 0⟩ := fun _ => rfl
  rw [hbuffer] at hrun
  rw [createZip, hrun, Option.map_some, written, List.replicate_zero, List.append_nil,
    List.nil_append, List.take_length]

end Writing

section Reading

/-- The entry fits the fields of its headers. -/
structure Fits (e : Prepared) : Prop where
  name : e.nameBytes.length < 2 ^ 16
  data : e.data.length < 2 ^ 32

/-- What both headers of an entry say. -/
def sharedOf (e : Prepared) : Shared :=
  { version := 20
    flags := 0x0800
    method := 0
    time := e.mtime.time % 256 ^ 2
    date := e.mtime.date % 256 ^ 2
    crc := e.crc.toNat
    compressed := e.data.length
    size := e.data.length
    nameLength := e.nameBytes.length
    extraLength := 0 }

def recordOf (e : Prepared) : Record := ⟨e.nameBytes, e.data, e.data.length, e.crc.toNat⟩

def centralOf (e : Prepared × ℕ) : Central := ⟨sharedOf e.1, e.1.nameBytes, e.2⟩

theorem reads_fits {width value : ℕ} (h : value < 256 ^ width) :
    Reads (number width) (putLE width value) value := by
  have hreads := Reads.number width value
  rwa [Nat.mod_eq_of_lt h] at hreads

theorem reads_shared {e : Prepared} (h : Fits e) :
    Reads sharedFields (sharedBytes e) (sharedOf e) := by
  have hcrc : e.crc.toNat < 256 ^ 4 := e.crc.toNat_lt
  refine (reads_fits (by decide)).bind ?_
  refine (reads_fits (by decide)).bind ?_
  refine (reads_fits (by decide)).bind ?_
  refine (Reads.number _ _).bind ?_
  refine (Reads.number _ _).bind ?_
  refine (reads_fits hcrc).bind ?_
  refine (reads_fits h.data).bind ?_
  refine (reads_fits h.data).bind ?_
  refine (reads_fits h.name).bind ?_
  refine (reads_fits (by decide)).bind ?_
  exact Reads.pure _

theorem reads_local {e : Prepared} (h : Fits e) :
    Reads localHeader (headerBytes e) (sharedOf e, e.nameBytes) := by
  refine (Reads.expect (by decide)).bind ?_
  refine (reads_shared h).bind ?_
  refine (Reads.take e.nameBytes rfl).bind ?_
  exact (Reads.take [] rfl).map fun _ => (sharedOf e, e.nameBytes)

theorem reads_central {e : Prepared × ℕ} (h : Fits e.1) (hoffset : e.2 < 2 ^ 32) :
    Reads centralHeader (centralBytes e) (centralOf e) := by
  refine (Reads.expect (by decide)).bind ?_
  refine (reads_fits (by decide)).bind ?_
  refine (reads_shared h).bind ?_
  refine (reads_fits (by decide)).bind ?_
  refine (Reads.expect (by decide)).bind ?_
  refine (reads_fits (by decide)).bind ?_
  refine (reads_fits (by decide)).bind ?_
  refine (reads_fits hoffset).bind ?_
  refine (Reads.take e.1.nameBytes rfl).bind ?_
  have hcomment : Reads (do let _ ← take 0; return centralOf e) [] (centralOf e) :=
    (Reads.take [] rfl).map fun _ => centralOf e
  exact (Reads.take [] rfl).bind hcomment

theorem reads_end {count size start : ℕ} (hcount : count < 2 ^ 16) (hsize : size < 2 ^ 32)
    (hstart : start < 2 ^ 32) :
    Reads endRecord (endBytes count size start) ⟨count, size, start, 0⟩ := by
  refine (Reads.expect (by decide)).bind ?_
  refine (Reads.expect (by decide)).bind ?_
  refine (Reads.expect (by decide)).bind ?_
  refine (reads_fits hcount).bind ?_
  refine (Reads.expect hcount).bind ?_
  refine (reads_fits hsize).bind ?_
  refine (reads_fits hstart).bind ?_
  have hcomment : Reads (number 2) (putLE 2 0) 0 := reads_fits (by decide)
  rw [List.flatten_singleton]
  exact hcomment.map fun comment => (⟨count, size, start, comment⟩ : EndRecord)

theorem readEntry_local {e : Prepared} (h : Fits e) (before after : Bytes) :
    readEntry (before ++ (localBytes e ++ after)) (centralOf (e, before.length)) =
      some (recordOf e) := by
  have hlocal : localHeader.run ((before ++ (localBytes e ++ after)).drop before.length) =
      some ((sharedOf e, e.nameBytes), e.data ++ after) := by
    rw [List.drop_left, localBytes, List.append_assoc]
    exact reads_local h (e.data ++ after)
  have hdata : (take e.data.length).run (e.data ++ after) = some (e.data, after) :=
    Reads.take e.data rfl after
  rw [readEntry, centralOf, hlocal]
  change (if _ ∧ _ ∧ _ ∧ _ then
    ((take e.data.length).run (e.data ++ after)).bind fun x => some (Record.mk _ x.1 _ _)
      else none) = _
  rw [if_pos ⟨rfl, rfl, rfl, rfl⟩, hdata]
  rfl

/-- The local headers, through the offsets of the directory. -/
theorem mapM_readEntry {prepared : List Prepared} (h : ∀ e ∈ prepared, Fits e)
    (before after : Bytes) :
    ((prepared.zip (offsets localBytes before.length prepared)).map centralOf).mapM
        (readEntry (before ++ (localsBytes prepared ++ after))) =
      some (prepared.map recordOf) := by
  induction prepared generalizing before with
  | nil => rfl
  | cons e prepared ih =>
      obtain ⟨he, hrest⟩ := List.forall_mem_cons.mp h
      have hnext : before ++ (localsBytes (e :: prepared) ++ after) =
          (before ++ localBytes e) ++ (localsBytes prepared ++ after) := by
        simp only [localsBytes, List.flatMap_cons, List.append_assoc]
      have hentry := readEntry_local he before (localsBytes prepared ++ after)
      rw [← List.append_assoc, ← hnext] at hentry
      have hothers := ih hrest (before ++ localBytes e)
      rw [List.length_append, ← hnext] at hothers
      rw [offsets, List.zip_cons_cons, List.map_cons, List.mapM_cons, hentry, hothers]
      rfl

theorem findEnd_append (bs : Bytes) {count size start : ℕ} (hcount : count < 2 ^ 16)
    (hsize : size < 2 ^ 32) (hstart : start < 2 ^ 32) :
    findEnd (bs ++ endBytes count size start) = some (bs.length, ⟨count, size, start, 0⟩) := by
  have hrun := reads_end hcount hsize hstart []
  have hplace : (bs ++ endBytes count size start).length - 21 = bs.length + 1 := by
    rw [List.length_append, length_endBytes]
    omega
  have hat : endAt (bs ++ endBytes count size start) bs.length =
      some (bs.length, ⟨count, size, start, 0⟩) := by
    rw [List.append_nil] at hrun
    rw [endAt, List.drop_left, hrun]
    rfl
  rw [findEnd, hplace, List.range_succ, List.reverse_append, List.reverse_singleton,
    List.singleton_append, List.findSome?_cons, hat]

/-- The reader gets the prepared entries back. -/
theorem readZip_archiveBytes {prepared : List Prepared} (hcount : prepared.length < 2 ^ 16)
    (hfits : ∀ e ∈ prepared, Fits e) (hsize : (archiveBytes prepared).length < 2 ^ 32) :
    readZip (archiveBytes prepared) = some (prepared.map recordOf) := by
  have hoffset : ∀ e ∈ prepared.zip (offsets localBytes 0 prepared),
      Reads centralHeader (centralBytes e) (centralOf e) := by
    intro e he
    obtain ⟨hmem, hle⟩ := mem_zip_offsets he
    refine reads_central (hfits e.1 hmem) ?_
    rw [archiveBytes, List.length_append, localsBytes] at hsize
    omega
  have hlength : (prepared.zip (offsets localBytes 0 prepared)).length = prepared.length := by
    rw [List.length_zip, length_offsets, Nat.min_self]
  have hmany := Reads.many (prepared.zip (offsets localBytes 0 prepared)) hoffset []
  have hentries := mapM_readEntry hfits [] (directoryBytes 0 prepared ++
    endBytes prepared.length (directoryBytes 0 prepared).length (localsBytes prepared).length)
  have hend : findEnd (archiveBytes prepared) = some
      ((localsBytes prepared).length + (directoryBytes 0 prepared).length,
        ⟨prepared.length, (directoryBytes 0 prepared).length, (localsBytes prepared).length, 0⟩) := by
    rw [archiveBytes, List.length_append, List.length_append] at hsize
    rw [archiveBytes, ← List.append_assoc, ← List.length_append]
    exact findEnd_append _ hcount (by omega) (by omega)
  have hdirectory : ((archiveBytes prepared).drop (localsBytes prepared).length).take
      (directoryBytes 0 prepared).length = directoryBytes 0 prepared := by
    rw [archiveBytes, List.drop_left, List.take_left]
  rw [hlength, List.append_nil] at hmany
  rw [readZip, hend]
  change (if _ = _ then ((many centralHeader prepared.length).run
    (((archiveBytes prepared).drop (localsBytes prepared).length).take
      (directoryBytes 0 prepared).length)).bind fun x =>
        if x.2 = [] then x.1.mapM (readEntry (archiveBytes prepared)) else none else none) = _
  rw [if_pos rfl, hdirectory, directoryBytes, hmany]
  exact hentries

end Reading

section Decoding

theorem length_prepare (now : ℕ → JsDate) (i : ℕ) (usedNames : List Text)
    (entries : List ZipEntry) : (prepare now i usedNames entries).length = entries.length := by
  induction entries generalizing i usedNames with
  | nil => rfl
  | cons entry entries ih => rw [prepare, List.length_cons, List.length_cons, ih]

theorem data_prepare (now : ℕ → JsDate) (i : ℕ) (usedNames : List Text)
    (entries : List ZipEntry) :
    (prepare now i usedNames entries).map Prepared.data = entries.map ZipEntry.data := by
  induction entries generalizing i usedNames with
  | nil => rfl
  | cons entry entries ih => rw [prepare, List.map_cons, List.map_cons, ih]

theorem crc_of_mem_prepare {now : ℕ → JsDate} {i : ℕ} {usedNames : List Text}
    {entries : List ZipEntry} {e : Prepared} (h : e ∈ prepare now i usedNames entries) :
    e.crc = crc32 e.data := by
  induction entries generalizing i usedNames with
  | nil => cases h
  | cons entry entries ih =>
      rw [prepare, List.mem_cons] at h
      rcases h with rfl | h
      · rfl
      · exact ih h

theorem data_le_totalSize {prepared : List Prepared} {e : Prepared} (h : e ∈ prepared) :
    e.data.length ≤ totalSize prepared := by
  obtain ⟨before, after, rfl⟩ := List.append_of_mem h
  rw [totalSize_eq, archiveBytes, List.length_append, localsBytes, List.flatMap_append,
    List.flatMap_cons, List.length_append, List.length_append, length_localBytes]
  omega

/-- An archive reads back as its entries: one record for each of them in order, with
its data, their size and CRC-32, under names that differ and are clean. -/
theorem readZip_createZip (now : ℕ → JsDate) (entries : List ZipEntry)
    (hcount : entries.length < 2 ^ 16)
    (hnames : ∀ name ∈ archiveNames [] entries, (encode name).length < 2 ^ 16)
    (hsize : totalSize (prepare now 0 [] entries) < 2 ^ 32) :
    ∃ archive records, createZip now entries = some archive ∧ readZip archive = some records ∧
      records.map Record.data = entries.map ZipEntry.data ∧
      (∀ r ∈ records, r.size = r.data.length ∧ r.crc = (crcOf r.data).toNat) ∧
      (records.map Record.name).Nodup ∧
      ∀ r ∈ records, ∃ name, r.name = encode name ∧ Clean name := by
  have hfits : ∀ e ∈ prepare now 0 [] entries, Fits e := by
    intro e he
    constructor
    · have hmem := List.mem_map_of_mem (f := Prepared.nameBytes) he
      rw [nameBytes_prepare, List.mem_map] at hmem
      obtain ⟨name, hname, heq⟩ := hmem
      rw [← heq]
      exact hnames name hname
    · exact Nat.lt_of_le_of_lt (data_le_totalSize he) hsize
  rw [totalSize_eq] at hsize
  rw [← length_prepare now 0 [] entries] at hcount
  refine ⟨_, _, createZip_eq now entries, readZip_archiveBytes hcount hfits hsize, ?_, ?_, ?_, ?_⟩
  · rw [List.map_map]
    exact data_prepare now 0 [] entries
  · intro r hr
    obtain ⟨e, he, rfl⟩ := List.mem_map.mp hr
    refine ⟨rfl, ?_⟩
    change e.crc.toNat = (crcOf e.data).toNat
    rw [crc_of_mem_prepare he, ← toBitVec_crc32, UInt32.toNat_toBitVec]
  · rw [List.map_map]
    change ((prepare now 0 [] entries).map Prepared.nameBytes).Nodup
    rw [nameBytes_prepare]
    exact (archiveNames_fresh [] entries).1.map fun _ _ => Tactile.Lib.Text.utf8_inj
  · intro r hr
    obtain ⟨e, he, rfl⟩ := List.mem_map.mp hr
    have hmem := List.mem_map_of_mem (f := Prepared.nameBytes) he
    rw [nameBytes_prepare, List.mem_map] at hmem
    obtain ⟨name, hname, heq⟩ := hmem
    exact ⟨name, heq.symm, clean_archiveNames [] entries name hname⟩

/-- Two entries of one name, and one whose name climbs. -/
theorem readZip_createZip_three :
    ∃ archive records, createZip (fun _ => .invalid)
        [⟨"a.md".toList, [104, 105], none⟩, ⟨"/a.md".toList, [], none⟩,
          ⟨"../b\\c".toList, [1], some (.fields 10 20 31 2024 4 5)⟩] = some archive ∧
      readZip archive = some records ∧ records.map Record.data = [[104, 105], [], [1]] ∧
      (∀ r ∈ records, r.size = r.data.length ∧ r.crc = (crcOf r.data).toNat) ∧
      (records.map Record.name).Nodup ∧
      ∀ r ∈ records, ∃ name, r.name = encode name ∧ Clean name :=
  readZip_createZip (fun _ => .invalid)
    [⟨"a.md".toList, [104, 105], none⟩, ⟨"/a.md".toList, [], none⟩,
      ⟨"../b\\c".toList, [1], some (.fields 10 20 31 2024 4 5)⟩]
    (by decide) (by decide +kernel) (by decide +kernel)

end Decoding

end Tactile.Utils.Zip

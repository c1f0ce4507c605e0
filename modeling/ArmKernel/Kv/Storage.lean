/-
The data files of the key-value store (`src/storage.c`).

`writeBlock` appends a record with three calls of `write`, each of which may be cut
short; `readBlock` reads the record at an offset. The file is opened with `O_APPEND`: a
write goes to the end of the file, wherever `file->size` stands.

`readBlock_record` says that a record is read back wherever it stands in a file.
`stored_records_intact` says when the records of a run of calls are found where
`file->size` had them begin: when every uninterrupted call finds `file->size` at the end
of the file. An interrupted call leaves bytes that `file->size` does not count, so the
next record begins behind the offset that is kept for it (`interrupted_append_loses`).
-/
import ArmKernel.Kv.Transaction
import ArmKernel.Support.Network
import ArmKernel.Support.Run
import ArmKernel.Support.Word

namespace ArmKernel.Kv

open ArmKernel.Support

/-- `block_header_t`. -/
structure BlockHeader where
  magic : Nat
  checksum : Nat
  keySize : Nat
  valueSize : Nat

/-- The header as it stands in memory. -/
def BlockHeader.bytes (header : BlockHeader) : List (BitVec 8) :=
  toLittle 4 header.magic ++ (toLittle 4 header.checksum ++
    (toLittle 4 header.keySize ++ toLittle 4 header.valueSize))

/-- The header whose bytes these are. -/
def BlockHeader.ofBytes (bytes : List (BitVec 8)) : BlockHeader where
  magic := ofLittle (bytes.take 4)
  checksum := ofLittle ((bytes.drop 4).take 4)
  keySize := ofLittle ((bytes.drop 8).take 4)
  valueSize := ofLittle ((bytes.drop 12).take 4)

/-- The magic number of a record. -/
def blockMagic : Nat := 0x19283746

/-- `sizeof(block_header_t)`. -/
def headerBytes : Nat := 16

/-- `data_file_t`: the bytes of the file, and `size`. -/
structure DataFile where
  contents : List (BitVec 8)
  size : Nat

/-- `create_data_file`, when the file opens: `contents` is what the file holds, and `stat`
says that `fstat` succeeds. -/
def createDataFile (contents : List (BitVec 8)) (stat : Bool) : DataFile :=
  { contents, size := if stat then wrap32 contents.length else 0 }

/-- `calculate_checksum`. -/
def calculateChecksum (data : List (BitVec 8)) : BitVec 32 :=
  data.foldl (fun checksum p => (checksum <<< 8 ||| checksum >>> 24) + p.setWidth 32) 0

/-- What the system does to the calls of one `write_block`: how many bytes the three
writes get to, and whether `fsync` succeeds. -/
structure WriteFate where
  header : Nat
  key : Nat
  value : Nat
  fsync : Bool

/-- `write` on a file opened with `O_APPEND`, cut short after `n` bytes. -/
def appendBytes (contents bytes : List (BitVec 8)) (n : Nat) : List (BitVec 8) :=
  contents ++ bytes.take n

/-- `write_block`. -/
def writeBlock (file : DataFile) (key value : List (BitVec 8)) (fate : WriteFate) :
    Code × DataFile :=
  -- The checksum of the key is computed first and overwritten.
  let header : BlockHeader :=
    { magic := blockMagic, checksum := (calculateChecksum value).toNat
      keySize := wrap32 key.length, valueSize := wrap32 value.length }
  let file := { file with contents := appendBytes file.contents header.bytes fate.header }
  if fate.header < headerBytes then (.io, file)
  else
    let file := { file with contents := appendBytes file.contents key fate.key }
    if fate.key < key.length then (.io, file)
    else
      let file := { file with contents := appendBytes file.contents value fate.value }
      if fate.value < value.length then (.io, file)
      else
        let file := { file with size := wrap32 (file.size + headerBytes + key.length + value.length) }
        if fate.fsync then (.ok, file) else (.io, file)

/-- `pread`: at most `n` bytes at `offset`. -/
def pread (contents : List (BitVec 8)) (n offset : Nat) : List (BitVec 8) :=
  (contents.drop offset).take n

/-- `read_block`; `keyData` and `valueData` say which of its two allocations succeed. -/
def readBlock (file : DataFile) (offset : Nat) (keyData valueData : Bool) :
    Except Code (Key × Value) :=
  let bytes := pread file.contents headerBytes offset
  if bytes.length ≠ headerBytes then .error .io
  else
    let header := BlockHeader.ofBytes bytes
    if header.magic ≠ blockMagic then .error .corrupt
    else if !keyData || !valueData then .error .io
    else
      let offset := offset + headerBytes
      let key := pread file.contents header.keySize offset
      if key.length ≠ header.keySize then .error .io
      else
        let offset := offset + header.keySize
        let value := pread file.contents header.valueSize offset
        if value.length ≠ header.valueSize then .error .io
        else if (calculateChecksum value).toNat ≠ header.checksum then .error .corrupt
        else .ok (key, value)

/-- The bytes of a record. -/
def record (key value : List (BitVec 8)) : List (BitVec 8) :=
  BlockHeader.bytes { magic := blockMagic, checksum := (calculateChecksum value).toNat
                      keySize := wrap32 key.length, valueSize := wrap32 value.length } ++
    (key ++ value)

/-! ### One record -/

@[simp] theorem BlockHeader.bytes_length (header : BlockHeader) :
    header.bytes.length = headerBytes := by
  simp [BlockHeader.bytes, headerBytes]

/-- A header is read back as it was written. -/
theorem BlockHeader.ofBytes_bytes {header : BlockHeader} (hmagic : header.magic < 2 ^ 32)
    (hsum : header.checksum < 2 ^ 32) (hkey : header.keySize < 2 ^ 32)
    (hvalue : header.valueSize < 2 ^ 32) : BlockHeader.ofBytes header.bytes = header := by
  have htake (x : Nat) (rest : List (BitVec 8)) : (toLittle 4 x ++ rest).take 4 = toLittle 4 x :=
    List.take_left' (toLittle_length 4 x)
  have hdrop (x k : Nat) (rest : List (BitVec 8)) :
      (toLittle 4 x ++ rest).drop (4 + k) = rest.drop k := by
    rw [← List.drop_drop, List.drop_left' (toLittle_length 4 x)]
  have hlast (x : Nat) : (toLittle 4 x).take 4 = toLittle 4 x :=
    List.take_of_length_le (Nat.le_of_eq (toLittle_length 4 x))
  unfold BlockHeader.ofBytes BlockHeader.bytes
  rw [hdrop _ 0, hdrop _ 4, hdrop _ 0, hdrop _ 8, hdrop _ 4, hdrop _ 0]
  simp only [List.drop_zero]
  rw [htake, htake, htake, hlast, ofLittle_toLittle_of_lt hmagic, ofLittle_toLittle_of_lt hsum,
    ofLittle_toLittle_of_lt hkey, ofLittle_toLittle_of_lt hvalue]

theorem pread_append (before bytes after : List (BitVec 8)) :
    pread (before ++ (bytes ++ after)) bytes.length before.length = bytes := by
  rw [pread, List.drop_left, List.take_left]

/-- A header, and the key and the value it counts: `read_block` returns them, unless the
checksum of the value is not the one in the header. The key plays no part in that. -/
theorem readBlock_parts {file : DataFile} {key value before after : List (BitVec 8)}
    {checksum : Nat} (hsum : checksum < 2 ^ 32) (hkey : key.length < 2 ^ 32)
    (hvalue : value.length < 2 ^ 32)
    (hfile : file.contents = before ++
      ((BlockHeader.mk blockMagic checksum (wrap32 key.length) (wrap32 value.length)).bytes ++
        (key ++ value) ++ after)) :
    readBlock file before.length true true =
      if (calculateChecksum value).toNat ≠ checksum then .error .corrupt else .ok (key, value) := by
  generalize hheader : BlockHeader.mk blockMagic checksum (wrap32 key.length)
    (wrap32 value.length) = header at hfile
  have hparsed : BlockHeader.ofBytes header.bytes = header := by
    subst hheader
    have hmagic : blockMagic < 2 ^ 32 := by decide
    exact BlockHeader.ofBytes_bytes hmagic hsum (wrap32_lt _) (wrap32_lt _)
  have hkeySize : header.keySize = key.length := by
    rw [← hheader]
    exact wrap32_of_lt hkey
  have hvalueSize : header.valueSize = value.length := by
    rw [← hheader]
    exact wrap32_of_lt hvalue
  have hmagic : header.magic = blockMagic := by rw [← hheader]
  have hsum : header.checksum = checksum := by rw [← hheader]
  have hcontents : file.contents = before ++ (header.bytes ++ (key ++ (value ++ after))) := by
    rw [hfile]
    simp
  have hread : pread file.contents headerBytes before.length = header.bytes := by
    rw [hcontents, ← header.bytes_length]
    exact pread_append before header.bytes _
  have hreadKey : pread file.contents header.keySize (before.length + headerBytes) = key := by
    rw [hcontents, hkeySize, ← header.bytes_length, ← List.length_append, ← List.append_assoc]
    exact pread_append _ key _
  have hreadValue :
      pread file.contents header.valueSize (before.length + headerBytes + header.keySize) =
        value := by
    rw [hcontents, hkeySize, hvalueSize, ← header.bytes_length, ← List.length_append,
      ← List.length_append, ← List.append_assoc, ← List.append_assoc]
    exact pread_append _ value _
  unfold readBlock
  simp only [hread, hparsed, hreadKey, hreadValue]
  simp [hmagic, hsum, hkeySize, hvalueSize]

/-- **A record is read back.** For every key and value of a size that the header can
count, wherever the record stands in the file. -/
theorem readBlock_record {file : DataFile} {key value before after : List (BitVec 8)}
    (hkey : key.length < 2 ^ 32) (hvalue : value.length < 2 ^ 32)
    (hfile : file.contents = before ++ (record key value ++ after)) :
    readBlock file before.length true true = .ok (key, value) := by
  rw [readBlock_parts (calculateChecksum value).isLt hkey hvalue hfile, if_neg]
  exact not_not_intro rfl

/-! ### Runs of calls -/

/-- The data file, and the records of the calls that returned `KVDB_OK`: the offset that
`file->size` had before the call, the key and the value. -/
structure Log where
  file : DataFile
  stored : List (Nat × Key × Value)

/-- A call of `write_block` with a key and a value that are not empty. -/
structure WriteCall where
  key : List (BitVec 8)
  value : List (BitVec 8)
  fate : WriteFate

def WriteCall.Valid (call : WriteCall) : Prop :=
  (call.key ≠ [] ∧ call.key.length < 2 ^ 32) ∧ call.value ≠ [] ∧ call.value.length < 2 ^ 32

instance (call : WriteCall) : Decidable call.Valid :=
  inferInstanceAs (Decidable ((_ ∧ _) ∧ _ ∧ _))

/-- One call, with its record noted if it returns `KVDB_OK`. -/
def writeStep (log : Log) (call : WriteCall) : Option Log :=
  if call.Valid then
    let (code, file) := writeBlock log.file call.key call.value call.fate
    some
      { file
        stored := if code = .ok then (log.file.size, call.key, call.value) :: log.stored
                  else log.stored }
  else none

/-- Every record noted is read back at its offset. -/
def Intact (log : Log) : Prop :=
  ∀ entry ∈ log.stored, readBlock log.file entry.1 true true = .ok entry.2

/-- The calls of the system are not cut short. -/
def WriteFate.Completes (fate : WriteFate) (key value : List (BitVec 8)) : Prop :=
  headerBytes ≤ fate.header ∧ key.length ≤ fate.key ∧ value.length ≤ fate.value ∧ fate.fsync = true

instance (fate : WriteFate) (key value : List (BitVec 8)) :
    Decidable (fate.Completes key value) := inferInstanceAs (Decidable (_ ∧ _ ∧ _ ∧ _))

/-- A call that is not interrupted finds `file->size` at the end of the file. -/
def AtEnd (log : Log) (call : WriteCall) : Prop :=
  call.fate.Completes call.key call.value → log.file.size = log.file.contents.length

instance (log : Log) (call : WriteCall) : Decidable (AtEnd log call) :=
  inferInstanceAs (Decidable (_ → _))

/-- Every record noted stands in the file at its offset. -/
def Recorded (log : Log) : Prop :=
  ∀ entry ∈ log.stored, entry.2.1.length < 2 ^ 32 ∧ entry.2.2.length < 2 ^ 32 ∧
    ∃ before after, before.length = entry.1 ∧
      log.file.contents = before ++ (record entry.2.1 entry.2.2 ++ after)

theorem Recorded.intact {log : Log} (h : Recorded log) : Intact log := by
  intro entry hentry
  obtain ⟨hkey, hvalue, before, after, hoffset, hfile⟩ := h entry hentry
  rw [← hoffset]
  exact readBlock_record hkey hvalue hfile

/-- **One call of `write_block`.** Whatever the system does, the file only grows; a call
returns `KVDB_OK` exactly when no write is cut short and `fsync` succeeds, and has then
appended its record. -/
theorem writeBlock_spec (file : DataFile) (key value : List (BitVec 8)) (fate : WriteFate) :
    (∃ rest, (writeBlock file key value fate).2.contents = file.contents ++ rest) ∧
      ((writeBlock file key value fate).1 = .ok ↔ fate.Completes key value) ∧
      (fate.Completes key value →
        (writeBlock file key value fate).2.contents = file.contents ++ record key value) := by
  unfold writeBlock WriteFate.Completes
  simp only [appendBytes]
  by_cases hheader : fate.header < headerBytes
  · rw [if_pos hheader]
    have hcut : ¬ headerBytes ≤ fate.header := Nat.not_le.mpr hheader
    simp [hcut]
  · rw [if_neg hheader]
    by_cases hkey : fate.key < key.length
    · have hcut : ¬ key.length ≤ fate.key := Nat.not_le.mpr hkey
      simp [hkey, hcut]
    · rw [if_neg hkey]
      by_cases hvalue : fate.value < value.length
      · have hcut : ¬ value.length ≤ fate.value := Nat.not_le.mpr hvalue
        simp [hvalue, hcut]
      · rw [if_neg hvalue]
        have hall := Nat.not_lt.mp hheader
        have htake : ∀ header : BlockHeader, header.bytes.take fate.header = header.bytes :=
          fun header => List.take_of_length_le (by rw [header.bytes_length]; exact hall)
        rw [htake, List.take_of_length_le (Nat.not_lt.mp hkey),
          List.take_of_length_le (Nat.not_lt.mp hvalue)]
        cases hfsync : fate.fsync <;> simp [hall, Nat.not_lt.mp hkey, Nat.not_lt.mp hvalue, record]

/-- A call that finds `file->size` at the end keeps the records where they are noted. -/
theorem recorded_step {log log' : Log} {call : WriteCall} (hinv : Recorded log)
    (hend : AtEnd log call) (hstep : writeStep log call = some log') : Recorded log' := by
  obtain ⟨⟨rest, hgrows⟩, hok, hrecord⟩ := writeBlock_spec log.file call.key call.value call.fate
  unfold writeStep at hstep
  generalize writeBlock log.file call.key call.value call.fate = result at *
  split at hstep
  · rename_i hvalid
    cases hstep
    -- What was noted before stands where it stood.
    have hold : ∀ entry ∈ log.stored, entry.2.1.length < 2 ^ 32 ∧ entry.2.2.length < 2 ^ 32 ∧
        ∃ before after, before.length = entry.1 ∧
          result.2.contents = before ++ (record entry.2.1 entry.2.2 ++ after) := by
      intro entry hentry
      obtain ⟨hkey, hvalue, before, after, hoffset, hfile⟩ := hinv entry hentry
      refine ⟨hkey, hvalue, before, after ++ rest, hoffset, ?_⟩
      rw [hgrows, hfile]
      simp
    intro entry hentry
    simp only at hentry ⊢
    split at hentry
    · rename_i hcode
      rcases List.mem_cons.mp hentry with rfl | hentry
      · have hcompletes := hok.mp hcode
        refine ⟨hvalid.1.2, hvalid.2.2, log.file.contents, [], (hend hcompletes).symm, ?_⟩
        rw [hrecord hcompletes, List.append_nil]
      · exact hold entry hentry
    · exact hold entry hentry
  · cases hstep

/-- The data file as `create_data_file` gives it, with no record noted yet. -/
def opened (contents : List (BitVec 8)) (stat : Bool) : Log :=
  { file := createDataFile contents stat, stored := [] }

/-- **The records of a run.** For every file, every sequence of calls and every pattern of
interruptions in which each uninterrupted call finds `file->size` at the end of the file. -/
theorem stored_records_intact (contents : List (BitVec 8)) (stat : Bool) (calls : List WriteCall)
    (hend : Meets writeStep AtEnd (opened contents stat) calls) :
    Along writeStep Intact (opened contents stat) calls := by
  have hstart : Recorded (opened contents stat) := fun entry hentry =>
    absurd hentry List.not_mem_nil
  have hrecorded : Along writeStep Recorded (opened contents stat) calls :=
    along_of_meets (fun log call log' hinv hok hstep => recorded_step hinv hok hstep) hstart hend
  exact hrecorded.mono fun log h => h.intact

/-- Two records in a new file, and between them a call that is cut short before its
first byte. -/
theorem stored_records_intact_two :
    let calls : List WriteCall :=
      [⟨[1], [2], 16, 1, 1, true⟩, ⟨[3], [4], 0, 0, 0, true⟩, ⟨[5], [6], 16, 1, 1, true⟩]
    Meets writeStep AtEnd (opened [] true) calls ∧
      Along writeStep Intact (opened [] true) calls :=
  ⟨by decide, stored_records_intact _ _ _ (by decide)⟩

/-- A call that is cut short after one byte, and one that is not. -/
def interruptedCalls : List WriteCall :=
  [⟨[1], [2], 1, 0, 0, true⟩, ⟨[3], [4], 16, 1, 1, true⟩]

/-- **A record lost behind an interrupted one.** The second call returns `KVDB_OK` with
`file->size` 0, and at offset 0 no record begins. -/
theorem interrupted_append_loses :
    (∃ log, run writeStep (opened [] true) interruptedCalls = some log ∧
      log.stored = [(0, [3], [4])] ∧ readBlock log.file 0 true true = .error .corrupt) ∧
    ¬ ∀ contents stat calls, Along writeStep Intact (opened contents stat) calls := by
  have hlost : ∃ log, run writeStep (opened [] true) interruptedCalls = some log ∧
      log.stored = [(0, [3], [4])] ∧ readBlock log.file 0 true true = .error .corrupt :=
    ⟨_, rfl, rfl, rfl⟩
  refine ⟨hlost, ?_⟩
  intro hall
  obtain ⟨log, hrun, hstored, hread⟩ := hlost
  have hintact := (hall [] true interruptedCalls).last hrun
  have hfound := hintact (0, [3], [4]) (hstored ▸ List.mem_cons_self)
  rw [hread] at hfound
  cases hfound

end ArmKernel.Kv

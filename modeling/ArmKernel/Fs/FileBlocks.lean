/-
Writing a file (`src/fs_file.c`: `fs_write`; `src/fs_core.c`: `read_inode`, `write_inode`).

An inode in memory is the bytes of `inode_t`. Locals that are read before they are written
hold what the stack held (`Stack`): `data_block` beyond the single-indirect block, and the
buffer `block` when it is filled as a whole.

`stored` lists the blocks that file data went to. The loop has a bound on its rounds, and
`none` is a loop that goes on; `fsWrite_total` says that it does not.
-/
import ArmKernel.Fs.BitmapRuns

namespace ArmKernel.Fs

open ArmKernel.Support

/-! ### Inodes -/

/-- The members of `inode_t`. -/
def inodeMembers : List CType :=
  [⟨2, 2⟩, ⟨2, 2⟩, ⟨2, 2⟩, ⟨4, 4⟩, ⟨4, 4⟩, ⟨4, 4⟩, ⟨4, 4⟩, ⟨4, 4⟩, ⟨12 * 4, 4⟩, ⟨4, 4⟩, ⟨4, 4⟩, ⟨4, 4⟩]

/-- `sizeof(inode_t)`. -/
def inodeBytes : Nat := 88

/-- The offsets of `size`, `mtime`, `direct` and `indirect`. -/
def sizeOffset : Nat := 8
def mtimeOffset : Nat := 16
def directOffset : Nat := 28
def indirectOffset : Nat := 76

theorem inode_layout :
    offsets inodeMembers =
        [0, 2, 4, sizeOffset, 12, mtimeOffset, 20, 24, directOffset, indirectOffset, 80, 84] ∧
      structSize inodeMembers = inodeBytes := by
  decide

/-- `inode.direct[k]`. -/
def direct (inode : Bytes) (k : Nat) : Nat := readWord inode (directOffset + 4 * k)

def setDirect (inode : Bytes) (k b : Nat) : Bytes := writeWord inode (directOffset + 4 * k) b

/-- `inode.indirect`. -/
def indirect (inode : Bytes) : Nat := readWord inode indirectOffset

def setIndirect (inode : Bytes) (b : Nat) : Bytes := writeWord inode indirectOffset b

/-- `inode.size`. -/
def fileSize (inode : Bytes) : Nat := readWord inode sizeOffset

def setFileSize (inode : Bytes) (n : Nat) : Bytes := writeWord inode sizeOffset n

/-- `inode.mtime = time`. -/
def setMtime (inode : Bytes) (time : Nat) : Bytes := writeWord inode mtimeOffset time

/-- Word `j` of a pointer block. -/
def entry (block : Bytes) (j : Nat) : Nat := readWord block (4 * j)

def setEntry (block : Bytes) (j b : Nat) : Bytes := writeWord block (4 * j) b

/-- Where `read_inode` and `write_inode` find an inode in its block. -/
def inodeOffset (sb : Superblock) (inodeNo : Nat) : Nat :=
  wrap32 (sub32 inodeNo 1 % sb.inodesPerGroup * sb.inodeSize) % blockSize

/-- `read_inode`. -/
def readInode (mp : Mount) (inodeNo : Nat) : Bytes := fun j =>
  mp.blocks (inodeBlock mp.sb inodeNo) (inodeOffset mp.sb inodeNo + j)

/-- `write_inode`. -/
def writeInode (mp : Mount) (inodeNo : Nat) (inode : Bytes) : Mount :=
  let buffer := mp.blocks (inodeBlock mp.sb inodeNo)
  let offset := inodeOffset mp.sb inodeNo
  mp.write (inodeBlock mp.sb inodeNo) fun i =>
    if offset ≤ i ∧ i < offset + inodeBytes then inode (i - offset) else buffer i

/-! ### The functions -/

/-- `file_desc_t`. -/
structure FileDesc where
  inode : Nat
  pos : Nat
  flags : Nat
  count : Nat

/-- `MAX_OPEN_FILES`. -/
def maxOpenFiles : Nat := 128

/-- What the uninitialised locals of the loop hold, in the round that begins when so many
bytes are written. -/
structure Stack where
  dataBlock : Nat → Nat
  block : Nat → Bytes

/-- A call of `fs_write`, with the descriptor table it finds. `mounted` says that
`find_mount_point_by_inode` finds the mount, `time` is the result of `get_time`. -/
structure WriteCall where
  descs : Nat → FileDesc
  fd : Int
  src : Bytes
  count : Nat
  mounted : Bool
  time : Nat
  stack : Stack

/-- The open descriptor of a number. -/
def openDesc (descs : Nat → FileDesc) (fd : Int) : Option FileDesc :=
  if fd < 0 ∨ maxOpenFiles ≤ fd then none
  else if (descs fd.toNat).count = 0 then none
  else some (descs fd.toNat)

section Functions

variable (image : Superblock → Bytes)

/-- The data block of a direct pointer; `none` is the `break` of the loop. -/
def directBlock (mp : Mount) (inode : Bytes) (blockNo : Nat) : Option Nat × Mount × Bytes :=
  if direct inode blockNo = 0 then
    let (b, mp) := allocBlock image mp
    let inode := setDirect inode blockNo b
    if b = 0 then (none, mp, inode) else (some b, mp, inode)
  else (some (direct inode blockNo), mp, inode)

/-- The data block of an entry of the indirect block `ind`. -/
def entryBlock (mp : Mount) (ind j : Nat) : Option Nat × Mount :=
  let indirect := mp.blocks ind
  if entry indirect j = 0 then
    let (b, mp) := allocBlock image mp
    if b = 0 then (none, mp) else (some b, mp.write ind (setEntry indirect j b))
  else (some (entry indirect j), mp)

/-- The data block behind the indirect block, which is allocated if there is none. -/
def indirectBlock (mp : Mount) (inode : Bytes) (j : Nat) : Option Nat × Mount × Bytes :=
  if indirect inode = 0 then
    let (b, mp) := allocBlock image mp
    let inode := setIndirect inode b
    if b = 0 then (none, mp, inode)
    else
      let (found, mp) := entryBlock image mp b j
      (found, mp, inode)
  else
    let (found, mp) := entryBlock image mp (indirect inode) j
    (found, mp, inode)

/-- The block the loop stores into. From `12 + BLOCK_SIZE/4` on nothing is assigned to
`data_block`. -/
def dataBlock (mp : Mount) (inode : Bytes) (blockNo uninit : Nat) :
    Option Nat × Mount × Bytes :=
  if blockNo < 12 then directBlock image mp inode blockNo
  else if blockNo < 12 + blockSize / 4 then indirectBlock image mp inode (blockNo - 12)
  else (some uninit, mp, inode)

/-- The state of the loop. -/
structure Writing where
  mp : Mount
  inode : Bytes
  pos : Nat
  written : Nat
  stored : List Nat

/-- The rest of a round: the data is stored into block `b`. -/
def storeRound (call : WriteCall) (w : Writing) (b : Nat) : Writing :=
  let offset := w.pos % blockSize
  let block :=
    if 0 < offset ∨ call.count < wrap32 (w.written + blockSize) then w.mp.blocks b
    else call.stack.block w.written
  let chunk := min (blockSize - offset) (call.count - w.written)
  let pos := wrap32 (w.pos + chunk)
  { mp := w.mp.write b fun i =>
      if offset ≤ i ∧ i < offset + chunk then call.src (w.written + (i - offset)) else block i
    inode := if fileSize w.inode < pos then setFileSize w.inode pos else w.inode
    pos
    written := wrap32 (w.written + chunk)
    stored := b :: w.stored }

/-- The loop of `fs_write`. -/
def writeLoop (call : WriteCall) : Nat → Writing → Option Writing
  | rounds, w =>
    if w.written < call.count then
      match rounds with
      | 0 => none
      | rounds + 1 =>
        match dataBlock image w.mp w.inode (w.pos / blockSize)
            (call.stack.dataBlock w.written) with
        | (none, mp, inode) => some { w with mp, inode }
        | (some b, mp, inode) =>
          writeLoop call rounds (storeRound call { w with mp, inode } b)
    else some w

/-- What a call returns, and the position and the mount it leaves. -/
structure WriteResult where
  ret : Int
  pos : Nat
  mp : Mount
  stored : List Nat

/-- `fs_write`, when block I/O succeeds. -/
def fsWrite (mp : Mount) (call : WriteCall) : Option WriteResult :=
  match openDesc call.descs call.fd with
  | none => some { ret := -1, pos := 0, mp, stored := [] }
  | some desc =>
    if !call.mounted then some { ret := -1, pos := desc.pos, mp, stored := [] }
    else
      (writeLoop image call call.count
        { mp, inode := readInode mp desc.inode, pos := desc.pos, written := 0, stored := [] }).map
          fun w =>
            { ret := toInt32 w.written
              pos := w.pos
              mp := writeInode w.mp desc.inode (setMtime w.inode call.time)
              stored := w.stored }

end Functions

/-! ### The loop ends -/

section Total

variable (image : Superblock → Bytes) {call : WriteCall}

theorem chunk_bounds (pos : Nat) {count written : Nat} (h : written < count) :
    0 < min (blockSize - pos % blockSize) (count - written) ∧
      written + min (blockSize - pos % blockSize) (count - written) ≤ count := by
  unfold blockSize
  omega

/-- Each round that does not end the loop writes at least one byte. -/
theorem writeLoop_total (hcount : call.count < 2 ^ 32) (rounds : Nat) {w : Writing}
    (hwritten : w.written ≤ call.count) (hrounds : call.count - w.written ≤ rounds) :
    ∃ w', writeLoop image call rounds w = some w' := by
  induction rounds generalizing w with
  | zero =>
    have hdone : ¬ w.written < call.count := by omega
    unfold writeLoop
    rw [if_neg hdone]
    exact ⟨w, rfl⟩
  | succ rounds ih =>
    unfold writeLoop
    split
    · rename_i hlt
      obtain ⟨hpos, hle⟩ := chunk_bounds w.pos hlt
      rcases dataBlock image w.mp w.inode (w.pos / blockSize) (call.stack.dataBlock w.written) with
        ⟨_ | b, mp, inode⟩
      · exact ⟨_, rfl⟩
      · have hnext : (storeRound call { w with mp, inode } b).written =
            w.written + min (blockSize - w.pos % blockSize) (call.count - w.written) :=
          wrap32_of_lt (Nat.lt_of_le_of_lt hle hcount)
        exact ih (by rw [hnext]; exact hle) (by rw [hnext]; omega)
    · exact ⟨w, rfl⟩

/-- **Induction over the loop.** What every round keeps holds where the loop ends, with all
written or after a search that found no block. -/
theorem writeLoop_induct {P Q : Writing → Prop}
    (round : ∀ (w : Writing) (b : Nat) (mp : Mount) (inode : Bytes), P w →
      w.written < call.count →
      dataBlock image w.mp w.inode (w.pos / blockSize) (call.stack.dataBlock w.written) =
        (some b, mp, inode) → P (storeRound call { w with mp, inode } b))
    (stops : ∀ (w : Writing) (mp : Mount) (inode : Bytes), P w → w.written < call.count →
      dataBlock image w.mp w.inode (w.pos / blockSize) (call.stack.dataBlock w.written) =
        (none, mp, inode) → Q { w with mp, inode })
    (ends : ∀ w : Writing, P w → call.count ≤ w.written → Q w)
    (rounds : Nat) {w w' : Writing} (h : P w) (hloop : writeLoop image call rounds w = some w') :
    Q w' := by
  induction rounds generalizing w with
  | zero =>
    unfold writeLoop at hloop
    split at hloop
    · cases hloop
    · rename_i hnot
      cases hloop
      exact ends _ h (Nat.not_lt.mp hnot)
  | succ rounds ih =>
    unfold writeLoop at hloop
    split at hloop
    · rename_i hlt
      rcases hfound : dataBlock image w.mp w.inode (w.pos / blockSize)
          (call.stack.dataBlock w.written) with ⟨_ | b, mp, inode⟩
      · rw [hfound] at hloop
        cases hloop
        exact stops w mp inode h hlt hfound
      · rw [hfound] at hloop
        exact ih (round w b mp inode h hlt hfound) hloop
    · rename_i hnot
      cases hloop
      exact ends _ h (Nat.not_lt.mp hnot)

/-- A call of `fs_write` returns. -/
theorem fsWrite_total (mp : Mount) (hcount : call.count < 2 ^ 32) :
    ∃ r, fsWrite image mp call = some r := by
  unfold fsWrite
  split
  · exact ⟨_, rfl⟩
  · rename_i desc _
    split
    · exact ⟨_, rfl⟩
    · obtain ⟨w, hw⟩ := writeLoop_total image hcount call.count
        (w := ⟨mp, readInode mp desc.inode, desc.pos, 0, []⟩) (Nat.zero_le _) (Nat.sub_le _ _)
      exact ⟨_, congrArg (Option.map _) hw⟩

end Total

end ArmKernel.Fs

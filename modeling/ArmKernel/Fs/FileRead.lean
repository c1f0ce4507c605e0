/-
Reading a file (`src/fs_file.c`: `fs_read`).

`readFrom` is the block a round reads, by the direct pointers, the indirect block and the
doubly indirect block. The loop has a bound on its rounds, and `none` is a loop that goes on;
`fsRead_total` says that it does not.

`fileByte mp inode i` is the byte at position `i`, as the two block maps agree on it below the
doubly indirect block. `Reads mp f data` says that `data` is what a reader of the whole file gets;
`reads_of_present` that these bytes are, where the blocks are all there.
-/
import ArmKernel.Fs.Ownership

namespace ArmKernel.Fs

open ArmKernel.Support

/-- `inode.double_indirect`. -/
def doubleIndirect (inode : Bytes) : Nat := readWord inode (indirectOffset + 4)

/-- A call of `fs_read`, with the descriptor table it finds; `dst` is the memory of the caller
from `buf` on. `mounted` says that `find_mount_point_by_inode` finds the mount, and `stack`
what `data_block` holds in the round that begins when so many bytes are read. -/
structure ReadCall where
  descs : Nat → FileDesc
  fd : Int
  dst : Bytes
  count : Nat
  mounted : Bool
  stack : Nat → Nat

/-- The data block of a round. Behind the doubly indirect block nothing is assigned. -/
def readFrom (mp : Mount) (inode : Bytes) (blockNo uninit : Nat) : Nat :=
  if blockNo < 12 then direct inode blockNo
  else if blockNo < 12 + blockSize / 4 then
    entry (mp.blocks (indirect inode)) (blockNo - 12)
  else if blockNo < 12 + blockSize / 4 + blockSize / 4 * (blockSize / 4) then
    let index := blockNo - 12 - blockSize / 4
    let table := entry (mp.blocks (doubleIndirect inode)) (index / (blockSize / 4))
    entry (mp.blocks table) (index % (blockSize / 4))
  else uninit

/-- The state of the loop. -/
structure Reading where
  dst : Bytes
  pos : Nat
  bytesRead : Nat

/-- The rest of a round: the data is copied from block `b`. -/
def copyRound (mp : Mount) (count : Nat) (r : Reading) (b : Nat) : Reading :=
  let offset := r.pos % blockSize
  let chunk := min (blockSize - offset) (count - r.bytesRead)
  { dst := storeBytes r.dst r.bytesRead (readBytes (mp.blocks b) offset chunk)
    pos := wrap32 (r.pos + chunk)
    bytesRead := wrap32 (r.bytesRead + chunk) }

/-- The loop of `fs_read`. -/
def readLoop (mp : Mount) (inode : Bytes) (stack : Nat → Nat) (count : Nat) :
    Nat → Reading → Option Reading
  | rounds, r =>
    if r.bytesRead < count then
      match rounds with
      | 0 => none
      | rounds + 1 =>
        readLoop mp inode stack count rounds
          (copyRound mp count r (readFrom mp inode (r.pos / blockSize) (stack r.bytesRead)))
    else some r

/-- What a call returns, and the position and the memory it leaves. -/
structure ReadResult where
  ret : Int
  pos : Nat
  dst : Bytes

/-- `fs_read`, when block I/O succeeds. -/
def fsRead (mp : Mount) (call : ReadCall) : Option ReadResult :=
  match openDesc call.descs call.fd with
  | none => some { ret := -1, pos := 0, dst := call.dst }
  | some desc =>
    if !call.mounted then some { ret := -1, pos := desc.pos, dst := call.dst }
    else
      let inode := readInode mp desc.inode
      if fileSize inode ≤ desc.pos then some { ret := 0, pos := desc.pos, dst := call.dst }
      else
        let count :=
          if fileSize inode < wrap32 (desc.pos + call.count) then sub32 (fileSize inode) desc.pos
          else call.count
        (readLoop mp inode call.stack count count
          { dst := call.dst, pos := desc.pos, bytesRead := 0 }).map fun r =>
            { ret := toInt32 r.bytesRead, pos := r.pos, dst := r.dst }

/-! ### The bytes of a file -/

/-- The byte of a file at a position. -/
def fileByte (mp : Mount) (inode : Bytes) : Bytes := fun i =>
  mp.blocks (pointer mp inode (i / blockSize)) (i % blockSize)

/-- The blocks of the file up to byte `size` are there. -/
def Present (mp : Mount) (inode : Bytes) (size : Nat) : Prop :=
  size ≤ dataSlots * blockSize ∧ ∀ s, s * blockSize < size → pointer mp inode s ≠ 0

section Read

variable {mp : Mount} {inode : Bytes} {stack : Nat → Nat} {r r' : Reading}
  {count size s rounds : Nat}

/-- Each round reads at least one byte. -/
theorem readLoop_total (mp : Mount) (inode : Bytes) (stack : Nat → Nat) (hcount : count < 2 ^ 32)
    (rounds : Nat) {r : Reading}
    (hread : r.bytesRead ≤ count) (hrounds : count - r.bytesRead ≤ rounds) :
    ∃ r', readLoop mp inode stack count rounds r = some r' := by
  induction rounds generalizing r with
  | zero =>
    have hdone : ¬ r.bytesRead < count := by omega
    unfold readLoop
    rw [if_neg hdone]
    exact ⟨r, rfl⟩
  | succ rounds ih =>
    unfold readLoop
    split
    · rename_i hlt
      obtain ⟨hpos, hle⟩ := chunk_bounds r.pos hlt
      have hnext : ∀ b, (copyRound mp count r b).bytesRead =
          r.bytesRead + min (blockSize - r.pos % blockSize) (count - r.bytesRead) := fun b =>
        wrap32_of_lt (Nat.lt_of_le_of_lt hle hcount)
      exact ih (by rw [hnext]; exact hle) (by rw [hnext]; omega)
    · exact ⟨r, rfl⟩

/-- **Induction over the loop.** What a round keeps, the loop keeps; it ends when all is read. -/
theorem readLoop_induct {P : Reading → Prop}
    (round : ∀ r, P r → r.bytesRead < count →
      P (copyRound mp count r (readFrom mp inode (r.pos / blockSize) (stack r.bytesRead))))
    (rounds : Nat) (h : P r) (hloop : readLoop mp inode stack count rounds r = some r') :
    P r' ∧ count ≤ r'.bytesRead := by
  induction rounds generalizing r with
  | zero =>
    unfold readLoop at hloop
    split at hloop
    · cases hloop
    · rename_i hnot
      cases hloop
      exact ⟨h, Nat.not_lt.mp hnot⟩
  | succ rounds ih =>
    unfold readLoop at hloop
    split at hloop
    · rename_i hlt
      exact ih (round r h hlt) hloop
    · rename_i hnot
      cases hloop
      exact ⟨h, Nat.not_lt.mp hnot⟩

/-- The byte at a position, where block `n` of a file is block `block n` of the device. -/
def byteAt (mp : Mount) (block : Nat → Nat) : Bytes := fun i =>
  mp.blocks (block (i / blockSize)) (i % blockSize)

/-- The bytes of a round lie in one block. -/
theorem readBytes_byteAt {block : Nat → Nat} {pos k : Nat} (hk : k ≤ blockSize - pos % blockSize) :
    readBytes (byteAt mp block) pos k =
      readBytes (mp.blocks (block (pos / blockSize))) (pos % blockSize) k := by
  apply List.map_congr_left
  intro j hj
  have hlt : j < k := List.mem_range.mp hj
  have hblock : (pos + j) / blockSize = pos / blockSize ∧
      (pos + j) % blockSize = pos % blockSize + j := by
    unfold blockSize at *
    omega
  rw [byteAt, hblock.1, hblock.2]

/-- A round copies the next bytes of its block. -/
theorem copyRound_eq {block : Nat → Nat} (hlt : r.bytesRead < count)
    (hend : r.pos + (count - r.bytesRead) < 2 ^ 32) (hcount : count < 2 ^ 32) :
    ∃ k, r.bytesRead + k ≤ count ∧ copyRound mp count r (block (r.pos / blockSize)) =
      { dst := storeBytes r.dst r.bytesRead (readBytes (byteAt mp block) r.pos k)
        pos := r.pos + k
        bytesRead := r.bytesRead + k } := by
  obtain ⟨-, hle⟩ := chunk_bounds r.pos hlt
  obtain ⟨k, hk⟩ : ∃ k, min (blockSize - r.pos % blockSize) (count - r.bytesRead) = k := ⟨_, rfl⟩
  have hchunk : k ≤ blockSize - r.pos % blockSize := hk ▸ Nat.min_le_left _ _
  rw [hk] at hle
  refine ⟨k, hle, ?_⟩
  unfold copyRound
  simp only [hk]
  rw [readBytes_byteAt hchunk, wrap32_of_lt (by omega), wrap32_of_lt (by omega)]

/-- Both functions have one block map below the doubly indirect block. -/
theorem readFrom_eq (hs : s < dataSlots) (h : pointer mp inode s ≠ 0) (uninit : Nat) :
    readFrom mp inode s uninit = pointer mp inode s := by
  have hs' : s < 12 + blockSize / 4 := hs
  unfold readFrom
  by_cases hlow : s < 12
  · rw [if_pos hlow, pointer_direct hlow]
  · rw [if_neg hlow, if_pos hs']
    obtain ⟨j, rfl⟩ := Nat.exists_eq_add_of_le (Nat.not_lt.mp hlow)
    have hj : j < blockSize / 4 := Nat.lt_of_add_lt_add_left hs'
    have hind : indirect inode ≠ 0 := fun hzero => h (pointer_entry_zero hj hzero)
    rw [Nat.add_sub_cancel_left, pointer_entry hj hind]

/-- The invariant of the loop: the bytes of the file from `start` on are copied. -/
structure Copied (mp : Mount) (inode : Bytes) (start count : Nat) (r : Reading) : Prop where
  within : r.bytesRead ≤ count
  pos : r.pos = start + r.bytesRead
  dst : readBytes r.dst 0 r.bytesRead = readBytes (fileByte mp inode) start r.bytesRead

/-- **Round lemma.** -/
theorem Copied.round {start : Nat} (h : Copied mp inode start count r)
    (hend : start + count ≤ dataSlots * blockSize) (hlt : r.bytesRead < count) :
    Copied mp inode start count (copyRound mp count r (pointer mp inode (r.pos / blockSize))) := by
  have hpos := h.pos
  have hsmall : dataSlots * blockSize < 2 ^ 32 := by decide
  obtain ⟨k, hle, hnext⟩ := @copyRound_eq mp r count (pointer mp inode) hlt (by omega) (by omega)
  have hstored := readBytes_storeBytes_self r.dst r.bytesRead
    (readBytes (fileByte mp inode) r.pos k)
  rw [readBytes_length] at hstored
  have hkept : readBytes (storeBytes r.dst r.bytesRead (readBytes (fileByte mp inode) r.pos k)) 0
      r.bytesRead = readBytes r.dst 0 r.bytesRead :=
    readBytes_congr (agree_storeBytes (.inl (Nat.le_of_eq (Nat.zero_add _))))
  rw [hnext]
  refine ⟨hle, ?_, ?_⟩
  · simp only
    rw [hpos, Nat.add_assoc]
  · have hbytes : byteAt mp (pointer mp inode) = fileByte mp inode := rfl
    simp only [hbytes]
    rw [readBytes_append, readBytes_append, Nat.zero_add, hstored, hkept, h.dst, hpos]

/-- **Loop lemma.** -/
theorem Copied.loop {start : Nat} (hpresent : Present mp inode size) (hend : start + count ≤ size)
    (rounds : Nat) (h : Copied mp inode start count r)
    (hloop : readLoop mp inode stack count rounds r = some r') :
    Copied mp inode start count r' ∧ r'.bytesRead = count := by
  obtain ⟨hslots, hpointers⟩ := hpresent
  obtain ⟨hcopied, hall⟩ := readLoop_induct (P := Copied mp inode start count)
    (fun r h hlt => by
      have hpos := h.pos
      have hblock : r.pos / blockSize < dataSlots ∧ r.pos / blockSize * blockSize < size := by
        unfold dataSlots blockSize at *
        omega
      rw [readFrom_eq hblock.1 (hpointers _ hblock.2)]
      exact h.round (hend.trans hslots) hlt) rounds h hloop
  exact ⟨hcopied, Nat.le_antisymm hcopied.within hall⟩

end Read

/-! ### The call -/

section Call

variable {mp : Mount} {call : ReadCall} {desc : FileDesc}

/-- A call of `fs_read` returns. -/
theorem fsRead_total (mp : Mount) (hcount : call.count < 2 ^ 32) :
    ∃ r, fsRead mp call = some r := by
  unfold fsRead
  split
  · exact ⟨_, rfl⟩
  · split
    · exact ⟨_, rfl⟩
    · dsimp only
      split
      · exact ⟨_, rfl⟩
      · rename_i desc _ _ _
        have hlt : (if fileSize (readInode mp desc.inode) < wrap32 (desc.pos + call.count) then
            sub32 (fileSize (readInode mp desc.inode)) desc.pos else call.count) < 2 ^ 32 := by
          split
          · exact wrap32_lt _
          · exact hcount
        obtain ⟨r, hr⟩ := readLoop_total mp (readInode mp desc.inode) call.stack hlt _
          (r := ⟨call.dst, desc.pos, 0⟩) (Nat.zero_le _) (Nat.sub_le _ _)
        exact ⟨_, congrArg (Option.map _) hr⟩

/-- A reader of the whole file gets `data`: every call that begins at the start of the file and
asks for no less. -/
def Reads (mp : Mount) (f : Nat) (data : List (BitVec 8)) : Prop :=
  ∀ call : ReadCall, ∀ desc ∈ openDesc call.descs call.fd, call.mounted = true →
    desc.inode = f → desc.pos = 0 → data.length ≤ call.count → call.count < 2 ^ 32 →
    ∃ r, fsRead mp call = some r ∧ r.ret = data.length ∧ readBytes r.dst 0 data.length = data

/-- **`fs_read` of a whole file** gives the bytes of its blocks. -/
theorem reads_of_present {f : Nat}
    (h : Present mp (readInode mp f) (fileSize (readInode mp f))) :
    Reads mp f (readBytes (fileByte mp (readInode mp f)) 0 (fileSize (readInode mp f))) := by
  intro call desc hdesc hmounted hf hpos hsize hcount
  subst hf
  rw [readBytes_length] at hsize ⊢
  have hdesc' : openDesc call.descs call.fd = some desc := hdesc
  obtain ⟨r, hr⟩ := fsRead_total mp hcount
  refine ⟨r, hr, ?_⟩
  unfold fsRead at hr
  rw [hdesc', hmounted] at hr
  simp only [hpos, Bool.not_true, Bool.false_eq_true, if_false, Nat.zero_add,
    wrap32_of_lt hcount] at hr
  by_cases hempty : fileSize (readInode mp desc.inode) ≤ 0
  · have hzero : fileSize (readInode mp desc.inode) = 0 := Nat.le_zero.mp hempty
    rw [if_pos hempty] at hr
    cases hr
    rw [hzero]
    exact ⟨rfl, rfl⟩
  · rw [if_neg hempty] at hr
    have hread : (if fileSize (readInode mp desc.inode) < call.count then
        sub32 (fileSize (readInode mp desc.inode)) 0 else call.count) =
        fileSize (readInode mp desc.inode) := by
      split
      · exact sub32_of_le (readWord_lt _ _) (Nat.zero_le _)
      · omega
    rw [hread] at hr
    obtain ⟨r', hloop, rfl⟩ := Option.map_eq_some_iff.mp hr
    have hstart : Copied mp (readInode mp desc.inode) 0
        (fileSize (readInode mp desc.inode)) ⟨call.dst, 0, 0⟩ := ⟨Nat.zero_le _, rfl, rfl⟩
    obtain ⟨hcopied, hall⟩ := hstart.loop h (Nat.le_of_eq (Nat.zero_add _)) _ hloop
    have hsmall : fileSize (readInode mp desc.inode) < 2 ^ 31 :=
      Nat.lt_of_le_of_lt h.1 (by decide)
    refine ⟨by
      simp only [hall]
      exact toInt32_of_lt hsmall, ?_⟩
    have hdst := hcopied.dst
    rwa [hall] at hdst

end Call

end ArmKernel.Fs

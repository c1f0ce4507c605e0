/-
The count of blocks of the superblock.

`alloc_block`, `fs_write` and `fs_read` never read `blocks_count`: the bitmap has a bit for every
block of `block_group_nr` full groups. `Mount.recounted` is the mount with the count of these bits,
and each of the functions returns there what it returns on the mount itself. So a last group may
be short, and the results about a count of full groups still say what happens.
-/
import ArmKernel.Fs.FileRuns
import ArmKernel.Fs.FileRead

namespace ArmKernel.Fs

open ArmKernel.Support

/-- The mount, with the count of blocks that the bitmap has bits for. -/
def Mount.recounted (mp : Mount) : Mount :=
  { mp with sb := { mp.sb with blocksCount := mp.sb.blockGroupNr * mp.sb.blocksPerGroup } }

/-- What block 0 holds, when the count is not the one of the bitmap. -/
def recountImage (image : Superblock → Bytes) (blocksCount : Nat) : Superblock → Bytes :=
  fun sb => image { sb with blocksCount }

/-! ### The writer -/

section Recounted

variable (image : Superblock → Bytes) {mp : Mount} {m : Nat}

theorem writeCount_recounted (hm : mp.sb.blocksCount = m) (k : Nat) :
    mp.recounted.writeCount (recountImage image m) k = (mp.writeCount image k).recounted := by
  subst hm
  rfl

theorem writeCount_blocksCount (mp : Mount) (k : Nat) :
    (mp.writeCount image k).sb.blocksCount = mp.sb.blocksCount := rfl

/-- `alloc_block` does not read `blocks_count`. -/
theorem groupLoop_recounted (hm : mp.sb.blocksCount = m) (rounds group : Nat) :
    groupLoop (recountImage image m) mp.recounted rounds group =
        ((groupLoop image mp rounds group).1, (groupLoop image mp rounds group).2.recounted) ∧
      (groupLoop image mp rounds group).2.sb.blocksCount = m := by
  induction rounds generalizing group with
  | zero => exact ⟨rfl, hm⟩
  | succ rounds ih =>
    have hloop : ∀ mp : Mount, bitLoop (mp.recounted.blocks (bitmapBlock mp.recounted.sb group))
        mp.recounted.sb.blocksPerGroup 0 =
        bitLoop (mp.blocks (bitmapBlock mp.sb group)) mp.sb.blocksPerGroup 0 := fun _ => rfl
    unfold groupLoop
    dsimp only
    rw [hloop]
    split
    · rename_i bit _
      have hwrite : (mp.write (bitmapBlock mp.sb group)
          (setBitAt (mp.blocks (bitmapBlock mp.sb group)) bit)).sb.blocksCount = m := hm
      refine ⟨Prod.ext rfl (writeCount_recounted image hwrite _), ?_⟩
      rw [writeCount_blocksCount, hwrite]
    · exact ih (group + 1)

theorem allocBlock_recounted (hm : mp.sb.blocksCount = m) :
    allocBlock (recountImage image m) mp.recounted =
        ((allocBlock image mp).1, (allocBlock image mp).2.recounted) ∧
      (allocBlock image mp).2.sb.blocksCount = m := by
  unfold allocBlock
  by_cases hzero : mp.sb.freeBlocks = 0
  · have hzero' : mp.recounted.sb.freeBlocks = 0 := hzero
    rw [if_pos hzero, if_pos hzero']
    exact ⟨rfl, hm⟩
  · have hzero' : mp.recounted.sb.freeBlocks ≠ 0 := hzero
    rw [if_neg hzero, if_neg hzero']
    exact groupLoop_recounted image hm _ _

theorem directBlock_recounted (hm : mp.sb.blocksCount = m) (inode : Bytes) (n : Nat) :
    directBlock (recountImage image m) mp.recounted inode n =
        ((directBlock image mp inode n).1, (directBlock image mp inode n).2.1.recounted,
          (directBlock image mp inode n).2.2) ∧
      (directBlock image mp inode n).2.1.sb.blocksCount = m := by
  obtain ⟨halloc, hcount⟩ := allocBlock_recounted image hm
  unfold directBlock
  rw [halloc]
  dsimp only
  split
  · split
    · exact ⟨rfl, hcount⟩
    · exact ⟨rfl, hcount⟩
  · exact ⟨rfl, hm⟩

theorem entryBlock_recounted (hm : mp.sb.blocksCount = m) (ind j : Nat) :
    entryBlock (recountImage image m) mp.recounted ind j =
        ((entryBlock image mp ind j).1, (entryBlock image mp ind j).2.recounted) ∧
      (entryBlock image mp ind j).2.sb.blocksCount = m := by
  obtain ⟨halloc, hcount⟩ := allocBlock_recounted image hm
  have hblocks : mp.recounted.blocks = mp.blocks := rfl
  unfold entryBlock
  rw [halloc, hblocks]
  dsimp only
  split
  · split
    · exact ⟨rfl, hcount⟩
    · exact ⟨rfl, hcount⟩
  · exact ⟨rfl, hm⟩

theorem indirectBlock_recounted (hm : mp.sb.blocksCount = m) (inode : Bytes) (j : Nat) :
    indirectBlock (recountImage image m) mp.recounted inode j =
        ((indirectBlock image mp inode j).1, (indirectBlock image mp inode j).2.1.recounted,
          (indirectBlock image mp inode j).2.2) ∧
      (indirectBlock image mp inode j).2.1.sb.blocksCount = m := by
  obtain ⟨halloc, hcount⟩ := allocBlock_recounted image hm
  unfold indirectBlock
  rw [halloc]
  dsimp only
  split
  · split
    · exact ⟨rfl, hcount⟩
    · obtain ⟨hentry, hcount'⟩ := entryBlock_recounted image hcount (allocBlock image mp).1 j
      rw [hentry]
      exact ⟨rfl, hcount'⟩
  · obtain ⟨hentry, hcount'⟩ := entryBlock_recounted image hm (indirect inode) j
    rw [hentry]
    exact ⟨rfl, hcount'⟩

theorem dataBlock_recounted (hm : mp.sb.blocksCount = m) (inode : Bytes) (n uninit : Nat) :
    dataBlock (recountImage image m) mp.recounted inode n uninit =
        ((dataBlock image mp inode n uninit).1, (dataBlock image mp inode n uninit).2.1.recounted,
          (dataBlock image mp inode n uninit).2.2) ∧
      (dataBlock image mp inode n uninit).2.1.sb.blocksCount = m := by
  unfold dataBlock
  split
  · exact directBlock_recounted image hm inode n
  · split
    · exact indirectBlock_recounted image hm inode (n - 12)
    · exact ⟨rfl, hm⟩

/-- The loop does not read `blocks_count`. -/
theorem writeLoop_recounted {call : WriteCall} (rounds : Nat) {w w' : Writing}
    (hm : w.mp.sb.blocksCount = m) (hloop : writeLoop image call rounds w = some w') :
    writeLoop (recountImage image m) call rounds { w with mp := w.mp.recounted } =
        some { w' with mp := w'.mp.recounted } ∧ w'.mp.sb.blocksCount = m := by
  induction rounds generalizing w with
  | zero =>
    unfold writeLoop at hloop ⊢
    dsimp only
    split at hloop
    · cases hloop
    · rename_i hnot
      cases hloop
      rw [if_neg hnot]
      exact ⟨rfl, hm⟩
  | succ rounds ih =>
    obtain ⟨hdata, hcount⟩ := dataBlock_recounted image hm w.inode (w.pos / blockSize)
      (call.stack.dataBlock w.written)
    unfold writeLoop at hloop ⊢
    dsimp only
    split at hloop
    · rename_i hlt
      rw [if_pos hlt, hdata]
      dsimp only at hloop ⊢
      rcases hfound : dataBlock image w.mp w.inode (w.pos / blockSize)
          (call.stack.dataBlock w.written) with ⟨_ | b, mp', inode'⟩
      · rw [hfound] at hloop hcount
        cases hloop
        exact ⟨rfl, hcount⟩
      · rw [hfound] at hloop hcount
        exact ih (w := storeRound call { w with mp := mp', inode := inode' } b) hcount hloop
    · rename_i hnot
      cases hloop
      rw [if_neg hnot]
      exact ⟨rfl, hm⟩

end Recounted

/-! ### The reader -/

theorem readLoop_recounted (mp : Mount) (inode : Bytes) (stack : Nat → Nat) (count rounds : Nat)
    (r : Reading) :
    readLoop mp.recounted inode stack count rounds r = readLoop mp inode stack count rounds r := by
  induction rounds generalizing r with
  | zero => rfl
  | succ rounds ih =>
    unfold readLoop
    dsimp only
    split
    · exact ih _
    · rfl

theorem readInode_recounted (mp : Mount) (f : Nat) : readInode mp.recounted f = readInode mp f :=
  rfl

/-- `fs_read` does not read `blocks_count`. -/
theorem fsRead_recounted (mp : Mount) (call : ReadCall) :
    fsRead mp.recounted call = fsRead mp call := by
  have hinode : ∀ f, readInode mp.recounted f = readInode mp f := readInode_recounted mp
  unfold fsRead
  simp only [hinode, readLoop_recounted]

theorem reads_recounted {mp : Mount} {f : Nat} {data : List (BitVec 8)} :
    Reads mp.recounted f data ↔ Reads mp f data := by
  unfold Reads
  simp only [fsRead_recounted]

end ArmKernel.Fs

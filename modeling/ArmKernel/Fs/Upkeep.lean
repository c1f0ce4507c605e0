/-
A write leaves the device in order (`src/fs_file.c`: `fs_write`).

`fs_write_healthy` is the result: after a write that begins inside its file or at its end, and
ends below the doubly indirect block, the device is healthy again, the file is as long as it
was or as far as the write went, and the other files are as long as they were. What is allocated
was free, so it is a block of the device that no file had; what is free was not touched.
-/
import ArmKernel.Fs.BlockMap
import ArmKernel.Fs.RoundTrip

namespace ArmKernel.Fs

open ArmKernel.Support

section Upkeep

variable {mp mp' : Mount} {files : Finset Nat} {call : WriteCall} {w : Writing} {f g b : Nat}

theorem Geometry.withFree {sb : Superblock} (h : Geometry sb) (k : Nat) :
    Geometry { sb with freeBlocks := k } :=
  ⟨h.groupBits, h.covered, h.lastGroup, h.bitmaps, h.addressed, h.inodesCount, h.perGroup,
    h.inodeSize, h.divides, h.inside, h.table⟩

/-- A mount that differs from another one, both recounted, in the number of free blocks. -/
theorem sb_of_recounted {k : Nat} (hcount : mp'.sb.blocksCount = mp.sb.blocksCount)
    (hsb : mp'.recounted.sb = { mp.recounted.sb with freeBlocks := k }) :
    mp'.sb = { mp.sb with freeBlocks := k } := by
  obtain ⟨sb, blocks⟩ := mp
  obtain ⟨sb', blocks'⟩ := mp'
  cases sb
  cases sb'
  simp only [Mount.recounted, Superblock.mk.injEq] at hcount hsb ⊢
  tauto

/-- Writing the inode back leaves the bitmap alone. -/
theorem used_writeInode (htable : InodesApart mp.sb files) (hf : f ∈ files) (inode : Bytes)
    (hb : b < mp.sb.blockGroupNr * mp.sb.blocksPerGroup) :
    used (writeInode mp f inode) b = used mp b :=
  used_write (fun g hg => ((htable.table f hf).2 g hg).symm) hb

/-! ### Something is written -/

/-- A block that is there is found. -/
theorem dataBlock_of_pointer (image : Superblock → Bytes) {inode : Bytes} {n : Nat}
    (hn : n < dataSlots) (hne : pointer mp inode n ≠ 0) (uninit : Nat) :
    dataBlock image mp inode n uninit = (some (pointer mp inode n), mp, inode) := by
  rcases slot_cases (Nat.le_of_lt hn) with hlow | ⟨j, hj, rfl⟩ | rfl
  · rw [pointer_direct hlow] at hne ⊢
    rw [dataBlock_direct hlow, directBlock, if_neg hne]
  · have hind := indirect_of_entry hj hne
    rw [pointer_entry hj hind] at hne ⊢
    rw [dataBlock_entry hj, indirectBlock, if_neg hind, entryBlock]
    dsimp only
    rw [if_neg hne]
  · exact absurd hn (Nat.lt_irrefl _)

/-- The rounds add to what is written. -/
theorem writeLoop_written_le {image : Superblock → Bytes} (hcount : call.count < 2 ^ 32)
    (rounds : Nat) {w w' : Writing} (hloop : writeLoop image call rounds w = some w') :
    w.written ≤ w'.written := by
  refine writeLoop_induct (P := fun v => w.written ≤ v.written)
    (Q := fun v => w.written ≤ v.written) image ?_ ?_ ?_ rounds (Nat.le_refl _) hloop
  · intro v b mp inode hle hlt _
    rw [storeRound_written (w := { v with mp := mp, inode := inode }) hcount hlt]
    exact hle.trans (Nat.le_add_right _ _)
  · exact fun _ _ _ hle _ _ => hle
  · exact fun _ hle _ => hle

namespace Written

variable {image : Superblock → Bytes} {desc : FileDesc} {r : Mount}

theorem sb (hw : Written image mp files call desc w)
    (hr : r = writeInode w.mp desc.inode (setMtime w.inode call.time)) :
    ∃ k, r.sb = { mp.sb with freeBlocks := k } := by
  obtain ⟨k, hk⟩ := hw.kept.ext.sb
  subst hr
  exact ⟨k, sb_of_recounted hw.count hk⟩

theorem used_writeBack (hw : Written image mp files call desc w) (hf : desc.inode ∈ files)
    (hr : r = writeInode w.mp desc.inode (setMtime w.inode call.time))
    (hb : b < mp.sb.blockGroupNr * mp.sb.blocksPerGroup) : used r b = used w.mp b := by
  obtain ⟨k, hk⟩ := hw.kept.ext.sb
  have hbits : b < w.mp.recounted.sb.blockGroupNr * w.mp.recounted.sb.blocksPerGroup := by
    rw [hk]
    exact hb
  rw [hr]
  exact @used_writeInode w.mp.recounted files desc.inode b hw.kept.owning.table hf _ hbits

/-- What was in use is in use. -/
theorem keeps (hw : Written image mp files call desc w) (hf : desc.inode ∈ files)
    (hr : r = writeInode w.mp desc.inode (setMtime w.inode call.time))
    (hb : b < mp.sb.blockGroupNr * mp.sb.blocksPerGroup) (huse : used mp b = true) :
    used r b = true := by
  rw [hw.used_writeBack hf hr hb]
  exact (hw.kept.ext.keeps b ⟨hb, huse⟩).2

/-- What is free was free, and holds what it held. -/
theorem free (hw : Written image mp files call desc w) (h : Healthy mp files)
    (hf : desc.inode ∈ files)
    (hr : r = writeInode w.mp desc.inode (setMtime w.inode call.time))
    (hb : b < mp.sb.blockGroupNr * mp.sb.blocksPerGroup) (hfree : used r b = false) :
    used mp b = false ∧ r.blocks b = mp.blocks b := by
  have hold : used mp b = false := Bool.eq_false_iff.mpr fun huse => by
    rw [hw.keeps hf hr hb huse] at hfree
    cases hfree
  refine ⟨hold, ?_⟩
  have htable : b ≠ inodeBlock mp.sb desc.inode := fun heq => by
    obtain ⟨hlow, hhigh⟩ := h.numbered desc.inode hf
    have huse := (h.metadata b (.inr (.inr ⟨desc.inode, hlow, hhigh, heq⟩))).2
    rw [hold] at huse
    cases huse
  have hblock : r.blocks b = w.mp.blocks b := by
    obtain ⟨k, hk⟩ := hw.sb hr
    have hsb : w.mp.sb = r.sb := by rw [hr]; rfl
    rw [hr]
    refine Function.update_of_ne ?_ ..
    rw [hsb, hk]
    exact htable
  rw [hblock]
  apply hw.untouched b
  intro huse
  rw [hw.used_writeBack hf hr hb] at hfree
  exact Bool.noConfusion (hfree.symm.trans huse.2)

/-- The blocks of the files are blocks of the device: those that are new were free. -/
theorem pointer_lt (hw : Written image mp files call desc w) (h : Healthy mp files)
    (hf : desc.inode ∈ files) (hg : g ∈ files) {s p : Nat} (hs : s ≤ dataSlots)
    (hp : pointer w.mp.recounted
      (Function.update (readInode mp.recounted) desc.inode w.inode g) s = p)
    (hne : p ≠ 0) (hin : p < mp.sb.blockGroupNr * mp.sb.blocksPerGroup) :
    p < mp.sb.blocksCount := by
  have hold : ∀ g ∈ files, pointer mp.recounted (readInode mp.recounted g) s = p →
      p < mp.sb.blocksCount := fun g hg hpointer =>
    hpointer ▸ (h.separated.owned g hg s hs (hpointer ▸ hne)).1.1
  by_cases hgf : g = desc.inode
  · subst hgf
    rw [Function.update_self] at hp
    rcases hw.kept.grown s hs with hsame | ⟨-, hfree⟩
    · exact hold _ hf (hsame.symm.trans hp)
    · apply h.free_lt hin
      rw [hp] at hfree
      exact Bool.eq_false_iff.mpr fun huse => hfree ⟨hin, huse⟩
  · rw [Function.update_of_ne hgf] at hp
    exact hold g hg ((hw.filled.pointer_other hg hgf s).symm.trans hp)

theorem separated (hw : Written image mp files call desc w) (h : Healthy mp files)
    (hf : desc.inode ∈ files)
    (hr : r = writeInode w.mp desc.inode (setMtime w.inode call.time)) :
    r.sb.freeBlocks < 2 ^ 32 ∧ Separated r files (readInode r) := by
  obtain ⟨hconsistent, hpointers⟩ := hw.kept.pointer_writeBack
    (w := { w with mp := w.mp.recounted }) hf call.time rfl
  rw [← writeInode_recounted, ← hr] at hconsistent hpointers
  obtain ⟨k, hk⟩ := hw.sb hr
  refine ⟨hconsistent.fits, ⟨?_, hconsistent.separated.apart⟩⟩
  intro g hg s hs hne
  obtain ⟨huse, hnot⟩ := hconsistent.separated.owned g hg s hs hne
  have hin : pointer r (readInode r g) s < r.sb.blockGroupNr * r.sb.blocksPerGroup := huse.1
  rw [hk] at hin
  have hlt := hw.pointer_lt h hf hg hs (hpointers g hg s).symm hne hin
  have hcount : r.sb.blocksCount = mp.sb.blocksCount := by rw [hk]
  exact ⟨⟨hcount ▸ hlt, huse.2⟩, hnot⟩

theorem present (hw : Written image mp files call desc w) (h : Healthy mp files)
    (hf : desc.inode ∈ files) (hpos : desc.pos ≤ fileSize (readInode mp desc.inode))
    (hoffsets : desc.pos + call.count ≤ dataSlots * blockSize)
    (hr : r = writeInode w.mp desc.inode (setMtime w.inode call.time)) (hg : g ∈ files) :
    Present r (readInode r g) (fileSize (readInode r g)) := by
  have hend : desc.pos + w.written ≤ dataSlots * blockSize :=
    (Nat.add_le_add_left hw.within _).trans hoffsets
  subst hr
  by_cases hgf : g = desc.inode
  · have hself := hw.filled.present_self (w := { w with mp := w.mp.recounted })
      h.present_recounted hf hend hw.kept call.time hpos rfl
    rw [hgf]
    exact hself
  · have hother := hw.filled.present_other h.present_recounted hf hw.kept call.time hg hgf rfl
    exact hother

/-- The file ends where it did or where the write did, and the other files where they did. -/
theorem sizes (hw : Written image mp files call desc w) (hf : desc.inode ∈ files)
    (hr : r = writeInode w.mp desc.inode (setMtime w.inode call.time)) (hg : g ∈ files) :
    fileSize (readInode r g) = if g = desc.inode then
      max (fileSize (readInode mp g)) (desc.pos + w.written) else fileSize (readInode mp g) := by
  subst hr
  obtain ⟨hsize, -⟩ := writeBack_bytes (w := { w with mp := w.mp.recounted }) hf hw.kept
    call.time hg _ rfl rfl
  apply hsize.trans
  split
  · rename_i hgf
    rw [hgf]
    exact hw.filled.size
  · rfl

/-- Inside the file there is a block for the first byte. -/
theorem written_pos (hw : Written image mp files call desc w) (h : Healthy mp files)
    (hf : desc.inode ∈ files) (hcount : call.count < 2 ^ 32) (hany : 0 < call.count)
    (hinside : desc.pos < fileSize (readInode mp desc.inode)) : 0 < w.written := by
  have hloop := hw.loop
  obtain ⟨hslot, hne⟩ := (h.present desc.inode hf).pointer hinside
  obtain ⟨n, hn⟩ := Nat.exists_eq_succ_of_ne_zero (Nat.ne_of_gt hany)
  rw [hn] at hloop
  unfold writeLoop at hloop
  dsimp only at hloop
  rw [if_pos hany, dataBlock_of_pointer image hslot hne] at hloop
  have hround := writeLoop_written_le hcount n hloop
  rw [storeRound_written hcount hany] at hround
  have hchunk := (chunk_bounds desc.pos hany).1
  exact Nat.lt_of_lt_of_le hchunk ((Nat.le_add_left _ _).trans hround)

/-- **The device is healthy again.** -/
theorem healthy (hw : Written image mp files call desc w) (h : Healthy mp files)
    (hf : desc.inode ∈ files) (hpos : desc.pos ≤ fileSize (readInode mp desc.inode))
    (hoffsets : desc.pos + call.count ≤ dataSlots * blockSize)
    (hr : r = writeInode w.mp desc.inode (setMtime w.inode call.time)) : Healthy r files := by
  obtain ⟨hfits, hseparated⟩ := hw.separated h hf hr
  obtain ⟨k, hk⟩ := hw.sb hr
  have hcount : r.sb.blocksCount = mp.sb.blocksCount := by rw [hk]
  have hinside : ∀ b, b < mp.sb.blocksCount → b < mp.sb.blockGroupNr * mp.sb.blocksPerGroup :=
    fun b hb => hb.trans_le h.geometry.covered
  exact
    { geometry := hk ▸ h.geometry.withFree k
      fits := hfits
      metadata := fun b hb => by
        rw [hk, isMetadata_withFree] at hb
        obtain ⟨hlt, huse⟩ := h.metadata b hb
        exact ⟨hcount ▸ hlt, hw.keeps hf hr (hinside b hlt) huse⟩
      numbered := by
        rw [hk]
        exact h.numbered
      separated := hseparated
      present := fun g hg => hw.present h hf hpos hoffsets hr hg
      beyond := fun b hlow hb => by
        rw [hk] at hlow hb
        exact hw.keeps hf hr hb (h.beyond b hlow hb)
      zeros := fun b hb hfree i hi => by
        rw [hcount] at hb
        obtain ⟨hold, hblock⟩ := hw.free h hf hr (hinside b hb) hfree
        rw [hblock]
        exact h.zeros b hb hold i hi }

end Written

/-- **`fs_write` keeps a device healthy**, and the other files as long as they were. Inside a
file it writes something. -/
theorem fs_write_healthy (image : Superblock → Bytes) {desc : FileDesc} (h : Healthy mp files)
    (hdesc : openDesc call.descs call.fd = some desc) (hmounted : call.mounted = true)
    (hf : desc.inode ∈ files) (hpos : desc.pos ≤ fileSize (readInode mp desc.inode))
    (hoffsets : desc.pos + call.count ≤ dataSlots * blockSize) :
    ∃ r k, fsWrite image mp call = some r ∧ WroteBack image mp files call desc r k ∧
      (desc.pos < fileSize (readInode mp desc.inode) → 0 < call.count → 0 < k) ∧
      Healthy r.mp files ∧ ∀ g ∈ files, fileSize (readInode r.mp g) =
        if g = desc.inode then max (fileSize (readInode mp g)) (desc.pos + k)
        else fileSize (readInode mp g) := by
  obtain ⟨w, hw⟩ := h.written image hdesc hmounted hf hpos hoffsets
  have hcount : call.count < 2 ^ 32 := by
    have hsmall : dataSlots * blockSize < 2 ^ 32 := by decide
    omega
  exact ⟨_, w.written, hw.result, hw.wroteBack h hf hpos hoffsets,
    fun hinside hany => hw.written_pos h hf hcount hany hinside,
    hw.healthy h hf hpos hoffsets rfl, fun g hg => hw.sizes hf rfl hg⟩

end Upkeep

end ArmKernel.Fs

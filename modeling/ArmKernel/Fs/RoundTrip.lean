/-
What is written to a file is read back.

`Geometry` is a device whose blocks `read_block` and `write_block` reach, with whole inodes in
an inode table apart from the superblock and the bitmaps; `inodes_apart` says that no two
inodes share a byte then. `Healthy` adds the files: the bitmap has their blocks and the
metadata in use, no two files share a block, and the free blocks hold zeros. The last group
may be short, so the invariant of the loops is used for the recounted mount: `Healthy.written`
says what a call leaves before it writes the inode back.

`fs_write_round_trip` is the result: a write that begins inside a file or at its end writes
the bytes of the caller, as far as there are blocks, and changes nothing else in any file.
-/
import ArmKernel.Fs.BlocksCount
import ArmKernel.Fs.FileContents
import ArmKernel.Fs.InodeSlots

namespace ArmKernel.Fs

open ArmKernel.Support

/-! ### The inode table -/

/-- A device of at most 2^32 bytes, with an inode table of whole inodes. -/
structure Geometry (sb : Superblock) : Prop where
  groupBits : sb.blocksPerGroup ≤ 8 * blockSize
  covered : sb.blocksCount ≤ sb.blockGroupNr * sb.blocksPerGroup
  lastGroup : sb.blockGroupNr * sb.blocksPerGroup < sb.blocksCount + sb.blocksPerGroup
  bitmaps : ∀ g, g < sb.blockGroupNr → sb.firstDataBlock + 1 + g < sb.blocksCount
  addressed : sb.blocksCount * blockSize ≤ 2 ^ 32
  inodesCount : sb.inodesCount < 2 ^ 32
  perGroup : 0 < sb.inodesPerGroup
  inodeSize : inodeBytes ≤ sb.inodeSize
  divides : sb.inodeSize ∣ blockSize
  inside : ∀ i, 1 ≤ i → i ≤ sb.inodesCount → inodeBlock sb i < sb.blocksCount
  table : ∀ i, 1 ≤ i → i ≤ sb.inodesCount →
    inodeBlock sb i ≠ 0 ∧ ∀ g, g < sb.blockGroupNr → inodeBlock sb i ≠ bitmapBlock sb g

section Inodes

variable {sb : Superblock} {group index : Nat}

/-- **The offset of an inode does not wrap**: the inode table would have 2^20 blocks besides the
superblock, and the device has no more than these. -/
theorem Geometry.index_lt (h : Geometry sb) (hindex : index < sb.inodesPerGroup)
    (hi : group * sb.inodesPerGroup + index + 1 ≤ sb.inodesCount) :
    index * sb.inodeSize < 2 ^ 32 := by
  by_contra hbig
  have hcount := h.inodesCount
  have hblocks := h.addressed
  have hsize : 0 < sb.inodeSize := Nat.lt_of_lt_of_le (by decide) h.inodeSize
  have hle : sb.inodeSize ≤ blockSize := Nat.le_of_dvd (by decide) h.divides
  obtain ⟨m, hm⟩ : sb.inodeSize ∣ 2 ^ 32 := h.divides.trans (by decide)
  have hmpos : 0 < m := by
    by_contra hzero
    rw [Nat.eq_zero_of_not_pos hzero, Nat.mul_zero] at hm
    cases hm
  have hmle : m ≤ index := by
    have hmul : sb.inodeSize * m ≤ sb.inodeSize * index := by
      rw [← hm, Nat.mul_comm _ index]
      exact Nat.not_lt.mp hbig
    exact Nat.le_of_mul_le_mul_left hmul hsize
  -- The first inode of the group, and the one before the offset wraps.
  have hfirst := @inodeBlock_of_index sb group 0 h.perGroup (by omega)
  have hlast := @inodeBlock_of_index sb group (m - 1) (by omega) (by omega)
  have hoffset : (m - 1) * sb.inodeSize = 2 ^ 32 - sb.inodeSize := by
    rw [Nat.sub_mul, Nat.one_mul, Nat.mul_comm, ← hm]
  have hquot : wrap32 ((m - 1) * sb.inodeSize) / blockSize = 2 ^ 20 - 1 := by
    rw [hoffset, wrap32_of_lt (by omega)]
    unfold blockSize at *
    omega
  have hzero : wrap32 (0 * sb.inodeSize) / blockSize = 0 := by
    rw [Nat.zero_mul]
    rfl
  rw [hzero, Nat.add_zero] at hfirst
  rw [hquot] at hlast
  have hin := h.inside (group * sb.inodesPerGroup + 0 + 1) (by omega) (by omega)
  have hin' := h.inside (group * sb.inodesPerGroup + (m - 1) + 1) (by omega) (by omega)
  have hne := (h.table (group * sb.inodesPerGroup + 0 + 1) (by omega) (by omega)).1
  rw [hfirst] at hin hne
  rw [hlast] at hin'
  unfold blockSize at hblocks
  omega

/-- There is an address for each index. -/
theorem Geometry.words (h : Geometry sb) :
    indices sb * Nat.gcd sb.inodeSize (2 ^ 32) ≤ 2 ^ 32 := by
  have hdvd : sb.inodeSize ∣ 2 ^ 32 := h.divides.trans (by decide)
  rw [Nat.gcd_eq_left hdvd]
  rcases Nat.eq_zero_or_pos (indices sb) with hzero | hpos
  · rw [hzero, Nat.zero_mul]
    exact Nat.zero_le _
  · obtain ⟨n, hn⟩ := Nat.exists_eq_succ_of_ne_zero (Nat.ne_of_gt hpos)
    have hlast : n < indices sb := hn ▸ Nat.lt_succ_self n
    obtain ⟨hindex, hin⟩ := Nat.lt_min.mp hlast
    have hlt := @Geometry.index_lt sb 0 n h hindex (by omega)
    rw [hn, Nat.succ_mul]
    exact multiples_apart (Nat.dvd_mul_left _ _) hdvd hlt

/-- **No two inodes share a byte**, and each lies in one block. -/
theorem inodes_apart (h : Geometry sb) {files : Finset Nat}
    (numbered : ∀ f ∈ files, 1 ≤ f ∧ f ≤ sb.inodesCount) : InodesApart sb files := by
  have hwhole : ∀ q, q * sb.inodeSize % blockSize + inodeBytes ≤ blockSize := fun q =>
    (Nat.add_le_add_left h.inodeSize _).trans (record_whole h.divides (by decide) q)
  refine
    { numbered := numbered
      whole := fun f hf => ?_
      table := fun f hf => h.table f (numbered f hf).1 (numbered f hf).2
      apart := fun f hf g hg hfg => ?_ }
  · obtain ⟨hlow, hhigh⟩ := numbered f hf
    obtain ⟨group, index, hindex, rfl⟩ := inode_split h.perGroup hlow
    rw [inodeOffset_of_index hindex (Nat.lt_of_le_of_lt hhigh h.inodesCount)]
    exact hwhole index
  · obtain ⟨hlow, hhigh⟩ := numbered f hf
    obtain ⟨hlow', hhigh'⟩ := numbered g hg
    by_cases hblock : inodeBlock sb f = inodeBlock sb g
    · exact .inr (slots_of_indices h.perGroup h.inodeSize (Nat.le_of_dvd (by decide) h.divides)
        h.inodesCount (fun q _ => hwhole q) h.words hlow hhigh hlow' hhigh' hfg hblock)
    · exact .inl hblock

end Inodes

/-! ### The files -/

/-- A device in order with its regular files: the blocks of every file are there, in use, and
apart from those of all others and from the metadata; what is free holds zeros. The bits of the
last group behind the device are set. -/
structure Healthy (mp : Mount) (files : Finset Nat) : Prop where
  geometry : Geometry mp.sb
  fits : mp.sb.freeBlocks < 2 ^ 32
  metadata : ∀ b, IsMetadata mp.sb b → InUse mp b
  numbered : ∀ f ∈ files, 1 ≤ f ∧ f ≤ mp.sb.inodesCount
  separated : Separated mp files (readInode mp)
  present : ∀ f ∈ files, Present mp (readInode mp f) (fileSize (readInode mp f))
  beyond : ∀ b, mp.sb.blocksCount ≤ b → b < mp.sb.blockGroupNr * mp.sb.blocksPerGroup →
    used mp b = true
  zeros : ∀ b, b < mp.sb.blocksCount → used mp b = false → ∀ i < blockSize, mp.blocks b i = 0#8

/-- What `fs_write` did, when it returned `k`. -/
structure WroteBack (image : Superblock → Bytes) (mp : Mount) (files : Finset Nat)
    (call : WriteCall) (desc : FileDesc) (r : WriteResult) (k : Nat) : Prop where
  ret : r.ret = k
  within : k ≤ call.count
  /-- A short write ended with a call of `alloc_block` that returned 0. -/
  short : k < call.count → ∃ full inode, (allocBlock image full).1 = 0 ∧
    r.mp = writeInode full desc.inode inode
  size : fileSize (readInode r.mp desc.inode) =
    max (fileSize (readInode mp desc.inode)) (desc.pos + k)
  pos : r.pos = desc.pos + k
  contents : ∃ old, old.length = fileSize (readInode mp desc.inode) ∧ Reads mp desc.inode old ∧
    Reads r.mp desc.inode
      (old.take desc.pos ++ readBytes call.src 0 k ++ old.drop (desc.pos + k))
  others : ∀ g ∈ files, g ≠ desc.inode → ∃ data, data.length = fileSize (readInode mp g) ∧
    Reads mp g data ∧ Reads r.mp g data

section Files

variable {image : Superblock → Bytes} {mp : Mount} {files : Finset Nat} {call : WriteCall}
  {desc : FileDesc} {f g : Nat}

/-- The count that the bitmap has bits for describes the device. -/
theorem Geometry.layout {sb : Superblock} (h : Geometry sb) :
    Layout { sb with blocksCount := sb.blockGroupNr * sb.blocksPerGroup } where
  groupBits := h.groupBits
  count := rfl
  noWrap := by
    have haddressed := h.addressed
    have hbits := h.groupBits
    unfold blockSize at haddressed hbits
    exact h.lastGroup.trans (by omega)
  bitmaps g hg := (h.bitmaps g hg).trans_le h.covered

theorem Geometry.inUse_recounted (h : Geometry mp.sb) {b : Nat} (hb : InUse mp b) :
    InUse mp.recounted b :=
  ⟨hb.1.trans_le h.covered, hb.2⟩

theorem Healthy.consistent (h : Healthy mp files) : Consistent files mp.recounted where
  layout := h.geometry.layout
  fits := h.fits
  metadata b hb := h.geometry.inUse_recounted (h.metadata b hb)
  table :=
    let hapart := inodes_apart h.geometry h.numbered
    ⟨hapart.numbered, hapart.whole, hapart.table, hapart.apart⟩
  separated :=
    { owned := fun f hf s hs hne =>
        let ⟨hin, hdata⟩ := h.separated.owned f hf s hs hne
        ⟨h.geometry.inUse_recounted hin, hdata⟩
      apart := h.separated.apart }

theorem Healthy.present_recounted (h : Healthy mp files) : ∀ f ∈ files,
    Present mp.recounted (readInode mp.recounted f) (fileSize (readInode mp.recounted f)) :=
  h.present

/-- A free block is one of the device. -/
theorem Healthy.free_lt (h : Healthy mp files) {b : Nat}
    (hb : b < mp.sb.blockGroupNr * mp.sb.blocksPerGroup) (hfree : used mp b = false) :
    b < mp.sb.blocksCount := by
  by_contra hout
  rw [h.beyond b (Nat.not_lt.mp hout) hb] at hfree
  cases hfree

/-- A free block holds no pointer. -/
theorem Healthy.blank (h : Healthy mp files) {k b : Nat} (hb : b ∈ handedOut mp.recounted k) :
    Blank (mp.blocks b) := by
  have hfree : b < mp.sb.blockGroupNr * mp.sb.blocksPerGroup ∧ used mp b = false := by
    have hout : handedOut mp.recounted k = some b := hb
    unfold handedOut at hout
    split at hout
    · exact mem_freeList.mp (List.mem_of_getElem? hout)
    · cases hout
  have hinside := h.free_lt hfree.1 hfree.2
  intro j hj
  have hzero : ∀ i < 4, mp.blocks b (4 * j + i) = 0#8 := fun i hi =>
    h.zeros b hinside hfree.2 _ (by omega)
  have hfirst := hzero 0 (by decide)
  rw [Nat.add_zero] at hfirst
  unfold entry readWord
  rw [hfirst, hzero 1 (by decide), hzero 2 (by decide), hzero 3 (by decide)]
  rfl

theorem Healthy.safe (h : Healthy mp files) (n : Nat) {last : Nat}
    (hlast : last ≤ dataSlots * blockSize) (f : Nat) :
    Safe mp.recounted (readInode mp f) n last where
  blank := fun _ _ _ hb => h.blank hb
  room := .inl hlast

/-- A piece of a region is replaced, or put at its end. -/
theorem readBytes_splice {mem mem' src : Bytes} {size p k : Nat} (hp : p ≤ size)
    (hmine : ∀ i, p ≤ i → i < p + k → mem' i = src (i - p))
    (hkept : ∀ i < size, ¬ (p ≤ i ∧ i < p + k) → mem' i = mem i) :
    readBytes mem' 0 (max size (p + k)) =
      (readBytes mem 0 size).take p ++ readBytes src 0 k ++ (readBytes mem 0 size).drop (p + k) := by
  have hlen : max size (p + k) = p + k + (size - (p + k)) := by omega
  rw [hlen, readBytes_append, readBytes_append, take_readBytes hp, drop_readBytes]
  congr 1
  · congr 1
    · exact readBytes_congr fun i _ hi => hkept i (by omega) (by omega)
    · apply List.map_congr_left
      intro j hj
      have hj' : j < k := List.mem_range.mp hj
      have hbyte := hmine (0 + p + j) (by omega) (by omega)
      rw [hbyte]
      congr 1
      omega
  · exact readBytes_congr fun i hlow hi => hkept i (by omega) (by omega)

/-- **The inode is written back**: the bytes and the sizes of all files are those the loop
left. -/
theorem writeBack_bytes {w : Writing} (hf : f ∈ files)
    (h : Kept files (readInode mp) f mp (readInode mp f) w.mp w.inode) (time : Nat)
    (hg : g ∈ files) (inode : Bytes) (hinode : inode = if g = f then w.inode else readInode mp g)
    {r : Mount} (hr : r = writeInode w.mp f (setMtime w.inode time)) :
    fileSize (readInode r g) = fileSize inode ∧ ∀ i, i / blockSize < dataSlots →
      pointer w.mp inode (i / blockSize) ≠ 0 →
      pointer r (readInode r g) (i / blockSize) ≠ 0 ∧
        fileByte r (readInode r g) i = fileByte w.mp inode i := by
  have hinode' : Function.update (readInode mp) f w.inode g = inode := by
    rw [hinode]
    by_cases hgf : g = f
    · rw [hgf, Function.update_self, if_pos rfl]
    · rw [Function.update_of_ne hgf, if_neg hgf]
  obtain ⟨-, hpointers⟩ := h.pointer_writeBack hf time hr
  have hagree := h.owning.table.agree_writeInode hf (setMtime w.inode time) hg
  rw [← hr] at hagree
  constructor
  · have hsize : fileSize (readInode r g) =
        fileSize (if g = f then setMtime w.inode time else readInode w.mp g) :=
      readWord_congr (hagree.part (Nat.zero_le _) (by decide))
    rw [hsize, hinode]
    by_cases hgf : g = f
    · rw [if_pos hgf, if_pos hgf]
      exact readWord_writeWord_of_apart (.inl (by decide))
    · rw [if_neg hgf, if_neg hgf, h.ext.readInode hg]
  · intro i hi hne
    have hnow := hpointers g hg (i / blockSize)
    have hdata := h.owning.separated.owned g hg (i / blockSize) (Nat.le_of_lt hi)
    rw [hinode'] at hnow hdata
    have hblock : pointer w.mp inode (i / blockSize) ≠ inodeBlock w.mp.sb f := fun e => by
      obtain ⟨hlow, hhigh⟩ := h.owning.table.numbered f hf
      exact (hdata hne).2 (.inr (.inr ⟨f, hlow, hhigh, e⟩))
    rw [fileByte, hnow, hr]
    exact ⟨hne, congrFun (Function.update_of_ne hblock ..) _⟩

theorem present_of_pointers {inode : Bytes} {size : Nat} (hsize : size ≤ dataSlots * blockSize)
    (hpointers : ∀ i < size, pointer mp inode (i / blockSize) ≠ 0) : Present mp inode size := by
  refine ⟨hsize, ?_⟩
  intro s hs
  have hpointer := hpointers (s * blockSize) hs
  rwa [Nat.mul_div_cancel s (by decide)] at hpointer

theorem Present.pointer {inode : Bytes} {size i : Nat} (h : Present mp inode size) (hi : i < size) :
    i / blockSize < dataSlots ∧ pointer mp inode (i / blockSize) ≠ 0 := by
  obtain ⟨hle, hpointers⟩ := h
  refine ⟨?_, hpointers _ (Nat.lt_of_le_of_lt (Nat.div_mul_le_self i blockSize) hi)⟩
  exact Nat.div_lt_of_lt_mul (by rw [Nat.mul_comm]; exact hi.trans_le hle)

/-- The bytes of the other files after the call. -/
theorem Filled.bytes_other {w : Writing} {start : Nat}
    (hpresent : Present mp (readInode mp g) (fileSize (readInode mp g))) (hf : f ∈ files)
    (hkept : Kept files (readInode mp) f mp (readInode mp f) w.mp w.inode)
    (hfilled : Filled files (readInode mp) f mp (readInode mp f) call start w) (time : Nat)
    (hg : g ∈ files) (hgf : g ≠ f) {r : Mount}
    (hr : r = writeInode w.mp f (setMtime w.inode time)) :
    fileSize (readInode r g) = fileSize (readInode mp g) ∧
      ∀ i < fileSize (readInode mp g), pointer r (readInode r g) (i / blockSize) ≠ 0 ∧
        fileByte r (readInode r g) i = fileByte mp (readInode mp g) i := by
  obtain ⟨hsize, hbytes⟩ := writeBack_bytes hf hkept time hg (readInode mp g) (if_neg hgf).symm hr
  refine ⟨hsize, ?_⟩
  intro i hi
  obtain ⟨hslot, hne⟩ := hpresent.pointer hi
  have hpointer := hfilled.pointer_other hg hgf (i / blockSize)
  obtain ⟨hne', hbyte⟩ := hbytes i hslot (by rwa [hpointer])
  refine ⟨hne', hbyte.trans ?_⟩
  rw [fileByte, hpointer, hfilled.others g hg hgf _ (Nat.le_of_lt hslot) hne]
  rfl

/-- The bytes of the file itself after the call. -/
theorem Filled.bytes_self {w : Writing} {start : Nat}
    (hpresent : Present mp (readInode mp f) (fileSize (readInode mp f))) (hf : f ∈ files)
    (hend : start + w.written ≤ dataSlots * blockSize)
    (hkept : Kept files (readInode mp) f mp (readInode mp f) w.mp w.inode)
    (hfilled : Filled files (readInode mp) f mp (readInode mp f) call start w) (time : Nat)
    {r : Mount} (hr : r = writeInode w.mp f (setMtime w.inode time)) :
    fileSize (readInode r f) = max (fileSize (readInode mp f)) (start + w.written) ∧
    (∀ i, start ≤ i → i < start + w.written → pointer r (readInode r f) (i / blockSize) ≠ 0 ∧
      fileByte r (readInode r f) i = call.src (i - start)) ∧
    ∀ i < fileSize (readInode mp f), ¬ (start ≤ i ∧ i < start + w.written) →
      pointer r (readInode r f) (i / blockSize) ≠ 0 ∧
        fileByte r (readInode r f) i = fileByte mp (readInode mp f) i := by
  obtain ⟨hsize, hbytes⟩ := writeBack_bytes hf hkept time hf w.inode (if_pos rfl).symm hr
  refine ⟨hsize.trans hfilled.size, ?_, ?_⟩
  · intro i hlow hhigh
    obtain ⟨hne, hbyte⟩ := hfilled.mine i hlow hhigh
    have hslot : i / blockSize < dataSlots :=
      Nat.div_lt_of_lt_mul (by rw [Nat.mul_comm]; exact hhigh.trans_le hend)
    obtain ⟨hne', hbyte'⟩ := hbytes i hslot hne
    exact ⟨hne', hbyte'.trans hbyte⟩
  · intro i hi hout
    obtain ⟨hslot, hne⟩ := hpresent.pointer hi
    obtain ⟨hne₁, hbyte⟩ := hfilled.kept i hslot hout hne
    obtain ⟨hne', hbyte'⟩ := hbytes i hslot hne₁
    exact ⟨hne', hbyte'.trans hbyte⟩

/-- The other files are there after the call. -/
theorem Filled.present_other {w : Writing} {start : Nat}
    (h : ∀ f ∈ files, Present mp (readInode mp f) (fileSize (readInode mp f))) (hf : f ∈ files)
    (hkept : Kept files (readInode mp) f mp (readInode mp f) w.mp w.inode)
    (hfilled : Filled files (readInode mp) f mp (readInode mp f) call start w) (time : Nat)
    (hg : g ∈ files) (hgf : g ≠ f) {r : Mount}
    (hr : r = writeInode w.mp f (setMtime w.inode time)) :
    Present r (readInode r g) (fileSize (readInode r g)) := by
  obtain ⟨hsize, hbytes⟩ := hfilled.bytes_other (h g hg) hf hkept time hg hgf hr
  rw [hsize]
  exact present_of_pointers (h g hg).1 fun i hi => (hbytes i hi).1

/-- So is the file itself. -/
theorem Filled.present_self {w : Writing} {start : Nat}
    (h : ∀ f ∈ files, Present mp (readInode mp f) (fileSize (readInode mp f))) (hf : f ∈ files)
    (hend : start + w.written ≤ dataSlots * blockSize)
    (hkept : Kept files (readInode mp) f mp (readInode mp f) w.mp w.inode)
    (hfilled : Filled files (readInode mp) f mp (readInode mp f) call start w) (time : Nat)
    (hstart : start ≤ fileSize (readInode mp f)) {r : Mount}
    (hr : r = writeInode w.mp f (setMtime w.inode time)) :
    Present r (readInode r f) (fileSize (readInode r f)) := by
  obtain ⟨hsize, hmine, hold⟩ := hfilled.bytes_self (h f hf) hf hend hkept time hr
  rw [hsize]
  refine present_of_pointers (Nat.max_le.mpr ⟨(h f hf).1, hend⟩) ?_
  intro i hi
  by_cases hin : start ≤ i ∧ i < start + w.written
  · exact (hmine i hin.1 hin.2).1
  · exact (hold i (by omega) hin).1

/-- What a reader of another file gets. -/
theorem Filled.reads_other {w : Writing} {start : Nat}
    (h : ∀ f ∈ files, Present mp (readInode mp f) (fileSize (readInode mp f))) (hf : f ∈ files)
    (hkept : Kept files (readInode mp) f mp (readInode mp f) w.mp w.inode)
    (hfilled : Filled files (readInode mp) f mp (readInode mp f) call start w) (time : Nat)
    (hg : g ∈ files) (hgf : g ≠ f) :
    ∃ data, data.length = fileSize (readInode mp g) ∧ Reads mp g data ∧
      Reads (writeInode w.mp f (setMtime w.inode time)) g data := by
  have hpresent := h g hg
  obtain ⟨hsize, hbytes⟩ := hfilled.bytes_other hpresent hf hkept time hg hgf rfl
  have hafter := reads_of_present (hfilled.present_other h hf hkept time hg hgf rfl)
  rw [hsize, readBytes_congr fun i _ hi => (hbytes i (by omega)).2] at hafter
  exact ⟨_, readBytes_length, reads_of_present hpresent, hafter⟩

/-- What a reader of the file itself gets. -/
theorem Filled.reads_self {w : Writing} {start : Nat}
    (h : ∀ f ∈ files, Present mp (readInode mp f) (fileSize (readInode mp f))) (hf : f ∈ files)
    (hstart : start ≤ fileSize (readInode mp f))
    (hend : start + w.written ≤ dataSlots * blockSize)
    (hkept : Kept files (readInode mp) f mp (readInode mp f) w.mp w.inode)
    (hfilled : Filled files (readInode mp) f mp (readInode mp f) call start w) (time : Nat) :
    ∃ old, old.length = fileSize (readInode mp f) ∧ Reads mp f old ∧
      Reads (writeInode w.mp f (setMtime w.inode time)) f
        (old.take start ++ readBytes call.src 0 w.written ++ old.drop (start + w.written)) := by
  have hpresent := hfilled.present_self h hf hend hkept time hstart rfl
  obtain ⟨hsize, hmine, hold⟩ := hfilled.bytes_self (h f hf) hf hend hkept time rfl
  refine ⟨_, readBytes_length, reads_of_present (h f hf), ?_⟩
  rw [← readBytes_splice hstart (fun i hlow hhigh => (hmine i hlow hhigh).2)
    fun i hi hout => (hold i hi hout).2, ← hsize]
  exact reads_of_present hpresent

/-- What the loop keeps holds before its first round. -/
theorem Healthy.looping (h : Healthy mp files)
    (hoffsets : desc.pos + call.count ≤ dataSlots * blockSize) :
    Looping files (readInode mp.recounted) desc.inode mp.recounted
      (readInode mp.recounted desc.inode) call (desc.pos + call.count)
      ⟨mp.recounted, readInode mp.recounted desc.inode, desc.pos, 0, []⟩ := by
  have howning : Owning mp.recounted files
      (Function.update (readInode mp.recounted) desc.inode (readInode mp.recounted desc.inode)) := by
    rw [Function.update_eq_self]
    exact h.consistent
  exact ⟨.refl howning, fun b hb => absurd hb List.not_mem_nil, Nat.zero_le _,
    fun _ => ⟨rfl, h.safe _ hoffsets _⟩⟩

theorem filled_start {inodes : Nat → Bytes} {inode : Bytes} {start : Nat}
    (hstart : start ≤ fileSize inode) :
    Filled files inodes f mp inode call start ⟨mp, inode, start, 0, []⟩ where
  pos := rfl
  size := (Nat.max_eq_left hstart).symm
  mine _ hlow hhigh := absurd hhigh (Nat.not_lt.mpr hlow)
  kept _ _ _ hne := ⟨hne, rfl⟩
  others _ _ _ _ _ _ := rfl

/-- What the loop of a call leaves, and what the call returns then. The last group may be short,
so the files are those of the recounted mount. -/
structure Written (image : Superblock → Bytes) (mp : Mount) (files : Finset Nat)
    (call : WriteCall) (desc : FileDesc) (w : Writing) : Prop where
  result : fsWrite image mp call = some
    { ret := w.written, pos := w.pos,
      mp := writeInode w.mp desc.inode (setMtime w.inode call.time), stored := w.stored }
  count : w.mp.sb.blocksCount = mp.sb.blocksCount
  kept : Kept files (readInode mp.recounted) desc.inode mp.recounted
    (readInode mp.recounted desc.inode) w.mp.recounted w.inode
  filled : Filled files (readInode mp.recounted) desc.inode mp.recounted
    (readInode mp.recounted desc.inode) call desc.pos { w with mp := w.mp.recounted }
  untouched : Untouched mp.recounted w.mp.recounted
  within : w.written ≤ call.count
  stops : w.written < call.count → handedOut w.mp.recounted 0 = none
  loop : writeLoop image call call.count
    ⟨mp, readInode mp desc.inode, desc.pos, 0, []⟩ = some w

/-- **A call of `fs_write`** on a healthy device, as far as the indirect block goes. -/
theorem Healthy.written (image : Superblock → Bytes) (h : Healthy mp files)
    (hdesc : openDesc call.descs call.fd = some desc) (hmounted : call.mounted = true)
    (hfile : desc.inode ∈ files) (hpos : desc.pos ≤ fileSize (readInode mp desc.inode))
    (hoffsets : desc.pos + call.count ≤ dataSlots * blockSize) :
    ∃ w, Written image mp files call desc w := by
  have hcount : call.count < 2 ^ 32 := by
    have hsmall : dataSlots * blockSize < 2 ^ 32 := by decide
    omega
  obtain ⟨w, hloop⟩ := writeLoop_total image hcount call.count
    (w := ⟨mp, readInode mp desc.inode, desc.pos, 0, []⟩) (Nat.zero_le _) (Nat.sub_le _ _)
  obtain ⟨hrecounted, hm⟩ := writeLoop_recounted image call.count rfl hloop
  have hlooping := h.looping hoffsets
  have hstart : Filled files (readInode mp.recounted) desc.inode mp.recounted
      (readInode mp.recounted desc.inode) call desc.pos _ := filled_start hpos
  obtain ⟨hkept, -⟩ := hlooping.loop _ hfile hcount _ hrecounted
  obtain ⟨hfilled, hwithin, hstops⟩ :=
    Filled.loop _ hfile hoffsets _ hlooping hstart hrecounted
  have hsmall : w.written < 2 ^ 31 := by
    have hbound : dataSlots * blockSize < 2 ^ 31 := by decide
    have hle : w.written ≤ call.count := hwithin
    omega
  refine ⟨w,
    { result := ?_
      count := hm
      kept := hkept
      filled := hfilled
      untouched := hlooping.untouched _ hfile hcount _ (fun _ _ => rfl) hrecounted
      within := hwithin
      stops := hstops
      loop := hloop }⟩
  unfold fsWrite
  rw [hdesc, hmounted]
  simp only [Bool.not_true, Bool.false_eq_true, if_false, hloop, Option.map_some,
    toInt32_of_lt hsmall]

/-- The inode is written back to the recounted mount as to the mount. -/
theorem writeInode_recounted (mp : Mount) (f : Nat) (inode : Bytes) :
    (writeInode mp f inode).recounted = writeInode mp.recounted f inode := rfl

/-- What the call did to the files. -/
theorem Written.wroteBack {w : Writing} (hw : Written image mp files call desc w)
    (h : Healthy mp files) (hfile : desc.inode ∈ files)
    (hpos : desc.pos ≤ fileSize (readInode mp desc.inode))
    (hoffsets : desc.pos + call.count ≤ dataSlots * blockSize) :
    WroteBack image mp files call desc
      { ret := w.written, pos := w.pos,
        mp := writeInode w.mp desc.inode (setMtime w.inode call.time), stored := w.stored }
      w.written := by
  have hend : desc.pos + w.written ≤ dataSlots * blockSize :=
    (Nat.add_le_add_left hw.within _).trans hoffsets
  obtain ⟨hsize, -⟩ := writeBack_bytes (w := { w with mp := w.mp.recounted }) hfile hw.kept
    call.time hfile w.inode (if_pos rfl).symm rfl
  exact
    { ret := rfl
      within := hw.within
      short := fun hlt => by
        refine ⟨w.mp, setMtime w.inode call.time, ?_, rfl⟩
        have halloc := congrArg Prod.fst (allocBlock_recounted image hw.count).1
        rw [allocBlock_eq _ hw.kept.owning.layout, hw.stops hlt] at halloc
        exact halloc.symm
      size := hsize.trans hw.filled.size
      pos := hw.filled.pos
      contents := by
        have hself := hw.filled.reads_self (w := { w with mp := w.mp.recounted })
          h.present_recounted hfile hpos hend hw.kept call.time
        rw [← writeInode_recounted] at hself
        simpa only [reads_recounted, readInode_recounted] using hself
      others := fun g hg hgf => by
        have hother := hw.filled.reads_other h.present_recounted hfile hw.kept call.time hg
          hgf
        rw [← writeInode_recounted] at hother
        simpa only [reads_recounted, readInode_recounted] using hother }

/-- **Round trip.** -/
theorem fs_write_round_trip (image : Superblock → Bytes) (h : Healthy mp files)
    (hdesc : openDesc call.descs call.fd = some desc) (hmounted : call.mounted = true)
    (hfile : desc.inode ∈ files) (hpos : desc.pos ≤ fileSize (readInode mp desc.inode))
    (hoffsets : desc.pos + call.count ≤ dataSlots * blockSize) :
    ∃ r k, fsWrite image mp call = some r ∧ WroteBack image mp files call desc r k := by
  obtain ⟨w, hw⟩ := h.written image hdesc hmounted hfile hpos hoffsets
  exact ⟨_, w.written, hw.result, hw.wroteBack h hfile hpos hoffsets⟩

end Files

/-! ### A small device -/

theorem tinySb_geometry : Geometry tinySb := by
  have hone : ∀ i, 1 ≤ i → i ≤ tinySb.inodesCount → i ∈ ({1, 2} : Finset Nat) := by
    intro i hlow hhigh
    have hhigh' : i ≤ 2 := hhigh
    have hcases : i = 1 ∨ i = 2 := by omega
    simpa using hcases
  have hinside : ∀ i ∈ ({1, 2} : Finset Nat), inodeBlock tinySb i < tinySb.blocksCount := by decide
  exact
    { groupBits := tinySb_layout.groupBits
      covered := tinySb_layout.count.le
      lastGroup := by decide
      bitmaps := tinySb_layout.bitmaps
      addressed := by decide
      inodesCount := by decide
      perGroup := by decide
      inodeSize := by decide
      divides := by decide
      inside := fun i hlow hhigh => hinside i (hone i hlow hhigh)
      table := fun i hlow hhigh => tinySb_inodesApart.table i (hone i hlow hhigh) }

theorem tinyMount_healthy : Healthy (tinyMount fun _ => 0#8) {1, 2} where
  geometry := tinySb_geometry
  fits := (tinyMount_consistent _).fits
  metadata := (tinyMount_consistent _).metadata
  numbered := tinySb_inodesApart.numbered
  separated := (tinyMount_consistent _).separated
  present f hf := by
    have hempty : ∀ f ∈ ({1, 2} : Finset Nat),
        fileSize (fun j => tinyInodes (inodeOffset tinySb f + j)) = 0 := by decide
    rw [readInode_tinyMount _ hf, hempty f hf]
    exact ⟨Nat.zero_le _, fun s hs => absurd hs (Nat.not_lt_zero _)⟩
  beyond b hout hb := absurd hb (Nat.not_lt.mpr hout)
  zeros b hb hfree i _ := by
    have hbeyond : ¬ b < 4 := fun hlt => by
      rw [(tinyMount_inUse _ hlt).2] at hfree
      cases hfree
    have hblock : (tinyMount fun _ => 0#8).blocks b = fun _ => 0#8 := by
      unfold tinyMount
      simp only
      rw [if_neg (by omega), if_neg (by omega)]
      split <;> rfl
    rw [hblock]

/-- Five bytes at the start of file 2, which has a block and is empty. -/
def tinyWrite : WriteCall where
  descs := fun _ => { inode := 2, pos := 0, flags := 1, count := 1 }
  fd := 0
  src := fun i => BitVec.ofNat 8 (i + 1)
  count := 5
  mounted := true
  time := 7
  stack := ⟨fun _ => 3, fun _ _ => 0#8⟩

theorem fs_write_round_trip_tiny :
    ∃ r k, fsWrite (fun _ _ => 0#8) (tinyMount fun _ => 0#8) tinyWrite = some r ∧
      WroteBack (fun _ _ => 0#8) (tinyMount fun _ => 0#8) {1, 2} tinyWrite
        { inode := 2, pos := 0, flags := 1, count := 1 } r k :=
  fs_write_round_trip _ tinyMount_healthy rfl rfl (by decide) (Nat.zero_le _) (by decide)

end ArmKernel.Fs

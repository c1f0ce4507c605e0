/-
The slots of the inode table (`src/fs_core.c`: `read_inode`, `write_inode`).

An inode number is a group and an index there (`inode_split`), and both functions take block
and offset from them (`inodeBlock_of_index`, `inodeOffset_of_index`). Inodes of two groups are
never in one block (`same_block`). Within a group the slots are records of `inode_size` bytes,
whose addresses are 32-bit words, and `inode_slots_iff` says for which superblocks they are
whole and apart.
-/
import ArmKernel.Fs.Ownership
import ArmKernel.Support.Slots
import Mathlib.Data.Nat.Prime.Basic

namespace ArmKernel.Fs

open ArmKernel.Support

/-- Each inode is whole in the buffer of its block; what is written to it is read back, and no
other inode changes. -/
structure SlotsApart (sb : Superblock) : Prop where
  whole : ∀ i, 1 ≤ i → i ≤ sb.inodesCount → inodeOffset sb i + inodeBytes ≤ blockSize
  readsBack : ∀ mp : Mount, mp.sb = sb → ∀ i, 1 ≤ i → i ≤ sb.inodesCount → ∀ inode,
    Agree inode (readInode (writeInode mp i inode) i) 0 inodeBytes
  others : ∀ mp : Mount, mp.sb = sb → ∀ i j, 1 ≤ i → i ≤ sb.inodesCount → 1 ≤ j →
    j ≤ sb.inodesCount → j ≠ i → ∀ inode,
    Agree (readInode mp j) (readInode (writeInode mp i inode) j) 0 inodeBytes

/-- The indices in a group that inodes have. -/
def indices (sb : Superblock) : Nat := min sb.inodesPerGroup sb.inodesCount

section Inodes

variable {sb : Superblock} {group group' index index' i j : Nat}

/-- An inode as its group and its index there. -/
theorem inode_split (hgroup : 0 < sb.inodesPerGroup) (hlow : 1 ≤ i) :
    ∃ group index, index < sb.inodesPerGroup ∧
      i = group * sb.inodesPerGroup + index + 1 := by
  refine ⟨(i - 1) / sb.inodesPerGroup, (i - 1) % sb.inodesPerGroup, Nat.mod_lt _ hgroup, ?_⟩
  rw [Nat.div_add_mod', Nat.sub_add_cancel hlow]

theorem index_of_split (hindex : index < sb.inodesPerGroup)
    (hi : group * sb.inodesPerGroup + index + 1 < 2 ^ 32) :
    sub32 (group * sb.inodesPerGroup + index + 1) 1 / sb.inodesPerGroup = group ∧
      sub32 (group * sb.inodesPerGroup + index + 1) 1 % sb.inodesPerGroup = index := by
  have hsub : sub32 (group * sb.inodesPerGroup + index + 1) 1 =
      group * sb.inodesPerGroup + index := sub32_of_le hi (Nat.le_add_left _ _)
  rw [hsub]
  exact ⟨group_div hindex, group_mod hindex⟩

/-- The block of the inode with an index in its group. -/
theorem inodeBlock_of_index (hindex : index < sb.inodesPerGroup)
    (hi : group * sb.inodesPerGroup + index + 1 < 2 ^ 32) :
    inodeBlock sb (group * sb.inodesPerGroup + index + 1) =
      (sb.firstInode + group * sb.inodesPerGroup +
        wrap32 (index * sb.inodeSize) / blockSize) % 2 ^ 32 := by
  obtain ⟨hdiv, hmod⟩ := index_of_split hindex hi
  unfold inodeBlock
  simp only [hdiv, hmod]
  simp only [wrap32, Nat.add_mod_mod, Nat.mod_add_mod]

/-- The offset of the inode with an index in its group. -/
theorem inodeOffset_of_index (hindex : index < sb.inodesPerGroup)
    (hi : group * sb.inodesPerGroup + index + 1 < 2 ^ 32) :
    inodeOffset sb (group * sb.inodesPerGroup + index + 1) =
      index * sb.inodeSize % blockSize := by
  obtain ⟨-, hmod⟩ := index_of_split hindex hi
  rw [inodeOffset, hmod]
  exact Nat.mod_mod_of_dvd _ (by decide)

theorem eq_of_add_mod_eq {a x y : Nat} (hx : x < 2 ^ 32) (hy : y < 2 ^ 32)
    (h : (a + x) % 2 ^ 32 = (a + y) % 2 ^ 32) : x = y := by
  omega

/-- Two inodes in one block are of one group, and of one block of its table. -/
theorem same_block (hsize : sb.inodeSize ≤ blockSize)
    (hindex : index < sb.inodesPerGroup) (hindex' : index' < sb.inodesPerGroup)
    (hi : group * sb.inodesPerGroup + index + 1 < 2 ^ 32)
    (hi' : group' * sb.inodesPerGroup + index' + 1 < 2 ^ 32)
    (hblock : inodeBlock sb (group * sb.inodesPerGroup + index + 1) =
      inodeBlock sb (group' * sb.inodesPerGroup + index' + 1)) :
    group = group' ∧
      wrap32 (index * sb.inodeSize) / blockSize = wrap32 (index' * sb.inodeSize) / blockSize := by
  rw [inodeBlock_of_index hindex hi, inodeBlock_of_index hindex' hi'] at hblock
  have hquot : ∀ k, wrap32 (k * sb.inodeSize) / blockSize ≤ k := fun k =>
    (Nat.div_le_div_right (Nat.mod_le _ _)).trans (Nat.div_le_of_le_mul (by
      rw [Nat.mul_comm blockSize]
      exact Nat.mul_le_mul_left k hsize))
  have hq := hquot index
  have hq' := hquot index'
  have hsame : group * sb.inodesPerGroup + wrap32 (index * sb.inodeSize) / blockSize =
      group' * sb.inodesPerGroup + wrap32 (index' * sb.inodeSize) / blockSize := by
    rw [Nat.add_assoc, Nat.add_assoc] at hblock
    exact eq_of_add_mod_eq (by omega) (by omega) hblock
  have hgroup : group = group' := by
    rw [← @group_div group _ _ (Nat.lt_of_le_of_lt hq hindex), hsame,
      group_div (Nat.lt_of_le_of_lt hq' hindex')]
  subst hgroup
  exact ⟨rfl, Nat.add_left_cancel hsame⟩

/-- The common divisor of a word with a size that fits in a block divides the block: it is a
power of two. -/
theorem gcd_dvd_block {size : Nat} (hpos : 0 < size) (hsize : size ≤ blockSize) :
    Nat.gcd size (2 ^ 32) ∣ blockSize := by
  obtain ⟨k, -, hk⟩ := (Nat.dvd_prime_pow Nat.prime_two).mp (Nat.gcd_dvd_right size (2 ^ 32))
  have hle : 2 ^ k ≤ 2 ^ 12 := hk ▸ (Nat.gcd_le_left _ hpos).trans hsize
  rw [hk]
  exact Nat.pow_dvd_pow 2 ((Nat.pow_le_pow_iff_right (by decide)).mp hle)

/-- **The slots of two inodes** do not overlap. -/
theorem slots_of_indices (hgroup : 0 < sb.inodesPerGroup) (hlow : inodeBytes ≤ sb.inodeSize)
    (hhigh : sb.inodeSize ≤ blockSize) (hcount : sb.inodesCount < 2 ^ 32)
    (hwhole : ∀ q < indices sb, q * sb.inodeSize % blockSize + inodeBytes ≤ blockSize)
    (hwords : indices sb * Nat.gcd sb.inodeSize (2 ^ 32) ≤ 2 ^ 32)
    (hi : 1 ≤ i) (hi' : i ≤ sb.inodesCount) (hj : 1 ≤ j) (hj' : j ≤ sb.inodesCount) (hij : i ≠ j)
    (hblock : inodeBlock sb i = inodeBlock sb j) :
    inodeOffset sb i + inodeBytes ≤ inodeOffset sb j ∨
      inodeOffset sb j + inodeBytes ≤ inodeOffset sb i := by
  obtain ⟨group, index, hindex, rfl⟩ := inode_split hgroup hi
  obtain ⟨group', index', hindex', rfl⟩ := inode_split hgroup hj
  have hi32 := Nat.lt_of_le_of_lt hi' hcount
  have hj32 := Nat.lt_of_le_of_lt hj' hcount
  obtain ⟨rfl, hquot⟩ := same_block hhigh hindex hindex' hi32 hj32 hblock
  rw [inodeOffset_of_index hindex hi32, inodeOffset_of_index hindex' hj32]
  have hpos : 0 < sb.inodeSize := Nat.lt_of_lt_of_le (by decide) hlow
  have hin : index < indices sb := Nat.lt_min.mpr ⟨hindex, by omega⟩
  have hin' : index' < indices sb := Nat.lt_min.mpr ⟨hindex', by omega⟩
  have hne : index ≠ index' := fun e => hij (by rw [e])
  rcases Nat.lt_or_gt_of_ne hne with hlt | hgt
  · exact slots_disjoint (by decide) hlow hhigh (by decide) (by decide) (by decide)
      (gcd_dvd_block hpos hhigh) hwhole hwords hlt hin' hquot
  · exact (slots_disjoint (by decide) hlow hhigh (by decide) (by decide) (by decide)
      (gcd_dvd_block hpos hhigh) hwhole hwords hgt hin hquot.symm).symm

/-- Slots that do not overlap are read and written apart. -/
theorem slotsApart_of_offsets
    (hwhole : ∀ i, 1 ≤ i → i ≤ sb.inodesCount → inodeOffset sb i + inodeBytes ≤ blockSize)
    (hapart : ∀ i j, 1 ≤ i → i ≤ sb.inodesCount → 1 ≤ j → j ≤ sb.inodesCount → i ≠ j →
      inodeBlock sb i = inodeBlock sb j → inodeOffset sb i + inodeBytes ≤ inodeOffset sb j ∨
        inodeOffset sb j + inodeBytes ≤ inodeOffset sb i) : SlotsApart sb where
  whole := hwhole
  readsBack mp hsb i _ _ inode k _ hk := by
    rw [Nat.zero_add] at hk
    rw [readInode_writeInode, if_pos ⟨rfl, Nat.le_add_right _ _, Nat.add_lt_add_left hk _⟩,
      Nat.add_sub_cancel_left]
  others mp hsb i j hi hi' hj hj' hji inode k _ hk := by
    subst hsb
    rw [Nat.zero_add] at hk
    rw [readInode_writeInode, if_neg]
    rintro ⟨hblock, hlow, hhigh⟩
    rcases hapart j i hj hj' hi hi' hji hblock with hbefore | hafter
    · omega
    · omega

/-- Two inodes in one slot: a write to one changes the other. -/
theorem not_slotsApart_of_same (hi : 1 ≤ i) (hi' : i ≤ sb.inodesCount) (hj : 1 ≤ j)
    (hj' : j ≤ sb.inodesCount) (hji : j ≠ i) (hblock : inodeBlock sb j = inodeBlock sb i)
    (hoffset : inodeOffset sb j = inodeOffset sb i) : ¬ SlotsApart sb := by
  intro h
  obtain ⟨mp, hsb, hblank⟩ : ∃ mp : Mount, mp.sb = sb ∧ ∀ b k, mp.blocks b k = 0#8 :=
    ⟨{ sb, blocks := fun _ _ => 0#8 }, rfl, fun _ _ => rfl⟩
  subst hsb
  have hsame := h.others mp rfl i j hi hi' hj hj' hji (fun _ => 1#8) 0 (Nat.le_refl 0) (by decide)
  have hslot : inodeOffset mp.sb i ≤ inodeOffset mp.sb j + 0 ∧
      inodeOffset mp.sb j + 0 < inodeOffset mp.sb i + inodeBytes := by
    rw [hoffset]
    exact ⟨Nat.le_add_right _ 0, Nat.add_lt_add_left (by decide) _⟩
  rw [readInode_writeInode, if_pos ⟨hblock, hslot⟩, readInode, hblank] at hsame
  exact absurd hsame (by decide)

/-- The index after the last address has the slot of index 0. -/
theorem not_slotsApart_of_wrap (hcount : sb.inodesCount < 2 ^ 32)
    (hwrap : 2 ^ 32 / Nat.gcd sb.inodeSize (2 ^ 32) < indices sb) : ¬ SlotsApart sb := by
  have hpos : 0 < 2 ^ 32 / Nat.gcd sb.inodeSize (2 ^ 32) :=
    Nat.div_pos (Nat.gcd_le_right _ (by decide)) (Nat.gcd_pos_of_pos_right _ (by decide))
  have hwraps := address_wraps sb.inodeSize (2 ^ 32)
  generalize 2 ^ 32 / Nat.gcd sb.inodeSize (2 ^ 32) = q at hwrap hpos hwraps
  obtain ⟨hindex, hin⟩ := Nat.lt_min.mp hwrap
  have hfirst : 0 < sb.inodesPerGroup := Nat.zero_lt_of_lt hindex
  have hoffset : q * sb.inodeSize % blockSize = 0 := by
    rw [← Nat.mod_mod_of_dvd _ (show blockSize ∣ 2 ^ 32 by decide), hwraps, Nat.zero_mod]
  have hword : wrap32 (q * sb.inodeSize) = wrap32 (0 * sb.inodeSize) := by
    rw [Nat.zero_mul, wrap32, hwraps, wrap32, Nat.zero_mod]
  refine @not_slotsApart_of_same sb (0 * sb.inodesPerGroup + 0 + 1) (0 * sb.inodesPerGroup + q + 1)
    (by omega) (by omega) (by omega) (by omega) (by omega) ?_ ?_
  · rw [inodeBlock_of_index hindex (by omega), inodeBlock_of_index hfirst (by omega), hword]
  · rw [inodeOffset_of_index hindex (by omega), inodeOffset_of_index hfirst (by omega), hoffset,
      Nat.zero_mul, Nat.zero_mod]

/-- **Inode slots.** They are whole and apart exactly when no record of the group crosses the
end of a block and there is an address for each. -/
theorem inode_slots_iff (hgroup : 0 < sb.inodesPerGroup) (hlow : inodeBytes ≤ sb.inodeSize)
    (hhigh : sb.inodeSize ≤ blockSize) (hcount : sb.inodesCount < 2 ^ 32) :
    SlotsApart sb ↔
      (∀ q < indices sb, q * sb.inodeSize % blockSize + inodeBytes ≤ blockSize) ∧
        indices sb * Nat.gcd sb.inodeSize (2 ^ 32) ≤ 2 ^ 32 := by
  constructor
  · intro h
    constructor
    · intro q hq
      obtain ⟨hindex, hin⟩ := Nat.lt_min.mp hq
      have hwhole := h.whole (0 * sb.inodesPerGroup + q + 1) (Nat.le_add_left _ _) (by omega)
      rwa [inodeOffset_of_index hindex (by omega)] at hwhole
    · by_contra hmany
      refine not_slotsApart_of_wrap hcount (Nat.div_lt_of_lt_mul ?_) h
      rw [Nat.mul_comm]
      exact Nat.not_le.mp hmany
  · rintro ⟨hwhole, hwords⟩
    refine slotsApart_of_offsets ?_ fun i j hi hi' hj hj' hij hblock =>
      slots_of_indices hgroup hlow hhigh hcount hwhole hwords hi hi' hj hj' hij hblock
    intro i hi hi'
    obtain ⟨group, index, hindex, rfl⟩ := inode_split hgroup hi
    rw [inodeOffset_of_index hindex (Nat.lt_of_le_of_lt hi' hcount)]
    exact hwhole index (Nat.lt_min.mpr ⟨hindex, by omega⟩)

end Inodes

/-! ### One group -/

/-- A superblock whose inodes are all in one group. -/
def oneGroup (inodeSize count : Nat) : Superblock :=
  { blocksCount := 32768, freeBlocks := 32000, inodesCount := count, firstDataBlock := 0,
    firstInode := 2, inodeSize, blockGroupNr := 1, blocksPerGroup := 32768, inodesPerGroup := count }

theorem inode_slots_iff_128 : SlotsApart (oneGroup 128 64) :=
  (@inode_slots_iff (oneGroup 128 64) (by decide) (by decide) (by decide) (by decide)).mpr
    (by decide +kernel)

/-- Inodes of 96 bytes: inode 43 is at byte 4032 of its block, and 24 of its 88 bytes are behind
the end of the buffer. Inodes of 4096 bytes: with 2^20 + 1 of them the last is in the slot of the
first. -/
theorem inodes_that_overlap :
    inodeOffset (oneGroup 96 64) 43 = 4032 ∧ ¬ SlotsApart (oneGroup 96 64) ∧
      ¬ SlotsApart (oneGroup 4096 (2 ^ 20 + 1)) := by
  have hoffset : inodeOffset (oneGroup 96 64) 43 = 4032 := by decide
  refine ⟨hoffset, fun h => ?_, not_slotsApart_of_wrap (by decide) (by decide)⟩
  have hwhole := h.whole 43 (by decide) (by decide)
  rw [hoffset] at hwhole
  exact absurd hwhole (by decide)

end ArmKernel.Fs

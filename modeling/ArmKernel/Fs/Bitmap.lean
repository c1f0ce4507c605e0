/-
The block bitmap of the file system (`src/fs_core.c`: `alloc_block`, `free_block`).

`read_block` and `write_block` are coherent (`Fs.Coherence`), so a mount is its superblock
in memory and a flat map from block numbers to blocks. Both functions also write the
superblock to block 0; what that block then holds is the parameter `image`.

Block `b` has bit `b % blocks_per_group` of the bitmap block of group
`b / blocks_per_group`; `used` reads it and `freeList` lists the blocks whose bit is
clear. `groupLoop_spec` says that the two loops of `allocBlock` find the first of these,
`used_takeBlock` and `used_giveBlock` what the stores do to the bits.
`bitmap_counts_free` is the result over runs.
-/
import ArmKernel.Fs.BlockCache
import ArmKernel.Support.BitSet
import ArmKernel.Support.Run
import Mathlib.Data.Finset.Insert

namespace ArmKernel.Fs

open ArmKernel.Support

/-- `superblock_t`, as far as these functions read it. -/
structure Superblock where
  blocksCount : Nat
  freeBlocks : Nat
  inodesCount : Nat
  firstDataBlock : Nat
  firstInode : Nat
  inodeSize : Nat
  blockGroupNr : Nat
  blocksPerGroup : Nat
  inodesPerGroup : Nat

/-- A mounted device: `mp->sb`, and the blocks as `read_block` sees them. -/
structure Mount where
  sb : Superblock
  blocks : Nat → Bytes

/-- `bitmap_block + group`. -/
def bitmapBlock (sb : Superblock) (group : Nat) : Nat :=
  wrap32 (wrap32 (sb.firstDataBlock + 1) + group)

/-- `write_block`. -/
def Mount.write (mp : Mount) (blockNo : Nat) (buffer : Bytes) : Mount :=
  { mp with blocks := Function.update mp.blocks blockNo buffer }

section Functions

variable (image : Superblock → Bytes)

/-- The end of both functions: the count changes and goes to block 0. -/
def Mount.writeCount (mp : Mount) (freeBlocks : Nat) : Mount :=
  let sb := { mp.sb with freeBlocks }
  { mp with sb }.write 0 (image sb)

/-- The inner loop of `alloc_block`. -/
def bitLoop (bitmap : Bytes) : (rounds bit : Nat) → Option Nat
  | 0, _ => none
  | rounds + 1, bit =>
    if bitmap (bit / 8) &&& 1#8 <<< (bit % 8) = 0#8 then some bit
    else bitLoop bitmap rounds (bit + 1)

/-- The outer loop of `alloc_block`. -/
def groupLoop (mp : Mount) : (rounds group : Nat) → Nat × Mount
  | 0, _ => (0, mp)
  | rounds + 1, group =>
    let bitmap := mp.blocks (bitmapBlock mp.sb group)
    match bitLoop bitmap mp.sb.blocksPerGroup 0 with
    | some bit =>
      let written := mp.write (bitmapBlock mp.sb group) (setBitAt bitmap bit)
      (wrap32 (wrap32 (group * mp.sb.blocksPerGroup) + bit),
        written.writeCount image (sub32 mp.sb.freeBlocks 1))
    | none => groupLoop mp rounds (group + 1)

/-- `alloc_block`. -/
def allocBlock (mp : Mount) : Nat × Mount :=
  if mp.sb.freeBlocks = 0 then (0, mp) else groupLoop image mp mp.sb.blockGroupNr 0

/-- `free_block`. -/
def freeBlock (mp : Mount) (blockNo : Nat) : Mount :=
  let group := blockNo / mp.sb.blocksPerGroup
  let bit := blockNo % mp.sb.blocksPerGroup
  let bitmap := mp.blocks (bitmapBlock mp.sb group)
  (mp.write (bitmapBlock mp.sb group) (clearBitAt bitmap bit)).writeCount image
    (wrap32 (mp.sb.freeBlocks + 1))

end Functions

/-- Where `read_inode` and `write_inode` find an inode: the block. -/
def inodeBlock (sb : Superblock) (inodeNo : Nat) : Nat :=
  let group := sub32 inodeNo 1 / sb.inodesPerGroup
  let index := sub32 inodeNo 1 % sb.inodesPerGroup
  let inodeTable := wrap32 (sb.firstInode + wrap32 (group * sb.inodesPerGroup))
  wrap32 (inodeTable + wrap32 (index * sb.inodeSize) / blockSize)

/-! ### The bits of a device -/

/-- The bit of a block. -/
def used (mp : Mount) (b : Nat) : Bool :=
  bitAt (mp.blocks (bitmapBlock mp.sb (b / mp.sb.blocksPerGroup))) (b % mp.sb.blocksPerGroup)

/-- The blocks whose bit is clear, over all groups. -/
def freeList (mp : Mount) : List Nat :=
  (List.range (mp.sb.blockGroupNr * mp.sb.blocksPerGroup)).filter fun b => !used mp b

/-- The superblock describes a device whose bitmap blocks have bits of their own. -/
structure Layout (sb : Superblock) : Prop where
  groupBits : sb.blocksPerGroup ≤ 8 * blockSize
  count : sb.blocksCount = sb.blockGroupNr * sb.blocksPerGroup
  noWrap : sb.blocksCount < 2 ^ 32
  bitmaps : ∀ g, g < sb.blockGroupNr → sb.firstDataBlock + 1 + g < sb.blocksCount

section Bits

variable {image : Superblock → Bytes} {mp : Mount} {sb : Superblock} {b c g : Nat}

theorem Layout.bitmapBlock_eq (h : Layout sb) (hg : g < sb.blockGroupNr) :
    bitmapBlock sb g = sb.firstDataBlock + 1 + g := by
  have hlt := (h.bitmaps g hg).trans h.noWrap
  have hfirst : sb.firstDataBlock + 1 < 2 ^ 32 := Nat.lt_of_le_of_lt (Nat.le_add_right _ g) hlt
  rw [bitmapBlock, wrap32_of_lt hfirst, wrap32_of_lt hlt]

theorem Layout.bitmapBlock_ne_zero (h : Layout sb) (hg : g < sb.blockGroupNr) :
    bitmapBlock sb g ≠ 0 := by
  rw [h.bitmapBlock_eq hg, Nat.add_right_comm]
  exact Nat.succ_ne_zero _

theorem Layout.bitmapBlock_inj (h : Layout sb) {g' : Nat} (hg : g < sb.blockGroupNr)
    (hg' : g' < sb.blockGroupNr) (heq : bitmapBlock sb g = bitmapBlock sb g') : g = g' := by
  rw [h.bitmapBlock_eq hg, h.bitmapBlock_eq hg'] at heq
  exact Nat.add_left_cancel heq

/-- The count of free blocks is the only thing these functions change in the superblock. -/
theorem Layout.withFree (h : Layout sb) (freeBlocks : Nat) : Layout { sb with freeBlocks } :=
  ⟨h.groupBits, h.count, h.noWrap, h.bitmaps⟩

theorem group_lt (hb : b < sb.blockGroupNr * sb.blocksPerGroup) :
    b / sb.blocksPerGroup < sb.blockGroupNr :=
  Nat.div_lt_of_lt_mul (Nat.mul_comm _ _ ▸ hb)

/-- A block with its bit written, and the count with it. -/
def Mount.rebit (image : Superblock → Bytes) (mp : Mount) (b : Nat)
    (store : Bytes → Nat → Bytes) (freeBlocks : Nat) : Mount :=
  let bitmapNo := bitmapBlock mp.sb (b / mp.sb.blocksPerGroup)
  (mp.write bitmapNo (store (mp.blocks bitmapNo) (b % mp.sb.blocksPerGroup))).writeCount image
    freeBlocks

/-- The mount when block `b` is handed out, and when it is taken back. -/
def takeBlock (image : Superblock → Bytes) (mp : Mount) (b : Nat) : Mount :=
  mp.rebit image b setBitAt (sub32 mp.sb.freeBlocks 1)

def giveBlock (image : Superblock → Bytes) (mp : Mount) (b : Nat) : Mount :=
  mp.rebit image b clearBitAt (wrap32 (mp.sb.freeBlocks + 1))

theorem freeBlock_eq : freeBlock image mp b = giveBlock image mp b := rfl

variable {store : Bytes → Nat → Bytes} {k : Nat}

@[simp] theorem rebit_sb :
    (mp.rebit image b store k).sb = { mp.sb with freeBlocks := k } := rfl

/-- **Frame.** Block 0 and the bitmap block of the group are written, and no other. -/
theorem rebit_blocks_of_ne {n : Nat} (hzero : n ≠ 0)
    (hbitmap : n ≠ bitmapBlock mp.sb (b / mp.sb.blocksPerGroup)) :
    (mp.rebit image b store k).blocks n = mp.blocks n :=
  (Function.update_of_ne hzero ..).trans (Function.update_of_ne hbitmap ..)

/-- The bitmap blocks after the two writes. -/
theorem rebit_bitmap (h : Layout mp.sb) (hb : b < mp.sb.blockGroupNr * mp.sb.blocksPerGroup)
    (hg : g < mp.sb.blockGroupNr) :
    (mp.rebit image b store k).blocks (bitmapBlock mp.sb g) =
      if g = b / mp.sb.blocksPerGroup then
        store (mp.blocks (bitmapBlock mp.sb g)) (b % mp.sb.blocksPerGroup)
      else mp.blocks (bitmapBlock mp.sb g) := by
  split
  · rename_i heq
    subst heq
    exact (Function.update_of_ne (h.bitmapBlock_ne_zero hg) ..).trans (Function.update_self ..)
  · rename_i hne
    exact rebit_blocks_of_ne (h.bitmapBlock_ne_zero hg) fun heq =>
      hne (h.bitmapBlock_inj hg (group_lt hb) heq)

/-- A block number is its group and its place there. -/
theorem eq_iff_div_mod {p : Nat} : c = b ↔ c / p = b / p ∧ c % p = b % p := by
  refine ⟨fun e => e ▸ ⟨rfl, rfl⟩, fun ⟨hdiv, hmod⟩ => ?_⟩
  rw [← Nat.div_add_mod c p, ← Nat.div_add_mod b p, hdiv, hmod]

/-- The bit of a block after a store. -/
theorem used_rebit (h : Layout mp.sb) (hb : b < mp.sb.blockGroupNr * mp.sb.blocksPerGroup)
    (hc : c < mp.sb.blockGroupNr * mp.sb.blocksPerGroup) :
    used (mp.rebit image b store k) c =
      if c / mp.sb.blocksPerGroup = b / mp.sb.blocksPerGroup then
        bitAt (store (mp.blocks (bitmapBlock mp.sb (c / mp.sb.blocksPerGroup)))
          (b % mp.sb.blocksPerGroup)) (c % mp.sb.blocksPerGroup)
      else used mp c := by
  have hbits : used (mp.rebit image b store k) c =
      bitAt ((mp.rebit image b store k).blocks (bitmapBlock mp.sb (c / mp.sb.blocksPerGroup)))
        (c % mp.sb.blocksPerGroup) := rfl
  rw [hbits, rebit_bitmap h hb (group_lt hc)]
  split <;> rfl

theorem used_takeBlock (image : Superblock → Bytes) (h : Layout mp.sb)
    (hb : b < mp.sb.blockGroupNr * mp.sb.blocksPerGroup)
    (hc : c < mp.sb.blockGroupNr * mp.sb.blocksPerGroup) :
    used (takeBlock image mp b) c = (decide (c = b) || used mp c) := by
  rw [takeBlock, used_rebit h hb hc]
  by_cases hgroup : c / mp.sb.blocksPerGroup = b / mp.sb.blocksPerGroup
  · simp [hgroup, bitAt_setBitAt, used, eq_iff_div_mod (c := c) (p := mp.sb.blocksPerGroup)]
  · have hne : c ≠ b := fun e => hgroup (e ▸ rfl)
    rw [if_neg hgroup, decide_eq_false hne, Bool.false_or]

theorem used_giveBlock (image : Superblock → Bytes) (h : Layout mp.sb)
    (hb : b < mp.sb.blockGroupNr * mp.sb.blocksPerGroup)
    (hc : c < mp.sb.blockGroupNr * mp.sb.blocksPerGroup) :
    used (giveBlock image mp b) c = (!decide (c = b) && used mp c) := by
  rw [giveBlock, used_rebit h hb hc]
  by_cases hgroup : c / mp.sb.blocksPerGroup = b / mp.sb.blocksPerGroup
  · simp [hgroup, bitAt_clearBitAt, used, eq_iff_div_mod (c := c) (p := mp.sb.blocksPerGroup)]
  · have hne : c ≠ b := fun e => hgroup (e ▸ rfl)
    rw [if_neg hgroup, decide_eq_false hne, Bool.not_false, Bool.true_and]

end Bits

/-! ### The search -/

section Search

variable {image : Superblock → Bytes} {mp : Mount} {b c : Nat}

/-- The inner loop finds the first clear bit. -/
theorem bitLoop_eq (bitmap : Bytes) (rounds bit : Nat) :
    bitLoop bitmap rounds bit = (List.range' bit rounds).find? fun i => !bitAt bitmap i := by
  induction rounds generalizing bit with
  | zero => rfl
  | succ rounds ih =>
    rw [bitLoop, List.range'_succ, List.find?_cons, ih]
    cases hbit : bitAt bitmap bit with
    | false =>
      rw [if_pos (masked_eq_zero_iff.mpr hbit)]
      rfl
    | true =>
      rw [if_neg fun hzero => absurd (masked_eq_zero_iff.mp hzero) (by simp [hbit])]
      rfl

/-- `b` is the first block from `lo` on whose bit is clear. -/
structure FirstFree (mp : Mount) (lo b : Nat) : Prop where
  lo_le : lo ≤ b
  lt : b < mp.sb.blockGroupNr * mp.sb.blocksPerGroup
  free : used mp b = false
  first : ∀ c, lo ≤ c → c < b → used mp c = true

theorem group_div {group bit p : Nat} (hbit : bit < p) : (group * p + bit) / p = group := by
  have hpos : 0 < p := Nat.lt_of_le_of_lt (Nat.zero_le bit) hbit
  rw [Nat.mul_comm, Nat.mul_add_div hpos, Nat.div_eq_of_lt hbit, Nat.add_zero]

theorem group_mod {group bit p : Nat} (hbit : bit < p) : (group * p + bit) % p = bit := by
  rw [Nat.mul_comm, Nat.mul_add_mod, Nat.mod_eq_of_lt hbit]

/-- The blocks of a group, by their place in it. -/
theorem used_group {group bit : Nat} (hbit : bit < mp.sb.blocksPerGroup) :
    used mp (group * mp.sb.blocksPerGroup + bit) =
      bitAt (mp.blocks (bitmapBlock mp.sb group)) bit := by
  rw [used, group_div hbit, group_mod hbit]

theorem group_end_le {group nr p : Nat} (hgroup : group < nr) : group * p + p ≤ nr * p := by
  rw [← Nat.succ_mul]
  exact Nat.mul_le_mul_right p hgroup

/-- The blocks of a group from its first one on. -/
theorem exists_place {group p c : Nat} (hlo : group * p ≤ c) {limit : Nat}
    (hc : c < group * p + limit) : ∃ i, i < limit ∧ c = group * p + i := by
  obtain ⟨i, rfl⟩ := Nat.exists_eq_add_of_le hlo
  exact ⟨i, Nat.lt_of_add_lt_add_left hc, rfl⟩

/-- The inner loop finds the first free block of its group, or finds the group full. -/
theorem bitLoop_group (mp : Mount) (group : Nat) :
    (∃ bit < mp.sb.blocksPerGroup,
        bitLoop (mp.blocks (bitmapBlock mp.sb group)) mp.sb.blocksPerGroup 0 = some bit ∧
        used mp (group * mp.sb.blocksPerGroup + bit) = false ∧
        ∀ c, group * mp.sb.blocksPerGroup ≤ c → c < group * mp.sb.blocksPerGroup + bit →
          used mp c = true) ∨
      bitLoop (mp.blocks (bitmapBlock mp.sb group)) mp.sb.blocksPerGroup 0 = none ∧
        ∀ c, group * mp.sb.blocksPerGroup ≤ c →
          c < group * mp.sb.blocksPerGroup + mp.sb.blocksPerGroup → used mp c = true := by
  rw [bitLoop_eq]
  cases hfind : (List.range' 0 mp.sb.blocksPerGroup).find?
      (fun i => !bitAt (mp.blocks (bitmapBlock mp.sb group)) i) with
  | some bit =>
    rw [← List.range_eq_range', List.find?_range_eq_some] at hfind
    obtain ⟨hclear, hbit, hbefore⟩ := hfind
    rw [List.mem_range] at hbit
    refine .inl ⟨bit, hbit, rfl, ?_, ?_⟩
    · rw [used_group hbit]
      simpa using hclear
    · intro c hlo hc
      obtain ⟨i, hi, rfl⟩ := exists_place hlo hc
      rw [used_group (hi.trans hbit)]
      simpa using hbefore i hi
  | none =>
    refine .inr ⟨rfl, ?_⟩
    intro c hlo hc
    obtain ⟨i, hi, rfl⟩ := exists_place hlo hc
    rw [used_group hi]
    have hset := List.find?_eq_none.mp hfind i (by simpa using hi)
    simpa using hset

/-- The number that `alloc_block` computes for a bit it found. -/
theorem Layout.number_eq {sb : Superblock} (h : Layout sb) {group bit : Nat}
    (hgroup : group < sb.blockGroupNr) (hbit : bit < sb.blocksPerGroup) :
    wrap32 (wrap32 (group * sb.blocksPerGroup) + bit) = group * sb.blocksPerGroup + bit ∧
      group * sb.blocksPerGroup + bit < sb.blockGroupNr * sb.blocksPerGroup := by
  have hlt : group * sb.blocksPerGroup + bit < sb.blockGroupNr * sb.blocksPerGroup :=
    (Nat.add_lt_add_left hbit _).trans_le (group_end_le hgroup)
  have hsmall := (h.count ▸ hlt).trans h.noWrap
  rw [wrap32_of_lt (Nat.lt_of_le_of_lt (Nat.le_add_right _ bit) hsmall), wrap32_of_lt hsmall]
  exact ⟨rfl, hlt⟩

/-- **The search of `alloc_block`.** It hands out the first free block from its group on,
or finds that there is none. -/
theorem groupLoop_spec (image : Superblock → Bytes) (h : Layout mp.sb) {rounds group : Nat}
    (hrounds : group + rounds = mp.sb.blockGroupNr) :
    (∃ b, FirstFree mp (group * mp.sb.blocksPerGroup) b ∧
        groupLoop image mp rounds group = (b, takeBlock image mp b)) ∨
      (∀ c, group * mp.sb.blocksPerGroup ≤ c → c < mp.sb.blockGroupNr * mp.sb.blocksPerGroup →
        used mp c = true) ∧ groupLoop image mp rounds group = (0, mp) := by
  induction rounds generalizing group with
  | zero =>
    refine .inr ⟨?_, rfl⟩
    intro c hlo hhi
    rw [← hrounds, Nat.add_zero] at hhi
    exact absurd hhi (Nat.not_lt.mpr hlo)
  | succ rounds ih =>
    have hgroup : group < mp.sb.blockGroupNr := by omega
    rw [groupLoop]
    rcases bitLoop_group mp group with ⟨bit, hbit, hfound, hfree, hfirst⟩ | ⟨hnone, hfull⟩
    · obtain ⟨hnumber, hlt⟩ := h.number_eq hgroup hbit
      refine .inl ⟨group * mp.sb.blocksPerGroup + bit,
        ⟨Nat.le_add_right _ _, hlt, hfree, hfirst⟩, ?_⟩
      dsimp only
      rw [hfound]
      dsimp only
      rw [hnumber, takeBlock, Mount.rebit, group_div hbit, group_mod hbit]
    · have hstep : (group + 1) * mp.sb.blocksPerGroup =
          group * mp.sb.blocksPerGroup + mp.sb.blocksPerGroup := Nat.succ_mul ..
      have hnext : group * mp.sb.blocksPerGroup ≤ (group + 1) * mp.sb.blocksPerGroup :=
        Nat.mul_le_mul_right _ (Nat.le_succ group)
      have hcover : ∀ c, group * mp.sb.blocksPerGroup ≤ c →
          used mp c = true ∨ (group + 1) * mp.sb.blocksPerGroup ≤ c := fun c hlo =>
        (Nat.lt_or_ge c _).imp_left fun hlt => hfull c hlo (hstep ▸ hlt)
      dsimp only
      rw [hnone]
      rcases ih (by omega : group + 1 + rounds = mp.sb.blockGroupNr) with
        ⟨b, hfirst, heq⟩ | ⟨hall, heq⟩
      · refine .inl ⟨b, ⟨hnext.trans hfirst.lo_le, hfirst.lt, hfirst.free, ?_⟩, heq⟩
        intro c hlo hc
        rcases hcover c hlo with hused | hge
        · exact hused
        · exact hfirst.first c hge hc
      · refine .inr ⟨?_, heq⟩
        intro c hlo hc
        rcases hcover c hlo with hused | hge
        · exact hused
        · exact hall c hge hc

/-! ### The list of the free blocks -/

theorem mem_freeList :
    b ∈ freeList mp ↔ b < mp.sb.blockGroupNr * mp.sb.blocksPerGroup ∧ used mp b = false := by
  simp [freeList]

theorem freeList_nodup : (freeList mp).Nodup := List.nodup_range.filter _

theorem length_freeList_le (mp : Mount) :
    (freeList mp).length ≤ mp.sb.blockGroupNr * mp.sb.blocksPerGroup :=
  (List.length_filter_le _ _).trans_eq List.length_range

/-- The free blocks ascend, so the first one heads the list. -/
theorem FirstFree.head (hfirst : FirstFree mp 0 b) : (freeList mp).head? = some b := by
  rw [freeList, List.head?_filter, List.find?_range_eq_some]
  refine ⟨by simp [hfirst.free], List.mem_range.mpr hfirst.lt, fun c hc => ?_⟩
  simp [hfirst.first c (Nat.zero_le c) hc]

/-- The superblock counts the blocks whose bit is clear. -/
def CountsFree (mp : Mount) : Prop := mp.sb.freeBlocks = (freeList mp).length

theorem freeList_rebit {store : Bytes → Nat → Bytes} {k : Nat} :
    freeList (mp.rebit image b store k) =
      (List.range (mp.sb.blockGroupNr * mp.sb.blocksPerGroup)).filter fun c =>
        !used (mp.rebit image b store k) c := rfl

/-- Handing the first block out leaves the others. -/
theorem freeList_takeBlock (h : Layout mp.sb) {rest : List Nat} (hlist : freeList mp = b :: rest) :
    freeList (takeBlock image mp b) = rest := by
  have hb := mem_freeList.mp (hlist ▸ List.mem_cons_self : b ∈ freeList mp)
  have hnodup := List.nodup_cons.mp (hlist ▸ freeList_nodup : (b :: rest).Nodup)
  have hfilter : freeList (takeBlock image mp b) = (freeList mp).filter fun c => decide (c ≠ b) := by
    rw [takeBlock, freeList_rebit, freeList, List.filter_filter]
    apply List.filter_congr
    intro c hc
    have htake := used_takeBlock image h hb.1 (List.mem_range.mp hc)
    rw [takeBlock] at htake
    rw [htake, Bool.not_or, decide_not]
  rw [hfilter, hlist, List.filter_cons_of_neg (by simp)]
  exact List.filter_eq_self.mpr fun c hc => decide_eq_true fun e => hnodup.1 (e ▸ hc)

/-- The block that the call of `alloc_block` after `k` others hands out. -/
def handedOut (mp : Mount) (k : Nat) : Option Nat :=
  if k < mp.sb.freeBlocks then (freeList mp)[k]? else none

theorem handedOut_zero : handedOut mp 0 = some b →
    b < mp.sb.blockGroupNr * mp.sb.blocksPerGroup ∧ used mp b = false := by
  unfold handedOut
  split
  · exact fun h => mem_freeList.mp (List.mem_of_getElem? h)
  · exact fun h => absurd h (by simp)

/-- Handing out one block brings the others forward. -/
theorem handedOut_takeBlock (image : Superblock → Bytes) (h : Layout mp.sb)
    (fits : mp.sb.freeBlocks < 2 ^ 32) (hout : handedOut mp 0 = some b) (k : Nat) :
    handedOut (takeBlock image mp b) k = handedOut mp (k + 1) := by
  unfold handedOut at hout
  split at hout
  · rename_i hpos
    cases hlist : freeList mp with
    | nil => simp [hlist] at hout
    | cons c rest =>
      rw [hlist] at hout
      obtain rfl : c = b := by simpa using hout
      have hcount : (takeBlock image mp c).sb.freeBlocks = mp.sb.freeBlocks - 1 :=
        sub32_of_le fits hpos
      unfold handedOut
      rw [freeList_takeBlock h hlist, hcount, hlist, List.getElem?_cons_succ]
      have hiff : k < mp.sb.freeBlocks - 1 ↔ k + 1 < mp.sb.freeBlocks := by omega
      simp only [hiff]
  · cases hout

/-- **`alloc_block`**, whatever the count says. -/
theorem allocBlock_eq (image : Superblock → Bytes) (h : Layout mp.sb) :
    allocBlock image mp =
      match handedOut mp 0 with
      | none => (0, mp)
      | some b => (b, takeBlock image mp b) := by
  have hrounds : 0 + mp.sb.blockGroupNr = mp.sb.blockGroupNr := Nat.zero_add _
  unfold allocBlock handedOut
  rcases Nat.eq_zero_or_pos mp.sb.freeBlocks with hzero | hpos
  · rw [if_pos hzero, hzero, if_neg (Nat.lt_irrefl 0)]
  · rw [if_neg (Nat.ne_of_gt hpos), if_pos hpos, ← List.head?_eq_getElem?]
    rcases groupLoop_spec image h hrounds with ⟨b, hfirst, heq⟩ | ⟨hall, heq⟩
    · rw [Nat.zero_mul] at hfirst
      rw [hfirst.head, heq]
    · have hnil : freeList mp = [] := by
        apply List.eq_nil_iff_forall_not_mem.mpr
        intro c hc
        obtain ⟨hlt, hfree⟩ := mem_freeList.mp hc
        rw [hall c (by simp) hlt] at hfree
        cases hfree
      rw [hnil, heq]
      rfl

/-- **`alloc_block`** hands out the first free block, or returns 0 when there is none. -/
theorem allocBlock_spec (image : Superblock → Bytes) (h : Layout mp.sb) (hcount : CountsFree mp) :
    (freeList mp = [] ∧ allocBlock image mp = (0, mp)) ∨
      ∃ b rest, freeList mp = b :: rest ∧ allocBlock image mp = (b, takeBlock image mp b) := by
  rw [allocBlock_eq image h, handedOut, hcount]
  cases freeList mp with
  | nil => exact .inl ⟨rfl, rfl⟩
  | cons b rest => exact .inr ⟨b, rest, rfl, rfl⟩

/-- Taking a block back adds it to the free ones. -/
theorem freeList_giveBlock (image : Superblock → Bytes) (h : Layout mp.sb)
    (hb : b < mp.sb.blockGroupNr * mp.sb.blocksPerGroup) (hused : used mp b = true) :
    (freeList (giveBlock image mp b)).Perm (b :: freeList mp) := by
  have hnot : b ∉ freeList mp := fun hmem => by
    rw [(mem_freeList.mp hmem).2] at hused
    cases hused
  refine (List.perm_ext_iff_of_nodup freeList_nodup (List.nodup_cons.mpr ⟨hnot, freeList_nodup⟩)).mpr
    ?_
  intro c
  rw [List.mem_cons, mem_freeList, mem_freeList]
  by_cases hc : c < mp.sb.blockGroupNr * mp.sb.blocksPerGroup
  · have hgive := used_giveBlock image h hb hc
    rw [hgive]
    by_cases hcb : c = b
    · simp [hcb, giveBlock, hb]
    · simp [hcb, giveBlock]
  · have hcb : c ≠ b := fun e => hc (e ▸ hb)
    simp [hc, hcb, giveBlock]

/-- The count follows the bits. -/
theorem countsFree_takeBlock (hcount : CountsFree mp) (h : Layout mp.sb) {rest : List Nat}
    (hlist : freeList mp = b :: rest) : CountsFree (takeBlock image mp b) := by
  have hsmall := h.noWrap
  have hlen := length_freeList_le mp
  rw [h.count] at hsmall
  rw [CountsFree, hlist] at hcount
  rw [hlist] at hlen
  rw [CountsFree, freeList_takeBlock h hlist]
  have hsub : sub32 mp.sb.freeBlocks 1 = mp.sb.freeBlocks - 1 :=
    sub32_of_le (by omega) (by rw [hcount]; exact Nat.succ_pos _)
  show sub32 mp.sb.freeBlocks 1 = rest.length
  rw [hsub, hcount]
  rfl

theorem countsFree_giveBlock (hcount : CountsFree mp) (h : Layout mp.sb)
    (hb : b < mp.sb.blockGroupNr * mp.sb.blocksPerGroup) (hused : used mp b = true) :
    CountsFree (giveBlock image mp b) := by
  have hperm := (freeList_giveBlock image h hb hused).length_eq
  have hlen := length_freeList_le (giveBlock image mp b)
  have hsmall := h.noWrap
  rw [h.count] at hsmall
  rw [CountsFree] at hcount ⊢
  rw [hperm] at hlen ⊢
  show wrap32 (mp.sb.freeBlocks + 1) = _
  rw [hcount]
  exact wrap32_of_lt (Nat.lt_of_le_of_lt hlen hsmall)

end Search

end ArmKernel.Fs

/-
Runs of `alloc_block` and `free_block` on one mount.

`InOrder` is the invariant: the superblock counts the clear bits, and the bits of the
metadata and of the blocks that are held are set. `bitmap_counts_free` says that every
run keeps it and that every call changes exactly the bit of its block.
-/
import ArmKernel.Fs.Bitmap

namespace ArmKernel.Fs

open ArmKernel.Support

variable {image : Superblock → Bytes} {mp mp' : Mount} {sb : Superblock} {b : Nat}

/-- The blocks that no file owns: the superblock, the bitmaps and the inode table. -/
def IsMetadata (sb : Superblock) (b : Nat) : Prop :=
  b = 0 ∨ (∃ g, g < sb.blockGroupNr ∧ b = bitmapBlock sb g) ∨
    ∃ inodeNo, 1 ≤ inodeNo ∧ inodeNo ≤ sb.inodesCount ∧ b = inodeBlock sb inodeNo

/-- A block of the device whose bit is set. -/
def InUse (mp : Mount) (b : Nat) : Prop := b < mp.sb.blocksCount ∧ used mp b = true

/-- A device consistent with its bitmap; `held` are the data blocks in use. -/
structure InOrder (mp : Mount) (held : Finset Nat) : Prop where
  layout : Layout mp.sb
  counts : CountsFree mp
  metadata : ∀ b, IsMetadata mp.sb b → InUse mp b
  held : ∀ b ∈ held, InUse mp b ∧ ¬ IsMetadata mp.sb b

/-- Of all bits of all bitmap blocks only that of `b` may have changed, and is `v` now. -/
def SetsBit (mp mp' : Mount) (b : Nat) (v : Bool) : Prop :=
  ∀ g i, g < mp.sb.blockGroupNr →
    bitAt (mp'.blocks (bitmapBlock mp.sb g)) i =
      if g = b / mp.sb.blocksPerGroup ∧ i = b % mp.sb.blocksPerGroup then v
      else bitAt (mp.blocks (bitmapBlock mp.sb g)) i

/-- Of all blocks only block 0 and the bitmap block of `b` may have changed. -/
def WritesBitmapOf (mp mp' : Mount) (b : Nat) : Prop :=
  ∀ n, n ≠ 0 → n ≠ bitmapBlock mp.sb (b / mp.sb.blocksPerGroup) → mp'.blocks n = mp.blocks n

/-! ### The two calls -/

/-- A bit of a bitmap block after a store. -/
theorem setsBit_rebit {store : Bytes → Nat → Bytes} {k : Nat} {v : Bool} (h : Layout mp.sb)
    (hb : b < mp.sb.blockGroupNr * mp.sb.blocksPerGroup)
    (hstore : ∀ bitmap i j, bitAt (store bitmap i) j = if j = i then v else bitAt bitmap j) :
    SetsBit mp (mp.rebit image b store k) b v := by
  intro g i hg
  rw [rebit_bitmap h hb hg]
  by_cases hgroup : g = b / mp.sb.blocksPerGroup
  · rw [if_pos hgroup, hstore]
    simp [hgroup]
  · rw [if_neg hgroup, if_neg fun hboth => hgroup hboth.1]

theorem setsBit_takeBlock (h : Layout mp.sb)
    (hb : b < mp.sb.blockGroupNr * mp.sb.blocksPerGroup) :
    SetsBit mp (takeBlock image mp b) b true :=
  setsBit_rebit h hb fun bitmap i j => by
    rw [bitAt_setBitAt]
    by_cases hji : j = i <;> simp [hji]

theorem setsBit_giveBlock (h : Layout mp.sb)
    (hb : b < mp.sb.blockGroupNr * mp.sb.blocksPerGroup) :
    SetsBit mp (giveBlock image mp b) b false :=
  setsBit_rebit h hb fun bitmap i j => by
    rw [bitAt_clearBitAt]
    by_cases hji : j = i <;> simp [hji]

theorem writesBitmapOf_rebit {store : Bytes → Nat → Bytes} {k : Nat} :
    WritesBitmapOf mp (mp.rebit image b store k) b := fun _ hzero hbitmap =>
  rebit_blocks_of_ne hzero hbitmap

theorem inUse_rebit {store : Bytes → Nat → Bytes} {k c : Nat} :
    InUse (mp.rebit image b store k) c ↔
      c < mp.sb.blocksCount ∧ used (mp.rebit image b store k) c = true := by
  rw [InUse, rebit_sb]

theorem inUse_takeBlock (h : Layout mp.sb) (hb : b < mp.sb.blockGroupNr * mp.sb.blocksPerGroup)
    {c : Nat} : InUse (takeBlock image mp b) c ↔ c = b ∨ InUse mp c := by
  rw [takeBlock, inUse_rebit, ← takeBlock, InUse, h.count]
  by_cases hc : c < mp.sb.blockGroupNr * mp.sb.blocksPerGroup
  · rw [used_takeBlock image h hb hc]
    simp [hc]
  · have hne : c ≠ b := fun e => hc (e ▸ hb)
    simp [hc, hne]

theorem inUse_giveBlock (h : Layout mp.sb) (hb : b < mp.sb.blockGroupNr * mp.sb.blocksPerGroup)
    {c : Nat} : InUse (giveBlock image mp b) c ↔ c ≠ b ∧ InUse mp c := by
  rw [giveBlock, inUse_rebit, ← giveBlock, InUse, h.count]
  by_cases hc : c < mp.sb.blockGroupNr * mp.sb.blocksPerGroup
  · rw [used_giveBlock image h hb hc]
    simp [hc]
  · simp [hc]

variable {held : Finset Nat}

theorem InOrder.lt_count (h : InOrder mp held) {b : Nat} (hb : InUse mp b) :
    b < mp.sb.blockGroupNr * mp.sb.blocksPerGroup :=
  h.layout.count ▸ hb.1

/-- The layout does not depend on the count. -/
theorem InOrder.rebit (h : InOrder mp held) {store : Bytes → Nat → Bytes} {k : Nat}
    {held' : Finset Nat} (counts : CountsFree (mp.rebit image b store k))
    (metadata : ∀ c, IsMetadata mp.sb c → InUse (mp.rebit image b store k) c)
    (holds : ∀ c ∈ held', InUse (mp.rebit image b store k) c ∧ ¬ IsMetadata mp.sb c) :
    InOrder (mp.rebit image b store k) held' where
  layout := by
    rw [rebit_sb]
    exact h.layout.withFree k
  counts := counts
  metadata := by
    rw [rebit_sb]
    exact metadata
  held := by
    rw [rebit_sb]
    exact holds

theorem InOrder.zero_inUse (h : InOrder mp held) : InUse mp 0 := h.metadata 0 (.inl rfl)

/-- A free block is neither metadata, nor held, nor 0. -/
theorem InOrder.of_free (h : InOrder mp held) (hb : used mp b = false) :
    b ∉ held ∧ ¬ IsMetadata mp.sb b ∧ b ≠ 0 := by
  have hnot : ¬ InUse mp b := fun huse => by
    rw [huse.2] at hb
    cases hb
  exact ⟨fun hmem => hnot (h.held b hmem).1, fun hmeta => hnot (h.metadata b hmeta),
    fun hzero => hnot (hzero ▸ h.zero_inUse)⟩

/-- **`alloc_block`** on a device in order: it hands out a free block, or returns 0 and
changes nothing. -/
theorem InOrder.alloc (image : Superblock → Bytes) (h : InOrder mp held) :
    (freeList mp = [] ∧ allocBlock image mp = (0, mp)) ∨
      ∃ b rest, freeList mp = b :: rest ∧ allocBlock image mp = (b, takeBlock image mp b) ∧
        b < mp.sb.blockGroupNr * mp.sb.blocksPerGroup ∧ used mp b = false ∧
        InOrder (takeBlock image mp b) (insert b held) := by
  rcases allocBlock_spec image h.layout h.counts with hfull | ⟨b, rest, hlist, heq⟩
  · exact .inl hfull
  · right
    obtain ⟨hb, hfree⟩ := mem_freeList.mp (hlist ▸ List.mem_cons_self : b ∈ freeList mp)
    obtain ⟨-, hmeta, -⟩ := h.of_free hfree
    have hkeeps : ∀ c, InUse mp c → InUse (takeBlock image mp b) c := fun c hc =>
      (inUse_takeBlock h.layout hb).mpr (.inr hc)
    refine ⟨b, rest, hlist, heq, hb, hfree, h.rebit (countsFree_takeBlock h.counts h.layout hlist)
      (fun c hc => hkeeps c (h.metadata c hc)) ?_⟩
    intro c hc
    rcases Finset.mem_insert.mp hc with rfl | hc
    · exact ⟨(inUse_takeBlock h.layout hb).mpr (.inl rfl), hmeta⟩
    · exact ⟨hkeeps c (h.held c hc).1, (h.held c hc).2⟩

/-- **`free_block`** of a held block. -/
theorem InOrder.free (h : InOrder mp held) (hb : b ∈ held) :
    InOrder (giveBlock image mp b) (held.erase b) := by
  obtain ⟨huse, hmeta⟩ := h.held b hb
  have hkeeps : ∀ c, InUse mp c → c ≠ b → InUse (giveBlock image mp b) c := fun c hc hne =>
    (inUse_giveBlock h.layout (h.lt_count huse)).mpr ⟨hne, hc⟩
  refine h.rebit (countsFree_giveBlock h.counts h.layout (h.lt_count huse) huse.2)
    ?_ ?_
  · intro c hc
    exact hkeeps c (h.metadata c hc) fun e => hmeta (e ▸ hc)
  · intro c hc
    obtain ⟨hne, hc⟩ := Finset.mem_erase.mp hc
    exact ⟨hkeeps c (h.held c hc).1 hne, (h.held c hc).2⟩

/-! ### Runs -/

/-- The mount, and the data blocks that were handed out and not taken back. -/
structure Holding where
  mp : Mount
  held : Finset Nat

/-- A call of one of the two functions. -/
inductive BitmapCall where
  | alloc
  | free (blockNo : Nat)

/-- Only blocks that are held are freed. -/
def bitmapStep (image : Superblock → Bytes) (s : Holding) : BitmapCall → Option Holding
  | .alloc =>
    let (b, mp) := allocBlock image s.mp
    some { mp, held := if b = 0 then s.held else insert b s.held }
  | .free b =>
    if b ∈ s.held then some { mp := freeBlock image s.mp b, held := s.held.erase b } else none

/-- What a call does: `alloc_block` hands out a block that is not held and sets its bit, or
returns 0 because no bit is clear, and `free_block` clears the bit of its block. -/
def Accounts (image : Superblock → Bytes) (s : Holding) : BitmapCall → Prop
  | .alloc =>
    ((allocBlock image s.mp).1 = 0 ↔ freeList s.mp = []) ∧
      ((allocBlock image s.mp).1 = 0 → (allocBlock image s.mp).2 = s.mp) ∧
      ((allocBlock image s.mp).1 ≠ 0 →
        (allocBlock image s.mp).1 ∉ s.held ∧ (allocBlock image s.mp).1 ∈ freeList s.mp ∧
        ¬ IsMetadata s.mp.sb (allocBlock image s.mp).1 ∧
        SetsBit s.mp (allocBlock image s.mp).2 (allocBlock image s.mp).1 true ∧
        WritesBitmapOf s.mp (allocBlock image s.mp).2 (allocBlock image s.mp).1)
  | .free b => b ∈ s.held →
    SetsBit s.mp (freeBlock image s.mp b) b false ∧ WritesBitmapOf s.mp (freeBlock image s.mp b) b

theorem bitmapStep_inOrder (s : Holding) (call : BitmapCall) (s' : Holding)
    (h : InOrder s.mp s.held) (hstep : bitmapStep image s call = some s') :
    InOrder s'.mp s'.held := by
  cases call with
  | alloc =>
    rcases h.alloc image with ⟨-, heq⟩ | ⟨b, rest, -, heq, -, hfree, hinv⟩
    · rw [bitmapStep, heq] at hstep
      cases hstep
      exact h
    · have hne := (h.of_free hfree).2.2
      rw [bitmapStep, heq] at hstep
      cases hstep
      rwa [if_neg hne]
  | free b =>
    rw [bitmapStep] at hstep
    split at hstep
    · rename_i hb
      rw [freeBlock_eq] at hstep
      cases hstep
      exact h.free hb
    · cases hstep

theorem InOrder.accounts {s : Holding} (h : InOrder s.mp s.held) (call : BitmapCall) :
    Accounts image s call := by
  cases call with
  | alloc =>
    rcases h.alloc image with ⟨hnil, heq⟩ | ⟨b, rest, hlist, heq, hb, hfree, -⟩
    · rw [Accounts, heq]
      exact ⟨⟨fun _ => hnil, fun _ => rfl⟩, fun _ => rfl, fun hne => absurd rfl hne⟩
    · obtain ⟨hheld, hmeta, hzero⟩ := h.of_free hfree
      rw [Accounts, heq]
      refine ⟨⟨fun he => absurd he hzero, ?_⟩, fun he => absurd he hzero, ?_⟩
      · intro hnil
        rw [hlist] at hnil
        cases hnil
      · intro _
        exact ⟨hheld, mem_freeList.mpr ⟨hb, hfree⟩, hmeta, setsBit_takeBlock h.layout hb,
          writesBitmapOf_rebit⟩
  | free b =>
    intro hb
    have hlt := h.lt_count (h.held b hb).1
    rw [freeBlock_eq]
    exact ⟨setsBit_giveBlock h.layout hlt, writesBitmapOf_rebit⟩

/-- **The bitmap and the free count.** Along every run of `alloc_block` and of `free_block`
on held blocks the superblock counts the clear bits and the bits of held blocks are set,
and every call accounts for its block. -/
theorem bitmap_counts_free (h : InOrder mp held) (calls : List BitmapCall) :
    Along (bitmapStep image) (fun s => CountsFree s.mp ∧ ∀ b ∈ s.held, InUse s.mp b)
        { mp, held } calls ∧
      Each (bitmapStep image) (Accounts image) { mp, held } calls := by
  constructor
  · apply (along_of_preserved bitmapStep_inOrder h calls).mono
    intro s hs
    exact ⟨hs.counts, fun b hb => (hs.held b hb).1⟩
  · exact each_of_preserved (fun s call hs => hs.accounts call) bitmapStep_inOrder h calls

/-- Two groups of eight blocks. Blocks 2 and 3 are the bitmaps, 4 and 5 the inode table; the
others are free, but for block 0. -/
def smallMount : Mount :=
  { sb :=
      { blocksCount := 16, freeBlocks := 11, inodesCount := 2, firstDataBlock := 1,
        firstInode := 4, inodeSize := 128, blockGroupNr := 2, blocksPerGroup := 8,
        inodesPerGroup := 1 }
    blocks := fun n i => if n = 2 ∧ i = 0 then 0x3d#8 else 0#8 }

theorem smallMount_inOrder : InOrder smallMount ∅ where
  layout :=
    { groupBits := by decide
      count := rfl
      noWrap := by decide
      bitmaps := by decide }
  counts := by
    unfold CountsFree
    decide
  metadata b hb := by
    have hmeta : ∀ g, g < 2 → InUse smallMount (bitmapBlock smallMount.sb g) := by
      unfold InUse
      decide
    have hinode : ∀ i, i < 2 → InUse smallMount (inodeBlock smallMount.sb (i + 1)) := by
      unfold InUse
      decide
    rcases hb with rfl | ⟨g, hg, rfl⟩ | ⟨inodeNo, hlow, hhigh, rfl⟩
    · exact ⟨by decide, by decide⟩
    · exact hmeta g hg
    · obtain ⟨i, rfl⟩ := Nat.exists_eq_add_of_le' hlow
      exact hinode i (Nat.lt_of_succ_le hhigh)
  held b hb := absurd hb (Finset.notMem_empty b)

/-- Three blocks are handed out, and the first of them again when it was taken back. -/
theorem bitmap_counts_free_calls :
    InOrder smallMount ∅ ∧
      Along (bitmapStep fun _ _ => 0#8) (fun s => CountsFree s.mp ∧ ∀ b ∈ s.held, InUse s.mp b)
        { mp := smallMount, held := ∅ } [.alloc, .alloc, .free 1, .alloc, .alloc] ∧
      Each (bitmapStep fun _ _ => 0#8) (Accounts fun _ _ => 0#8)
        { mp := smallMount, held := ∅ } [.alloc, .alloc, .free 1, .alloc, .alloc] :=
  ⟨smallMount_inOrder, bitmap_counts_free smallMount_inOrder _⟩

end ArmKernel.Fs

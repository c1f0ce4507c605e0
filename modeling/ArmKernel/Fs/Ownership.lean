/-
Which file owns which block.

`pointer mp inode s` is what an inode says about block `s` of its file, 0 for a block it does
not have; slot `dataSlots` is the indirect block itself.

`Separated mp files inodes` says that the blocks the inodes point to are data blocks in use
and that no two pointers agree, of one file or of two. `Owning` adds what the bitmap and the
inode table need. Each change that `fs_write` makes to a pointer, a pointer block or a data
block has a lemma that it keeps `Owning`: `Owning.take`, `Owning.putDirect`,
`Owning.putIndirect`, `Owning.putEntry`, `Owning.store`, `Owning.writeBack`.

`Owning.putIndirect` is the one with a condition: the new indirect block must hold zeros.
-/
import ArmKernel.Fs.FileBlocks

namespace ArmKernel.Fs

open ArmKernel.Support

/-- The blocks of a file that `fs_write` can name; the slot with this number is the indirect
block itself. -/
def dataSlots : Nat := 12 + blockSize / 4

/-- What an inode says about a block of its file. -/
def pointer (mp : Mount) (inode : Bytes) (s : Nat) : Nat :=
  if s < 12 then direct inode s
  else if s < dataSlots then
    if indirect inode = 0 then 0 else entry (mp.blocks (indirect inode)) (s - 12)
  else indirect inode

/-- A block in use that is no metadata. -/
def DataBlock (mp : Mount) (b : Nat) : Prop := InUse mp b ∧ ¬ IsMetadata mp.sb b

/-- The pointers of the files lead to data blocks, all to different ones. -/
structure Separated (mp : Mount) (files : Finset Nat) (inodes : Nat → Bytes) : Prop where
  owned : ∀ f ∈ files, ∀ s, s ≤ dataSlots → pointer mp (inodes f) s ≠ 0 →
    DataBlock mp (pointer mp (inodes f) s)
  apart : ∀ f ∈ files, ∀ g ∈ files, ∀ s t, s ≤ dataSlots → t ≤ dataSlots →
    pointer mp (inodes f) s ≠ 0 → pointer mp (inodes f) s = pointer mp (inodes g) t →
    f = g ∧ s = t

/-- The inodes of the files are apart from each other, from the superblock and from the
bitmaps, and each is whole in one block. -/
structure InodesApart (sb : Superblock) (files : Finset Nat) : Prop where
  numbered : ∀ f ∈ files, 1 ≤ f ∧ f ≤ sb.inodesCount
  whole : ∀ f ∈ files, inodeOffset sb f + inodeBytes ≤ blockSize
  table : ∀ f ∈ files, inodeBlock sb f ≠ 0 ∧
    ∀ g, g < sb.blockGroupNr → inodeBlock sb f ≠ bitmapBlock sb g
  apart : ∀ f ∈ files, ∀ g ∈ files, f ≠ g → inodeBlock sb f ≠ inodeBlock sb g ∨
    inodeOffset sb f + inodeBytes ≤ inodeOffset sb g ∨
    inodeOffset sb g + inodeBytes ≤ inodeOffset sb f

/-- A device in order, for the given inodes of its files. -/
structure Owning (mp : Mount) (files : Finset Nat) (inodes : Nat → Bytes) : Prop where
  layout : Layout mp.sb
  fits : mp.sb.freeBlocks < 2 ^ 32
  metadata : ∀ b, IsMetadata mp.sb b → InUse mp b
  table : InodesApart mp.sb files
  separated : Separated mp files inodes

/-- Only free blocks were put to use between the two mounts, and the inodes on the device
are what they were. -/
structure Extends (files : Finset Nat) (mp mp' : Mount) : Prop where
  sb : ∃ k, mp'.sb = { mp.sb with freeBlocks := k }
  keeps : ∀ b, InUse mp b → InUse mp' b
  table : ∀ f ∈ files, mp'.blocks (inodeBlock mp.sb f) = mp.blocks (inodeBlock mp.sb f)

/-! ### Pointers -/

section Pointers

variable {mp mp' : Mount} {inode inode' : Bytes} {s t b j : Nat}

theorem pointer_direct (hs : s < 12) : pointer mp inode s = direct inode s := if_pos hs

theorem pointer_entry (hj : j < blockSize / 4) (hind : indirect inode ≠ 0) :
    pointer mp inode (12 + j) = entry (mp.blocks (indirect inode)) j := by
  have hlow : ¬ 12 + j < 12 := Nat.not_lt.mpr (Nat.le_add_right 12 j)
  have hhigh : 12 + j < dataSlots := Nat.add_lt_add_left hj 12
  rw [pointer, if_neg hlow, if_pos hhigh, if_neg hind, Nat.add_sub_cancel_left]

theorem pointer_entry_zero (hj : j < blockSize / 4) (hind : indirect inode = 0) :
    pointer mp inode (12 + j) = 0 := by
  have hlow : ¬ 12 + j < 12 := Nat.not_lt.mpr (Nat.le_add_right 12 j)
  have hhigh : 12 + j < dataSlots := Nat.add_lt_add_left hj 12
  rw [pointer, if_neg hlow, if_pos hhigh, if_pos hind]

theorem pointer_indirect : pointer mp inode dataSlots = indirect inode := by
  have hlow : ¬ dataSlots < 12 := by decide
  rw [pointer, if_neg hlow, if_neg (Nat.lt_irrefl _)]

/-- A slot is a direct pointer, an entry of the indirect block, or that block. -/
theorem slot_cases (hs : s ≤ dataSlots) :
    s < 12 ∨ (∃ j, j < blockSize / 4 ∧ s = 12 + j) ∨ s = dataSlots := by
  rcases Nat.lt_or_ge s 12 with hlt | hge
  · exact .inl hlt
  · obtain ⟨j, rfl⟩ := Nat.exists_eq_add_of_le hge
    rcases Nat.lt_or_eq_of_le hs with hlt | heq
    · exact .inr (.inl ⟨j, Nat.lt_of_add_lt_add_left hlt, rfl⟩)
    · exact .inr (.inr heq)

/-- The pointers read the inode and the indirect block. -/
theorem pointer_congr (hdirect : ∀ k, k < 12 → direct inode' k = direct inode k)
    (hindirect : indirect inode' = indirect inode)
    (hblock : indirect inode ≠ 0 → mp'.blocks (indirect inode) = mp.blocks (indirect inode))
    (s : Nat) : pointer mp' inode' s = pointer mp inode s := by
  unfold pointer
  rw [hindirect]
  split
  · rename_i hs
    exact hdirect s hs
  · split
    · split
      · rfl
      · rename_i hind
        rw [hblock hind]
    · rfl

theorem pointer_of_agree (h : Agree inode inode' 0 inodeBytes) (s : Nat) :
    pointer mp inode' s = pointer mp inode s :=
  pointer_congr (fun k hk => readWord_congr (h.part (Nat.zero_le _) (by
      unfold directOffset inodeBytes
      omega)))
    (readWord_congr (h.part (Nat.zero_le _) (by decide))) (fun _ => rfl) s

theorem pointer_setFileSize (n s : Nat) :
    pointer mp (setFileSize inode n) s = pointer mp inode s :=
  pointer_congr (fun k _ => readWord_writeWord_of_apart (.inr (by
      unfold sizeOffset directOffset
      omega)))
    (readWord_writeWord_of_apart (.inr (by decide))) (fun _ => rfl) s

theorem pointer_setMtime (n s : Nat) : pointer mp (setMtime inode n) s = pointer mp inode s :=
  pointer_congr (fun k _ => readWord_writeWord_of_apart (.inr (by
      unfold mtimeOffset directOffset
      omega)))
    (readWord_writeWord_of_apart (.inr (by decide))) (fun _ => rfl) s

/-- A direct pointer is written. -/
theorem pointer_setDirect (hb : b < 2 ^ 32) (ht : t < 12) (s : Nat) :
    pointer mp (setDirect inode t b) s = if s = t then b else pointer mp inode s := by
  have hself : direct (setDirect inode t b) t = b := readWord_writeWord_self hb
  have hothers : ∀ k, k ≠ t → direct (setDirect inode t b) k = direct inode k := fun k hk =>
    readWord_writeWord_of_apart (by omega)
  have hindirect : indirect (setDirect inode t b) = indirect inode :=
    readWord_writeWord_of_apart (.inr (by
      unfold directOffset indirectOffset
      omega))
  unfold pointer
  rw [hindirect]
  by_cases hst : s = t
  · subst hst
    rw [if_pos ht, if_pos rfl, hself]
  · rw [if_neg hst, hothers s hst]

theorem indirect_setIndirect (hb : b < 2 ^ 32) : indirect (setIndirect inode b) = b :=
  readWord_writeWord_self hb

theorem direct_setIndirect (b : Nat) {k : Nat} (hk : k < 12) :
    direct (setIndirect inode b) k = direct inode k :=
  readWord_writeWord_of_apart (.inl (by
    unfold directOffset indirectOffset
    omega))

/-- An absent indirect block stays absent. -/
theorem pointer_setIndirect_zero (habsent : indirect inode = 0) (s : Nat) :
    pointer mp (setIndirect inode 0) s = pointer mp inode s :=
  pointer_congr (fun _ hk => direct_setIndirect 0 hk)
    ((indirect_setIndirect (by decide)).trans habsent.symm) (fun hind => absurd habsent hind) s

/-- The pointer to the indirect block is written: its entries become pointers. -/
theorem pointer_setIndirect (hb : b < 2 ^ 32) (hzero : b ≠ 0)
    (hblank : ∀ j, j < blockSize / 4 → entry (mp.blocks b) j = 0) (habsent : indirect inode = 0)
    (hs : s ≤ dataSlots) :
    pointer mp (setIndirect inode b) s = if s = dataSlots then b else pointer mp inode s := by
  have hself : indirect (setIndirect inode b) = b := indirect_setIndirect hb
  rcases slot_cases hs with hlt | ⟨j, hj, rfl⟩ | rfl
  · have hne : s ≠ dataSlots := Nat.ne_of_lt (hlt.trans (by decide))
    rw [if_neg hne, pointer_direct hlt, pointer_direct hlt, direct_setIndirect b hlt]
  · have hne : 12 + j ≠ dataSlots := Nat.ne_of_lt (Nat.add_lt_add_left hj 12)
    have hind : indirect (setIndirect inode b) ≠ 0 := by rwa [hself]
    rw [if_neg hne, pointer_entry hj hind, hself, hblank j hj, pointer_entry_zero hj habsent]
  · rw [if_pos rfl, pointer_indirect, hself]

/-- An entry of the indirect block is written. -/
theorem pointer_setEntry (hb : b < 2 ^ 32) (hj : j < blockSize / 4) (hind : indirect inode ≠ 0)
    (hs : s ≤ dataSlots) :
    pointer (mp.write (indirect inode) (setEntry (mp.blocks (indirect inode)) j b)) inode s =
      if s = 12 + j then b else pointer mp inode s := by
  have hself : entry (setEntry (mp.blocks (indirect inode)) j b) j = b :=
    readWord_writeWord_self hb
  have hothers : ∀ k, k ≠ j → entry (setEntry (mp.blocks (indirect inode)) j b) k =
      entry (mp.blocks (indirect inode)) k := fun k hk => readWord_writeWord_of_apart (by omega)
  have hblock : (mp.write (indirect inode) (setEntry (mp.blocks (indirect inode)) j b)).blocks
      (indirect inode) = setEntry (mp.blocks (indirect inode)) j b := Function.update_self ..
  rcases slot_cases hs with hlt | ⟨k, hk, rfl⟩ | rfl
  · have hne : s ≠ 12 + j := Nat.ne_of_lt (Nat.lt_of_lt_of_le hlt (Nat.le_add_right 12 j))
    rw [if_neg hne, pointer_direct hlt, pointer_direct hlt]
  · rw [pointer_entry hk hind, hblock]
    by_cases hkj : k = j
    · rw [hkj, hself, if_pos rfl]
    · have hne : 12 + k ≠ 12 + j := fun e => hkj (Nat.add_left_cancel e)
      rw [hothers k hkj, if_neg hne, pointer_entry hk hind]
  · have hne : dataSlots ≠ 12 + j := Nat.ne_of_gt (Nat.add_lt_add_left hj 12)
    rw [if_neg hne, pointer_indirect, pointer_indirect]

end Pointers

/-! ### The device under a write -/

section Device

variable {mp mp' mp'' : Mount} {files : Finset Nat} {n c : Nat} {x : Bytes}

theorem Extends.refl (files : Finset Nat) (mp : Mount) : Extends files mp mp :=
  ⟨⟨mp.sb.freeBlocks, rfl⟩, fun _ h => h, fun _ _ => rfl⟩

theorem inodeBlock_withFree (sb : Superblock) (k f : Nat) :
    inodeBlock { sb with freeBlocks := k } f = inodeBlock sb f := rfl

theorem isMetadata_withFree (sb : Superblock) (k b : Nat) :
    IsMetadata { sb with freeBlocks := k } b ↔ IsMetadata sb b := Iff.rfl

theorem Extends.isMetadata (h : Extends files mp mp') (b : Nat) :
    IsMetadata mp'.sb b ↔ IsMetadata mp.sb b := by
  obtain ⟨k, hk⟩ := h.sb
  rw [hk, isMetadata_withFree]

theorem Extends.dataBlock (h : Extends files mp mp') (b : Nat) (hdata : DataBlock mp b) :
    DataBlock mp' b :=
  ⟨h.keeps b hdata.1, fun hm => hdata.2 ((h.isMetadata b).mp hm)⟩

theorem Extends.trans (h : Extends files mp mp') (h' : Extends files mp' mp'') :
    Extends files mp mp'' := by
  obtain ⟨k, hk⟩ := h.sb
  obtain ⟨k', hk'⟩ := h'.sb
  refine ⟨⟨k', by rw [hk', hk]⟩, fun b hb => h'.keeps b (h.keeps b hb), fun f hf => ?_⟩
  have htable := h'.table f hf
  rw [hk, inodeBlock_withFree] at htable
  exact htable.trans (h.table f hf)

theorem Extends.readInode (h : Extends files mp mp') {f : Nat} (hf : f ∈ files) :
    readInode mp' f = readInode mp f := by
  obtain ⟨k, hk⟩ := h.sb
  have htable := h.table f hf
  funext j
  show mp'.blocks (inodeBlock mp'.sb f) (inodeOffset mp'.sb f + j) = _
  rw [hk, inodeBlock_withFree, htable]
  rfl

/-- A block that is no metadata is not a bitmap. -/
theorem bitmapBlock_ne (hn : ¬ IsMetadata mp.sb n) :
    ∀ g, g < mp.sb.blockGroupNr → bitmapBlock mp.sb g ≠ n :=
  fun g hg e => hn (.inr (.inl ⟨g, hg, e.symm⟩))

section Write

variable (hn : ∀ g, g < mp.sb.blockGroupNr → bitmapBlock mp.sb g ≠ n)

include hn

theorem used_write (hc : c < mp.sb.blockGroupNr * mp.sb.blocksPerGroup) :
    used (mp.write n x) c = used mp c := by
  have hblock : (mp.write n x).blocks (bitmapBlock mp.sb (c / mp.sb.blocksPerGroup)) =
      mp.blocks (bitmapBlock mp.sb (c / mp.sb.blocksPerGroup)) :=
    Function.update_of_ne (hn _ (group_lt hc)) ..
  have hbits : used (mp.write n x) c =
      bitAt ((mp.write n x).blocks (bitmapBlock mp.sb (c / mp.sb.blocksPerGroup)))
        (c % mp.sb.blocksPerGroup) := rfl
  rw [hbits, hblock]
  rfl

theorem freeList_write : freeList (mp.write n x) = freeList mp :=
  List.filter_congr fun c hc => by rw [used_write hn (List.mem_range.mp hc)]

theorem handedOut_write (k : Nat) : handedOut (mp.write n x) k = handedOut mp k := by
  rw [handedOut, freeList_write hn]
  rfl

theorem inUse_write (hlayout : Layout mp.sb) : InUse (mp.write n x) c ↔ InUse mp c := by
  apply and_congr_right
  intro hc
  rw [used_write hn (hlayout.count ▸ hc)]

end Write

theorem extends_write (hlayout : Layout mp.sb) (htable : InodesApart mp.sb files)
    (hn : ¬ IsMetadata mp.sb n) : Extends files mp (mp.write n x) where
  sb := ⟨mp.sb.freeBlocks, rfl⟩
  keeps _ hc := (inUse_write (bitmapBlock_ne hn) hlayout).mpr hc
  table f hf := by
    refine Function.update_of_ne (fun e => hn (.inr (.inr ⟨f, ?_⟩))) ..
    obtain ⟨hlow, hhigh⟩ := htable.numbered f hf
    exact ⟨hlow, hhigh, e.symm⟩

theorem extends_takeBlock (image : Superblock → Bytes) (hlayout : Layout mp.sb)
    (htable : InodesApart mp.sb files) (hn : n < mp.sb.blockGroupNr * mp.sb.blocksPerGroup) :
    Extends files mp (takeBlock image mp n) where
  sb := ⟨_, rebit_sb⟩
  keeps c hc := (inUse_takeBlock hlayout hn).mpr (.inr hc)
  table f hf := by
    obtain ⟨hzero, hbitmap⟩ := htable.table f hf
    exact rebit_blocks_of_ne hzero (hbitmap _ (group_lt hn))

end Device

/-! ### Changes that keep the files apart -/

section Changes

variable {mp mp' : Mount} {files : Finset Nat} {inodes inodes' : Nat → Bytes} {f s b j : Nat}

/-- A block in use that no file points to. -/
structure Fresh (mp : Mount) (files : Finset Nat) (inodes : Nat → Bytes) (b : Nat) : Prop where
  data : DataBlock mp b
  unowned : ∀ f ∈ files, ∀ s, s ≤ dataSlots → pointer mp (inodes f) s ≠ b

/-- The pointers are what they were. -/
theorem Separated.congr (h : Separated mp files inodes)
    (keeps : ∀ b, DataBlock mp b → DataBlock mp' b)
    (same : ∀ f ∈ files, ∀ s, s ≤ dataSlots →
      pointer mp' (inodes' f) s = pointer mp (inodes f) s) : Separated mp' files inodes' where
  owned f hf s hs hne := by
    rw [same f hf s hs] at hne ⊢
    exact keeps _ (h.owned f hf s hs hne)
  apart f hf g hg s t hs ht hne heq := by
    rw [same f hf s hs] at hne heq
    rw [same g hg t ht] at heq
    exact h.apart f hf g hg s t hs ht hne heq

/-- One pointer is written, with a block that was unowned. -/
theorem Separated.assign (h : Separated mp files inodes)
    (keeps : ∀ b, DataBlock mp b → DataBlock mp' b)
    (fresh : Fresh mp files inodes b)
    (same : ∀ g ∈ files, ∀ t, t ≤ dataSlots →
      pointer mp' (inodes' g) t = if g = f ∧ t = s then b else pointer mp (inodes g) t) :
    Separated mp' files inodes' where
  owned g hg t ht hne := by
    rw [same g hg t ht] at hne ⊢
    split at hne
    · rename_i hhere
      rw [if_pos hhere]
      exact keeps _ fresh.data
    · rename_i hthere
      rw [if_neg hthere]
      exact keeps _ (h.owned g hg t ht hne)
  apart g hg g' hg' t t' ht ht' hne heq := by
    rw [same g hg t ht] at hne heq
    rw [same g' hg' t' ht'] at heq
    by_cases hhere : g = f ∧ t = s
    · rw [if_pos hhere] at heq
      by_cases hhere' : g' = f ∧ t' = s
      · exact ⟨hhere.1.trans hhere'.1.symm, hhere.2.trans hhere'.2.symm⟩
      · rw [if_neg hhere'] at heq
        exact absurd heq.symm (fresh.unowned g' hg' t' ht')
    · rw [if_neg hhere] at hne heq
      by_cases hhere' : g' = f ∧ t' = s
      · rw [if_pos hhere'] at heq
        exact absurd heq (fresh.unowned g hg t ht)
      · rw [if_neg hhere'] at heq
        exact h.apart g hg g' hg' t t' ht ht' hne heq

theorem Owning.extend (h : Owning mp files inodes) (hext : Extends files mp mp')
    (fits : mp'.sb.freeBlocks < 2 ^ 32) (separated : Separated mp' files inodes') :
    Owning mp' files inodes' where
  layout := by
    obtain ⟨k, hk⟩ := hext.sb
    rw [hk]
    exact h.layout.withFree k
  fits := fits
  metadata c hc := hext.keeps c (h.metadata c ((hext.isMetadata c).mp hc))
  table := by
    obtain ⟨k, hk⟩ := hext.sb
    rw [hk]
    exact ⟨h.table.numbered, h.table.whole, h.table.table, h.table.apart⟩
  separated := separated

theorem DataBlock.lt (h : DataBlock mp b) (hlayout : Layout mp.sb) : b < 2 ^ 32 :=
  h.1.1.trans hlayout.noWrap

theorem DataBlock.ne_zero (h : DataBlock mp b) : b ≠ 0 := fun e => h.2 (.inl e)

theorem Owning.indirect_data (h : Owning mp files inodes) (hf : f ∈ files)
    (hind : indirect (inodes f) ≠ 0) : DataBlock mp (indirect (inodes f)) := by
  have howned := h.separated.owned f hf dataSlots (Nat.le_refl _)
  rw [pointer_indirect] at howned
  exact howned hind

/-- Handing a block out writes no pointer. -/
theorem Owning.pointer_takeBlock (image : Superblock → Bytes) (h : Owning mp files inodes)
    (hf : f ∈ files) (hb : b < mp.sb.blockGroupNr * mp.sb.blocksPerGroup) (s : Nat) :
    pointer (takeBlock image mp b) (inodes f) s = pointer mp (inodes f) s :=
  pointer_congr (fun _ _ => rfl) rfl (fun hind => by
    have hmeta := (h.indirect_data hf hind).2
    exact rebit_blocks_of_ne (fun e => hmeta (.inl e)) fun e =>
      hmeta (.inr (.inl ⟨_, group_lt hb, e⟩))) s

/-- A free block is no metadata. -/
theorem Owning.not_metadata (h : Owning mp files inodes) (hb : ¬ InUse mp b) :
    ¬ IsMetadata mp.sb b :=
  fun hm => hb (h.metadata b hm)

/-- **A block is handed out.** No pointer changes, and no file points to the block. -/
theorem Owning.take (image : Superblock → Bytes) (h : Owning mp files inodes)
    (hout : handedOut mp 0 = some b) :
    Owning (takeBlock image mp b) files inodes ∧ Fresh (takeBlock image mp b) files inodes b := by
  obtain ⟨hb, hfree⟩ := handedOut_zero hout
  have hnot : ¬ InUse mp b := fun huse => by
    rw [huse.2] at hfree
    cases hfree
  have hext := extends_takeBlock image h.layout h.table hb
  have hsame : ∀ f ∈ files, ∀ s, s ≤ dataSlots →
      pointer (takeBlock image mp b) (inodes f) s = pointer mp (inodes f) s := fun f hf s _ =>
    h.pointer_takeBlock image hf hb s
  refine ⟨h.extend hext (wrap32_lt _) (h.separated.congr hext.dataBlock hsame), ⟨⟨?_, ?_⟩,
    ?_⟩⟩
  · exact (inUse_takeBlock h.layout hb).mpr (.inl rfl)
  · exact fun hm => h.not_metadata hnot ((hext.isMetadata b).mp hm)
  · intro f hf s hs
    rw [hsame f hf s hs]
    rintro rfl
    by_cases hzero : pointer mp (inodes f) s = 0
    · exact hnot (hzero ▸ h.metadata 0 (.inl rfl))
    · exact hnot (h.separated.owned f hf s hs hzero).1

/-- **A direct pointer** gets a fresh block. -/
theorem Owning.putDirect (h : Owning mp files inodes) (fresh : Fresh mp files inodes b)
    (hs : s < 12) :
    Owning mp files (Function.update inodes f (setDirect (inodes f) s b)) := by
  refine h.extend (.refl files mp) h.fits
    (h.separated.assign (f := f) (s := s) (fun _ hdata => hdata) fresh ?_)
  intro g _ t _
  by_cases hgf : g = f
  · subst hgf
    rw [Function.update_self, pointer_setDirect (fresh.data.lt h.layout) hs]
    simp
  · rw [Function.update_of_ne hgf]
    simp [hgf]

/-- **The pointer to the indirect block** gets a fresh block that holds zeros. -/
theorem Owning.putIndirect (h : Owning mp files inodes) (fresh : Fresh mp files inodes b)
    (absent : indirect (inodes f) = 0)
    (blank : ∀ j, j < blockSize / 4 → entry (mp.blocks b) j = 0) :
    Owning mp files (Function.update inodes f (setIndirect (inodes f) b)) := by
  refine h.extend (.refl files mp) h.fits
    (h.separated.assign (f := f) (s := dataSlots) (fun _ hdata => hdata) fresh ?_)
  intro g _ t ht
  by_cases hgf : g = f
  · subst hgf
    rw [Function.update_self,
      pointer_setIndirect (fresh.data.lt h.layout) fresh.data.ne_zero blank absent ht]
    simp
  · rw [Function.update_of_ne hgf]
    simp [hgf]

/-- **An entry of the indirect block** gets a fresh block. -/
theorem Owning.putEntry (h : Owning mp files inodes) (fresh : Fresh mp files inodes b)
    (hf : f ∈ files) (hj : j < blockSize / 4) (hind : indirect (inodes f) ≠ 0) :
    Owning
      (mp.write (indirect (inodes f)) (setEntry (mp.blocks (indirect (inodes f))) j b))
      files inodes := by
  have hdata := h.indirect_data hf hind
  have hext := extends_write (x := setEntry (mp.blocks (indirect (inodes f))) j b) h.layout h.table
    hdata.2
  refine h.extend hext h.fits
    (h.separated.assign (f := f) (s := 12 + j) hext.dataBlock fresh ?_)
  intro g hg t ht
  by_cases hgf : g = f
  · subst hgf
    rw [pointer_setEntry (fresh.data.lt h.layout) hj hind ht]
    simp
  · rw [if_neg fun hboth => hgf hboth.1]
    refine pointer_congr (fun _ _ => rfl) rfl (fun hg' => Function.update_of_ne (fun e => ?_) ..) t
    -- Two files with one indirect block are one file.
    have hslots := h.separated.apart f hf g hg dataSlots dataSlots (Nat.le_refl _) (Nat.le_refl _)
    rw [pointer_indirect, pointer_indirect] at hslots
    exact hgf (hslots hind e.symm).1.symm

/-- Storing into a data block writes no pointer. -/
theorem Owning.pointer_store (h : Owning mp files inodes) (hf : f ∈ files) (hs : s < dataSlots)
    (hpointer : pointer mp (inodes f) s ≠ 0) (x : Bytes) {g : Nat} (hg : g ∈ files) (t : Nat) :
    pointer (mp.write (pointer mp (inodes f) s) x) (inodes g) t = pointer mp (inodes g) t := by
  refine pointer_congr (fun _ _ => rfl) rfl (fun _ => Function.update_of_ne ?_ ..) t
  intro e
  have hslots := h.separated.apart f hf g hg s dataSlots (Nat.le_of_lt hs) (Nat.le_refl _) hpointer
  rw [pointer_indirect] at hslots
  exact absurd (hslots e.symm).2 (Nat.ne_of_lt hs)

/-- **Data** goes to a block of a file. -/
theorem Owning.store (h : Owning mp files inodes) (hf : f ∈ files) (hs : s < dataSlots)
    (hpointer : pointer mp (inodes f) s ≠ 0) (x : Bytes) :
    Owning (mp.write (pointer mp (inodes f) s) x) files inodes := by
  have hdata := h.separated.owned f hf s (Nat.le_of_lt hs) hpointer
  have hext := extends_write (x := x) h.layout h.table hdata.2
  exact h.extend hext h.fits (h.separated.congr hext.dataBlock fun g hg t _ =>
    h.pointer_store hf hs hpointer x hg t)

/-- A byte of an inode when another, or the same, was written. -/
theorem readInode_writeInode (mp : Mount) (inode : Bytes) (f g j : Nat) :
    readInode (writeInode mp f inode) g j =
      if inodeBlock mp.sb g = inodeBlock mp.sb f ∧ inodeOffset mp.sb f ≤ inodeOffset mp.sb g + j ∧
          inodeOffset mp.sb g + j < inodeOffset mp.sb f + inodeBytes then
        inode (inodeOffset mp.sb g + j - inodeOffset mp.sb f)
      else readInode mp g j := by
  unfold readInode writeInode Mount.write
  by_cases hblock : inodeBlock mp.sb g = inodeBlock mp.sb f
  · simp only [hblock, Function.update_self, true_and]
  · simp only [hblock, Function.update_of_ne, ne_eq, not_false_eq_true, false_and, if_false]

/-- What `write_inode` leaves where an inode of a file stands. -/
theorem InodesApart.agree_writeInode (h : InodesApart mp.sb files) (hf : f ∈ files)
    (inode : Bytes) {g : Nat} (hg : g ∈ files) :
    Agree (if g = f then inode else readInode mp g) (readInode (writeInode mp f inode) g) 0
      inodeBytes := by
  intro j _ hj
  rw [Nat.zero_add] at hj
  rw [readInode_writeInode]
  by_cases hgf : g = f
  · rw [hgf, if_pos ⟨rfl, Nat.le_add_right _ _, Nat.add_lt_add_left hj _⟩, if_pos rfl,
      Nat.add_sub_cancel_left]
  · rw [if_neg hgf, if_neg]
    rintro ⟨hblock, hlow, hhigh⟩
    rcases h.apart g hg f hf hgf with hne | hbefore | hafter
    · exact hne hblock
    · omega
    · omega

/-- **The inode** is written back. -/
theorem Owning.writeBack (h : Owning mp files inodes) (hf : f ∈ files)
    (others : ∀ g ∈ files, g ≠ f → inodes g = readInode mp g) :
    Owning (writeInode mp f (inodes f)) files (readInode (writeInode mp f (inodes f))) ∧
      ∀ g ∈ files, ∀ s, pointer (writeInode mp f (inodes f))
        (readInode (writeInode mp f (inodes f)) g) s = pointer mp (inodes g) s := by
  have hmeta : IsMetadata mp.sb (inodeBlock mp.sb f) := by
    obtain ⟨hlow, hhigh⟩ := h.table.numbered f hf
    exact .inr (.inr ⟨f, hlow, hhigh, rfl⟩)
  have hbitmaps : ∀ g, g < mp.sb.blockGroupNr → bitmapBlock mp.sb g ≠ inodeBlock mp.sb f :=
    fun g hg => ((h.table.table f hf).2 g hg).symm
  have huse : ∀ b, InUse (writeInode mp f (inodes f)) b ↔ InUse mp b := fun b =>
    inUse_write hbitmaps h.layout
  have hpointers : ∀ g ∈ files, ∀ s, pointer (writeInode mp f (inodes f))
      (readInode (writeInode mp f (inodes f)) g) s = pointer mp (inodes g) s := by
    intro g hg s
    have hinode : (if g = f then inodes f else readInode mp g) = inodes g := by
      split
      · rename_i hgf
        rw [hgf]
      · rename_i hgf
        exact (others g hg hgf).symm
    have hagree := h.table.agree_writeInode hf (inodes f) hg
    rw [hinode] at hagree
    rw [pointer_of_agree hagree]
    refine pointer_congr (fun _ _ => rfl) rfl (fun hind => Function.update_of_ne ?_ ..) s
    intro e
    exact (h.indirect_data hg hind).2 (e ▸ hmeta)
  refine ⟨⟨h.layout, h.fits, fun b hb => (huse b).mpr (h.metadata b hb), h.table, ?_⟩, hpointers⟩
  exact h.separated.congr (fun b hb => ⟨(huse b).mpr hb.1, hb.2⟩) fun g hg s _ => hpointers g hg s

end Changes

end ArmKernel.Fs

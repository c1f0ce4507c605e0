/-
The block maps of the reader and of the writer (`src/fs_file.c`: `fs_read`, `fs_write`).

`SameBlock image mp inode n` says that a round of `fs_write` for block `n` of a file stores
into the block that `fs_read` gets for it, and that it allocates what is absent and nothing
else. `sameBlock_iff` gives the blocks for which it does.

`roundStates` lists the states in which the rounds of a call begin; every block that the call
stores into was looked up in one of them (`writeLoop_stored`).
-/
import ArmKernel.Fs.FileRuns
import ArmKernel.Fs.FileRead

namespace ArmKernel.Fs

open ArmKernel.Support

section Maps

variable (image : Superblock → Bytes)

/-- The pointers on the way to a block of the file that are 0, or lie behind one that is. -/
def absent (mp : Mount) (inode : Bytes) (n : Nat) : Nat :=
  if n < 12 then if direct inode n = 0 then 1 else 0
  else if n < dataSlots then
    if indirect inode = 0 then 2
    else if entry (mp.blocks (indirect inode)) (n - 12) = 0 then 1
    else 0
  else
    let index := n - dataSlots
    let table := entry (mp.blocks (doubleIndirect inode)) (index / (blockSize / 4))
    if doubleIndirect inode = 0 then 3
    else if table = 0 then 2
    else if entry (mp.blocks table) (index % (blockSize / 4)) = 0 then 1
    else 0

/-- When a round of `fs_write` finds a block to store into, it is the block `fs_read` gets.
A block that is there is the one `fs_read` got before, and of those on the way that are
absent each is allocated. -/
structure SameBlock (mp : Mount) (inode : Bytes) (n : Nat) : Prop where
  reads : ∀ uninit b mp' inode', dataBlock image mp inode n uninit = (some b, mp', inode') →
    ∀ uninit', readFrom mp' inode' n uninit' = b
  keeps : ∀ uninit b mp' inode', dataBlock image mp inode n uninit = (some b, mp', inode') →
    absent mp inode n = 0 → ∀ uninit', b = readFrom mp inode n uninit'
  allocates : ∀ uninit b mp' inode', dataBlock image mp inode n uninit = (some b, mp', inode') →
    wrap32 (mp'.sb.freeBlocks + absent mp inode n) = wrap32 mp.sb.freeBlocks

/-- The file has no indirect block, and the block that `alloc_block` finds for it holds a word
other than 0 where the pointer to block `n` will be read. -/
def Stale (mp : Mount) (inode : Bytes) (n : Nat) : Prop :=
  12 ≤ n ∧ indirect inode = 0 ∧ (allocBlock image mp).1 ≠ 0 ∧
    entry ((allocBlock image mp).2.blocks (allocBlock image mp).1) (n - 12) ≠ 0

instance (mp : Mount) (inode : Bytes) (n : Nat) : Decidable (Stale image mp inode n) :=
  inferInstanceAs (Decidable (_ ∧ _ ∧ _ ∧ _))

/-- The states in which the rounds of the loop of `fs_write` begin. -/
def roundStates (call : WriteCall) : Nat → Writing → List Writing
  | 0, _ => []
  | rounds + 1, w =>
    if w.written < call.count then
      match dataBlock image w.mp w.inode (w.pos / blockSize) (call.stack.dataBlock w.written) with
      | (none, _, _) => [w]
      | (some b, mp, inode) => w :: roundStates call rounds (storeRound call { w with mp, inode } b)
    else []

/-- The block that a round stores into, if it gets that far. -/
def roundBlock (call : WriteCall) (w : Writing) : Option Nat :=
  (dataBlock image w.mp w.inode (w.pos / blockSize) (call.stack.dataBlock w.written)).1

/-- The states in which the rounds of a call begin. -/
def callRounds (mp : Mount) (call : WriteCall) : List Writing :=
  match openDesc call.descs call.fd with
  | none => []
  | some desc =>
    if call.mounted then
      roundStates image call call.count
        { mp, inode := readInode mp desc.inode, pos := desc.pos, written := 0, stored := [] }
    else []

end Maps

/-! ### What `alloc_block` gives -/

section Alloc

variable {image : Superblock → Bytes} {mp : Mount}

/-- A block that is handed out has a 32-bit number, and one less is free. -/
structure HandsOut (mp : Mount) (b : Nat) (mp' : Mount) : Prop where
  fits : b < 2 ^ 32
  count : wrap32 (mp'.sb.freeBlocks + 1) = wrap32 mp.sb.freeBlocks

theorem wrap32_sub_add (x : Nat) : wrap32 (sub32 x 1 + 1) = wrap32 x := by
  unfold sub32 wrap32
  omega

theorem groupLoop_handsOut (rounds group : Nat) :
    (groupLoop image mp rounds group).1 ≠ 0 →
      HandsOut mp (groupLoop image mp rounds group).1 (groupLoop image mp rounds group).2 := by
  induction rounds generalizing group with
  | zero => exact fun h => absurd rfl h
  | succ rounds ih =>
    unfold groupLoop
    dsimp only
    split
    · exact fun _ => ⟨wrap32_lt _, wrap32_sub_add _⟩
    · exact ih (group + 1)

theorem allocBlock_handsOut (h : (allocBlock image mp).1 ≠ 0) :
    HandsOut mp (allocBlock image mp).1 (allocBlock image mp).2 := by
  unfold allocBlock at h ⊢
  split
  · rename_i hzero
    rw [if_pos hzero] at h
    exact absurd rfl h
  · rename_i hfree
    rw [if_neg hfree] at h
    exact groupLoop_handsOut _ _ h

end Alloc

/-! ### The look-ups -/

section Lookups

variable {image : Superblock → Bytes} {mp mp' : Mount} {inode inode' : Bytes} {n j b uninit : Nat}

theorem direct_setDirect (hb : b < 2 ^ 32) : direct (setDirect inode n b) n = b :=
  readWord_writeWord_self hb

theorem entry_setEntry {block : Bytes} (hb : b < 2 ^ 32) : entry (setEntry block j b) j = b :=
  readWord_writeWord_self hb

theorem write_self (mp : Mount) (b : Nat) (block : Bytes) : (mp.write b block).blocks b = block :=
  Function.update_self ..

/-- What a look-up of the writer says about the word it found: the word was there, or it was 0
and holds a new block. -/
def Resolved (mp mp' : Mount) (before after b : Nat) : Prop :=
  after = b ∧
    (before ≠ 0 ∧ before = b ∧ mp' = mp ∨
      before = 0 ∧ wrap32 (mp'.sb.freeBlocks + 1) = wrap32 mp.sb.freeBlocks)

theorem directBlock_resolved (h : directBlock image mp inode n = (some b, mp', inode')) :
    Resolved mp mp' (direct inode n) (direct inode' n) b := by
  unfold directBlock at h
  split at h
  · rename_i hzero
    dsimp only at h
    split at h
    · cases h
    · rename_i hne
      have hout := allocBlock_handsOut hne
      cases h
      exact ⟨direct_setDirect hout.fits, .inr ⟨hzero, hout.count⟩⟩
  · rename_i hne
    cases h
    exact ⟨rfl, .inl ⟨hne, rfl, rfl⟩⟩

theorem entryBlock_resolved {ind : Nat} (h : entryBlock image mp ind j = (some b, mp')) :
    Resolved mp mp' (entry (mp.blocks ind) j) (entry (mp'.blocks ind) j) b := by
  rw [entryBlock] at h
  split at h
  · rename_i hzero
    dsimp only at h
    split at h
    · cases h
    · rename_i hne
      have hout := allocBlock_handsOut hne
      cases h
      rw [write_self, entry_setEntry hout.fits]
      exact ⟨rfl, .inr ⟨hzero, hout.count⟩⟩
  · rename_i hne
    cases h
    exact ⟨rfl, .inl ⟨hne, rfl, rfl⟩⟩

/-- A look-up behind the indirect block goes through the pointer the inode then has. -/
theorem indirectBlock_entry (h : indirectBlock image mp inode j = (some b, mp', inode')) :
    (indirect inode ≠ 0 ∧ inode' = inode ∧
        entryBlock image mp (indirect inode) j = (some b, mp')) ∨
      (indirect inode = 0 ∧ (allocBlock image mp).1 ≠ 0 ∧
        indirect inode' = (allocBlock image mp).1 ∧
        entryBlock image (allocBlock image mp).2 (allocBlock image mp).1 j = (some b, mp')) := by
  unfold indirectBlock at h
  split at h
  · rename_i hzero
    dsimp only at h
    split at h
    · cases h
    · rename_i hne
      have hfits := (allocBlock_handsOut hne).fits
      rcases hentry : entryBlock image (allocBlock image mp).2 (allocBlock image mp).1 j with
        ⟨found, mp₂⟩
      rw [hentry] at h
      cases h
      exact .inr ⟨hzero, hne, indirect_setIndirect hfits, rfl⟩
  · rename_i hne
    rcases hentry : entryBlock image mp (indirect inode) j with ⟨found, mp₂⟩
    rw [hentry] at h
    cases h
    exact .inl ⟨hne, rfl, rfl⟩

theorem dataBlock_direct (hn : n < 12) (uninit : Nat) :
    dataBlock image mp inode n uninit = directBlock image mp inode n := if_pos hn

theorem dataBlock_entry (hj : j < blockSize / 4) (uninit : Nat) :
    dataBlock image mp inode (12 + j) uninit = indirectBlock image mp inode j := by
  have hlow : ¬ 12 + j < 12 := Nat.not_lt.mpr (Nat.le_add_right 12 j)
  have hhigh : 12 + j < 12 + blockSize / 4 := Nat.add_lt_add_left hj 12
  rw [dataBlock, if_neg hlow, if_pos hhigh, Nat.add_sub_cancel_left]

theorem dataBlock_beyond (hn : dataSlots ≤ n) (uninit : Nat) :
    dataBlock image mp inode n uninit = (some uninit, mp, inode) := by
  have hlow : ¬ n < 12 := Nat.not_lt.mpr (Nat.le_trans (by decide) hn)
  have hhigh : ¬ n < 12 + blockSize / 4 := Nat.not_lt.mpr hn
  rw [dataBlock, if_neg hlow, if_neg hhigh]

theorem readFrom_direct (hn : n < 12) (uninit : Nat) :
    readFrom mp inode n uninit = direct inode n := if_pos hn

theorem readFrom_entry (hj : j < blockSize / 4) (uninit : Nat) :
    readFrom mp inode (12 + j) uninit = entry (mp.blocks (indirect inode)) j := by
  have hlow : ¬ 12 + j < 12 := Nat.not_lt.mpr (Nat.le_add_right 12 j)
  have hhigh : 12 + j < 12 + blockSize / 4 := Nat.add_lt_add_left hj 12
  rw [readFrom, if_neg hlow, if_pos hhigh, Nat.add_sub_cancel_left]

theorem absent_direct (hn : n < 12) :
    absent mp inode n = if direct inode n = 0 then 1 else 0 := if_pos hn

theorem absent_entry (hj : j < blockSize / 4) :
    absent mp inode (12 + j) =
      if indirect inode = 0 then 2
      else if entry (mp.blocks (indirect inode)) j = 0 then 1 else 0 := by
  have hlow : ¬ 12 + j < 12 := Nat.not_lt.mpr (Nat.le_add_right 12 j)
  have hhigh : 12 + j < dataSlots := Nat.add_lt_add_left hj 12
  rw [absent, if_neg hlow, if_pos hhigh, Nat.add_sub_cancel_left]

/-- A word that was there is kept. -/
theorem Resolved.kept {before after : Nat} (h : Resolved mp mp' before after b)
    (hthere : (if before = 0 then 1 else 0) = 0) : b = before := by
  rcases h.2 with ⟨-, rfl, -⟩ | ⟨hzero, -⟩
  · rfl
  · rw [if_pos hzero] at hthere
    cases hthere

/-- One block is allocated for a word that was 0, and none for another. -/
theorem Resolved.allocated {before after : Nat} (h : Resolved mp mp' before after b) :
    wrap32 (mp'.sb.freeBlocks + if before = 0 then 1 else 0) = wrap32 mp.sb.freeBlocks := by
  rcases h.2 with ⟨hne, -, rfl⟩ | ⟨hzero, hcount⟩
  · rw [if_neg hne, Nat.add_zero]
  · rw [if_pos hzero, hcount]

/-! ### Where the maps agree -/

theorem sameBlock_direct (hn : n < 12) : SameBlock image mp inode n where
  reads uninit b mp' inode' h uninit' := by
    rw [dataBlock_direct hn] at h
    rw [readFrom_direct hn]
    exact (directBlock_resolved h).1
  keeps uninit b mp' inode' h hthere uninit' := by
    rw [dataBlock_direct hn] at h
    rw [absent_direct hn] at hthere
    rw [readFrom_direct hn]
    exact (directBlock_resolved h).kept hthere
  allocates uninit b mp' inode' h := by
    rw [dataBlock_direct hn] at h
    rw [absent_direct hn]
    exact (directBlock_resolved h).allocated

theorem sameBlock_entry (hj : j < blockSize / 4) (hind : indirect inode ≠ 0) :
    SameBlock image mp inode (12 + j) := by
  have hlookup : ∀ uninit b mp' inode',
      dataBlock image mp inode (12 + j) uninit = (some b, mp', inode') → inode' = inode ∧
        Resolved mp mp' (entry (mp.blocks (indirect inode)) j)
          (entry (mp'.blocks (indirect inode)) j) b := by
    intro uninit b mp' inode' h
    rw [dataBlock_entry hj] at h
    rcases indirectBlock_entry h with ⟨-, hinode, hentry⟩ | ⟨hzero, -⟩
    · exact ⟨hinode, entryBlock_resolved hentry⟩
    · exact absurd hzero hind
  refine ⟨?_, ?_,
    ?_⟩
  · intro uninit b mp' inode' h uninit'
    obtain ⟨rfl, hresolved⟩ := hlookup _ _ _ _ h
    rw [readFrom_entry hj]
    exact hresolved.1
  · intro uninit b mp' inode' h hthere uninit'
    rw [absent_entry hj, if_neg hind] at hthere
    rw [readFrom_entry hj]
    exact (hlookup _ _ _ _ h).2.kept hthere
  · intro uninit b mp' inode' h
    rw [absent_entry hj, if_neg hind]
    exact (hlookup _ _ _ _ h).2.allocated

/-- A new indirect block: the word it holds decides whether a data block is allocated. -/
theorem sameBlock_fresh (hj : j < blockSize / 4) (hind : indirect inode = 0)
    (hfresh : ¬ Stale image mp inode (12 + j)) : SameBlock image mp inode (12 + j) := by
  have hlookup : ∀ uninit b mp' inode',
      dataBlock image mp inode (12 + j) uninit = (some b, mp', inode') →
        (allocBlock image mp).1 ≠ 0 ∧ indirect inode' = (allocBlock image mp).1 ∧
        Resolved (allocBlock image mp).2 mp'
          (entry ((allocBlock image mp).2.blocks (allocBlock image mp).1) j)
          (entry (mp'.blocks (allocBlock image mp).1) j) b := by
    intro uninit b mp' inode' h
    rw [dataBlock_entry hj] at h
    rcases indirectBlock_entry h with ⟨hne, -⟩ | ⟨-, hne, hinode, hentry⟩
    · exact absurd hind hne
    · exact ⟨hne, hinode, entryBlock_resolved hentry⟩
  refine ⟨?_, ?_,
    ?_⟩
  · intro uninit b mp' inode' h uninit'
    obtain ⟨-, hinode, hresolved⟩ := hlookup _ _ _ _ h
    rw [readFrom_entry hj, hinode]
    exact hresolved.1
  · intro uninit b mp' inode' h hthere uninit'
    rw [absent_entry hj, if_pos hind] at hthere
    cases hthere
  · intro uninit b mp' inode' h
    obtain ⟨hne, -, hresolved⟩ := hlookup _ _ _ _ h
    have hzero : entry ((allocBlock image mp).2.blocks (allocBlock image mp).1) j = 0 := by
      by_contra hword
      refine hfresh ⟨Nat.le_add_right 12 j, hind, hne, ?_⟩
      rwa [Nat.add_sub_cancel_left]
    have htable := (allocBlock_handsOut hne).count
    have hdata := hresolved.allocated
    rw [if_pos hzero] at hdata
    rw [absent_entry hj, if_pos hind]
    unfold wrap32 at *
    omega

/-- The stale word is taken for a pointer, and one block is allocated instead of two. -/
theorem not_sameBlock_stale (hn : n < dataSlots) (hstale : Stale image mp inode n) :
    ¬ SameBlock image mp inode n := by
  intro h
  obtain ⟨hlow, hind, hne, hword⟩ := hstale
  obtain ⟨j, rfl⟩ := Nat.exists_eq_add_of_le hlow
  have hj : j < blockSize / 4 := Nat.lt_of_add_lt_add_left hn
  rw [Nat.add_sub_cancel_left] at hword
  have hlookup : dataBlock image mp inode (12 + j) 0 =
      (some (entry ((allocBlock image mp).2.blocks (allocBlock image mp).1) j),
        (allocBlock image mp).2, setIndirect inode (allocBlock image mp).1) := by
    rw [dataBlock_entry hj, indirectBlock, if_pos hind]
    dsimp only
    rw [if_neg hne, entryBlock, if_neg hword]
  have hcount := h.allocates _ _ _ _ hlookup
  have htable := (allocBlock_handsOut hne).count
  rw [absent_entry hj, if_pos hind] at hcount
  unfold wrap32 at *
  omega

/-- The writer has no map there: it stores into the block whose number the stack holds. -/
theorem not_sameBlock_beyond (hn : dataSlots ≤ n) : ¬ SameBlock image mp inode n := by
  intro h
  have hread := h.reads _ _ _ _ (dataBlock_beyond hn 0) 0
  have hread' := h.reads _ _ _ _ (dataBlock_beyond hn 1) 0
  rw [hread] at hread'
  cases hread'

theorem sameBlock_iff (image : Superblock → Bytes) (mp : Mount) (inode : Bytes) (n : Nat) :
    SameBlock image mp inode n ↔ n < dataSlots ∧ ¬ Stale image mp inode n := by
  constructor
  · intro h
    have hn : n < dataSlots := Nat.lt_of_not_le fun hge => not_sameBlock_beyond hge h
    exact ⟨hn, fun hstale => not_sameBlock_stale hn hstale h⟩
  · rintro ⟨hn, hfresh⟩
    rcases Nat.lt_or_ge n 12 with hlow | hhigh
    · exact sameBlock_direct hlow
    · obtain ⟨j, rfl⟩ := Nat.exists_eq_add_of_le hhigh
      have hj : j < blockSize / 4 := Nat.lt_of_add_lt_add_left hn
      by_cases hind : indirect inode = 0
      · exact sameBlock_fresh hj hind hfresh
      · exact sameBlock_entry hj hind

end Lookups

/-! ### The rounds of a call -/

section Rounds

variable {image : Superblock → Bytes} {call : WriteCall}

/-- Each block that the loop stores into was looked up in the state its round began in. -/
theorem writeLoop_stored (rounds : Nat) {w w' : Writing}
    (h : writeLoop image call rounds w = some w') :
    w'.stored =
      ((roundStates image call rounds w).filterMap (roundBlock image call)).reverse ++ w.stored := by
  induction rounds generalizing w with
  | zero =>
    unfold writeLoop at h
    split at h
    · cases h
    · cases h
      rfl
  | succ rounds ih =>
    unfold writeLoop at h
    unfold roundStates
    split at h
    · rename_i hlt
      rw [if_pos hlt]
      dsimp only at h
      rcases hlookup : dataBlock image w.mp w.inode (w.pos / blockSize)
        (call.stack.dataBlock w.written) with ⟨_ | b, mp, inode⟩
      · rw [hlookup] at h
        cases h
        simp [roundBlock, hlookup]
      · rw [hlookup] at h
        dsimp only at h ⊢
        rw [ih h, List.filterMap_cons_some (show roundBlock image call w = some b by
          rw [roundBlock, hlookup]), List.reverse_cons, List.append_assoc]
        rfl
    · rename_i hnot
      cases h
      rw [if_neg hnot]
      rfl

/-- **Block maps.** For every file block the writer's map is the reader's exactly below the
doubly indirect block, a stale word in a new indirect block apart, and a call stores into the
blocks that its rounds look up and into no other. -/
theorem fs_write_block_map (image : Superblock → Bytes) :
    (∀ mp inode n, SameBlock image mp inode n ↔ n < dataSlots ∧ ¬ Stale image mp inode n) ∧
      ∀ mp call r, fsWrite image mp call = some r →
        r.stored.reverse = (callRounds image mp call).filterMap (roundBlock image call) := by
  refine ⟨sameBlock_iff image, ?_⟩
  intro mp call r h
  unfold fsWrite at h
  unfold callRounds
  cases hopen : openDesc call.descs call.fd with
  | none =>
    simp only [hopen] at h ⊢
    cases h
    rfl
  | some desc =>
    simp only [hopen] at h ⊢
    cases hmounted : call.mounted
    · rw [hmounted] at h
      cases h
      rfl
    · rw [hmounted] at h
      obtain ⟨w, hloop, rfl⟩ := Option.map_eq_some_iff.mp h
      dsimp only
      rw [writeLoop_stored _ hloop, List.append_nil, List.reverse_reverse]
      rfl

/-- One byte at the 12th block of file 1: an indirect block and its first entry are allocated. -/
theorem fs_write_block_map_tiny :
    (SameBlock (fun _ _ => 0#8) (tinyMount fun _ => 0#8) (readInode (tinyMount fun _ => 0#8) 1) 12 ↔
        12 < dataSlots ∧ ¬ Stale (fun _ _ => 0#8) (tinyMount fun _ => 0#8)
          (readInode (tinyMount fun _ => 0#8) 1) 12) ∧
      ∃ r, fsWrite (fun _ _ => 0#8) (tinyMount fun _ => 0#8) (tinyCall 0).toWriteCall = some r ∧
        r.stored.reverse =
          (callRounds (fun _ _ => 0#8) (tinyMount fun _ => 0#8) (tinyCall 0).toWriteCall).filterMap
            (roundBlock (fun _ _ => 0#8) (tinyCall 0).toWriteCall) := by
  obtain ⟨r, hr⟩ := fsWrite_total (fun _ _ => 0#8) (tinyMount fun _ => 0#8) (tinyCall 0).fits
  exact ⟨(fs_write_block_map _).1 _ _ 12, r, hr, (fs_write_block_map _).2 _ _ r hr⟩

/-- Block 1036 of file 1 is the first one behind the indirect block. The writer stores into
block 3, which the stack holds and file 2 has; the reader gets block 0. -/
theorem doubly_indirect_block_astray :
    (fsWrite (fun _ _ => 0#8) (tinyMount fun _ => 0#8) (tinyCall 2).toWriteCall).map (fun r =>
        (r.stored, readFrom r.mp (readInode r.mp 1) dataSlots 3)) = some ([3], 0) ∧
      ¬ ∀ mp inode n, n < 12 + blockSize / 4 + blockSize / 4 * (blockSize / 4) →
        SameBlock (fun _ _ => 0#8) mp inode n :=
  ⟨by decide +kernel, fun h => not_sameBlock_beyond (Nat.le_refl dataSlots)
    (h (tinyMount fun _ => 0#8) (readInode (tinyMount fun _ => 0#8) 1) dataSlots (by decide))⟩

end Rounds

end ArmKernel.Fs

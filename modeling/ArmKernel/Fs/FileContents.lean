/-
What a write does to the contents of the files.

A round of `fs_write` puts its bytes into one data block of the file; the block it may
allocate, the indirect block and the metadata hold no data of any file. So the byte at every
other position of every file stays (`round_bytes`, `round_others`). `Filled` is the loop
invariant: the file holds the first bytes of the caller from the start of the write on, and
what it held elsewhere.
-/
import ArmKernel.Fs.FileLoop
import ArmKernel.Fs.FileRead

namespace ArmKernel.Fs

open ArmKernel.Support

variable {mp mp' : Mount} {files : Finset Nat} {inodes : Nat → Bytes} {inode inode' : Bytes}
  {f g s t n j b c : Nat}

/-! ### Blocks that are apart -/

theorem pointer_self_data (h : Owning mp files (Function.update inodes f inode)) (hf : f ∈ files)
    (hs : s ≤ dataSlots) (hne : pointer mp inode s ≠ 0) : DataBlock mp (pointer mp inode s) := by
  have howned := h.separated.owned f hf s hs
  rw [Function.update_self] at howned
  exact howned hne

theorem pointer_other_data (h : Owning mp files (Function.update inodes f inode)) (hg : g ∈ files)
    (hgf : g ≠ f) (hs : s ≤ dataSlots) (hne : pointer mp (inodes g) s ≠ 0) :
    DataBlock mp (pointer mp (inodes g) s) := by
  have howned := h.separated.owned g hg s hs
  rw [Function.update_of_ne hgf] at howned
  exact howned hne

/-- A file that grows takes no block of another file. -/
theorem Kept.apart_other (h : Kept files inodes f mp inode mp' inode')
    (howning : Owning mp files (Function.update inodes f inode)) (hf : f ∈ files) (hg : g ∈ files)
    (hgf : g ≠ f) (hs : s ≤ dataSlots) (ht : t ≤ dataSlots)
    (hne : pointer mp (inodes g) s ≠ 0) : pointer mp (inodes g) s ≠ pointer mp' inode' t := by
  intro heq
  have hdata := pointer_other_data howning hg hgf hs hne
  rcases h.grown t ht with hsame | ⟨-, hfree⟩
  · have hapart := howning.separated.apart g hg f hf s t hs ht
    rw [Function.update_self, Function.update_of_ne hgf] at hapart
    exact hgf (hapart hne (heq.trans hsame)).1
  · exact hfree (heq ▸ hdata.1)

/-- A block of the file is not the one at another place. -/
theorem Kept.apart_self (h : Kept files inodes f mp inode mp' inode') (hf : f ∈ files)
    (hs : s ≤ dataSlots) (ht : t ≤ dataSlots) (hst : s ≠ t) (hne : pointer mp inode s ≠ 0) :
    pointer mp inode s ≠ pointer mp' inode' t := by
  intro heq
  have hkept := h.grown.keeps hs hne
  have hapart := h.owning.separated.apart f hf f hf s t hs ht
  rw [Function.update_self, hkept] at hapart
  exact hst (hapart hne heq).2

/-! ### The block of a round -/

/-- The search for a data block writes metadata and the indirect block only; when it finds
none, no block is free. -/
structure Framed (mp : Mount) (inode : Bytes) (found : Option Nat × Mount × Bytes) : Prop where
  frame : ∀ c, ¬ IsMetadata mp.sb c → c ≠ indirect found.2.2 →
    found.2.1.blocks c = mp.blocks c
  size : fileSize found.2.2 = fileSize inode
  stops : found.1 = none → handedOut found.2.1 0 = none

theorem fileSize_setDirect (inode : Bytes) (k b : Nat) :
    fileSize (setDirect inode k b) = fileSize inode :=
  readWord_writeWord_of_apart (.inl (by
    unfold sizeOffset directOffset
    omega))

theorem fileSize_setIndirect (inode : Bytes) (b : Nat) :
    fileSize (setIndirect inode b) = fileSize inode :=
  readWord_writeWord_of_apart (.inl (by decide))

theorem handedOut_ne_zero (h : Owning mp files inodes) (hout : handedOut mp 0 = some b) : b ≠ 0 :=
  fun e => not_inUse_of_handedOut hout (e ▸ h.metadata 0 (.inl rfl))

/-- Handing a block out writes metadata only. -/
theorem blocks_takeBlock (image : Superblock → Bytes) (hout : handedOut mp 0 = some b)
    (hc : ¬ IsMetadata mp.sb c) : (takeBlock image mp b).blocks c = mp.blocks c :=
  rebit_blocks_of_ne (fun e => hc (.inl e)) fun e =>
    hc (.inr (.inl ⟨_, group_lt (handedOut_zero hout).1, e⟩))

theorem directBlock_framed (image : Superblock → Bytes) (h : Owning mp files inodes)
    (inode : Bytes) (n : Nat) : Framed mp inode (directBlock image mp inode n) := by
  unfold directBlock
  split
  · rw [allocBlock_eq image h.layout]
    cases hout : handedOut mp 0 with
    | none => exact ⟨fun _ _ _ => rfl, fileSize_setDirect inode n 0, fun _ => hout⟩
    | some b =>
      dsimp only
      rw [if_neg (handedOut_ne_zero h hout)]
      exact ⟨fun c hc _ => blocks_takeBlock image hout hc, fileSize_setDirect inode n b,
        by rintro ⟨⟩⟩
  · exact ⟨fun _ _ _ => rfl, rfl, by rintro ⟨⟩⟩

theorem entryBlock_framed (image : Superblock → Bytes) (h : Owning mp files inodes)
    (inode : Bytes) (j : Nat) :
    Framed mp inode ((entryBlock image mp (indirect inode) j).1,
      (entryBlock image mp (indirect inode) j).2, inode) := by
  unfold entryBlock
  dsimp only
  split
  · rw [allocBlock_eq image h.layout]
    cases hout : handedOut mp 0 with
    | none => exact ⟨fun _ _ _ => rfl, rfl, fun _ => hout⟩
    | some b =>
      dsimp only
      rw [if_neg (handedOut_ne_zero h hout)]
      refine ⟨fun c hc hind => ?_, rfl, by rintro ⟨⟩⟩
      exact (Function.update_of_ne hind ..).trans (blocks_takeBlock image hout hc)
  · exact ⟨fun _ _ _ => rfl, rfl, by rintro ⟨⟩⟩

theorem indirectBlock_framed (image : Superblock → Bytes)
    (h : Owning mp files (Function.update inodes f inode)) (hf : f ∈ files) (j : Nat)
    (blank : indirect inode = 0 → ∀ b ∈ handedOut mp 0, Blank (mp.blocks b)) :
    Framed mp inode (indirectBlock image mp inode j) := by
  unfold indirectBlock
  split
  · rename_i habsent
    rw [allocBlock_eq image h.layout]
    cases hout : handedOut mp 0 with
    | none => exact ⟨fun _ _ _ => rfl, fileSize_setIndirect inode 0, fun _ => hout⟩
    | some b =>
      have hgives := gives_indirect image h hf hout habsent (blank habsent b hout)
      have hself : indirect (setIndirect inode b) = b := by
        have hnow := hgives.now dataSlots (Nat.le_refl _)
        rwa [if_pos rfl, pointer_indirect] at hnow
      have hentry := entryBlock_framed image hgives.owning (setIndirect inode b) j
      rw [hself] at hentry
      dsimp only
      rw [if_neg (handedOut_ne_zero h hout)]
      refine ⟨?_, hentry.size.trans (fileSize_setIndirect inode b),
        hentry.stops⟩
      intro c hc hind
      rw [hentry.frame c (fun hm => hc ((hgives.ext.isMetadata c).mp hm)) hind]
      exact blocks_takeBlock image hout hc
  · exact entryBlock_framed image h inode j

/-- **The frame of a search.** -/
theorem dataBlock_framed (image : Superblock → Bytes)
    (h : Owning mp files (Function.update inodes f inode)) (hf : f ∈ files)
    (hn : n < dataSlots) (uninit : Nat)
    (blank : indirect inode = 0 → 12 ≤ n → ∀ b ∈ handedOut mp 0, Blank (mp.blocks b)) :
    Framed mp inode (dataBlock image mp inode n uninit) := by
  have hn' : n < 12 + blockSize / 4 := hn
  unfold dataBlock
  by_cases hlow : n < 12
  · rw [if_pos hlow]
    exact directBlock_framed image h inode n
  · rw [if_neg hlow, if_pos hn']
    exact indirectBlock_framed image h hf _ fun habsent => blank habsent (Nat.not_lt.mp hlow)

/-! ### A round -/

section Round

variable {call : WriteCall} {w w' : Writing} {start last i : Nat}

/-- Storing the data leaves every other block. -/
theorem storeRound_blocks (call : WriteCall) (w : Writing) (hc : c ≠ b) :
    (storeRound call w b).mp.blocks c = w.mp.blocks c :=
  Function.update_of_ne hc ..

/-- The stored block: the bytes of the caller, and around them what was there. -/
theorem storeRound_byte (hcount : call.count ≤ dataSlots * blockSize)
    (hlt : w.written < call.count) (hi : i / blockSize = w.pos / blockSize) :
    (storeRound call w b).mp.blocks b (i % blockSize) =
      if w.pos ≤ i ∧ i < w.pos + chunkSize call w then call.src (w.written + (i - w.pos))
      else w.mp.blocks b (i % blockSize) := by
  have hblock : (storeRound call w b).mp.blocks b =
      fun k => if w.pos % blockSize ≤ k ∧ k < w.pos % blockSize + chunkSize call w then
          call.src (w.written + (k - w.pos % blockSize))
        else (if 0 < w.pos % blockSize ∨ call.count < wrap32 (w.written + blockSize) then
          w.mp.blocks b else call.stack.block w.written) k :=
    Function.update_self ..
  have hsame : (w.pos % blockSize ≤ i % blockSize ∧
      i % blockSize < w.pos % blockSize + chunkSize call w) ↔
      (w.pos ≤ i ∧ i < w.pos + chunkSize call w) := by
    unfold blockSize at *
    omega
  have hoffset : w.pos ≤ i → i % blockSize - w.pos % blockSize = i - w.pos := by
    unfold blockSize at *
    omega
  rw [hblock]
  simp only [hsame]
  split
  · rename_i hin
    rw [hoffset hin.1]
  · -- Bytes are left over in the block only when it was read before.
    rename_i hout
    rw [if_pos]
    have hwrap : wrap32 (w.written + blockSize) = w.written + blockSize :=
      wrap32_of_lt (by
        unfold dataSlots blockSize at *
        omega)
    rw [hwrap]
    unfold chunkSize blockSize at *
    omega

/-- What a file has at other places stays, byte for byte. -/
theorem round_others (call : WriteCall) (hkept : Kept files inodes f w.mp w.inode mp' inode')
    (hframed : Framed w.mp w.inode (some b, mp', inode'))
    (howning : Owning w.mp files (Function.update inodes f w.inode)) (hf : f ∈ files)
    (hn : n ≤ dataSlots) (hpointer : pointer mp' inode' n = b) (hg : g ∈ files) (hgf : g ≠ f)
    (hs : s ≤ dataSlots) (hne : pointer w.mp (inodes g) s ≠ 0) :
    (storeRound call { w with mp := mp', inode := inode' } b).mp.blocks (pointer w.mp (inodes g) s) =
      w.mp.blocks (pointer w.mp (inodes g) s) := by
  have hmeta := (pointer_other_data howning hg hgf hs hne).2
  have hblock := hkept.apart_other howning hf hg hgf hs hn hne
  have hindirect := hkept.apart_other howning hf hg hgf hs (Nat.le_refl dataSlots) hne
  rw [hpointer] at hblock
  rw [pointer_indirect] at hindirect
  rw [storeRound_blocks call _ hblock]
  exact hframed.frame _ hmeta hindirect

/-- **The bytes of a round.** The file has the bytes of the caller at the place of the round,
and keeps what it had elsewhere. -/
theorem round_bytes (hkept : Kept files inodes f w.mp w.inode mp' inode')
    (hframed : Framed w.mp w.inode (some b, mp', inode'))
    (howning : Owning w.mp files (Function.update inodes f w.inode)) (hf : f ∈ files)
    (hn : w.pos / blockSize < dataSlots) (hpointer : pointer mp' inode' (w.pos / blockSize) = b)
    (hb : b ≠ 0) (hcount : call.count ≤ dataSlots * blockSize) (hlt : w.written < call.count)
    (hw' : w' = storeRound call { w with mp := mp', inode := inode' } b)
    (hi : i / blockSize < dataSlots) :
    (w.pos ≤ i ∧ i < w.pos + chunkSize call w →
      pointer w'.mp w'.inode (i / blockSize) ≠ 0 ∧
        fileByte w'.mp w'.inode i = call.src (w.written + (i - w.pos))) ∧
    (¬ (w.pos ≤ i ∧ i < w.pos + chunkSize call w) → pointer w.mp w.inode (i / blockSize) ≠ 0 →
      pointer w'.mp w'.inode (i / blockSize) ≠ 0 ∧
        fileByte w'.mp w'.inode i = fileByte w.mp w.inode i) := by
  obtain ⟨hround, -⟩ := storeRound_kept call
    (w := { w with mp := mp', inode := inode' }) hkept.owning hf hn hpointer hb
  rw [← hw'] at hround
  have hstays : ∀ s, s < dataSlots → pointer mp' inode' s ≠ 0 →
      pointer w'.mp w'.inode s = pointer mp' inode' s := fun s hs hne =>
    hround.grown.keeps (Nat.le_of_lt hs) hne
  have hhere : i / blockSize = w.pos / blockSize →
      pointer w'.mp w'.inode (i / blockSize) = b ∧ fileByte w'.mp w'.inode i =
        if w.pos ≤ i ∧ i < w.pos + chunkSize call w then call.src (w.written + (i - w.pos))
        else mp'.blocks b (i % blockSize) := fun hsame => by
    have hnow : pointer w'.mp w'.inode (i / blockSize) = b := by
      rw [hsame, hstays _ hn (by rwa [hpointer]), hpointer]
    refine ⟨hnow, ?_⟩
    rw [fileByte, hnow, hw']
    exact storeRound_byte (w := { w with mp := mp', inode := inode' }) hcount hlt hsame
  constructor
  · intro hin
    have hsame : i / blockSize = w.pos / blockSize := by
      unfold chunkSize blockSize at *
      omega
    obtain ⟨hnow, hbyte⟩ := hhere hsame
    rw [hnow, hbyte, if_pos hin]
    exact ⟨hb, rfl⟩
  · intro hout hne
    have hold := hkept.grown.keeps (Nat.le_of_lt hi) hne
    have hdata := pointer_self_data howning hf (Nat.le_of_lt hi) hne
    have hindirect := hkept.apart_self hf (Nat.le_of_lt hi) (Nat.le_refl dataSlots)
      (Nat.ne_of_lt hi) hne
    rw [pointer_indirect] at hindirect
    have hblock := hframed.frame _ hdata.2 hindirect
    by_cases hsame : i / blockSize = w.pos / blockSize
    · obtain ⟨hnow, hbyte⟩ := hhere hsame
      have hb' : pointer w.mp w.inode (i / blockSize) = b := by rw [← hold, hsame, hpointer]
      rw [hnow, hbyte, if_neg hout, fileByte, hb', ← hb', ← hblock]
      exact ⟨hne, rfl⟩
    · have hnow : pointer w'.mp w'.inode (i / blockSize) = pointer w.mp w.inode (i / blockSize) := by
        rw [hstays _ hi (by rwa [hold]), hold]
      have hother := hkept.apart_self hf (Nat.le_of_lt hi) (Nat.le_of_lt hn) hsame hne
      rw [hpointer] at hother
      refine ⟨by rwa [hnow], ?_⟩
      rw [fileByte, hnow, hw', storeRound_blocks call _ hother, fileByte]
      exact congrFun hblock _

end Round

/-! ### The loop -/

section Loop

variable {call : WriteCall} {w w' : Writing} {start last : Nat}

/-- The invariant of the loop: the bytes of the caller are in the file from `start` on, and the
other bytes of the files are what they were. -/
structure Filled (files : Finset Nat) (inodes : Nat → Bytes) (f : Nat) (mp : Mount) (inode : Bytes)
    (call : WriteCall) (start : Nat) (w : Writing) : Prop where
  pos : w.pos = start + w.written
  size : fileSize w.inode = max (fileSize inode) (start + w.written)
  mine : ∀ i, start ≤ i → i < start + w.written →
    pointer w.mp w.inode (i / blockSize) ≠ 0 ∧ fileByte w.mp w.inode i = call.src (i - start)
  kept : ∀ i, i / blockSize < dataSlots → ¬ (start ≤ i ∧ i < start + w.written) →
    pointer mp inode (i / blockSize) ≠ 0 →
    pointer w.mp w.inode (i / blockSize) ≠ 0 ∧ fileByte w.mp w.inode i = fileByte mp inode i
  others : ∀ g ∈ files, g ≠ f → ∀ s ≤ dataSlots, pointer mp (inodes g) s ≠ 0 →
    w.mp.blocks (pointer mp (inodes g) s) = mp.blocks (pointer mp (inodes g) s)

theorem fileSize_setFileSize (inode : Bytes) {n : Nat} (hn : n < 2 ^ 32) :
    fileSize (setFileSize inode n) = n :=
  readWord_writeWord_self hn

/-- The pointers of the other files stay. -/
theorem Filled.pointer_other (h : Filled files inodes f mp inode call start w) (hg : g ∈ files)
    (hgf : g ≠ f) (s : Nat) : pointer w.mp (inodes g) s = pointer mp (inodes g) s := by
  refine pointer_congr (fun _ _ => rfl) rfl ?_ s
  intro hind
  have hblock := h.others g hg hgf dataSlots (Nat.le_refl _)
  rw [pointer_indirect] at hblock
  exact hblock hind

/-- **Round lemma.** -/
theorem Filled.round (h : Filled files inodes f mp inode call start w)
    (hkept : Kept files inodes f w.mp w.inode mp' inode')
    (hframed : Framed w.mp w.inode (some b, mp', inode'))
    (howning : Owning w.mp files (Function.update inodes f w.inode)) (hf : f ∈ files)
    (hend : start + call.count ≤ dataSlots * blockSize) (hlt : w.written < call.count)
    (hpointer : pointer mp' inode' (w.pos / blockSize) = b) (hb : b ≠ 0) :
    Filled files inodes f mp inode call start
      (storeRound call { w with mp := mp', inode := inode' } b) := by
  have hpos := h.pos
  have hchunk := chunk_bounds w.pos hlt
  have hn : w.pos / blockSize < dataSlots := by
    unfold dataSlots blockSize at *
    omega
  have hsmall : dataSlots * blockSize < 2 ^ 32 := by decide
  have hcount : call.count ≤ dataSlots * blockSize := (Nat.le_add_left _ _).trans hend
  have hwritten := storeRound_written (w := { w with mp := mp', inode := inode' }) (b := b)
    (hcount.trans_lt hsmall) hlt
  have hposition := storeRound_pos call (w := { w with mp := mp', inode := inode' }) (b := b) hn
  have hsame : chunkSize call { w with mp := mp', inode := inode' } = chunkSize call w := rfl
  rw [hsame] at hwritten hposition
  simp only at hwritten hposition
  have hle : w.written + chunkSize call w ≤ call.count := hchunk.2
  have hbytes := fun i hi => round_bytes (i := i) hkept hframed howning hf hn hpointer hb hcount
    hlt rfl hi
  refine
    { pos := by rw [hposition, hwritten, hpos, Nat.add_assoc]
      size := ?_
      mine := fun i hlow hhigh => ?_
      kept := fun i hi hout hne => ?_
      others := fun g hg hgf s hs hne => ?_ }
  · have hsize : fileSize inode' = max (fileSize inode) (start + w.written) :=
      hframed.size.trans h.size
    have hinode : (storeRound call { w with mp := mp', inode := inode' } b).inode =
        if fileSize inode' < w.pos + chunkSize call w then
          setFileSize inode' (w.pos + chunkSize call w) else inode' := by
      rw [← hposition]
      rfl
    rw [hinode, hwritten]
    split
    · rw [fileSize_setFileSize inode' (by omega)]
      omega
    · omega
  · rw [hwritten] at hhigh
    have hi : i / blockSize < dataSlots := by
      unfold dataSlots blockSize at *
      omega
    by_cases hnew : w.pos ≤ i
    · obtain ⟨hne, hbyte⟩ := (hbytes i hi).1 ⟨hnew, by omega⟩
      refine ⟨hne, hbyte.trans (congrArg call.src ?_)⟩
      omega
    · obtain ⟨hne, hbyte⟩ := h.mine i hlow (by omega)
      obtain ⟨hne', hbyte'⟩ := (hbytes i hi).2 (fun hin => hnew hin.1) hne
      exact ⟨hne', hbyte'.trans hbyte⟩
  · rw [hwritten] at hout
    obtain ⟨hne₁, hbyte⟩ := h.kept i hi (by omega) hne
    obtain ⟨hne', hbyte'⟩ := (hbytes i hi).2 (by omega) hne₁
    exact ⟨hne', hbyte'.trans hbyte⟩
  · have hpointers := h.pointer_other hg hgf s
    have hother := round_others call hkept hframed howning hf (Nat.le_of_lt hn) hpointer hg hgf hs
      (by rwa [hpointers])
    rw [hpointers] at hother
    exact hother.trans (h.others g hg hgf s hs hne)

/-- A search that finds no block changes no byte. -/
theorem Filled.stopped (h : Filled files inodes f mp inode call start w)
    (hkept : Kept files inodes f w.mp w.inode mp' inode')
    (hframed : Framed w.mp w.inode (none, mp', inode'))
    (howning : Owning w.mp files (Function.update inodes f w.inode)) (hf : f ∈ files)
    (hend : start + w.written ≤ dataSlots * blockSize) :
    Filled files inodes f mp inode call start { w with mp := mp', inode := inode' } := by
  have hsame : ∀ i, i / blockSize < dataSlots → pointer w.mp w.inode (i / blockSize) ≠ 0 →
      pointer mp' inode' (i / blockSize) ≠ 0 ∧ fileByte mp' inode' i = fileByte w.mp w.inode i := by
    intro i hi hne
    have hold := hkept.grown.keeps (Nat.le_of_lt hi) hne
    have hdata := pointer_self_data howning hf (Nat.le_of_lt hi) hne
    have hindirect := hkept.apart_self hf (Nat.le_of_lt hi) (Nat.le_refl dataSlots)
      (Nat.ne_of_lt hi) hne
    rw [pointer_indirect] at hindirect
    rw [fileByte, hold]
    exact ⟨hne, congrFun (hframed.frame _ hdata.2 hindirect) _⟩
  refine
    { pos := h.pos
      size := hframed.size.trans h.size
      mine := fun i hlow hhigh => ?_
      kept := fun i hi hout hne => ?_
      others := fun g hg hgf s hs hne => ?_ }
  · have hi : i / blockSize < dataSlots := by
      simp only at hhigh
      unfold dataSlots blockSize at *
      omega
    obtain ⟨hne, hbyte⟩ := h.mine i hlow hhigh
    obtain ⟨hne', hbyte'⟩ := hsame i hi hne
    exact ⟨hne', hbyte'.trans hbyte⟩
  · obtain ⟨hne₁, hbyte⟩ := h.kept i hi hout hne
    obtain ⟨hne', hbyte'⟩ := hsame i hi hne₁
    exact ⟨hne', hbyte'.trans hbyte⟩
  · have hpointers := h.pointer_other hg hgf s
    have hne₁ : pointer w.mp (inodes g) s ≠ 0 := by rwa [hpointers]
    have hmeta := (pointer_other_data howning hg hgf hs hne₁).2
    have hindirect := hkept.apart_other howning hf hg hgf hs (Nat.le_refl dataSlots) hne₁
    rw [pointer_indirect] at hindirect
    have hblock := hframed.frame _ hmeta hindirect
    rw [hpointers] at hblock
    exact hblock.trans (h.others g hg hgf s hs hne)

/-- **Induction over the loop.** What a round keeps, and a search that finds no block, the loop
keeps. Where it stops, all is written or no block is free. -/
theorem Looping.induct (image : Superblock → Bytes) (hf : f ∈ files)
    (hcount : call.count < 2 ^ 32) {P : Writing → Prop}
    (round : ∀ (w : Writing) (mp' : Mount) (inode' : Bytes) (b : Nat),
      Looping files inodes f mp inode call last w → P w → w.written < call.count →
      Kept files inodes f w.mp w.inode mp' inode' →
      Framed w.mp w.inode (some b, mp', inode') →
      pointer mp' inode' (w.pos / blockSize) = b → b ≠ 0 → w.pos / blockSize < dataSlots →
      P (storeRound call { w with mp := mp', inode := inode' } b))
    (stops : ∀ (w : Writing) (mp' : Mount) (inode' : Bytes),
      Looping files inodes f mp inode call last w → P w →
      Kept files inodes f w.mp w.inode mp' inode' → Framed w.mp w.inode (none, mp', inode') →
      P { w with mp := mp', inode := inode' })
    (rounds : Nat) (hlooping : Looping files inodes f mp inode call last w) (h : P w)
    (hloop : writeLoop image call rounds w = some w') :
    P w' ∧ w'.written ≤ call.count ∧ (w'.written < call.count → handedOut w'.mp 0 = none) := by
  have hframed : ∀ w, Looping files inodes f mp inode call last w → w.written < call.count →
      Framed w.mp w.inode (dataBlock image w.mp w.inode (w.pos / blockSize)
        (call.stack.dataBlock w.written)) := by
    intro w hlooping hlt
    obtain ⟨-, hsafe⟩ := hlooping.goes hlt
    have hblock := hlooping.block_lt hlt
    refine dataBlock_framed image hlooping.kept.owning hf (hsafe.lt hblock) _ ?_
    intro habsent hlow b hout
    -- The indirect block is the first block that this write allocates now.
    have hbeyond : 12 * blockSize < last :=
      Nat.lt_of_le_of_lt (Nat.mul_le_mul_right _ hlow) hblock
    have hnone : missing w.mp w.inode (w.pos / blockSize) 12 = 0 := by
      rw [missing, Finset.Ico_eq_empty_of_le hlow, Finset.filter_empty, Finset.card_empty]
    exact hsafe.blank habsent hbeyond b (by rwa [hnone])
  have hdata : ∀ w, Looping files inodes f mp inode call last w → w.written < call.count →
      Found files inodes f (w.pos / blockSize) last w.mp w.inode (dataBlock image w.mp w.inode
        (w.pos / blockSize) (call.stack.dataBlock w.written)) := fun w hlooping hlt =>
    dataBlock_found image hlooping.kept.owning hf (hlooping.goes hlt).2 (hlooping.block_lt hlt) _
  refine writeLoop_induct
    (P := fun w => Looping files inodes f mp inode call last w ∧ P w)
    (Q := fun w => P w ∧ w.written ≤ call.count ∧
      (w.written < call.count → handedOut w.mp 0 = none))
    image ?_ ?_ ?_ rounds ⟨hlooping, h⟩ hloop
  · rintro w b mp' inode' ⟨hlooping, h⟩ hlt hfound
    have hblock := hdata w hlooping hlt
    have hframe := hframed w hlooping hlt
    rw [hfound] at hblock hframe
    obtain ⟨-, hb, hpointer⟩ := hblock.block b rfl
    exact ⟨hlooping.round image hf hcount hlt hfound,
      round w mp' inode' b hlooping h hlt hblock.kept hframe hpointer hb
        ((hlooping.goes hlt).2.lt (hlooping.block_lt hlt))⟩
  · rintro w mp' inode' ⟨hlooping, h⟩ hlt hfound
    have hblock := hdata w hlooping hlt
    have hframe := hframed w hlooping hlt
    rw [hfound] at hblock hframe
    exact ⟨stops w mp' inode' hlooping h hblock.kept hframe, hlooping.written,
      fun _ => hframe.stops rfl⟩
  · rintro w ⟨hlooping, h⟩ hge
    exact ⟨h, hlooping.written, fun hlt => absurd hlt (Nat.not_lt.mpr hge)⟩

/-- **Loop lemma.** -/
theorem Filled.loop (image : Superblock → Bytes) (hf : f ∈ files)
    (hend : start + call.count ≤ dataSlots * blockSize) (rounds : Nat)
    (hlooping : Looping files inodes f mp inode call last w)
    (h : Filled files inodes f mp inode call start w)
    (hloop : writeLoop image call rounds w = some w') :
    Filled files inodes f mp inode call start w' ∧ w'.written ≤ call.count ∧
      (w'.written < call.count → handedOut w'.mp 0 = none) := by
  have hcount : call.count < 2 ^ 32 := by
    have hsmall : dataSlots * blockSize < 2 ^ 32 := by decide
    omega
  refine hlooping.induct image hf hcount ?_ ?_ rounds h hloop
  · intro w mp' inode' b hlooping h hlt hkept hframed hpointer hb _
    exact h.round hkept hframed hlooping.kept.owning hf hend hlt hpointer hb
  · intro w mp' inode' hlooping h hkept hframed
    exact h.stopped hkept hframed hlooping.kept.owning hf
      ((Nat.add_le_add_left hlooping.written _).trans hend)

/-- The free blocks hold what they held. -/
def Untouched (mp mp' : Mount) : Prop := ∀ c, ¬ InUse mp' c → mp'.blocks c = mp.blocks c

/-- A search for a data block writes blocks in use. -/
theorem Kept.untouched (h : Kept files inodes f mp inode mp' inode') {found : Option Nat}
    (hframed : Framed mp inode (found, mp', inode')) (hf : f ∈ files) : Untouched mp mp' := by
  intro c hc
  have hmeta := h.owning.not_metadata hc
  refine hframed.frame c (fun hm => hmeta ((h.ext.isMetadata c).mpr hm)) ?_
  intro hindirect
  have howned := h.owning.indirect_data hf
  rw [Function.update_self] at howned
  by_cases hnone : indirect inode' = 0
  · -- Block 0 is the superblock.
    rw [hnone] at hindirect
    exact hmeta (.inl hindirect)
  · exact hc (hindirect ▸ (howned hnone).1)

/-- **Loop lemma, free blocks.** -/
theorem Looping.untouched (image : Superblock → Bytes) (hf : f ∈ files)
    (hcount : call.count < 2 ^ 32) (rounds : Nat)
    (hlooping : Looping files inodes f mp inode call last w) (h : Untouched mp w.mp)
    (hloop : writeLoop image call rounds w = some w') : Untouched mp w'.mp := by
  refine (hlooping.induct image hf hcount (P := fun w => Untouched mp w.mp) ?_ ?_ rounds h hloop).1
  · intro w mp' inode' b _ h _ hkept hframed hpointer hb hn c hc
    obtain ⟨hround, -⟩ := storeRound_kept call (w := { w with mp := mp', inode := inode' })
      hkept.owning hf hn hpointer hb
    have hfree : ¬ InUse mp' c := fun huse => hc (hround.ext.keeps c huse)
    have hother : c ≠ b := by
      rintro rfl
      have hdata := pointer_self_data hkept.owning hf (Nat.le_of_lt hn) (hpointer ▸ hb)
      exact hfree (hpointer ▸ hdata.1)
    rw [storeRound_blocks call _ hother]
    exact (hkept.untouched hframed hf c hfree).trans
      (h c fun huse => hfree (hkept.ext.keeps c huse))
  · intro w mp' inode' _ h hkept hframed c hc
    exact (hkept.untouched hframed hf c hc).trans (h c fun huse => hc (hkept.ext.keeps c huse))

end Loop

end ArmKernel.Fs

/-
Runs of `fs_write` on a set of files.

`files_stay_apart` is the result: while every call is safe (`SafeCall`), the blocks of the
files stay apart, and data goes only to blocks of the file that is written. A call that is
not safe can store into the block of another file (`stale_word_shares_block`).
-/
import ArmKernel.Fs.FileLoop

namespace ArmKernel.Fs

open ArmKernel.Support

/-- A call on one of the files, or on no open one. -/
structure FileCall (files : Finset Nat) extends WriteCall where
  fits : count < 2 ^ 32
  regular : ∀ desc ∈ openDesc descs fd, desc.inode ∈ files

section Runs

variable {image : Superblock → Bytes} {files : Finset Nat} {mp : Mount}

def writeStep (image : Superblock → Bytes) (mp : Mount) (call : FileCall files) : Option Mount :=
  (fsWrite image mp call.toWriteCall).map (·.mp)

/-- A device consistent with its bitmap, on which the blocks of the files are apart. -/
def Consistent (files : Finset Nat) (mp : Mount) : Prop := Owning mp files (readInode mp)

/-- The blocks of the files are data blocks in use, and no two pointers lead to one. -/
def FilesApart (files : Finset Nat) (mp : Mount) : Prop := Separated mp files (readInode mp)

/-- A call that stays before the end of the indirect block, and allocates it blank. -/
def SafeCall (mp : Mount) (call : FileCall files) : Prop :=
  ∀ desc ∈ openDesc call.descs call.fd, call.mounted = true → 0 < call.count →
    Safe mp (readInode mp desc.inode) (desc.pos / blockSize) (desc.pos + call.count)

/-- A block in use that the file has at a place where it had it before, or had none and the
block was free. -/
def OwnBlock (mp mp' : Mount) (inodeNo b : Nat) : Prop :=
  ∃ s < dataSlots, pointer mp' (readInode mp' inodeNo) s = b ∧ InUse mp' b ∧
    (pointer mp (readInode mp inodeNo) s = b ∨
      pointer mp (readInode mp inodeNo) s = 0 ∧ ¬ InUse mp b)

/-- The call returns, and its data is in blocks of its file. -/
def StoresOwn (image : Superblock → Bytes) (mp : Mount) (call : FileCall files) : Prop :=
  ∃ r, fsWrite image mp call.toWriteCall = some r ∧ ∀ b ∈ r.stored,
    ∃ desc ∈ openDesc call.descs call.fd, OwnBlock mp r.mp desc.inode b

/-- The inode is written back: the device is in order, and the pointers are those the loop
left. -/
theorem Kept.pointer_writeBack {f : Nat} {w : Writing} (hf : f ∈ files)
    (h : Kept files (readInode mp) f mp (readInode mp f) w.mp w.inode) (time : Nat) {r : Mount}
    (hr : r = writeInode w.mp f (setMtime w.inode time)) :
    Consistent files r ∧ ∀ g ∈ files, ∀ s, pointer r (readInode r g) s =
      pointer w.mp (Function.update (readInode mp) f w.inode g) s := by
  have hmtime : ∀ s, pointer w.mp (setMtime w.inode time) s = pointer w.mp w.inode s :=
    pointer_setMtime time
  have hback := (same_inode h.owning hmtime).owning.writeBack hf fun g hg hgf => by
    rw [Function.update_of_ne hgf]
    exact (h.ext.readInode hg).symm
  rw [Function.update_self] at hback
  rw [hr]
  refine ⟨hback.1, fun g hg s => (hback.2 g hg s).trans ?_⟩
  by_cases hgf : g = f
  · rw [hgf, Function.update_self, Function.update_self, hmtime]
  · rw [Function.update_of_ne hgf, Function.update_of_ne hgf]

/-- What the loop kept and stored, when the inode is written back. -/
theorem Kept.writeBack {f : Nat} {w : Writing} (hf : f ∈ files)
    (h : Kept files (readInode mp) f mp (readInode mp f) w.mp w.inode)
    (hstored : Stored w.mp w.inode w.stored) (time : Nat) :
    Consistent files (writeInode w.mp f (setMtime w.inode time)) ∧
      ∀ b ∈ w.stored, OwnBlock mp (writeInode w.mp f (setMtime w.inode time)) f b := by
  obtain ⟨hconsistent, hpointers⟩ := h.pointer_writeBack hf time rfl
  refine ⟨hconsistent, ?_⟩
  intro b hb
  obtain ⟨hne, s, hs, hpointer⟩ := hstored b hb
  have hnow := hpointers f hf s
  rw [Function.update_self, hpointer] at hnow
  have hdata := hconsistent.separated.owned f hf s (Nat.le_of_lt hs)
  rw [hnow] at hdata
  refine ⟨s, hs, hnow, (hdata hne).1, ?_⟩
  rcases h.grown s (Nat.le_of_lt hs) with hsame | ⟨hzero, hfree⟩
  · exact .inl (hsame.symm.trans hpointer)
  · exact .inr ⟨hzero, hpointer ▸ hfree⟩

/-- **`fs_write`** on a device in order, when the call is safe. -/
theorem fsWrite_spec (h : Consistent files mp) (call : FileCall files) (hsafe : SafeCall mp call)
    {r : WriteResult} (hr : fsWrite image mp call.toWriteCall = some r) :
    Consistent files r.mp ∧ ∀ b ∈ r.stored,
      ∃ desc ∈ openDesc call.descs call.fd, OwnBlock mp r.mp desc.inode b := by
  unfold fsWrite at hr
  cases hdesc : openDesc call.descs call.fd with
  | none =>
    rw [hdesc] at hr
    cases hr
    exact ⟨h, fun b hb => absurd hb List.not_mem_nil⟩
  | some desc =>
    rw [hdesc] at hr
    dsimp only at hr
    by_cases hmounted : call.mounted = true
    · have hf := call.regular desc hdesc
      rw [hmounted, Bool.not_true, if_neg (by decide), Option.map_eq_some_iff] at hr
      obtain ⟨w, hloop, rfl⟩ := hr
      have howning : Owning mp files
          (Function.update (readInode mp) desc.inode (readInode mp desc.inode)) := by
        rwa [Function.update_eq_self]
      have hstart : Looping files (readInode mp) desc.inode mp (readInode mp desc.inode)
          call.toWriteCall (desc.pos + call.count)
          ⟨mp, readInode mp desc.inode, desc.pos, 0, []⟩ :=
        ⟨.refl howning, fun b hb => absurd hb List.not_mem_nil, Nat.zero_le _,
          fun hlt => ⟨rfl, hsafe desc hdesc hmounted hlt⟩⟩
      obtain ⟨hkept, hstored⟩ := hstart.loop image hf call.fits _ hloop
      obtain ⟨hconsistent, hown⟩ := hkept.writeBack hf hstored call.time
      exact ⟨hconsistent, fun b hb => ⟨desc, rfl, hown b hb⟩⟩
    · rw [Bool.not_eq_true] at hmounted
      rw [hmounted, Bool.not_false, if_pos rfl] at hr
      cases hr
      exact ⟨h, fun b hb => absurd hb List.not_mem_nil⟩

/-- **Files never share blocks**, while every call is safe. In every state of such a run the
blocks of the files are apart from each other and from the metadata, and every call stores
its data into blocks that are the file's own. -/
theorem files_stay_apart (h : Consistent files mp) {calls : List (FileCall files)}
    (safe : Meets (writeStep image) SafeCall mp calls) :
    Along (writeStep image) (FilesApart files) mp calls ∧
      Each (writeStep image) (StoresOwn image) mp calls := by
  have hpreserved : ∀ (s : Mount) (call : FileCall files) (s' : Mount), Consistent files s →
      SafeCall s call → writeStep image s call = some s' → Consistent files s' := by
    intro s call s' hs hsafe hstep
    obtain ⟨r, hr, rfl⟩ := Option.map_eq_some_iff.mp hstep
    exact (fsWrite_spec hs call hsafe hr).1
  constructor
  · exact (along_of_meets hpreserved h safe).mono fun s hs => hs.separated
  · refine each_of_meets ?_ hpreserved h safe
    intro s call hs hok
    obtain ⟨r, hr⟩ := fsWrite_total image s call.fits
    have hsafe := hok r.mp (Option.map_eq_some_iff.mpr ⟨r, hr, rfl⟩)
    exact ⟨r, hr, (fsWrite_spec hs call hsafe hr).2⟩

end Runs

/-! ### Two files on a small device -/

section Small

instance (block : Bytes) : Decidable (Blank block) :=
  inferInstanceAs (Decidable (∀ j < blockSize / 4, entry block j = 0))

instance (mp : Mount) (inode : Bytes) (n last : Nat) : Decidable (Safe mp inode n last) :=
  decidable_of_iff
    ((indirect inode = 0 → 12 * blockSize < last →
        ∀ b ∈ handedOut mp (missing mp inode n 12), Blank (mp.blocks b)) ∧
      (last ≤ dataSlots * blockSize ∨
        n < dataSlots ∧ ∃ k < missing mp inode n (dataSlots + 1), handedOut mp k = none))
    ⟨fun h => ⟨h.1, h.2⟩, fun h => ⟨h.blank, h.room⟩⟩

instance {files : Finset Nat} (mp : Mount) (call : FileCall files) : Decidable (SafeCall mp call) :=
  inferInstanceAs (Decidable (∀ desc ∈ openDesc call.descs call.fd, call.mounted = true →
    0 < call.count → Safe mp (readInode mp desc.inode) (desc.pos / blockSize)
      (desc.pos + call.count)))

/-- The inode table: file 1 has no blocks, and file 2 has block 3 as its first. -/
def tinyInodes : Bytes := writeWord (fun _ => 0#8) (128 + directOffset) 3

def tinySb : Superblock :=
  { blocksCount := 16, freeBlocks := 12, inodesCount := 2, firstDataBlock := 0, firstInode := 2,
    inodeSize := 128, blockGroupNr := 1, blocksPerGroup := 16, inodesPerGroup := 2 }

/-- Sixteen blocks: the superblock, the bitmap, the inode table, the block of file 2, and
twelve free ones, the first of which still holds `stale`. -/
def tinyMount (stale : Bytes) : Mount :=
  { sb := tinySb
    blocks := fun n =>
      if n = 1 then fun i => if i = 0 then 0x0f#8 else 0#8
      else if n = 2 then tinyInodes
      else if n = 4 then stale
      else fun _ => 0#8 }

/-- Descriptor 0 is at the 12th block of file 1, descriptor 1 behind the first block of file 2,
and descriptor 2 behind the last block of file 1 that the indirect block has. -/
def tinyDescs (fd : Nat) : FileDesc :=
  match fd with
  | 0 => { inode := 1, pos := 12 * blockSize, flags := 1, count := 1 }
  | 1 => { inode := 2, pos := blockSize, flags := 1, count := 1 }
  | 2 => { inode := 1, pos := dataSlots * blockSize, flags := 1, count := 1 }
  | _ => { inode := 0, pos := 0, flags := 0, count := 0 }

theorem tinyDescs_regular (fd : Int) :
    ∀ desc ∈ openDesc tinyDescs fd, desc.inode ∈ ({1, 2} : Finset Nat) := by
  intro desc hdesc
  unfold openDesc at hdesc
  split at hdesc
  · cases hdesc
  · split at hdesc
    · cases hdesc
    · rename_i hopen
      cases hdesc
      unfold tinyDescs at hopen ⊢
      split at hopen <;> simp_all

/-- One byte is written, and the stack holds the number of the block of file 2. -/
def tinyCall (fd : Int) : FileCall {1, 2} :=
  { descs := tinyDescs
    fd
    src := fun _ => 0x2a#8
    count := 1
    mounted := true
    time := 7
    stack := ⟨fun _ => 3, fun _ _ => 0#8⟩
    fits := Nat.one_lt_two_pow (Nat.succ_ne_zero 31)
    regular := tinyDescs_regular fd }

variable (stale : Bytes)

theorem tinySb_layout : Layout tinySb where
  groupBits := by decide
  count := rfl
  noWrap := by decide
  bitmaps := by decide

theorem tinySb_inodesApart : InodesApart tinySb {1, 2} where
  numbered := by decide
  whole := by decide
  table := by decide
  apart := by decide

theorem readInode_tinyMount {f : Nat} (hf : f ∈ ({1, 2} : Finset Nat)) :
    readInode (tinyMount stale) f = fun j => tinyInodes (inodeOffset tinySb f + j) := by
  have hblock : ∀ f ∈ ({1, 2} : Finset Nat), inodeBlock tinySb f = 2 := by decide
  have htable : (tinyMount stale).blocks 2 = tinyInodes := rfl
  have hsb : (tinyMount stale).sb = tinySb := rfl
  unfold readInode
  rw [hsb, hblock f hf, htable]

/-- The only pointer is that of file 2 to block 3. -/
theorem tinyMount_pointer {f s : Nat} (hf : f ∈ ({1, 2} : Finset Nat)) (hs : s ≤ dataSlots) :
    pointer (tinyMount stale) (readInode (tinyMount stale) f) s =
      if f = 2 ∧ s = 0 then 3 else 0 := by
  have hdirect : ∀ f ∈ ({1, 2} : Finset Nat), ∀ k < 12,
      direct (fun j => tinyInodes (inodeOffset tinySb f + j)) k =
        if f = 2 ∧ k = 0 then 3 else 0 := by decide
  have hindirect : ∀ f ∈ ({1, 2} : Finset Nat),
      indirect (fun j => tinyInodes (inodeOffset tinySb f + j)) = 0 := by decide
  rw [readInode_tinyMount stale hf]
  rcases slot_cases hs with hlt | ⟨j, hj, rfl⟩ | rfl
  · rw [pointer_direct hlt, hdirect f hf s hlt]
  · rw [pointer_entry_zero hj (hindirect f hf), if_neg (by simp)]
  · rw [pointer_indirect, hindirect f hf, if_neg (by simp [dataSlots])]

theorem tinyMount_inUse {b : Nat} (hb : b < 4) : InUse (tinyMount stale) b := by
  have hbits : ∀ b < 4, b < 16 ∧
      bitAt (fun i => if i = 0 then 0x0f#8 else 0#8) (b % 16) = true := by decide
  obtain ⟨hlt, hbit⟩ := hbits b hb
  refine ⟨hlt, ?_⟩
  have hblock : bitmapBlock tinySb (b / 16) = 1 := by
    rw [Nat.div_eq_of_lt hlt]
    decide
  unfold used tinyMount
  dsimp only [tinySb] at hblock ⊢
  rw [hblock]
  exact hbit

theorem tinyMount_metadata {b : Nat} (hb : IsMetadata tinySb b) : b < 3 := by
  rcases hb with rfl | ⟨g, hg, rfl⟩ | ⟨inodeNo, hlow, hhigh, rfl⟩
  · decide
  · have hgroups : ∀ g < 1, bitmapBlock tinySb g < 3 := by decide
    exact hgroups g hg
  · have htable : ∀ i < 2, inodeBlock tinySb (i + 1) < 3 := by decide
    obtain ⟨i, rfl⟩ := Nat.exists_eq_add_of_le' hlow
    exact htable i (Nat.lt_of_succ_le hhigh)

theorem tinyMount_consistent : Consistent {1, 2} (tinyMount stale) where
  layout := tinySb_layout
  fits := by
    show tinySb.freeBlocks < 2 ^ 32
    decide
  metadata b hb := tinyMount_inUse stale ((tinyMount_metadata hb).trans (by decide))
  table := tinySb_inodesApart
  separated :=
    { owned := fun f hf s hs hne => by
        rw [tinyMount_pointer stale hf hs] at hne ⊢
        split
        · exact ⟨tinyMount_inUse stale (by decide), fun hm => absurd (tinyMount_metadata hm) (by decide)⟩
        · rename_i hno
          exact absurd (if_neg hno) hne
      apart := fun f hf g hg s t hs ht hne heq => by
        rw [tinyMount_pointer stale hf hs] at hne heq
        rw [tinyMount_pointer stale hg ht] at heq
        split at hne
        · rename_i hthis
          rw [if_pos hthis] at heq
          split at heq
          · rename_i hthat
            exact ⟨hthis.1.trans hthat.1.symm, hthis.2.trans hthat.2.symm⟩
          · cases heq
        · exact absurd rfl hne }

/-- An indirect block and its first entry are allocated for file 1, then a direct block for
file 2; descriptor 3 is closed. -/
theorem files_stay_apart_calls :
    Consistent {1, 2} (tinyMount fun _ => 0#8) ∧
      Meets (writeStep fun _ _ => 0#8) SafeCall (tinyMount fun _ => 0#8)
        [tinyCall 0, tinyCall 1, tinyCall 3] ∧
      Along (writeStep fun _ _ => 0#8) (FilesApart {1, 2}) (tinyMount fun _ => 0#8)
        [tinyCall 0, tinyCall 1, tinyCall 3] ∧
      Each (writeStep fun _ _ => 0#8) (StoresOwn fun _ _ => 0#8) (tinyMount fun _ => 0#8)
        [tinyCall 0, tinyCall 1, tinyCall 3] := by
  have hstart := tinyMount_consistent fun _ => 0#8
  have hsafe : Meets (writeStep fun _ _ => 0#8) SafeCall (tinyMount fun _ => 0#8)
      [tinyCall 0, tinyCall 1, tinyCall 3] := by decide +kernel
  exact ⟨hstart, hsafe, files_stay_apart hstart hsafe⟩

/-- A block of file 2 is not one of file 1. -/
theorem not_storesOwn {image : Superblock → Bytes} {fd : Int}
    (hfile : ∀ desc ∈ openDesc tinyDescs fd, desc.inode = 1)
    (hstored : (fsWrite image (tinyMount stale) (tinyCall fd).toWriteCall).map (·.stored) =
      some [3]) :
    ¬ StoresOwn image (tinyMount stale) (tinyCall fd) := by
  rintro ⟨r, hr, hall⟩
  rw [hr] at hstored
  have hthree : r.stored = [3] := Option.some.inj hstored
  have hmem : 3 ∈ r.stored := by
    rw [hthree]
    exact List.mem_singleton.mpr rfl
  obtain ⟨desc, hdesc, s, hs, -, -, hbefore⟩ := hall 3 hmem
  have hnone := tinyMount_pointer stale (f := 1) (by decide) (Nat.le_of_lt hs)
  rw [hfile desc hdesc, hnone] at hbefore
  rcases hbefore with hold | ⟨-, hfree⟩
  · cases hold
  · exact hfree (tinyMount_inUse stale (by decide))

/-- The first free block still holds a word that is the number of a block of file 2. It
becomes the indirect block of file 1, the word becomes a pointer of file 1, and the data goes
to the block of file 2. Behind the indirect block the data goes where the stack says. -/
theorem stale_word_shares_block :
    Consistent {1, 2} (tinyMount (writeWord (fun _ => 0#8) 0 3)) ∧
      ¬ Along (writeStep fun _ _ => 0#8) (FilesApart {1, 2})
        (tinyMount (writeWord (fun _ => 0#8) 0 3)) [tinyCall 0] ∧
      ¬ Each (writeStep fun _ _ => 0#8) (StoresOwn fun _ _ => 0#8)
        (tinyMount (writeWord (fun _ => 0#8) 0 3)) [tinyCall 0] ∧
      Consistent {1, 2} (tinyMount fun _ => 0#8) ∧
      ¬ Each (writeStep fun _ _ => 0#8) (StoresOwn fun _ _ => 0#8)
        (tinyMount fun _ => 0#8) [tinyCall 2] := by
  refine ⟨tinyMount_consistent _, ?_, ?_, tinyMount_consistent _,
    ?_⟩
  · intro halong
    have hshared : (fsWrite (fun _ _ => 0#8) (tinyMount (writeWord (fun _ => 0#8) 0 3))
        (tinyCall 0).toWriteCall).map (fun r =>
          (pointer r.mp (readInode r.mp 1) 12, pointer r.mp (readInode r.mp 2) 0)) =
        some (3, 3) := by decide +kernel
    obtain ⟨r, hr, hpointers⟩ := Option.map_eq_some_iff.mp hshared
    obtain ⟨hone, htwo⟩ := Prod.mk.inj hpointers
    have hapart : FilesApart {1, 2} r.mp := halong.2 r.mp (Option.map_eq_some_iff.mpr ⟨r, hr, rfl⟩)
    have hsame := hapart.apart 1 (by decide) 2 (by decide) 12 0 (by decide) (by decide)
      (by rw [hone]; decide) (hone.trans htwo.symm)
    exact absurd hsame.1 (by decide)
  · intro heach
    exact not_storesOwn _ (by decide) (by decide +kernel) heach.1
  · intro heach
    exact not_storesOwn _ (by decide) (by decide +kernel) heach.1

end Small

end ArmKernel.Fs

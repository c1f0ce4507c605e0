/-
The loop of `fs_write` on a set of files.

`fs_write` does not clear the indirect block it allocates, so stale words in it become
pointers of the file, and behind the indirect block it stores through a variable that
nothing was assigned to. `Safe` is the condition that a write does neither. Each change of
the loop gives one missing pointer the next free block (`Gives`) or changes no pointer
(`Same`); both keep `Safe`. `Looping.round` and `Looping.loop` are the results.
-/
import ArmKernel.Fs.Ownership
import Mathlib.Order.Interval.Finset.Nat

namespace ArmKernel.Fs

open ArmKernel.Support

/-- How many of the pointers from `s` up to `t - 1` are missing. -/
def missing (mp : Mount) (inode : Bytes) (s t : Nat) : Nat :=
  ((Finset.Ico s t).filter fun k => pointer mp inode k = 0).card

/-- A pointer block without pointers. -/
def Blank (block : Bytes) : Prop := ∀ j < blockSize / 4, entry block j = 0

/-- A write of the bytes from block `n` of the file up to byte `last`: an indirect block that
it allocates is blank, and it ends, or runs out of blocks, before the last entry. -/
structure Safe (mp : Mount) (inode : Bytes) (n last : Nat) : Prop where
  blank : indirect inode = 0 → 12 * blockSize < last →
    ∀ b ∈ handedOut mp (missing mp inode n 12), Blank (mp.blocks b)
  room : last ≤ dataSlots * blockSize ∨
    n < dataSlots ∧ ∃ k < missing mp inode n (dataSlots + 1), handedOut mp k = none

/-- Pointers that are there stay, and a missing one stays so or gets a free block. -/
def Grown (mp : Mount) (inode : Bytes) (mp' : Mount) (inode' : Bytes) : Prop :=
  ∀ s ≤ dataSlots, pointer mp' inode' s = pointer mp inode s ∨
    pointer mp inode s = 0 ∧ ¬ InUse mp (pointer mp' inode' s)

section Missing

variable {mp mp' : Mount} {inode inode' : Bytes} {n a b t : Nat}

/-- A slot that has its block can be left. -/
theorem missing_succ (h : pointer mp inode n ≠ 0) (t : Nat) :
    missing mp inode (n + 1) t = missing mp inode n t := by
  unfold missing
  congr 1
  ext k
  simp only [Finset.mem_filter, Finset.mem_Ico]
  constructor
  · rintro ⟨⟨hlow, hhigh⟩, hzero⟩
    exact ⟨⟨Nat.le_of_succ_le hlow, hhigh⟩, hzero⟩
  · rintro ⟨⟨hlow, hhigh⟩, hzero⟩
    have hne : n ≠ k := fun e => h (e ▸ hzero)
    exact ⟨⟨Nat.lt_of_le_of_ne hlow hne, hhigh⟩, hzero⟩

theorem missing_congr (ht : t ≤ dataSlots + 1)
    (same : ∀ s ≤ dataSlots, pointer mp' inode' s = pointer mp inode s) :
    missing mp' inode' n t = missing mp inode n t := by
  unfold missing
  congr 1
  apply Finset.filter_congr
  intro k hk
  rw [same k (Nat.le_of_lt_succ ((Finset.mem_Ico.mp hk).2.trans_le ht))]

/-- A missing pointer is written. -/
theorem missing_assign (ht : t ≤ dataSlots + 1) (hna : n ≤ a) (hat : a < t) (hb : b ≠ 0)
    (absent : pointer mp inode a = 0)
    (now : ∀ s ≤ dataSlots, pointer mp' inode' s = if s = a then b else pointer mp inode s) :
    missing mp' inode' n t + 1 = missing mp inode n t := by
  have hmem : a ∈ (Finset.Ico n t).filter fun k => pointer mp inode k = 0 :=
    Finset.mem_filter.mpr ⟨Finset.mem_Ico.mpr ⟨hna, hat⟩, absent⟩
  have herase : ((Finset.Ico n t).filter fun k => pointer mp' inode' k = 0) =
      ((Finset.Ico n t).filter fun k => pointer mp inode k = 0).erase a := by
    ext k
    simp only [Finset.mem_filter, Finset.mem_erase, Finset.mem_Ico]
    by_cases hk : n ≤ k ∧ k < t
    · rw [now k (Nat.le_of_lt_succ (hk.2.trans_le ht))]
      by_cases hka : k = a <;> simp [hk, hka, hb]
    · simp [hk]
  rw [missing, herase, Finset.card_erase_add_one hmem, missing]

end Missing

section Safe

variable {mp : Mount} {inode : Bytes} {n last j : Nat}

theorem indirect_of_entry (hj : j < blockSize / 4) (h : pointer mp inode (12 + j) ≠ 0) :
    indirect inode ≠ 0 :=
  fun hind => h (pointer_entry_zero hj hind)

theorem Safe.lt (h : Safe mp inode n last) (hlast : n * blockSize < last) : n < dataSlots := by
  rcases h.room with hroom | ⟨hlt, -⟩
  · exact Nat.lt_of_mul_lt_mul_right (hlast.trans_le hroom)
  · exact hlt

/-- The next block, when this one is there. -/
theorem Safe.next (h : Safe mp inode n last) (hn : n < dataSlots) (hpointer : pointer mp inode n ≠ 0) :
    Safe mp inode (n + 1) last where
  blank := by
    rw [missing_succ hpointer]
    exact h.blank
  room := by
    refine h.room.imp_right fun ⟨_, k, hk, hout⟩ => ?_
    rw [missing_succ hpointer]
    refine ⟨Nat.lt_of_le_of_ne hn fun heq => ?_, k, hk, hout⟩
    -- Behind the last entry no pointer is missing.
    have hlow : 12 ≤ n := by
      unfold dataSlots blockSize at heq
      omega
    obtain ⟨j, rfl⟩ := Nat.exists_eq_add_of_le hlow
    have hind := indirect_of_entry (Nat.lt_of_add_lt_add_left hn) hpointer
    rw [← missing_succ hpointer, heq, missing, Nat.Ico_succ_singleton, Finset.filter_singleton,
      pointer_indirect, if_neg hind] at hk
    exact Nat.not_lt_zero k hk

end Safe

/-! ### One change -/

section Changes

variable {mp mp' mp'' : Mount} {files : Finset Nat}
variable {inodes : Nat → Bytes} {inode inode' inode'' : Bytes} {f n last a b s j : Nat}

/-- The device is in order, and the file has grown. -/
structure Kept (files : Finset Nat) (inodes : Nat → Bytes) (f : Nat) (mp : Mount) (inode : Bytes)
    (mp' : Mount) (inode' : Bytes) : Prop where
  owning : Owning mp' files (Function.update inodes f inode')
  ext : Extends files mp mp'
  grown : Grown mp inode mp' inode'

/-- The device is in order, and the free blocks hold what they held. -/
structure Changed (files : Finset Nat) (inodes : Nat → Bytes) (f : Nat) (mp mp' : Mount)
    (inode' : Bytes) : Prop where
  owning : Owning mp' files (Function.update inodes f inode')
  ext : Extends files mp mp'
  contents : ∀ c, ¬ InUse mp' c → mp'.blocks c = mp.blocks c

/-- One missing pointer gets the next free block. -/
structure Gives (files : Finset Nat) (inodes : Nat → Bytes) (f : Nat) (mp : Mount) (inode : Bytes)
    (mp' : Mount) (inode' : Bytes) (a b : Nat) : Prop
    extends Changed files inodes f mp mp' inode' where
  out : handedOut mp 0 = some b
  rest : ∀ k, handedOut mp' k = handedOut mp (k + 1)
  absent : pointer mp inode a = 0
  now : ∀ s ≤ dataSlots, pointer mp' inode' s = if s = a then b else pointer mp inode s

/-- No pointer changes, and no block is handed out. -/
structure Same (files : Finset Nat) (inodes : Nat → Bytes) (f : Nat) (mp : Mount) (inode : Bytes)
    (mp' : Mount) (inode' : Bytes) : Prop extends Changed files inodes f mp mp' inode' where
  rest : ∀ k, handedOut mp' k = handedOut mp k
  now : ∀ s ≤ dataSlots, pointer mp' inode' s = pointer mp inode s

theorem Grown.keeps (h : Grown mp inode mp' inode') (hs : s ≤ dataSlots)
    (hpointer : pointer mp inode s ≠ 0) : pointer mp' inode' s = pointer mp inode s :=
  (h s hs).resolve_right fun hnew => hpointer hnew.1

theorem Kept.refl (h : Owning mp files (Function.update inodes f inode)) :
    Kept files inodes f mp inode mp inode :=
  ⟨h, .refl files mp, fun _ _ => .inl rfl⟩

theorem Kept.trans (h : Kept files inodes f mp inode mp' inode')
    (h' : Kept files inodes f mp' inode' mp'' inode'') :
    Kept files inodes f mp inode mp'' inode'' where
  owning := h'.owning
  ext := h.ext.trans h'.ext
  grown s hs := by
    rcases h'.grown s hs with hsame | ⟨hzero, hfree⟩
    · rw [hsame]
      exact h.grown s hs
    · rcases h.grown s hs with hsame | ⟨habsent, -⟩
      · exact .inr ⟨hsame ▸ hzero, fun huse => hfree (h.ext.keeps _ huse)⟩
      · exact .inr ⟨habsent, fun huse => hfree (h.ext.keeps _ huse)⟩

/-- A block that is handed out was free. -/
theorem not_inUse_of_handedOut {k : Nat} (h : handedOut mp k = some b) : ¬ InUse mp b := by
  unfold handedOut at h
  split at h
  · intro huse
    have hclear := (mem_freeList.mp (List.mem_of_getElem? h)).2
    rw [huse.2] at hclear
    cases hclear
  · cases h

theorem Gives.ne_zero (h : Gives files inodes f mp inode mp' inode' a b)
    (howning : Owning mp files (Function.update inodes f inode)) : b ≠ 0 := fun e =>
  not_inUse_of_handedOut h.out (e ▸ howning.metadata 0 (.inl rfl))

theorem Gives.kept (h : Gives files inodes f mp inode mp' inode' a b) :
    Kept files inodes f mp inode mp' inode' where
  owning := h.owning
  ext := h.ext
  grown s hs := by
    rw [h.now s hs]
    by_cases hsa : s = a
    · rw [if_pos hsa, hsa]
      exact .inr ⟨h.absent, not_inUse_of_handedOut h.out⟩
    · rw [if_neg hsa]
      exact .inl rfl

/-- **The free blocks and the missing pointers shrink together**, by `c`. -/
theorem Changed.safe {c : Nat} (h : Changed files inodes f mp mp' inode')
    (rest : ∀ k, handedOut mp' k = handedOut mp (k + c)) (out : ∀ k < c, handedOut mp k ≠ none)
    (all : missing mp' inode' n (dataSlots + 1) + c = missing mp inode n (dataSlots + 1))
    (direct : indirect inode' = 0 →
      indirect inode = 0 ∧ missing mp' inode' n 12 + c = missing mp inode n 12)
    (hsafe : Safe mp inode n last) : Safe mp' inode' n last where
  blank hind hlast b hb := by
    obtain ⟨hbefore, hcount⟩ := direct hind
    rw [h.contents b (not_inUse_of_handedOut hb)]
    apply hsafe.blank hbefore hlast b
    rw [← hcount, ← rest]
    exact hb
  room := by
    refine hsafe.room.imp_right fun ⟨hn, k, hk, hout⟩ => ⟨hn, ?_⟩
    have hle : c ≤ k := Nat.not_lt.mp fun hlt => out k hlt hout
    obtain ⟨k, rfl⟩ := Nat.exists_eq_add_of_le' hle
    rw [← all] at hk
    exact ⟨k, Nat.lt_of_add_lt_add_right hk, (rest k).trans hout⟩

theorem Gives.safe (h : Gives files inodes f mp inode mp' inode' a b) (hb : b ≠ 0)
    (hna : n ≤ a) (ha : a ≤ dataSlots) (hsafe : Safe mp inode n last) :
    Safe mp' inode' n last := by
  refine h.toChanged.safe h.rest ?_
    (missing_assign (Nat.le_refl _) hna (Nat.lt_succ_of_le ha) hb h.absent h.now)
    ?_ hsafe
  · intro k hk
    rw [Nat.lt_one_iff.mp hk, h.out]
    exact Option.some_ne_none b
  · intro hind
    -- While there is no indirect block, the pointer is a direct one.
    have hlow : a < 12 := by
      have hnow := h.now a ha
      rw [if_pos rfl] at hnow
      rcases slot_cases ha with hlt | ⟨j, hj, rfl⟩ | rfl
      · exact hlt
      · exact absurd hind (indirect_of_entry hj (hnow ▸ hb))
      · exact absurd (by rw [← hnow, pointer_indirect, hind]) hb
    have hbefore : indirect inode = 0 := by
      have hnow := h.now dataSlots (Nat.le_refl _)
      have hne : dataSlots ≠ a := Nat.ne_of_gt (hlow.trans (by decide))
      rwa [if_neg hne, pointer_indirect, pointer_indirect, hind, eq_comm] at hnow
    exact ⟨hbefore, missing_assign (by decide) hna hlow hb h.absent h.now⟩

theorem Same.kept (h : Same files inodes f mp inode mp' inode') :
    Kept files inodes f mp inode mp' inode' :=
  ⟨h.owning, h.ext, fun s hs => .inl (h.now s hs)⟩

theorem Same.safe (h : Same files inodes f mp inode mp' inode') (hsafe : Safe mp inode n last) :
    Safe mp' inode' n last := by
  refine h.toChanged.safe (c := 0) h.rest (fun k hk => absurd hk (Nat.not_lt_zero k))
    (missing_congr (Nat.le_refl _) h.now) ?_ hsafe
  intro hind
  have hnow := h.now dataSlots (Nat.le_refl _)
  rw [pointer_indirect, pointer_indirect, hind] at hnow
  exact ⟨hnow.symm, missing_congr (by decide) h.now⟩

/-- Only the inode changes, and its pointers do not. -/
theorem same_inode (h : Owning mp files (Function.update inodes f inode))
    (now : ∀ s, pointer mp inode' s = pointer mp inode s) :
    Same files inodes f mp inode mp inode' where
  owning := by
    refine h.extend (.refl files mp) h.fits (h.separated.congr (fun _ hdata => hdata) ?_)
    intro g _ s _
    by_cases hgf : g = f
    · rw [hgf, Function.update_self, Function.update_self, now]
    · rw [Function.update_of_ne hgf, Function.update_of_ne hgf]
  ext := .refl files mp
  contents _ _ := rfl
  rest _ := rfl
  now s _ := now s

/-- Data is stored into a block of the file. -/
theorem same_store (h : Owning mp files (Function.update inodes f inode)) (hf : f ∈ files)
    (hs : s < dataSlots) (hpointer : pointer mp inode s ≠ 0) (x : Bytes) :
    Same files inodes f mp inode (mp.write (pointer mp inode s) x) inode := by
  have hself : Function.update inodes f inode f = inode := Function.update_self ..
  have hdata := h.separated.owned f hf s (Nat.le_of_lt hs)
  have howning := h.store hf hs
  have hpointers := fun hne t => h.pointer_store hf hs hne x hf t
  rw [hself] at hdata howning hpointers
  obtain ⟨huse, hmeta⟩ := hdata hpointer
  have hext := extends_write (x := x) h.layout h.table hmeta
  exact
    { owning := howning hpointer x
      ext := hext
      contents := fun c hc => by
        have hne : c ≠ pointer mp inode s := fun e => hc (e ▸ hext.keeps _ huse)
        exact Function.update_of_ne hne ..
      rest := handedOut_write (bitmapBlock_ne hmeta)
      now := fun t _ => hpointers hpointer t }

/-- A block is handed out, and no pointer leads to it yet. -/
theorem changed_take (image : Superblock → Bytes)
    (h : Owning mp files (Function.update inodes f inode))
    (hout : handedOut mp 0 = some b) :
    Changed files inodes f mp (takeBlock image mp b) inode ∧
      ∀ c, ¬ IsMetadata mp.sb c → (takeBlock image mp b).blocks c = mp.blocks c := by
  obtain ⟨hb, -⟩ := handedOut_zero hout
  obtain ⟨howning, -⟩ := h.take image hout
  have hext := extends_takeBlock image h.layout h.table hb
  have hcontents : ∀ c, ¬ IsMetadata mp.sb c → (takeBlock image mp b).blocks c = mp.blocks c :=
    fun c hc => rebit_blocks_of_ne (fun e => hc (.inl e)) fun e =>
      hc (.inr (.inl ⟨_, group_lt hb, e⟩))
  refine ⟨⟨howning, hext, fun c hc => hcontents c ?_⟩, hcontents⟩
  intro hm
  exact howning.not_metadata hc ((hext.isMetadata c).mpr hm)

theorem pointer_take (image : Superblock → Bytes)
    (h : Owning mp files (Function.update inodes f inode)) (hf : f ∈ files)
    (hout : handedOut mp 0 = some b) (s : Nat) :
    pointer (takeBlock image mp b) inode s = pointer mp inode s := by
  have hpointer := h.pointer_takeBlock image hf (handedOut_zero hout).1 s
  rwa [Function.update_self] at hpointer

theorem gives_direct (image : Superblock → Bytes)
    (h : Owning mp files (Function.update inodes f inode)) (hf : f ∈ files)
    (hout : handedOut mp 0 = some b) (hs : s < 12) (absent : direct inode s = 0) :
    Gives files inodes f mp inode (takeBlock image mp b) (setDirect inode s b) s b := by
  obtain ⟨hchanged, -⟩ := changed_take image h hout
  obtain ⟨howning, hfresh⟩ := h.take image hout
  have hput := howning.putDirect (f := f) hfresh hs
  rw [Function.update_self, Function.update_idem] at hput
  exact
    { owning := hput
      ext := hchanged.ext
      contents := hchanged.contents
      out := hout
      rest := handedOut_takeBlock image h.layout h.fits hout
      absent := (pointer_direct hs).trans absent
      now := fun t _ => by
        rw [pointer_setDirect (hfresh.data.lt howning.layout) hs, pointer_take image h hf hout] }

theorem gives_indirect (image : Superblock → Bytes)
    (h : Owning mp files (Function.update inodes f inode)) (hf : f ∈ files)
    (hout : handedOut mp 0 = some b) (absent : indirect inode = 0) (blank : Blank (mp.blocks b)) :
    Gives files inodes f mp inode (takeBlock image mp b) (setIndirect inode b) dataSlots b := by
  obtain ⟨hchanged, hcontents⟩ := changed_take image h hout
  obtain ⟨howning, hfresh⟩ := h.take image hout
  have hblank : ∀ j, j < blockSize / 4 → entry ((takeBlock image mp b).blocks b) j = 0 := by
    rw [hcontents b (h.not_metadata (not_inUse_of_handedOut hout))]
    exact blank
  have hself : Function.update inodes f inode f = inode := Function.update_self ..
  have hput := howning.putIndirect (f := f) hfresh (by rwa [hself]) hblank
  rw [hself, Function.update_idem] at hput
  exact
    { owning := hput
      ext := hchanged.ext
      contents := hchanged.contents
      out := hout
      rest := handedOut_takeBlock image h.layout h.fits hout
      absent := pointer_indirect.trans absent
      now := fun t ht => by
        rw [pointer_setIndirect (hfresh.data.lt howning.layout) hfresh.data.ne_zero hblank absent ht,
          pointer_take image h hf hout] }

theorem gives_entry (image : Superblock → Bytes)
    (h : Owning mp files (Function.update inodes f inode)) (hf : f ∈ files)
    (hout : handedOut mp 0 = some b) (hj : j < blockSize / 4) (hind : indirect inode ≠ 0)
    (absent : entry (mp.blocks (indirect inode)) j = 0) :
    Gives files inodes f mp inode
      ((takeBlock image mp b).write (indirect inode) (setEntry (mp.blocks (indirect inode)) j b))
      inode (12 + j) b := by
  obtain ⟨hchanged, hcontents⟩ := changed_take image h hout
  obtain ⟨howning, hfresh⟩ := h.take image hout
  have hself : Function.update inodes f inode f = inode := Function.update_self ..
  have hdata := howning.indirect_data hf
  have hput := howning.putEntry hfresh hf hj
  have hmeta := (h.indirect_data hf (by rwa [hself])).2
  rw [hself] at hdata hput hmeta
  obtain ⟨huse, hmeta'⟩ := hdata hind
  rw [hcontents _ hmeta] at hput
  have hext := extends_write (x := setEntry (mp.blocks (indirect inode)) j b) howning.layout
    howning.table hmeta'
  exact
    { owning := hput hind
      ext := hchanged.ext.trans hext
      contents := fun c hc => by
        have hne : c ≠ indirect inode := fun e => hc (e ▸ hext.keeps _ huse)
        exact (Function.update_of_ne hne ..).trans
          (hchanged.contents c fun hc' => hc (hext.keeps c hc'))
      out := hout
      rest := fun k => (handedOut_write (bitmapBlock_ne hmeta') k).trans
        (handedOut_takeBlock image h.layout h.fits hout k)
      absent := (pointer_entry hj hind).trans absent
      now := fun t ht => by
        rw [← hcontents _ hmeta, pointer_setEntry (hfresh.data.lt howning.layout) hj hind ht,
          pointer_take image h hf hout] }

end Changes

/-! ### The block of a round -/

section DataBlock

variable {mp : Mount} {files : Finset Nat} {inodes : Nat → Bytes} {inode : Bytes}
variable {f n last j : Nat}

/-- What the search for a data block gives: the pointer of the file there. -/
structure Found (files : Finset Nat) (inodes : Nat → Bytes) (f n last : Nat) (mp : Mount)
    (inode : Bytes) (found : Option Nat × Mount × Bytes) : Prop where
  kept : Kept files inodes f mp inode found.2.1 found.2.2
  block : ∀ b ∈ found.1, Safe found.2.1 found.2.2 n last ∧ b ≠ 0 ∧
    pointer found.2.1 found.2.2 n = b

/-- A new block is found. -/
theorem Gives.found {mp' : Mount} {inode' : Bytes} {b : Nat}
    (hgives : Gives files inodes f mp inode mp' inode' n b)
    (h : Owning mp files (Function.update inodes f inode)) (hslots : n ≤ dataSlots)
    (hsafe : Safe mp inode n last) :
    Found files inodes f n last mp inode (some b, mp', inode') := by
  have hb := hgives.ne_zero h
  refine ⟨hgives.kept, ?_⟩
  intro c hc
  cases hc
  exact ⟨hgives.safe hb (Nat.le_refl n) hslots hsafe, hb, by rw [hgives.now n hslots, if_pos rfl]⟩

/-- A block that is there is found. -/
theorem found_present {b : Nat} (h : Owning mp files (Function.update inodes f inode))
    (hsafe : Safe mp inode n last) (hpresent : b ≠ 0) (hpointer : pointer mp inode n = b) :
    Found files inodes f n last mp inode (some b, mp, inode) := by
  refine ⟨.refl h, ?_⟩
  intro c hc
  cases hc
  exact ⟨hsafe, hpresent, hpointer⟩

theorem directBlock_found (image : Superblock → Bytes)
    (h : Owning mp files (Function.update inodes f inode)) (hf : f ∈ files)
    (hsafe : Safe mp inode n last) (hn : n < 12) :
    Found files inodes f n last mp inode (directBlock image mp inode n) := by
  have hslots : n ≤ dataSlots := Nat.le_of_lt (hn.trans (by decide))
  unfold directBlock
  split
  · rename_i habsent
    rw [allocBlock_eq image h.layout]
    cases hout : handedOut mp 0 with
    | none =>
      have hsame := same_inode h fun s => by
        rw [pointer_setDirect (b := 0) (by decide) hn]
        split
        · rename_i hs
          rw [hs, pointer_direct hn, habsent]
        · rfl
      exact ⟨hsame.kept, fun b hb => by cases hb⟩
    | some b =>
      have hgives := gives_direct image h hf hout hn habsent
      dsimp only
      rw [if_neg (hgives.ne_zero h)]
      exact hgives.found h hslots hsafe
  · rename_i hpresent
    exact found_present h hsafe hpresent (pointer_direct hn)

theorem entryBlock_found (image : Superblock → Bytes)
    (h : Owning mp files (Function.update inodes f inode)) (hf : f ∈ files)
    (hsafe : Safe mp inode (12 + j) last) (hj : j < blockSize / 4) (hind : indirect inode ≠ 0) :
    Found files inodes f (12 + j) last mp inode
      ((entryBlock image mp (indirect inode) j).1, (entryBlock image mp (indirect inode) j).2,
        inode) := by
  have hslots : 12 + j ≤ dataSlots := Nat.le_of_lt (Nat.add_lt_add_left hj 12)
  unfold entryBlock
  dsimp only
  split
  · rename_i habsent
    rw [allocBlock_eq image h.layout]
    cases hout : handedOut mp 0 with
    | none => exact ⟨.refl h, fun b hb => by cases hb⟩
    | some b =>
      have hgives := gives_entry image h hf hout hj hind habsent
      dsimp only
      rw [if_neg (hgives.ne_zero h)]
      exact hgives.found h hslots hsafe
  · rename_i hpresent
    exact found_present h hsafe hpresent (pointer_entry hj hind)

theorem Found.after {mp' : Mount} {inode' : Bytes} {found : Option Nat × Mount × Bytes}
    (h : Found files inodes f n last mp' inode' found)
    (hkept : Kept files inodes f mp inode mp' inode') :
    Found files inodes f n last mp inode found :=
  ⟨hkept.trans h.kept, h.block⟩

theorem indirectBlock_found (image : Superblock → Bytes)
    (h : Owning mp files (Function.update inodes f inode)) (hf : f ∈ files)
    (hsafe : Safe mp inode (12 + j) last) (hj : j < blockSize / 4)
    (hlast : (12 + j) * blockSize < last) :
    Found files inodes f (12 + j) last mp inode (indirectBlock image mp inode j) := by
  have hslots : 12 + j ≤ dataSlots := Nat.le_of_lt (Nat.add_lt_add_left hj 12)
  unfold indirectBlock
  split
  · rename_i habsent
    rw [allocBlock_eq image h.layout]
    cases hout : handedOut mp 0 with
    | none => exact ⟨(same_inode h (pointer_setIndirect_zero habsent)).kept, fun b hb => by cases hb⟩
    | some b =>
      have hnone : missing mp inode (12 + j) 12 = 0 := by
        rw [missing, Finset.Ico_eq_empty_of_le (Nat.le_add_right 12 j), Finset.filter_empty,
          Finset.card_empty]
      have hbeyond : 12 * blockSize < last :=
        Nat.lt_of_le_of_lt (Nat.mul_le_mul_right _ (Nat.le_add_right 12 j)) hlast
      have hblank := hsafe.blank habsent hbeyond b (by rwa [hnone])
      have hgives := gives_indirect image h hf hout habsent hblank
      have hb := hgives.ne_zero h
      have hself : indirect (setIndirect inode b) = b := by
        have hnow := hgives.now dataSlots (Nat.le_refl _)
        rwa [if_pos rfl, pointer_indirect] at hnow
      have hentry := entryBlock_found image hgives.owning hf
        (hgives.safe hb hslots (Nat.le_refl _) hsafe) hj (by rwa [hself])
      rw [hself] at hentry
      dsimp only
      rw [if_neg hb]
      exact hentry.after hgives.kept
  · rename_i hpresent
    exact entryBlock_found image h hf hsafe hj hpresent

/-- **The block that a round stores into** is one of the file, at its place. -/
theorem dataBlock_found (image : Superblock → Bytes)
    (h : Owning mp files (Function.update inodes f inode)) (hf : f ∈ files)
    (hsafe : Safe mp inode n last) (hlast : n * blockSize < last) (uninit : Nat) :
    Found files inodes f n last mp inode (dataBlock image mp inode n uninit) := by
  have hn : n < 12 + blockSize / 4 := hsafe.lt hlast
  unfold dataBlock
  by_cases hlow : n < 12
  · rw [if_pos hlow]
    exact directBlock_found image h hf hsafe hlow
  · rw [if_neg hlow, if_pos hn]
    obtain ⟨j, rfl⟩ := Nat.exists_eq_add_of_le (Nat.not_lt.mp hlow)
    rw [Nat.add_sub_cancel_left]
    exact indirectBlock_found image h hf hsafe (Nat.lt_of_add_lt_add_left hn) hlast

end DataBlock

/-! ### The loop -/

section Loop

variable {files : Finset Nat} {inodes : Nat → Bytes} {mp : Mount} {inode : Bytes}
variable {call : WriteCall} {w w' : Writing} {f n last b : Nat}

/-- The blocks that data went to are blocks of the file. -/
def Stored (mp : Mount) (inode : Bytes) (stored : List Nat) : Prop :=
  ∀ b ∈ stored, b ≠ 0 ∧ ∃ s < dataSlots, pointer mp inode s = b

/-- The invariant of the loop. -/
structure Looping (files : Finset Nat) (inodes : Nat → Bytes) (f : Nat) (mp : Mount)
    (inode : Bytes) (call : WriteCall) (last : Nat) (w : Writing) : Prop where
  kept : Kept files inodes f mp inode w.mp w.inode
  stored : Stored w.mp w.inode w.stored
  written : w.written ≤ call.count
  goes : w.written < call.count →
    last = w.pos + (call.count - w.written) ∧ Safe w.mp w.inode (w.pos / blockSize) last

theorem Stored.grown {mp' : Mount} {inode' : Bytes} {stored : List Nat}
    (h : Stored mp inode stored) (hgrown : Grown mp inode mp' inode') :
    Stored mp' inode' stored := by
  intro b hb
  obtain ⟨hne, s, hs, rfl⟩ := h b hb
  exact ⟨hne, s, hs, hgrown.keeps (Nat.le_of_lt hs) hne⟩

/-- How many bytes a round stores. -/
def chunkSize (call : WriteCall) (w : Writing) : Nat :=
  min (blockSize - w.pos % blockSize) (call.count - w.written)

theorem storeRound_written (hcount : call.count < 2 ^ 32) (hlt : w.written < call.count) :
    (storeRound call w b).written = w.written + chunkSize call w :=
  wrap32_of_lt (Nat.lt_of_le_of_lt (chunk_bounds w.pos hlt).2 hcount)

theorem storeRound_pos (call : WriteCall) (hn : w.pos / blockSize < dataSlots) :
    (storeRound call w b).pos = w.pos + chunkSize call w := by
  apply wrap32_of_lt
  unfold dataSlots blockSize at *
  omega

/-- A round that is not the last one fills its block. -/
theorem chunkSize_next (h : w.written + chunkSize call w < call.count) :
    (w.pos + chunkSize call w) / blockSize = w.pos / blockSize + 1 := by
  unfold chunkSize blockSize at *
  omega

theorem storeRound_mp (call : WriteCall) (w : Writing) (b : Nat) :
    ∃ x, (storeRound call w b).mp = w.mp.write b x :=
  ⟨_, rfl⟩

theorem storeRound_inode (mp : Mount) (call : WriteCall) (w : Writing) (b s : Nat) :
    pointer mp (storeRound call w b).inode s = pointer mp w.inode s := by
  unfold storeRound
  dsimp only
  split
  · exact pointer_setFileSize _ s
  · rfl

/-- Storing the data leaves the pointers. -/
theorem storeRound_kept (call : WriteCall)
    (h : Owning w.mp files (Function.update inodes f w.inode)) (hf : f ∈ files)
    (hn : n < dataSlots) (hpointer : pointer w.mp w.inode n = b) (hb : b ≠ 0) :
    Kept files inodes f w.mp w.inode (storeRound call w b).mp (storeRound call w b).inode ∧
      ∀ last, Safe w.mp w.inode n last →
        Safe (storeRound call w b).mp (storeRound call w b).inode n last := by
  subst hpointer
  obtain ⟨x, hx⟩ := storeRound_mp call w (pointer w.mp w.inode n)
  rw [hx]
  have hstore := same_store h hf hn hb x
  have hsize := same_inode hstore.owning (storeRound_inode _ call w (pointer w.mp w.inode n))
  exact ⟨hstore.kept.trans hsize.kept, fun last hsafe => hsize.safe (hstore.safe hsafe)⟩

/-- The block that a round is at begins before the end of the write. -/
theorem Looping.block_lt (h : Looping files inodes f mp inode call last w)
    (hlt : w.written < call.count) : w.pos / blockSize * blockSize < last := by
  obtain ⟨hlast, -⟩ := h.goes hlt
  rw [hlast]
  exact Nat.lt_of_le_of_lt (Nat.div_mul_le_self _ _) (Nat.lt_add_of_pos_right (Nat.sub_pos_of_lt hlt))

/-- **Round lemma.** -/
theorem Looping.round (image : Superblock → Bytes) (h : Looping files inodes f mp inode call last w)
    (hf : f ∈ files) (hcount : call.count < 2 ^ 32) (hlt : w.written < call.count)
    {mp' : Mount} {inode' : Bytes}
    (hfound : dataBlock image w.mp w.inode (w.pos / blockSize) (call.stack.dataBlock w.written) =
      (some b, mp', inode')) :
    Looping files inodes f mp inode call last
      (storeRound call { w with mp := mp', inode := inode' } b) := by
  obtain ⟨hlast, hsafe⟩ := h.goes hlt
  have hblock := h.block_lt hlt
  have hn := hsafe.lt hblock
  have hdata := dataBlock_found image h.kept.owning hf hsafe hblock
    (call.stack.dataBlock w.written)
  rw [hfound] at hdata
  obtain ⟨hsafe', hb, hpointer⟩ := hdata.block b rfl
  obtain ⟨hround, hkeeps⟩ := storeRound_kept call
    (w := { w with mp := mp', inode := inode' }) hdata.kept.owning hf hn hpointer hb
  have hpresent : pointer mp' inode' (w.pos / blockSize) ≠ 0 := by rwa [hpointer]
  have hthere := hround.grown.keeps (Nat.le_of_lt hn) hpresent
  have hwritten := storeRound_written (w := { w with mp := mp', inode := inode' }) (b := b)
    hcount hlt
  have hpos := storeRound_pos call (w := { w with mp := mp', inode := inode' }) (b := b) hn
  refine ⟨(h.kept.trans hdata.kept).trans hround, ?_, ?_, ?_⟩
  · intro c hc
    rcases List.mem_cons.mp hc with rfl | hc
    · exact ⟨hb, _, hn, hthere.trans hpointer⟩
    · exact (h.stored.grown hdata.kept.grown).grown hround.grown c hc
  · rw [hwritten]
    exact (chunk_bounds w.pos hlt).2
  · intro hlt'
    rw [hwritten] at hlt' ⊢
    rw [hpos, chunkSize_next hlt']
    refine ⟨?_, (hkeeps last hsafe').next hn (by rwa [hthere])⟩
    dsimp only at hlt' ⊢
    omega

/-- **Loop lemma.** -/
theorem Looping.loop (image : Superblock → Bytes) (hf : f ∈ files) (hcount : call.count < 2 ^ 32)
    (rounds : Nat) (h : Looping files inodes f mp inode call last w)
    (hloop : writeLoop image call rounds w = some w') :
    Kept files inodes f mp inode w'.mp w'.inode ∧ Stored w'.mp w'.inode w'.stored := by
  refine writeLoop_induct (P := Looping files inodes f mp inode call last)
    (Q := fun w => Kept files inodes f mp inode w.mp w.inode ∧ Stored w.mp w.inode w.stored)
    image ?_ ?_ ?_ rounds h hloop
  · intro w b mp' inode' h hlt hfound
    exact h.round image hf hcount hlt hfound
  · intro w mp' inode' h hlt hfound
    have hdata := dataBlock_found image h.kept.owning hf (h.goes hlt).2 (h.block_lt hlt)
      (call.stack.dataBlock w.written)
    rw [hfound] at hdata
    exact ⟨h.kept.trans hdata.kept, h.stored.grown hdata.kept.grown⟩
  · intro w h _
    exact ⟨h.kept, h.stored⟩

end Loop

end ArmKernel.Fs

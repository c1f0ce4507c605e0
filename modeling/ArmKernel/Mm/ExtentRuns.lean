/-
Runs of the allocator of `mm_alloc.c`.

A program calls `mm_alloc` and `mm_free` in any order, with pointers it was given and has
not freed; `mm_alloc_pages` answers with fresh regions or with `NULL`.

* `Kept`: the free list is in order, and the blocks that are not free are the live pointers.
* `kept_alloc`, `kept_free`: calls that neither split nor merge keep it, when the footer
  of a new region happens to be right.
* `not_sound_of_alloc`, `not_sound_of_free`: every other call breaks soundness.
* `extents_sound_iff`: so the sound runs are exactly those.
-/
import ArmKernel.Mm.Extents

namespace ArmKernel.Mm

open ArmKernel.Support

/-! ### The condition -/

/-- A free block that the walk of `mm_alloc` meets. -/
def FreeBlock (s : MmState) (block : Nat) : Prop :=
  OnChain (nextOf s.mem) (ptr s.freeList) block ∧ freeAt s.mem block = true

/-- The number of pages for `size` bytes does not wrap, they leave less than
`MIN_BLOCK_SIZE` over, and their last word holds their address already. -/
def RegionFits (size : Nat) (g : Grant) : Prop :=
  size + headerSize + footerSize + pageSize - 1 < 2 ^ 32 ∧
    pagesFor size * pageSize < size + headerSize + footerSize + minBlockSize ∧
    readWord g.contents (g.base + pagesFor size * pageSize - footerSize) = g.base

/-- `mm_alloc` of `size` bytes, rounded up, takes a block as it is: one on the list that is
less than `MIN_BLOCK_SIZE` too large; or none is large enough and `mm_alloc_pages` returns
`NULL` or pages that fit. -/
def TakesWhole (s : MmState) (size : Nat) (grant : Option Grant) : Prop :=
  (∃ b, FreeBlock s b ∧ size ≤ sizeAt s.mem b ∧ sizeAt s.mem b < size + minBlockSize) ∨
    (∀ b, FreeBlock s b → sizeAt s.mem b < size) ∧ ∀ g, grant = some g → RegionFits size g

/-- The call leaves every block the size of its region. -/
def KeepsWhole (s : MmSystem) : MmCall → Prop
  | .alloc size grant => size = 0 ∨ TakesWhole s.heap (align8 size) grant
  | .free addr => addr = 0 ∨
      ¬ FreeAfter s.heap.mem (sub32 addr headerSize) ∧
        ¬ FreeBefore s.heap.mem (sub32 addr headerSize)

/-! ### The invariant -/

/-- The live pointers are those into the blocks that are not free. -/
def Owns (bs : List Block) (live : List Nat) : Prop :=
  ∀ p, p ∈ live ↔ ∃ b ∈ bs, b.free = false ∧ p = b.addr + headerSize

/-- The list is in order and its taken blocks are live. -/
def Kept (s : MmSystem) : Prop := ∃ bs, InOrder s.heap bs ∧ Owns bs s.live

section Owns

variable {l r bs : List Block} {b : Block} {live : List Nat}

theorem Owns.take (h : Owns (l ++ b :: r) live) :
    Owns (l ++ { b with free := false } :: r) ((b.addr + headerSize) :: live) := by
  intro p
  rw [List.mem_cons, h p]
  simp only [List.mem_append, List.mem_cons]
  constructor
  · rintro (rfl | ⟨c, hc | rfl | hc, hfree, rfl⟩)
    · exact ⟨_, Or.inr (Or.inl rfl), rfl, rfl⟩
    · exact ⟨c, Or.inl hc, hfree, rfl⟩
    · exact ⟨_, Or.inr (Or.inl rfl), rfl, rfl⟩
    · exact ⟨c, Or.inr (Or.inr hc), hfree, rfl⟩
  · rintro ⟨c, hc | rfl | hc, hfree, rfl⟩
    · exact Or.inr ⟨c, Or.inl hc, hfree, rfl⟩
    · exact Or.inl rfl
    · exact Or.inr ⟨c, Or.inr (Or.inr hc), hfree, rfl⟩

theorem Owns.release (h : Owns (l ++ b :: r) live) (hne : ∀ c ∈ l ++ r, c.addr ≠ b.addr) :
    Owns (l ++ { b with free := true } :: r) (live.filter (· ≠ b.addr + headerSize)) := by
  intro p
  simp only [List.mem_filter, h p, List.mem_append, List.mem_cons, decide_eq_true_eq]
  constructor
  · rintro ⟨⟨c, hc | rfl | hc, hfree, rfl⟩, hp⟩
    · exact ⟨c, Or.inl hc, hfree, rfl⟩
    · exact absurd rfl hp
    · exact ⟨c, Or.inr (Or.inr hc), hfree, rfl⟩
  · rintro ⟨c, hc | rfl | hc, hfree, rfl⟩
    · have hcb := hne c (List.mem_append_left r hc)
      exact ⟨⟨c, Or.inl hc, hfree, rfl⟩, by omega⟩
    · simp at hfree
    · have hcb := hne c (List.mem_append_right l hc)
      exact ⟨⟨c, Or.inr (Or.inr hc), hfree, rfl⟩, by omega⟩

/-- No block is at an address that makes its pointer `NULL`. -/
theorem Owns.null_notMem (h : Owns bs live) : (0 : Nat) ∉ live := fun h0 => by
  obtain ⟨b, -, -, hb⟩ := (h 0).mp h0
  rw [headerSize_eq] at hb
  omega

end Owns

section Steps

variable {s : MmState} {bs l r : List Block} {b : Block} {g : Grant} {size n : Nat}

theorem align8_lt (size : Nat) : align8 size < 2 ^ 32 := by
  have := wrap32_lt (size + 7)
  unfold align8
  omega

/-- Free blocks in memory are the free blocks of the list. -/
theorem Sited.freeBlock_iff (h : Sited s bs) {a : Nat} :
    FreeBlock s a ↔ ∃ b ∈ bs, b.free = true ∧ b.addr = a := by
  unfold FreeBlock
  rw [h.chain.onChain_iff, List.mem_map]
  constructor
  · rintro ⟨⟨b, hb, rfl⟩, hfree⟩
    exact ⟨b, hb, h.freeAt_eq hb ▸ hfree, rfl⟩
  · rintro ⟨b, hb, hfree, rfl⟩
    exact ⟨⟨b, hb, rfl⟩, (h.freeAt_eq hb).trans hfree⟩

/-- When a block fits, the condition is that the smallest one leaves little over. -/
theorem takesWhole_iff_of_fits {grant : Option Grant} (h : Sited s bs) (hb : b ∈ bs)
    (hfits : b.Fits n) (hleast : ∀ c ∈ bs, c.Fits n → b.size ≤ c.size) :
    TakesWhole s n grant ↔ b.size < n + minBlockSize := by
  unfold TakesWhole
  constructor
  · rintro (⟨a, ha, hlo, hhi⟩ | ⟨hall, -⟩)
    · obtain ⟨c, hc, hcf, rfl⟩ := h.freeBlock_iff.mp ha
      rw [h.sizeAt_eq hc] at hlo hhi
      have := hleast c hc ⟨hcf, hlo⟩
      omega
    · have hlt := hall b.addr (h.freeBlock_iff.mpr ⟨b, hb, hfits.1, rfl⟩)
      rw [h.sizeAt_eq hb] at hlt
      exact absurd hfits.2 (Nat.not_le.mpr hlt)
  · intro hlt
    refine Or.inl ⟨b.addr, h.freeBlock_iff.mpr ⟨b, hb, hfits.1, rfl⟩, ?_⟩
    rw [h.sizeAt_eq hb]
    exact ⟨hfits.2, hlt⟩

/-- When no block fits, it is about the new region. -/
theorem takesWhole_iff_of_none {grant : Option Grant} (h : Sited s bs)
    (hnone : ∀ c ∈ bs, ¬ c.Fits n) :
    TakesWhole s n grant ↔ ∀ g, grant = some g → RegionFits n g := by
  unfold TakesWhole
  constructor
  · rintro (⟨a, ha, hlo, -⟩ | ⟨-, hnew⟩)
    · obtain ⟨c, hc, hcf, rfl⟩ := h.freeBlock_iff.mp ha
      rw [h.sizeAt_eq hc] at hlo
      exact absurd ⟨hcf, hlo⟩ (hnone c hc)
    · exact hnew
  · intro hnew
    refine Or.inr ⟨?_, hnew⟩
    intro a ha
    obtain ⟨c, hc, hcf, rfl⟩ := h.freeBlock_iff.mp ha
    rw [h.sizeAt_eq hc]
    exact Nat.not_le.mp fun hle => hnone c hc ⟨hcf, hle⟩

/-! ### `mm_alloc` -/

/-- **What `mm_alloc` does** with a list in order. -/
theorem mmAlloc_cases (h : Sited s bs) (hsize : size ≠ 0) (grant : Option Grant) :
    (∀ c ∈ bs, ¬ c.Fits (align8 size)) ∧
        (grant = none ∧ mmAlloc s size grant = some (s, 0) ∨
          ∃ g, grant = some g ∧ mmAlloc s size grant =
            some (takeBlock (addRegion s (pagesFor (align8 size)) g) g.base (align8 size))) ∨
      ∃ l b r, bs = l ++ b :: r ∧ b.Fits (align8 size) ∧
        (∀ c ∈ bs, c.Fits (align8 size) → b.size ≤ c.size) ∧
        mmAlloc s size grant = some (takeBlock s b.addr (align8 size)) := by
  unfold mmAlloc
  rw [if_neg hsize]
  rcases h.bestFit (align8 size) with ⟨hfound, hnone⟩ | ⟨b, hb, hfits, hleast, hfound⟩
  · refine Or.inl ⟨hnone, ?_⟩
    simp only [hfound]
    cases grant with
    | none => exact Or.inl ⟨rfl, rfl⟩
    | some g => exact Or.inr ⟨g, rfl, rfl⟩
  · obtain ⟨l, r, rfl⟩ := List.append_of_mem hb
    refine Or.inr ⟨l, b, r, rfl, hfits, hleast, ?_⟩
    simp only [hfound, Option.map_some]
    rw [if_pos (h.placed b hb).nonnull.ne']

/-- A block that is taken whole. -/
theorem takeBlock_kept (h : InOrder s (l ++ b :: r)) (hn : n ≤ b.size)
    (htight : b.size < n + minBlockSize) :
    InOrder (takeBlock s b.addr n).1 (l ++ { b with free := false } :: r) ∧
      (takeBlock s b.addr n).2 = b.addr + headerSize := by
  have hb : b ∈ l ++ b :: r := List.mem_append_right l List.mem_cons_self
  have hbounds := (h.placed b hb).bounds
  rw [minBlockSize_eq] at htight
  have hkeep : splitBlock s b.addr n = s :=
    splitBlock_of_tight (h.sizeAt_eq hb) (by omega) hn htight
  refine ⟨?_, wrap32_of_lt (by rw [headerSize_eq]; omega)⟩
  show InOrder (setFree (splitBlock s b.addr n) b.addr false) _
  rw [hkeep]
  exact h.flag false

/-- The number of pages, when the sum does not wrap. -/
theorem pagesFor_of_fits (hn : n + headerSize + footerSize + pageSize - 1 < 2 ^ 32) :
    0 < pagesFor n ∧ n + 24 ≤ pagesFor n * 4096 := by
  unfold pagesFor
  rw [wrap32_of_lt hn, headerSize_eq, footerSize_eq, pageSize_eq]
  omega

/-- A block that is split. -/
theorem not_sound_of_takeBlock (h : Sited s (l ++ b :: r)) (hloose : ¬ b.size < n + minBlockSize) :
    ¬ ExtentsSound (takeBlock s b.addr n).1 := by
  rw [minBlockSize_eq] at hloose
  exact not_sound_of_split h (by omega)

/-- A block that is taken whole keeps its footer, right or wrong. -/
theorem not_sound_of_footer (h : Sited s (l ++ b :: r)) (hn : n ≤ b.size)
    (htight : b.size < n + minBlockSize) (hfooter : ¬ Footed s.mem b) :
    ¬ ExtentsSound (takeBlock s b.addr n).1 := by
  intro hsound
  have hb : b ∈ l ++ b :: r := List.mem_append_right l List.mem_cons_self
  have hplaced := h.placed b hb
  have hbounds := hplaced.bounds
  rw [minBlockSize_eq] at htight
  have hkeep : splitBlock s b.addr n = s :=
    splitBlock_of_tight (h.sizeAt_eq hb) (by omega) hn htight
  have hstate : (takeBlock s b.addr n).1 = setFree s b.addr false := by
    show setFree (splitBlock s b.addr n) b.addr false = _
    rw [hkeep]
  rw [hstate] at hsound
  have hflag := h.flag false
  have hb' : { b with free := false } ∈ l ++ { b with free := false } :: r :=
    List.mem_append_right l List.mem_cons_self
  obtain ⟨hsize, -, hword⟩ := hsound.block (hflag.chain.mem_onChain (List.mem_map_of_mem hb'))
  have hcomputed : (setFree s b.addr false).computed b.addr = b.size :=
    hsize.symm.trans (hflag.sizeAt_eq hb')
  have haddr : wrap32 (b.addr + b.size + headerSize) = b.addr + b.size + headerSize :=
    wrap32_of_lt (by rw [headerSize_eq]; omega)
  simp only [hcomputed, haddr] at hword
  exact hfooter ((footed_setFree hplaced hbounds.2.1 false).mp hword)

/-- **A number of pages that wraps** makes a block larger than any region. -/
theorem not_sound_of_wrap (h : Sited s bs) (hf : Fresh s.regions (pagesFor n) g.base)
    (hn : n < 2 ^ 32) (hwrap : ¬ n + headerSize + footerSize + pageSize - 1 < 2 ^ 32) :
    ¬ ExtentsSound (takeBlock (addRegion s (pagesFor n) g) g.base n).1 := by
  intro hsound
  rw [headerSize_eq, footerSize_eq, pageSize_eq] at hwrap
  have hpos := hf.nonnull
  have haligned := hf.aligned
  have hfits := hf.fits
  rw [pageSize_eq] at haligned hfits
  obtain ⟨-, ⟨region, hmem, hlo, hhi⟩, -⟩ := hsound.block (x := g.base) (by
    show OnChain _ (ptr (setFree (splitBlock _ _ _) _ _).freeList) g.base
    rw [setFree_freeList, splitBlock_freeList, addRegion_freeList, ptr_of_pos hpos]
    exact .here)
  -- No region reaches beyond the address space.
  have hend : region.1 + region.2 ≤ 2 ^ 32 := by
    simp only [takeBlock, setFree_regions, splitBlock_regions, addRegion_regions,
      List.mem_cons] at hmem
    rcases hmem with rfl | hmem
    · exact hf.fits
    · rw [h.regions] at hmem
      obtain ⟨c, hc, rfl⟩ := List.mem_map.mp hmem
      exact (h.placed c hc).fits
  have hcomputed : 2 ^ 32 - 4119 ≤ (takeBlock (addRegion s (pagesFor n) g) g.base n).1.computed
      g.base := by
    show _ ≤ (splitBlock (addRegion s (pagesFor n) g) g.base n).computed g.base
    rw [splitBlock_computed]
    split
    · omega
    · rename_i hnosplit
      rcases Nat.eq_zero_or_pos (pagesFor n) with hzero | hpages
      · -- No page at all, and a size below zero.
        have hsize : (addRegion s 0 g).computed g.base = 2 ^ 32 - 24 := by
          simp [addRegion, grantPages]
          decide
        rw [hzero, hsize]
        omega
      · -- One page, and more asked for than it has: the difference wraps.
        have hone : pagesFor n = 1 := by
          unfold pagesFor wrap32 at hpages ⊢
          rw [headerSize_eq, footerSize_eq, pageSize_eq] at hpages ⊢
          omega
        have hlarge : 2 ^ 32 - 23 ≤ n := by
          unfold pagesFor wrap32 at hpages
          rw [headerSize_eq, footerSize_eq, pageSize_eq] at hpages
          omega
        have hsize : sizeAt (addRegion s (pagesFor n) g).mem g.base = 4072 := by
          have hsite := addRegion_sited h hf hpages
          exact (hsite.sizeAt_eq List.mem_cons_self).trans (by rw [hone]; rfl)
        rw [hsize, minBlockSize_eq] at hnosplit
        unfold sub32 wrap32 at hnosplit
        omega
  simp only [headerSize_eq, footerSize_eq] at hhi
  omega

theorem kept_of_regionFits (h : InOrder s bs) (hf : Fresh s.regions (pagesFor n) g.base)
    (hfits : RegionFits n g) :
    InOrder (takeBlock (addRegion s (pagesFor n) g) g.base n).1
        ({ newBlock g.base (pagesFor n) with free := false } :: bs) ∧
      (takeBlock (addRegion s (pagesFor n) g) g.base n).2 = g.base + headerSize := by
  obtain ⟨hnowrap, htight, hlast⟩ := hfits
  obtain ⟨hpages, hroom⟩ := pagesFor_of_fits hnowrap
  rw [headerSize_eq, footerSize_eq, pageSize_eq] at htight
  rw [footerSize_eq, pageSize_eq] at hlast
  generalize pagesFor n = pages at hf htight hlast hpages hroom ⊢
  have hsize := newBlock_size g.base pages
  have hnew : InOrder (addRegion s pages g) ([] ++ newBlock g.base pages :: bs) :=
    addRegion_inOrder h hf hpages hlast
  exact takeBlock_kept (b := newBlock g.base pages) hnew (by omega) (by omega)

theorem not_sound_of_region (h : InOrder s bs) (hf : Fresh s.regions (pagesFor n) g.base)
    (hn : n < 2 ^ 32) (hnot : ¬ RegionFits n g) :
    ¬ ExtentsSound (takeBlock (addRegion s (pagesFor n) g) g.base n).1 := by
  by_cases hnowrap : n + headerSize + footerSize + pageSize - 1 < 2 ^ 32
  · obtain ⟨hpages, hroom⟩ := pagesFor_of_fits hnowrap
    unfold RegionFits at hnot
    generalize pagesFor n = pages at hf hnot hpages hroom ⊢
    have hsize := newBlock_size g.base pages
    have hsite : Sited (addRegion s pages g) ([] ++ newBlock g.base pages :: bs) :=
      addRegion_sited h.toSited hf hpages
    by_cases htight : (newBlock g.base pages).size < n + minBlockSize
    · -- The block is taken whole, with whatever footer the pages had.
      refine not_sound_of_footer (b := newBlock g.base pages) hsite (by omega) htight
        fun hfooter => hnot ?_
      rw [footed_addRegion h.toSited hf hpages] at hfooter
      refine ⟨hnowrap, ?_, ?_⟩
      · rw [headerSize_eq, footerSize_eq, pageSize_eq]
        omega
      · rw [footerSize_eq, pageSize_eq]
        exact hfooter
    · exact not_sound_of_takeBlock (b := newBlock g.base pages) hsite htight
  · exact not_sound_of_wrap h.toSited hf hn hnowrap

/-- **Sound calls of `mm_alloc`** keep the list in order. -/
theorem kept_alloc {live : List Nat} {grant : Option Grant} (h : InOrder s bs) (ho : Owns bs live)
    (hallowed : Allowed ⟨s, live⟩ (.alloc size grant))
    (hok : size = 0 ∨ TakesWhole s (align8 size) grant) :
    ∃ r, mmAlloc s size grant = some r ∧
      Kept ⟨r.1, if r.2 = 0 then live else r.2 :: live⟩ := by
  rcases eq_or_ne size 0 with rfl | hsize
  · exact ⟨(s, 0), rfl, bs, h, ho⟩
  have htakes := hok.resolve_left hsize
  rcases mmAlloc_cases h.toSited hsize grant with
    ⟨hnone, ⟨rfl, hcall⟩ | ⟨g, rfl, hcall⟩⟩ | ⟨l, b, r, rfl, hfits, hleast, hcall⟩
  · exact ⟨_, hcall, bs, h, ho⟩
  · -- A new region.
    have hfits := (takesWhole_iff_of_none h.toSited hnone).mp htakes g rfl
    obtain ⟨hkept, hptr⟩ := kept_of_regionFits h hallowed.2 hfits
    refine ⟨_, hcall, _, hkept, ?_⟩
    rw [hptr, if_neg (by rw [headerSize_eq]; omega)]
    refine Owns.take (l := []) (b := newBlock g.base (pagesFor (align8 size))) ?_
    intro p
    rw [ho p]
    simp [newBlock]
  · -- A block of the list.
    have hb : b ∈ l ++ b :: r := List.mem_append_right l List.mem_cons_self
    have htight := (takesWhole_iff_of_fits h.toSited hb hfits hleast).mp htakes
    obtain ⟨hkept, hptr⟩ := takeBlock_kept h hfits.2 htight
    refine ⟨_, hcall, _, hkept, ?_⟩
    rw [hptr, if_neg (by rw [headerSize_eq]; omega)]
    exact ho.take

/-- **All other calls of `mm_alloc`** break soundness. -/
theorem not_sound_of_alloc {live : List Nat} {grant : Option Grant} (h : InOrder s bs)
    (hallowed : Allowed ⟨s, live⟩ (.alloc size grant))
    (hbad : ¬ (size = 0 ∨ TakesWhole s (align8 size) grant)) :
    ∃ r, mmAlloc s size grant = some r ∧ ¬ ExtentsSound r.1 := by
  obtain ⟨hsize, hnot⟩ := not_or.mp hbad
  rcases mmAlloc_cases h.toSited hsize grant with
    ⟨hnone, ⟨rfl, hcall⟩ | ⟨g, rfl, hcall⟩⟩ | ⟨l, b, r, rfl, hfits, hleast, hcall⟩
  · rw [takesWhole_iff_of_none h.toSited hnone] at hnot
    exact absurd nofun hnot
  · rw [takesWhole_iff_of_none h.toSited hnone] at hnot
    refine ⟨_, hcall, not_sound_of_region h hallowed.2 (align8_lt size) fun hfits => hnot ?_⟩
    intro g' hg'
    obtain rfl := Option.some.inj hg'
    exact hfits
  · have hb : b ∈ l ++ b :: r := List.mem_append_right l List.mem_cons_self
    rw [takesWhole_iff_of_fits h.toSited hb hfits hleast] at hnot
    exact ⟨_, hcall, not_sound_of_takeBlock h.toSited hnot⟩

/-! ### `mm_free` -/

/-- What `mm_free` does with a live pointer. -/
theorem mmFree_eq (h : Sited s (l ++ b :: r)) :
    mmFree s (b.addr + headerSize) = coalesce (setFree s b.addr true) b.addr := by
  have hbounds := (h.placed b (List.mem_append_right l List.mem_cons_self)).bounds
  have hblock : sub32 (b.addr + headerSize) headerSize = b.addr := by
    rw [headerSize_eq, sub32_of_le (by omega) (by omega)]
    omega
  have hmagic : magicAt s.mem b.addr = blockMagic := congrArg Header.magic h.header
  unfold mmFree
  rw [if_neg (by omega), hblock]
  simp only [hmagic, ne_eq, not_true_eq_false, if_false]

/-- Marking a block leaves the flags of its neighbours. -/
theorem freeAfter_setFree (h : Sited s (l ++ b :: r)) (free : Bool) :
    FreeAfter (setFree s b.addr free).mem b.addr ↔ FreeAfter s.mem b.addr := by
  have hflag := h.flag free
  have hnext : nextAt (setFree s b.addr free).mem b.addr = nextAt s.mem b.addr :=
    (Sited.next_eq hflag).trans h.next_eq.symm
  unfold FreeAfter
  rw [hnext]
  apply and_congr_right
  intro hne
  obtain ⟨c, r, rfl, hc⟩ := h.exists_after hne
  rw [hc, h.freeAt_eq (b := c) (by simp), hflag.freeAt_eq (b := c) (by simp)]

theorem freeBefore_setFree (h : Sited s (l ++ b :: r)) (free : Bool) :
    FreeBefore (setFree s b.addr free).mem b.addr ↔ FreeBefore s.mem b.addr := by
  have hflag := h.flag free
  have hprev : prevAt (setFree s b.addr free).mem b.addr = prevAt s.mem b.addr :=
    (Sited.prev_eq hflag).trans h.prev_eq.symm
  unfold FreeBefore
  rw [hprev]
  apply and_congr_right
  intro hne
  obtain ⟨l, p, rfl, hp⟩ := h.exists_before hne
  rw [hp, h.freeAt_eq (b := p) (by simp), hflag.freeAt_eq (b := p) (by simp)]

/-- Without a free neighbour nothing is merged. -/
theorem coalesce_idle {a : Nat} (hafter : ¬ FreeAfter s.mem a) (hbefore : ¬ FreeBefore s.mem a) :
    coalesce s a = s := by
  have hnext : coalesceNext s a = s := if_neg hafter
  rw [coalesce, hnext]
  exact if_neg hbefore

/-- The block of a live pointer. -/
theorem Owns.exists_block {live : List Nat} {addr : Nat} (h : Sited s bs) (ho : Owns bs live)
    (haddr : addr ∈ live) : ∃ l b r, bs = l ++ b :: r ∧ addr = b.addr + headerSize ∧
      sub32 addr headerSize = b.addr := by
  obtain ⟨b, hb, -, rfl⟩ := (ho addr).mp haddr
  have hbounds := (h.placed b hb).bounds
  obtain ⟨l, r, rfl⟩ := List.append_of_mem hb
  refine ⟨l, b, r, rfl, rfl, ?_⟩
  rw [headerSize_eq, sub32_of_le (by omega) (by omega)]
  omega

/-- **Sound calls of `mm_free`** keep the list in order. -/
theorem kept_free {live : List Nat} {addr : Nat} (h : InOrder s bs) (ho : Owns bs live)
    (haddr : addr = 0 ∨ addr ∈ live)
    (hok : addr = 0 ∨ ¬ FreeAfter s.mem (sub32 addr headerSize) ∧
      ¬ FreeBefore s.mem (sub32 addr headerSize)) :
    Kept ⟨mmFree s addr, live.filter (· ≠ addr)⟩ := by
  rcases eq_or_ne addr 0 with rfl | hne
  · refine ⟨bs, h, ?_⟩
    have hlive : live.filter (· ≠ 0) = live := List.filter_eq_self.mpr fun p hp => by
      have hp0 : p ≠ 0 := fun heq => ho.null_notMem (heq ▸ hp)
      simpa using hp0
    show Owns bs (live.filter (· ≠ 0))
    rwa [hlive]
  · obtain ⟨l, b, r, rfl, rfl, hblock⟩ := ho.exists_block h.toSited (haddr.resolve_left hne)
    obtain ⟨hafter, hbefore⟩ := hok.resolve_left hne
    rw [hblock] at hafter hbefore
    rw [mmFree_eq h.toSited, coalesce_idle (mt (freeAfter_setFree h.toSited true).mp hafter)
      (mt (freeBefore_setFree h.toSited true).mp hbefore)]
    exact ⟨_, h.flag true, ho.release fun c hc => h.addr_ne hc⟩

/-- **All other calls of `mm_free`** break soundness. -/
theorem not_sound_of_free {live : List Nat} {addr : Nat} (h : InOrder s bs) (ho : Owns bs live)
    (haddr : addr = 0 ∨ addr ∈ live)
    (hbad : ¬ (addr = 0 ∨ ¬ FreeAfter s.mem (sub32 addr headerSize) ∧
      ¬ FreeBefore s.mem (sub32 addr headerSize))) : ¬ ExtentsSound (mmFree s addr) := by
  obtain ⟨hne, hmerge⟩ := not_or.mp hbad
  obtain ⟨l, b, r, rfl, rfl, hblock⟩ := ho.exists_block h.toSited (haddr.resolve_left hne)
  rw [hblock, not_and_or, not_not, not_not] at hmerge
  rw [mmFree_eq h.toSited]
  refine not_sound_of_coalesce (b := { b with free := true }) (h.toSited.flag true) ?_
  exact hmerge.imp (freeAfter_setFree h.toSited true).mpr (freeBefore_setFree h.toSited true).mpr

end Steps

/-! ### The system -/

section System

variable {s s' : MmSystem} {call : MmCall} {g : Grant}

/-- A call that is made was allowed, and does what it does. -/
theorem performed_of_step (h : mmStep s call = some s') :
    Allowed s call ∧ perform s call = some s' := by
  unfold mmStep at h
  split at h
  · rename_i hallowed
    exact ⟨hallowed, h⟩
  · cases h

/-- **The step.** Sound calls keep the invariant. -/
theorem kept_step (hs : Kept s) (hok : KeepsWhole s call) (hstep : mmStep s call = some s') :
    Kept s' := by
  obtain ⟨bs, h, ho⟩ := hs
  obtain ⟨hallowed, hdoes⟩ := performed_of_step hstep
  cases call with
  | alloc size grant =>
    obtain ⟨r, hcall, hkept⟩ := kept_alloc h ho hallowed hok
    rw [perform, hcall] at hdoes
    exact Option.some.inj hdoes ▸ hkept
  | free addr => exact Option.some.inj hdoes ▸ kept_free h ho hallowed hok

/-- All other calls break soundness. -/
theorem not_sound_step (hs : Kept s) (hbad : ¬ KeepsWhole s call)
    (hstep : mmStep s call = some s') : ¬ ExtentsSound s'.heap := by
  obtain ⟨bs, h, ho⟩ := hs
  obtain ⟨hallowed, hdoes⟩ := performed_of_step hstep
  cases call with
  | alloc size grant =>
    obtain ⟨r, hcall, hnot⟩ := not_sound_of_alloc h hallowed hbad
    rw [perform, hcall] at hdoes
    exact Option.some.inj hdoes ▸ hnot
  | free addr => exact Option.some.inj hdoes ▸ not_sound_of_free h ho hallowed hbad

/-- Every allowed call comes back. -/
theorem mmStep_returns (hs : Kept s) (hallowed : Allowed s call) :
    ∃ s', mmStep s call = some s' := by
  obtain ⟨bs, h, ho⟩ := hs
  unfold mmStep
  rw [if_pos hallowed]
  cases call with
  | alloc size grant =>
    rcases eq_or_ne size 0 with rfl | hsize
    · exact ⟨_, rfl⟩
    · rcases mmAlloc_cases h.toSited hsize grant with
        ⟨-, ⟨-, hcall⟩ | ⟨g, -, hcall⟩⟩ | ⟨l, b, r, -, -, -, hcall⟩
      · exact ⟨_, congrArg (Option.map _) hcall⟩
      · exact ⟨_, congrArg (Option.map _) hcall⟩
      · exact ⟨_, congrArg (Option.map _) hcall⟩
  | free addr => exact ⟨_, rfl⟩

/-- **`mm_alloc_init`** makes one block of the first region. -/
theorem inOrder_init (mem : Bytes) (hg : Fresh [] 1024 g.base) :
    InOrder (mmAllocInit mem g) [newBlock g.base 1024] := by
  let s := setHeader (grantPages ⟨mem, 0, fun _ => 0, []⟩ 1024 g) g.base (newBlock g.base 1024).size 0
  have hinit : mmAllocInit mem g = { setFooter s g.base with freeList := g.base } := rfl
  have hsize := newBlock_size g.base 1024
  have hplaced : (newBlock g.base 1024).Placed := newBlock_placed hg (by decide)
  have hfits : g.base + ((newBlock g.base 1024).size + 24) ≤ 2 ^ 32 := hplaced.bounds.2.2.2
  have hheader : headerAt s.mem g.base = (newBlock g.base 1024).header 0 0 :=
    headerAt_setHeader (by omega) (by decide)
  have hfooter : wrap32 (g.base + sizeAt s.mem g.base + headerSize)
      = g.base + (newBlock g.base 1024).size + headerSize := by
    have hread : sizeAt s.mem g.base = (newBlock g.base 1024).size := congrArg Header.size hheader
    rw [hread]
    exact wrap32_of_lt (by rw [headerSize_eq]; omega)
  have hmem : (mmAllocInit mem g).mem =
      writeWord s.mem (g.base + (newBlock g.base 1024).size + headerSize) g.base := by
    rw [hinit, ← hfooter]
    rfl
  have hkeep : headerAt (mmAllocInit mem g).mem g.base = headerAt s.mem g.base := by
    rw [hmem]
    exact headerAt_congr (agree_writeWord (by rw [headerSize_eq]; omega))
  have hregions : (mmAllocInit mem g).regions = [(newBlock g.base 1024).range] := by
    rw [newBlock_range _ (by decide)]
    rfl
  refine ⟨⟨rfl, ⟨hkeep.trans hheader, trivial⟩, ?_, hregions, ?_⟩, ?_, ?_⟩
  · simpa using hplaced
  · rw [hregions]
    exact List.pairwise_singleton _ _
  · have hlt : g.base < 2 ^ 32 := by omega
    rw [List.forall_mem_singleton]
    show readWord (mmAllocInit mem g).mem _ = _
    rw [hmem]
    exact readWord_writeWord_self hlt
  · rw [List.forall_mem_singleton]
    exact Function.update_self _ _ _

theorem kept_init (mem : Bytes) (hg : Fresh [] 1024 g.base) : Kept (MmSystem.init mem g) := by
  refine ⟨_, inOrder_init mem hg, ?_⟩
  intro p
  simp [MmSystem.init, newBlock]

/-- **Extents.** The ranges of the blocks stay sound along exactly the runs whose calls
leave every block whole. -/
theorem extents_sound_iff (mem : Bytes) (hg : Fresh [] 1024 g.base) (calls : List MmCall) :
    Along mmStep (fun s => ExtentsSound s.heap) (MmSystem.init mem g) calls ↔
      Meets mmStep KeepsWhole (MmSystem.init mem g) calls :=
  along_iff_meets (fun _ hs => hs.elim fun _ h => h.1.sound)
    (fun _ _ _ hs hok hstep => kept_step hs hok hstep)
    (fun _ _ _ hs hbad hstep => not_sound_step hs hbad hstep) (kept_init mem hg) calls

end System

/-! ### The first call -/

/-- The theorem for a call of `mm_alloc` that takes all but a few bytes, and its `mm_free`. -/
theorem extents_sound_iff_run :
    Along mmStep (fun s => ExtentsSound s.heap) (MmSystem.init (fun _ => 0) ⟨4096, fun _ => 0⟩)
        [.alloc (1024 * 4096 - 32) none, .free 4116] ↔
      Meets mmStep KeepsWhole (MmSystem.init (fun _ => 0) ⟨4096, fun _ => 0⟩)
        [.alloc (1024 * 4096 - 32) none, .free 4116] :=
  extents_sound_iff (g := ⟨4096, fun _ => 0⟩) (fun _ => 0)
    ⟨by decide, by decide, by decide, by simp⟩ _

/-- A first call for 16 bytes splits the initial block. -/
theorem first_alloc_overlaps :
    ¬ Along mmStep (fun s => ExtentsSound s.heap)
      (MmSystem.init (fun _ => 0) ⟨4096, fun _ => 0⟩) [.alloc 16 none] := by
  intro halong
  have hfresh : Fresh [] 1024 4096 := ⟨by decide, by decide, by decide, by simp⟩
  have hkept := kept_init (g := ⟨4096, fun _ => 0⟩) (fun _ => 0) hfresh
  have hlist := (inOrder_init (g := ⟨4096, fun _ => 0⟩) (fun _ => 0) hfresh).toSited
  obtain ⟨s', hstep⟩ := mmStep_returns hkept
    (show Allowed _ (.alloc 16 none) from show 16 < 2 ^ 32 by decide)
  refine not_sound_step hkept ?_ hstep (halong.2 s' hstep).head
  intro hok
  have htight := (takesWhole_iff_of_fits hlist List.mem_cons_self
    (show (newBlock 4096 1024).Fits (align8 16) by decide) (by simp)).mp
    (hok.resolve_left (by decide))
  revert htight
  decide

end ArmKernel.Mm

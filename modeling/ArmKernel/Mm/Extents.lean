/-
Extents of the blocks of `mm_alloc.c`.

As long as every block fills its region the list is in order. `split_block` puts the
header of the new block where the footer of the shrunken one goes, and `coalesce` joins
list neighbours, which here are never neighbours in memory.

* `splitBlock_links`, `not_sound_of_split`: after a split two ranges overlap.
* `not_sound_of_coalesce`: after a merge a range leaves its region.
* `addRegion_sited`: a new region joins the list; `mm_alloc` writes no footer for it.
* `extents_sound_iff`: the runs that keep the extents sound.
-/
import ArmKernel.Mm.Regions
import ArmKernel.Support.Run

namespace ArmKernel.Mm

open ArmKernel.Support

/-! ### Consequences of soundness -/

section Sound

variable {s : MmState} {x y : Nat}

/-- What soundness says of a block that the list reaches. -/
theorem ExtentsSound.block (h : ExtentsSound s) (hx : OnChain (nextOf s.mem) (ptr s.freeList) x) :
    sizeAt s.mem x = s.computed x ∧
      (∃ r ∈ s.regions, Within (x, headerSize + s.computed x + footerSize) r) ∧
      readWord s.mem (wrap32 (x + s.computed x + headerSize)) = x := by
  obtain ⟨l, hchain, -, hall⟩ := h
  obtain ⟨hwithin, hsize, hfooter⟩ := hall x (hchain.onChain_iff.mp hx)
  rw [extent, hsize] at hwithin
  rw [hsize] at hfooter
  exact ⟨hsize, hwithin, hfooter⟩

/-- Two blocks that the list reaches do not overlap. -/
theorem ExtentsSound.apart (h : ExtentsSound s) (hx : OnChain (nextOf s.mem) (ptr s.freeList) x)
    (hy : OnChain (nextOf s.mem) (ptr s.freeList) y) (hne : x ≠ y) :
    Apart (extent s.mem x) (extent s.mem y) := by
  obtain ⟨l, hchain, hpair, -⟩ := h
  have : Std.Symm fun a b => Apart (extent s.mem a) (extent s.mem b) := ⟨fun _ _ h => h.symm⟩
  exact hpair.forall (hchain.onChain_iff.mp hx) (hchain.onChain_iff.mp hy) hne

end Sound

/-! ### Splitting -/

section Split

variable {s : MmState} {b q size n : Nat}

@[simp] theorem splitBlock_freeList : (splitBlock s b n).freeList = s.freeList := by
  unfold splitBlock
  split
  · simp
  · rfl

@[simp] theorem splitBlock_regions : (splitBlock s b n).regions = s.regions := by
  unfold splitBlock
  split
  · simp
  · rfl

/-- The size that is computed for the block, when it is computed. -/
theorem splitBlock_computed :
    (splitBlock s b n).computed b = if minBlockSize ≤ sub32 (sizeAt s.mem b) n then n
      else s.computed b := by
  unfold splitBlock
  split
  · simp
  · rfl

/-- **The links of a split.** The new header follows the shrunken block after 20 bytes,
where the footer of that block would have to be; other headers keep their `next`. -/
theorem splitBlock_links (hsize : sizeAt s.mem b = size) (hb : b + (size + 24) ≤ 2 ^ 32)
    (hn : n + 40 ≤ size) (hbal : b % 4096 = 0) (hnext : nextAt s.mem b = q) (hqal : q % 4096 = 0) :
    nextAt (splitBlock s b n).mem b = b + 20 + n ∧
      ∀ c, c % 4096 = 0 → c + 20 ≤ b ∨ b + (size + 24) ≤ c →
        nextAt (splitBlock s b n).mem c = nextAt s.mem c := by
  have hsub : sub32 size n = size - n := sub32_of_le (by omega) (by omega)
  unfold splitBlock
  rw [hsize, hsub, if_pos (by rw [minBlockSize_eq]; omega)]
  -- The address and the size of the new block are numbers from here on.
  obtain ⟨new, hnew⟩ : ∃ new, wrap32 (b + headerSize + n) = new := ⟨_, rfl⟩
  obtain ⟨v, hv⟩ : ∃ v, sub32 (sub32 (size - n) headerSize) footerSize = v := ⟨_, rfl⟩
  simp only [hnew, hv]
  have hnew' : new = b + 20 + n := by
    rw [← hnew, headerSize_eq]
    exact wrap32_of_lt (by omega)
  have hv' : v = size - n - 24 := by
    have hfirst : sub32 (size - n) 20 = size - n - 20 := sub32_of_le (by omega) (by omega)
    rw [← hv, headerSize_eq, footerSize_eq, hfirst, sub32_of_le (by omega) (by omega)]
    omega
  clear hnew hv hsub
  unfold sizeAt at hsize
  unfold nextAt at hnext
  have hqlt : q < 2 ^ 32 := hnext ▸ readWord_lt _ _
  simp (disch := omega) only [linkBack_mem, setSize_mem, setMagic_mem, setNext_mem, setPrev_mem,
    setFree_mem, setFooter_mem, sizeAt, nextAt, readWord_writeWord_of_apart,
    readWord_writeWord_self, readWord_update_of_outside, wrap32_of_lt, headerSize_eq, hnext]
  constructor
  · split
    · simp (disch := omega) only [readWord_writeWord_of_apart, readWord_writeWord_self]
      exact hnew'
    · simp (disch := omega) only [readWord_writeWord_of_apart, readWord_writeWord_self]
      exact hnew'
  · intro c hcal hc
    split
    · simp (disch := omega) only [readWord_writeWord_of_apart, readWord_update_of_outside]
    · simp (disch := omega) only [readWord_writeWord_of_apart, readWord_update_of_outside]

/-- **A split breaks soundness**: the footer of the shrunken block is in the range of
the new one. -/
theorem not_sound_of_split {l r : List Block} {b : Block} (h : Sited s (l ++ b :: r))
    (hn : n + 40 ≤ b.size) : ¬ ExtentsSound (setFree (splitBlock s b.addr n) b.addr false) := by
  intro hsound
  have hb : b ∈ l ++ b :: r := List.mem_append_right l List.mem_cons_self
  obtain ⟨hpos, hbal, -, hfits⟩ := (h.placed b hb).bounds
  obtain ⟨hnew, hkeep⟩ := splitBlock_links (h.sizeAt_eq hb) hfits hn hbal h.next_eq
    (Sited.first_aligned (l := l ++ [b]) (by simpa using h))
  have hflag : ∀ c, c % 4096 = 0 →
      nextAt (setFree (splitBlock s b.addr n) b.addr false).mem c
        = nextAt (splitBlock s b.addr n).mem c := fun c hc =>
    readWord_update_of_outside (by omega)
  -- The walk reaches the block and, behind it, the new one.
  have hreach : OnChain (nextOf (setFree (splitBlock s b.addr n) b.addr false).mem)
      (ptr (setFree (splitBlock s b.addr n) b.addr false).freeList) b.addr := by
    have hchain := h.chain
    rw [List.map_append, List.map_cons] at hchain
    rw [setFree_freeList, splitBlock_freeList]
    apply hchain.onChain_prefix
    intro a ha
    obtain ⟨c, hc, rfl⟩ := List.mem_map.mp ha
    have hcb := h.addr_ne (List.mem_append_left r hc)
    have hc' : c ∈ l ++ b :: r := List.mem_append_left _ hc
    have hcal := (h.placed c hc').bounds
    have hapart := h.apart_of_ne hc' hb fun heq => hcb (congrArg Block.addr heq)
    rw [nextOf, nextOf, hflag _ hcal.2.1, hkeep _ hcal.2.1 (by omega)]
  have hreach' := hreach.step (y := b.addr + 20 + n) (by
    rw [nextOf, hflag _ hbal, hnew]
    exact ptr_of_pos (by omega))
  have hsize := (hsound.block hreach).1
  have hsub : sub32 b.size n = b.size - n := sub32_of_le (by omega) (by omega)
  rw [setFree_computed, splitBlock_computed, h.sizeAt_eq hb, hsub,
    if_pos (by rw [minBlockSize_eq]; omega)] at hsize
  have hapart := hsound.apart hreach hreach' (by omega)
  simp only [Apart, extent, hsize, headerSize_eq, footerSize_eq] at hapart
  omega

/-- A block that is not much too large is not split. -/
theorem splitBlock_of_tight (hb : sizeAt s.mem b = size) (hlt : size < 2 ^ 32) (hn : n ≤ size)
    (htight : size < n + 40) : splitBlock s b n = s := by
  have hsub : sub32 size n = size - n := sub32_of_le hlt hn
  unfold splitBlock
  rw [hb, hsub, if_neg (by rw [minBlockSize_eq]; omega)]

end Split

/-! ### Merging -/

/-- What both halves of `coalesce` do: `x` gets the size `v` and is followed by `q`. -/
def absorb (s : MmState) (x v q : Nat) : MmState :=
  setFooter (linkBack (setNext (setSize s x v) x q) x q) x

/-- The block after this one is free. -/
def FreeAfter (mem : Bytes) (block : Nat) : Prop :=
  nextAt mem block ≠ 0 ∧ freeAt mem (nextAt mem block) = true

/-- The block before this one is free. -/
def FreeBefore (mem : Bytes) (block : Nat) : Prop :=
  prevAt mem block ≠ 0 ∧ freeAt mem (prevAt mem block) = true

section Merge

variable {s s' : MmState} {x y p q v : Nat}

@[simp] theorem absorb_freeList : (absorb s x v q).freeList = s.freeList := by simp [absorb]

@[simp] theorem absorb_regions : (absorb s x v q).regions = s.regions := by simp [absorb]

@[simp] theorem absorb_computed :
    (absorb s x v q).computed = Function.update s.computed x v := by simp [absorb]

/-- Linking back writes the `prev` of one header. -/
theorem linkBack_header (hq : q % 4096 = 0) (hy : y % 4096 = 0) :
    sizeAt (linkBack s x q).mem y = sizeAt s.mem y ∧
      nextAt (linkBack s x q).mem y = nextAt s.mem y ∧
      (y ≠ q → prevAt (linkBack s x q).mem y = prevAt s.mem y) ∧
      freeAt (linkBack s x q).mem y = freeAt s.mem y := by
  unfold sizeAt nextAt prevAt freeAt
  rw [linkBack_mem]
  split
  · refine ⟨readWord_writeWord_of_apart (by omega), readWord_writeWord_of_apart (by omega),
      fun hyq => readWord_writeWord_of_apart (by omega), ?_⟩
    rw [writeWord_of_outside (by omega)]
  · exact ⟨rfl, rfl, fun _ => rfl, rfl⟩

/-- The footer goes to the last word before a page boundary. -/
theorem absorb_mem (hx : x % 4096 = 0) (hq : q % 4096 = 0) (hv : v < 2 ^ 32)
    (hvp : v % 4096 = 4072) : ∃ f, f % 4096 = 4092 ∧ (absorb s x v q).mem =
      writeWord (linkBack (setNext (setSize s x v) x q) x q).mem f x := by
  refine ⟨wrap32 (x + v + headerSize), ?_, ?_⟩
  · rw [headerSize_eq, wrap32]
    omega
  · have hsize : sizeAt (linkBack (setNext (setSize s x v) x q) x q).mem x = v := by
      rw [(linkBack_header hq hx).1]
      exact (readWord_writeWord_of_apart (by omega)).trans (readWord_writeWord_self hv)
    rw [absorb, setFooter_mem, hsize]

/-- **What a merge writes**: two fields of the header of `x`, a `prev` field, and a footer. -/
theorem absorb_header (hx : x % 4096 = 0) (hq : q % 4096 = 0) (hv : v < 2 ^ 32)
    (hvp : v % 4096 = 4072) (hy : y % 4096 = 0) :
    (y = x → sizeAt (absorb s x v q).mem y = v) ∧
      (y ≠ x → sizeAt (absorb s x v q).mem y = sizeAt s.mem y) ∧
      (y ≠ x → nextAt (absorb s x v q).mem y = nextAt s.mem y) ∧
      (q < 2 ^ 32 → y = x → nextAt (absorb s x v q).mem y = q) ∧
      (y ≠ q → prevAt (absorb s x v q).mem y = prevAt s.mem y) ∧
      freeAt (absorb s x v q).mem y = freeAt s.mem y := by
  obtain ⟨f, hf, hmem⟩ := absorb_mem hx hq hv hvp (s := s)
  obtain ⟨hsize, hnext, hprev, hfree⟩ :=
    linkBack_header (s := setNext (setSize s x v) x q) (x := x) hq hy
  have hfooter : headerAt (absorb s x v q).mem y =
      headerAt (linkBack (setNext (setSize s x v) x q) x q).mem y := by
    rw [hmem]
    exact headerAt_congr (agree_writeWord (by rw [headerSize_eq]; omega))
  have hsize' := (congrArg Header.size hfooter).trans hsize
  have hnext' := (congrArg Header.next hfooter).trans hnext
  have hfree' := (congrArg Header.free hfooter).trans hfree
  refine ⟨?_, fun hne => hsize'.trans ?_, fun hne => hnext'.trans ?_, ?_,
    fun hne => ((congrArg Header.prev hfooter).trans (hprev hne)).trans ?_, hfree'.trans ?_⟩
  · rintro rfl
    exact hsize'.trans
      ((readWord_writeWord_of_apart (by omega)).trans (readWord_writeWord_self hv))
  · exact (readWord_writeWord_of_apart (by omega)).trans (readWord_writeWord_of_apart (by omega))
  · exact (readWord_writeWord_of_apart (by omega)).trans (readWord_writeWord_of_apart (by omega))
  · rintro hqlt rfl
    exact hnext'.trans (readWord_writeWord_self hqlt)
  · exact (readWord_writeWord_of_apart (by omega)).trans (readWord_writeWord_of_apart (by omega))
  · simp (disch := omega) only [freeAt, setNext_mem, setSize_mem, writeWord_of_outside]

/-- The first half of `coalesce`. -/
theorem coalesceNext_eq (hx : x % 4096 = 0) (hfree : FreeAfter s.mem x)
    (hnext : nextAt s.mem x % 4096 = 0) :
    coalesceNext s x = absorb s x
      (wrap32 (sizeAt s.mem x + (headerSize + footerSize + sizeAt s.mem (nextAt s.mem x))))
      (nextAt s.mem (nextAt s.mem x)) := by
  have hq : nextAt s.mem (nextAt s.mem x) < 2 ^ 32 := readWord_lt _ _
  unfold FreeAfter at hfree
  unfold coalesceNext
  rw [if_pos hfree]
  generalize wrap32 (sizeAt s.mem x + _) = v
  have hsame : ∀ y, y % 4096 = 0 → nextAt (setSize s x v).mem y = nextAt s.mem y := fun y hy =>
    readWord_writeWord_of_apart (by omega)
  have hlinked : ∀ q, q < 2 ^ 32 → nextAt (setNext (setSize s x v) x q).mem x = q := fun q hq =>
    readWord_writeWord_self hq
  simp only [hsame x hx, hsame _ hnext, hlinked _ hq]
  rfl

/-- The second half of `coalesce`. -/
theorem coalescePrev_eq (hx : x % 4096 = 0) (hfree : FreeBefore s.mem x)
    (hprev : prevAt s.mem x % 4096 = 0) (hne : prevAt s.mem x ≠ x)
    (hnext : nextAt s.mem x % 4096 = 0) (hnx : nextAt s.mem x ≠ x) :
    coalescePrev s x = absorb s (prevAt s.mem x)
      (wrap32 (sizeAt s.mem (prevAt s.mem x) + (headerSize + footerSize + sizeAt s.mem x)))
      (nextAt s.mem x) := by
  unfold FreeBefore at hfree
  unfold coalescePrev
  rw [if_pos hfree]
  generalize wrap32 (sizeAt s.mem (prevAt s.mem x) + _) = v
  obtain ⟨p, hp⟩ : ∃ p, prevAt s.mem x = p := ⟨_, rfl⟩
  obtain ⟨q, hq⟩ : ∃ q, nextAt s.mem x = q := ⟨_, rfl⟩
  rw [hp] at hprev hne
  rw [hq] at hnext hnx
  have hp₁ : prevAt (setSize s p v).mem x = p :=
    (readWord_writeWord_of_apart (by omega)).trans hp
  have hq₁ : nextAt (setSize s p v).mem x = q :=
    (readWord_writeWord_of_apart (by omega)).trans hq
  have hp₂ : prevAt (setNext (setSize s p v) p q).mem x = p :=
    (readWord_writeWord_of_apart (by omega)).trans hp₁
  have hq₂ : nextAt (setNext (setSize s p v) p q).mem x = q :=
    (readWord_writeWord_of_apart (by omega)).trans hq₁
  have hp₃ : prevAt (linkBack (setNext (setSize s p v) p q) p q).mem x = p :=
    ((linkBack_header hnext hx).2.2.1 hnx.symm).trans hp₂
  simp only [hp, hp₁, hq₁, hp₂, hq₂, hp₃, hq]
  rfl

/-- **An outgrown region.** A block that the list reaches and that was given a size larger
than its region has room for breaks soundness. -/
theorem not_sound_of_outgrown {l r : List Block} {b : Block} (h : Sited s (l ++ b :: r))
    (hhead : s'.freeList = s.freeList) (hregions : s'.regions = s.regions)
    (hnext : ∀ c ∈ l, nextAt s'.mem c.addr = nextAt s.mem c.addr)
    (hgrown : b.size < s'.computed b.addr) : ¬ ExtentsSound s' := by
  intro hsound
  have hb : b ∈ l ++ b :: r := List.mem_append_right l List.mem_cons_self
  have hreach : OnChain (nextOf s'.mem) (ptr s'.freeList) b.addr := by
    have hchain := h.chain
    rw [List.map_append, List.map_cons] at hchain
    rw [hhead]
    apply hchain.onChain_prefix
    intro a ha
    obtain ⟨c, hc, rfl⟩ := List.mem_map.mp ha
    rw [nextOf, nextOf, hnext c hc]
  obtain ⟨-, ⟨region, hmem, hlo, hhi⟩, -⟩ := hsound.block hreach
  rw [hregions, h.regions] at hmem
  obtain ⟨c, hc, rfl⟩ := List.mem_map.mp hmem
  simp only [Block.range, headerSize_eq, footerSize_eq] at hlo hhi
  rcases eq_or_ne c b with rfl | hne
  · omega
  · rcases h.apart_of_ne hc hb hne with hapart | hapart
    · omega
    · omega

/-- A block with something before it. -/
theorem Sited.exists_before {l r : List Block} {b : Block} (h : Sited s (l ++ b :: r))
    (hne : prevAt s.mem b.addr ≠ 0) : ∃ l' p, l = l' ++ [p] ∧ prevAt s.mem b.addr = p.addr := by
  rw [h.prev_eq] at hne ⊢
  rcases List.eq_nil_or_concat l with rfl | ⟨l', p, rfl⟩
  · exact absurd rfl hne
  · refine ⟨l', p, List.concat_eq_append, ?_⟩
    rw [List.concat_eq_append, lastAddr_append]
    rfl

theorem Sited.exists_after {l r : List Block} {b : Block} (h : Sited s (l ++ b :: r))
    (hne : nextAt s.mem b.addr ≠ 0) : ∃ c r', r = c :: r' ∧ nextAt s.mem b.addr = c.addr := by
  rw [h.next_eq] at hne ⊢
  cases r with
  | nil => exact absurd rfl hne
  | cons c r => exact ⟨c, r, rfl, rfl⟩

/-- The state between the halves of `coalesce`, next to the one before: `b` may have a new
size `w` and a new successor `q`, and the blocks before it are as they were. -/
structure Halfway (s s' : MmState) (l : List Block) (b : Block) (w q : Nat) : Prop where
  head : s'.freeList = s.freeList
  regions : s'.regions = s.regions
  next : ∀ c ∈ l, nextAt s'.mem c.addr = nextAt s.mem c.addr
  sizes : ∀ c ∈ l, sizeAt s'.mem c.addr = c.size
  size : sizeAt s'.mem b.addr = w
  prev : prevAt s'.mem b.addr = prevAt s.mem b.addr
  follows : nextAt s'.mem b.addr = q

/-- **The first half of `coalesce`** takes in the next block. -/
theorem coalesceNext_spec {l r : List Block} {b c : Block} (h : Sited s (l ++ b :: c :: r))
    (hafter : FreeAfter s.mem b.addr) :
    Halfway s (coalesceNext s b.addr) l b (b.size + 24 + c.size) (firstAddr Block.addr 0 r) ∧
      (coalesceNext s b.addr).computed b.addr = b.size + 24 + c.size := by
  have hb : b ∈ l ++ b :: c :: r := List.mem_append_right l List.mem_cons_self
  have hc : c ∈ l ++ b :: c :: r := by simp
  obtain ⟨hbpos, hbal, hbsize, hbfits⟩ := (h.placed b hb).bounds
  obtain ⟨-, hcal, hcsize, hcfits⟩ := (h.placed c hc).bounds
  have hcb : c.addr ≠ b.addr := h.addr_ne (by simp)
  have hapart := h.apart_of_ne hb hc fun heq => hcb (congrArg Block.addr heq.symm)
  have hnext : nextAt s.mem b.addr = c.addr := h.next_eq
  have hq : nextAt s.mem c.addr = firstAddr Block.addr 0 r :=
    Sited.next_eq (l := l ++ [b]) (by simpa using h)
  have hqal : firstAddr Block.addr 0 r % 4096 = 0 :=
    Sited.first_aligned (l := l ++ [b, c]) (by simpa using h)
  have hqlt : firstAddr Block.addr 0 r < 2 ^ 32 := hq ▸ readWord_lt _ _
  have hqb : firstAddr Block.addr 0 r ≠ b.addr := Sited.first_ne (m := [c]) h
  have hv : wrap32 (b.size + (headerSize + footerSize + c.size)) = b.size + 24 + c.size := by
    rw [headerSize_eq, footerSize_eq, wrap32_of_lt (by omega)]
    omega
  have heq := coalesceNext_eq hbal hafter (hnext ▸ hcal)
  rw [hnext, h.sizeAt_eq hb, h.sizeAt_eq hc, hq, hv] at heq
  rw [heq]
  have hl : ∀ d ∈ l, d.addr % 4096 = 0 ∧ d.addr ≠ b.addr := fun d hd =>
    ⟨(h.placed d (List.mem_append_left _ hd)).bounds.2.1, h.addr_ne (List.mem_append_left _ hd)⟩
  have hw : b.size + 24 + c.size < 2 ^ 32 := by omega
  have hwp : (b.size + 24 + c.size) % 4096 = 4072 := by omega
  obtain ⟨hbsize', -, -, hbnext, hbprev, -⟩ := absorb_header (s := s) hbal hqal hw hwp hbal
  refine ⟨⟨absorb_freeList, absorb_regions, fun d hd => ?_, fun d hd => ?_, hbsize' rfl,
    hbprev hqb.symm, hbnext hqlt rfl⟩, by simp⟩
  · obtain ⟨hdal, hdb⟩ := hl d hd
    exact (absorb_header hbal hqal hw hwp hdal).2.2.1 hdb
  · obtain ⟨hdal, hdb⟩ := hl d hd
    exact ((absorb_header hbal hqal hw hwp hdal).2.1 hdb).trans
      (h.sizeAt_eq (List.mem_append_left _ hd))

/-- **The second half of `coalesce`** breaks soundness. -/
theorem not_sound_of_coalescePrev {l r : List Block} {p b : Block} {w : Nat}
    (h : Sited s (l ++ p :: b :: r)) (hhalf : Halfway s s' (l ++ [p]) b w q)
    (hfree : FreeBefore s'.mem b.addr) (hw : w % 4096 = 4072) (hroom : p.size + 24 + w < 2 ^ 32)
    (hq : q % 4096 = 0) (hqb : q ≠ b.addr) : ¬ ExtentsSound (coalescePrev s' b.addr) := by
  obtain ⟨-, hpal, hpsize, -⟩ := (h.placed p (by simp)).bounds
  obtain ⟨-, hbal, -, -⟩ := (h.placed b (by simp)).bounds
  have hpb : p.addr ≠ b.addr := (h.addr_ne (c := b) (by simp)).symm
  have hprev : prevAt s'.mem b.addr = p.addr := by
    rw [hhalf.prev, Sited.prev_eq (l := l ++ [p]) (r := r) (by simpa using h), lastAddr_append]
    rfl
  have hv : wrap32 (p.size + (headerSize + footerSize + w)) = p.size + 24 + w := by
    rw [headerSize_eq, footerSize_eq, wrap32_of_lt (by omega)]
    omega
  have heq := coalescePrev_eq hbal hfree (hprev ▸ hpal) (hprev ▸ hpb) (hhalf.follows ▸ hq)
    (hhalf.follows ▸ hqb)
  rw [hprev, hhalf.sizes p (by simp), hhalf.size, hhalf.follows, hv] at heq
  rw [heq]
  refine not_sound_of_outgrown h (absorb_freeList.trans hhalf.head)
    (absorb_regions.trans hhalf.regions) ?_ ?_
  · intro c hc
    obtain ⟨-, hcal, -, -⟩ := (h.placed c (List.mem_append_left _ hc)).bounds
    have hcp : c.addr ≠ p.addr := h.addr_ne (List.mem_append_left _ hc)
    exact ((absorb_header hpal hq (by omega) (by omega) hcal).2.2.1 hcp).trans
      (hhalf.next c (List.mem_append_left _ hc))
  · rw [absorb_computed, Function.update_self]
    omega

/-- **A merge breaks soundness**: the neighbour is in another region. -/
theorem not_sound_of_coalesce {l r : List Block} {b : Block} (h : Sited s (l ++ b :: r))
    (hmerge : FreeAfter s.mem b.addr ∨ FreeBefore s.mem b.addr) :
    ¬ ExtentsSound (coalesce s b.addr) := by
  have hb : b ∈ l ++ b :: r := List.mem_append_right l List.mem_cons_self
  obtain ⟨hbpos, hbal, hbsize, hbfits⟩ := (h.placed b hb).bounds
  unfold coalesce
  by_cases hafter : FreeAfter s.mem b.addr
  · -- The next block is taken in first.
    obtain ⟨c, r, rfl, -⟩ := h.exists_after hafter.1
    have hc : c ∈ l ++ b :: c :: r := by simp
    have hcb : c.addr ≠ b.addr := h.addr_ne (by simp)
    have hbc := h.apart_of_ne hb hc fun heq => hcb (congrArg Block.addr heq.symm)
    obtain ⟨-, -, hcsize, hcfits⟩ := (h.placed c hc).bounds
    obtain ⟨hhalf, hcomputed⟩ := coalesceNext_spec h hafter
    by_cases hbefore : FreeBefore (coalesceNext s b.addr).mem b.addr
    · obtain ⟨l, p, rfl, -⟩ := h.exists_before (hhalf.prev ▸ hbefore.1)
      have hp : p ∈ l ++ [p] ++ b :: c :: r := by simp
      have hpb := h.addr_ne (c := p) (by simp)
      have hpc : p.addr ≠ c.addr := Sited.addr_ne (l := l ++ [p, b]) (r := r) (by simpa using h)
        (by simp)
      have hpfits := (h.placed p hp).bounds.2.2.2
      have hpb' := h.apart_of_ne hp hb fun heq => hpb (congrArg Block.addr heq)
      have hpc' := h.apart_of_ne hp hc fun heq => hpc (congrArg Block.addr heq)
      refine not_sound_of_coalescePrev (r := c :: r) (by simpa using h) hhalf hbefore (by omega)
        (by omega) (Sited.first_aligned (l := l ++ [p, b, c]) (by simpa using h))
        (Sited.first_ne (m := [c]) h)
    · have hidle : coalescePrev (coalesceNext s b.addr) b.addr = coalesceNext s b.addr :=
        if_neg hbefore
      rw [hidle]
      apply not_sound_of_outgrown h hhalf.head hhalf.regions hhalf.next
      omega
  · have hidle : coalesceNext s b.addr = s := if_neg hafter
    have hbefore := hmerge.resolve_left hafter
    obtain ⟨l, p, rfl, -⟩ := h.exists_before hbefore.1
    have hp : p ∈ l ++ [p] ++ b :: r := by simp
    have hpb := h.addr_ne (c := p) (by simp)
    have hpfits := (h.placed p hp).bounds.2.2.2
    have hpb' := h.apart_of_ne hp hb fun heq => hpb (congrArg Block.addr heq)
    have hhalf : Halfway s s (l ++ [p]) b b.size (firstAddr Block.addr 0 r) :=
      ⟨rfl, rfl, fun _ _ => rfl, fun c hc => h.sizeAt_eq (List.mem_append_left _ hc),
        h.sizeAt_eq hb, rfl, h.next_eq⟩
    rw [hidle]
    refine not_sound_of_coalescePrev (r := r) (by simpa using h) hhalf hbefore hbsize
      (by omega) (Sited.first_aligned (l := l ++ [p, b]) (by simpa using h))
      (Sited.first_ne (m := []) h)

end Merge

/-! ### New regions -/

section Grow

variable {s : MmState} {x y q : Nat}

theorem headerAt_linkBack_of_ne (hq : q % 4096 = 0) (hy : y % 4096 = 0) (hne : y ≠ q) :
    headerAt (linkBack s x q).mem y = headerAt s.mem y := by
  rw [linkBack_mem]
  split
  · exact headerAt_congr (agree_writeWord (by rw [headerSize_eq]; omega))
  · rfl

theorem headerAt_linkBack (hq : q ≠ 0) (hx : x < 2 ^ 32) :
    headerAt (linkBack s x q).mem q = { headerAt s.mem q with prev := x } := by
  rw [linkBack_mem, if_pos hq]
  simp (disch := omega) only [headerAt, sizeAt, magicAt, freeAt, nextAt, prevAt,
    readWord_writeWord_of_apart, readWord_writeWord_self, writeWord_of_outside]

/-- A header as `mm_alloc_init` and `mm_alloc` write it. -/
def setHeader (s : MmState) (block size next : Nat) : MmState :=
  setPrev (setNext (setFree (setMagic (setSize s block size) block blockMagic) block true)
    block next) block 0

theorem headerAt_setHeader {size next : Nat} (hsize : size < 2 ^ 32) (hnext : next < 2 ^ 32) :
    headerAt (setHeader s x size next).mem x = ⟨size, blockMagic, true, next, 0⟩ := by
  have hmagic : blockMagic < 2 ^ 32 := by decide
  simp (disch := omega) only [setHeader, headerAt, sizeAt, magicAt, freeAt, nextAt, prevAt,
    setPrev_mem, setNext_mem, setFree_mem, setMagic_mem, setSize_mem, readWord_writeWord_of_apart,
    readWord_writeWord_self, readWord_update_of_outside, writeWord_of_outside,
    Function.update_self]
  rfl

/-- The header is all that is written. -/
theorem agree_setHeader {size next a n : Nat} (h : a + n ≤ x ∨ x + 20 ≤ a) :
    Agree s.mem (setHeader s x size next).mem a n := by
  refine ((((agree_writeWord ?_).trans (agree_writeWord ?_)).trans (agree_update ?_)).trans
    (agree_writeWord ?_)).trans (agree_writeWord ?_)
  all_goals omega

variable {bs : List Block} {pages : Nat} {g : Grant}

/-- The block that fills a new region. -/
def newBlock (base pages : Nat) : Block := ⟨base, pages * 4096 - 24, true⟩

theorem newBlock_size (base pages : Nat) : (newBlock base pages).size = pages * 4096 - 24 := rfl

theorem newBlock_placed {regions : List (Nat × Nat)} {base : Nat} (hf : Fresh regions pages base)
    (hpages : 0 < pages) : (newBlock base pages).Placed := by
  obtain ⟨hpos, haligned, hfits, -⟩ := hf
  rw [pageSize_eq] at hfits
  refine ⟨hpos, haligned, ?_, ?_⟩
  · simp only [newBlock, headerSize_eq, footerSize_eq, pageSize_eq]
    omega
  · simp only [newBlock, headerSize_eq, footerSize_eq]
    omega

theorem newBlock_range (base : Nat) (hpages : 0 < pages) :
    (newBlock base pages).range = (base, pages * pageSize) := by
  simp only [Block.range, newBlock, headerSize_eq, footerSize_eq, pageSize_eq, Prod.mk.injEq,
    true_and]
  omega

theorem addRegion_eq (hf : Fresh s.regions pages g.base) (hpages : 0 < pages) :
    addRegion s pages g = { linkBack (setHeader (grantPages s pages g) g.base
      (newBlock g.base pages).size s.freeList) g.base s.freeList with freeList := g.base } := by
  have hfits := hf.fits
  have hpos := hf.nonnull
  rw [pageSize_eq] at hfits
  have hsize : sub32 (sub32 (wrap32 (pages * pageSize)) headerSize) footerSize
      = (newBlock g.base pages).size := by
    have hfirst : sub32 (pages * 4096) 20 = pages * 4096 - 20 :=
      sub32_of_le (by omega) (by omega)
    rw [pageSize_eq, headerSize_eq, footerSize_eq, wrap32_of_lt (by omega), hfirst,
      sub32_of_le (by omega) (by omega)]
    simp only [newBlock]
    omega
  rw [← hsize]
  rfl

/-- A new region is apart from the blocks of the list. -/
theorem Sited.apart_fresh {c : Block} (h : Sited s bs) (hf : Fresh s.regions pages g.base)
    (hc : c ∈ bs) : g.base + pages * 4096 ≤ c.addr ∨ c.addr + (c.size + 24) ≤ g.base := by
  have hapart := hf.apart c.range (h.regions ▸ List.mem_map_of_mem hc)
  simp only [Apart, Block.range, headerSize_eq, footerSize_eq, pageSize_eq] at hapart
  omega

/-- Bytes that a new region leaves alone. -/
theorem agree_addRegion (hf : Fresh s.regions pages g.base) (hpages : 0 < pages) {a n : Nat}
    (hapart : g.base + pages * 4096 ≤ a ∨ a + n ≤ g.base)
    (hprev : a + n ≤ s.freeList + 16 ∨ s.freeList + 20 ≤ a ∨ s.freeList = 0) :
    Agree s.mem (addRegion s pages g).mem a n := by
  rw [addRegion_eq hf hpages]
  have hgrant : Agree s.mem (grantPages s pages g).mem a n :=
    agree_overlay (by rw [pageSize_eq]; omega)
  have hheader : Agree s.mem (setHeader (grantPages s pages g) g.base
      (newBlock g.base pages).size s.freeList).mem a n := hgrant.trans (agree_setHeader (by omega))
  apply hheader.trans
  simp only [linkBack_mem]
  split
  · exact agree_writeWord (by omega)
  · exact Agree.rfl

/-- The old head of the list, seen from the new region. -/
theorem Sited.head_bounds (h : Sited s bs) (hf : Fresh s.regions pages g.base) :
    s.freeList % 4096 = 0 ∧ s.freeList < 2 ^ 32 ∧
      (s.freeList = 0 ∨ g.base + pages * 4096 ≤ s.freeList ∨ s.freeList + 20 ≤ g.base) := by
  refine ⟨h.head ▸ Sited.first_aligned (l := []) h, h.head ▸ Sited.first_lt (l := []) h, ?_⟩
  rw [h.head]
  cases bs with
  | nil => exact Or.inl rfl
  | cons c bs =>
    have hapart := h.apart_fresh hf List.mem_cons_self
    show c.addr = 0 ∨ _ ≤ c.addr ∨ c.addr + 20 ≤ _
    omega

/-- The header of the new block. -/
theorem headerAt_addRegion (h : Sited s bs) (hf : Fresh s.regions pages g.base)
    (hpages : 0 < pages) : headerAt (addRegion s pages g).mem g.base =
      (newBlock g.base pages).header 0 s.freeList := by
  obtain ⟨hqal, hqlt, hq⟩ := h.head_bounds hf
  obtain ⟨-, hal, -, hfits⟩ := (newBlock_placed hf hpages).bounds
  have hpos := hf.nonnull
  rw [addRegion_eq hf hpages]
  exact (headerAt_linkBack_of_ne hqal hal (show g.base ≠ s.freeList by omega)).trans
    (headerAt_setHeader (by omega) hqlt)

/-- The old head gets a block before it. -/
theorem headerAt_addRegion_head (h : Sited s bs) (hf : Fresh s.regions pages g.base)
    (hpages : 0 < pages) (hne : s.freeList ≠ 0) : headerAt (addRegion s pages g).mem s.freeList =
      { headerAt s.mem s.freeList with prev := g.base } := by
  obtain ⟨hqal, hqlt, hq⟩ := h.head_bounds hf
  have hfits := hf.fits
  have hhs := headerSize_eq
  rw [pageSize_eq] at hfits
  have hsame : headerAt (setHeader (grantPages s pages g) g.base (newBlock g.base pages).size
      s.freeList).mem s.freeList = headerAt s.mem s.freeList :=
    headerAt_congr ((agree_overlay (by rw [pageSize_eq]; omega)).trans
      (agree_setHeader (by omega)))
  rw [addRegion_eq hf hpages, ← hsame]
  exact headerAt_linkBack hne (by omega)

/-- The other headers. -/
theorem headerAt_addRegion_of_ne {c : Block} (h : Sited s bs) (hf : Fresh s.regions pages g.base)
    (hpages : 0 < pages) (hc : c ∈ bs) (hne : c.addr ≠ s.freeList) :
    headerAt (addRegion s pages g).mem c.addr = headerAt s.mem c.addr := by
  obtain ⟨hqal, -, -⟩ := h.head_bounds hf
  have hapart := h.apart_fresh hf hc
  have hcal := (h.placed c hc).bounds
  have hhs := headerSize_eq
  exact headerAt_congr (agree_addRegion hf hpages (by omega) (by omega))

/-- The last word of the region is as it came. -/
theorem footed_addRegion (h : Sited s bs) (hf : Fresh s.regions pages g.base)
    (hpages : 0 < pages) : Footed (addRegion s pages g).mem (newBlock g.base pages) ↔
      readWord g.contents (g.base + pages * 4096 - 4) = g.base := by
  obtain ⟨hqal, hqlt, hq⟩ := h.head_bounds hf
  have hgrant : readWord (grantPages s pages g).mem (g.base + pages * 4096 - 4) =
      readWord g.contents (g.base + pages * 4096 - 4) :=
    readWord_overlay (by omega) (by rw [pageSize_eq]; omega)
  have hlast : readWord (addRegion s pages g).mem (g.base + pages * 4096 - 4) =
      readWord (grantPages s pages g).mem (g.base + pages * 4096 - 4) := by
    rw [addRegion_eq hf hpages]
    have hheader : Agree (grantPages s pages g).mem (setHeader (grantPages s pages g) g.base
        (newBlock g.base pages).size s.freeList).mem (g.base + pages * 4096 - 4) 4 :=
      agree_setHeader (by omega)
    refine readWord_congr (hheader.trans ?_)
    simp only [linkBack_mem]
    split
    · exact agree_writeWord (by omega)
    · exact Agree.rfl
  have haddr : g.base + (pages * 4096 - 24) + headerSize = g.base + pages * 4096 - 4 := by
    rw [headerSize_eq]
    omega
  show readWord _ (g.base + (pages * 4096 - 24) + headerSize) = g.base ↔ _
  rw [haddr, hlast, hgrant]

@[simp] theorem addRegion_regions :
    (addRegion s pages g).regions = (g.base, pages * pageSize) :: s.regions := by
  simp [addRegion, grantPages]

@[simp] theorem addRegion_freeList : (addRegion s pages g).freeList = g.base := rfl

/-- **A new region joins the list.** -/
theorem addRegion_sited (h : Sited s bs) (hf : Fresh s.regions pages g.base)
    (hpages : 0 < pages) : Sited (addRegion s pages g) (newBlock g.base pages :: bs) := by
  refine ⟨rfl, ⟨?_, ?_⟩, ?_, ?_, ?_⟩
  · exact (headerAt_addRegion h hf hpages).trans (congrArg _ h.head)
  · have hlisted := h.listed
    cases bs with
    | nil => trivial
    | cons c bs =>
      have hq : s.freeList = c.addr := h.head
      have hc : c ∈ c :: bs := List.mem_cons_self
      have hhead := headerAt_addRegion_head h hf hpages (hq ▸ (h.placed c hc).nonnull.ne')
      refine ⟨?_, hlisted.2.imp ?_⟩
      · rw [hq, hlisted.1] at hhead
        exact hhead
      · intro d hd p q heq
        have hdc : d.addr ≠ s.freeList := hq ▸ Sited.addr_ne (l := []) h hd
        exact (headerAt_addRegion_of_ne h hf hpages (List.mem_cons_of_mem c hd) hdc).trans heq
  · rw [List.forall_mem_cons]
    exact ⟨newBlock_placed hf hpages, h.placed⟩
  · rw [List.map_cons, newBlock_range _ hpages, ← h.regions, addRegion_regions]
  · rw [addRegion_regions, List.pairwise_cons]
    exact ⟨hf.apart, h.apart⟩

theorem addRegion_computed (h : InOrder s bs) (hf : Fresh s.regions pages g.base)
    (hpages : 0 < pages) :
    ∀ c ∈ newBlock g.base pages :: bs, (addRegion s pages g).computed c.addr = c.size := by
  have hnew : (addRegion s pages g).computed =
      Function.update s.computed g.base (newBlock g.base pages).size := by
    rw [addRegion_eq hf hpages]
    simp only [linkBack_computed]
    rfl
  rw [hnew, List.forall_mem_cons]
  refine ⟨Function.update_self _ _ _, ?_⟩
  intro c hc
  have hapart := h.apart_fresh hf hc
  rw [Function.update_of_ne (by omega)]
  exact h.computed c hc

/-- The footers of the other blocks. -/
theorem footed_addRegion_of_mem (h : InOrder s bs) (hf : Fresh s.regions pages g.base)
    (hpages : 0 < pages) : ∀ c ∈ bs, Footed (addRegion s pages g).mem c := by
  intro c hc
  obtain ⟨hqal, -, -⟩ := h.head_bounds hf
  have hapart := h.apart_fresh hf hc
  have hcal := (h.placed c hc).bounds
  have hhs := headerSize_eq
  exact (readWord_congr (agree_addRegion hf hpages (by omega) (by omega))).trans (h.footed c hc)

/-- With the right last word the list stays in order. -/
theorem addRegion_inOrder (h : InOrder s bs) (hf : Fresh s.regions pages g.base)
    (hpages : 0 < pages) (hlast : readWord g.contents (g.base + pages * 4096 - 4) = g.base) :
    InOrder (addRegion s pages g) (newBlock g.base pages :: bs) where
  toSited := addRegion_sited h.toSited hf hpages
  footed := by
    rw [List.forall_mem_cons]
    exact ⟨(footed_addRegion h.toSited hf hpages).mpr hlast, footed_addRegion_of_mem h hf hpages⟩
  computed := addRegion_computed h hf hpages

end Grow

end ArmKernel.Mm

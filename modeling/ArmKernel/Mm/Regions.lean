/-
Lists of blocks, one to a region.

`mm_alloc_pages` returns pages, so a block that fills a region has its header at a
multiple of the page size and its footer in the last word before the next one. `Sited`
says that the free list is a list of such blocks and `InOrder` that the footers and the
computed sizes are right too.

* `headerAt_congr`, `headerAt_setFree_of_ne`: stores that miss a header.
* `Sited.chain`: the free list in memory is the list of the addresses.
* `InOrder.sound`: extents of such a list are as they should be.
* `Sited.flag`, `InOrder.flag`: marking a block free or taken.
* `bestFitFrom_cases`: the walk of `mm_alloc` finds the smallest block that fits.
-/
import ArmKernel.Mm.Alloc
import ArmKernel.Support.Chain
import ArmKernel.Support.Segment
import Mathlib.Data.List.Nodup
import Mathlib.Data.List.Pairwise

namespace ArmKernel.Mm

open ArmKernel.Support

/-! ### What the allocator promises -/

/-- A pointer that may be `NULL`. -/
def ptr (a : Nat) : Option Nat := if a = 0 then none else some a

def nextOf (mem : Bytes) (block : Nat) : Option Nat := ptr (nextAt mem block)

/-- The range of a block, from its header through its footer. -/
def extent (mem : Bytes) (block : Nat) : Nat × Nat :=
  (block, headerSize + sizeAt mem block + footerSize)

def Within (x y : Nat × Nat) : Prop := y.1 ≤ x.1 ∧ x.1 + x.2 ≤ y.1 + y.2

/-- The blocks on the list have disjoint ranges, each inside one region; every size field
is the computed value and every footer points to its header. -/
def ExtentsSound (s : MmState) : Prop :=
  ∃ l, Chain (nextOf s.mem) (ptr s.freeList) l ∧
    l.Pairwise (fun a b => Apart (extent s.mem a) (extent s.mem b)) ∧
    ∀ a ∈ l, (∃ r ∈ s.regions, Within (extent s.mem a) r) ∧ sizeAt s.mem a = s.computed a ∧
      readWord s.mem (wrap32 (a + sizeAt s.mem a + headerSize)) = a

/-! ### Headers -/

/-- The members of a header. -/
structure Header where
  size : Nat
  magic : Nat
  free : Bool
  next : Nat
  prev : Nat

def headerAt (mem : Bytes) (a : Nat) : Header :=
  ⟨sizeAt mem a, magicAt mem a, freeAt mem a, nextAt mem a, prevAt mem a⟩

/-- A block that fills the region at its address. -/
structure Block where
  addr : Nat
  size : Nat
  free : Bool
deriving DecidableEq

def Block.range (b : Block) : Nat × Nat := (b.addr, headerSize + b.size + footerSize)

/-- A region of whole pages in the address space. -/
structure Block.Placed (b : Block) : Prop where
  nonnull : 0 < b.addr
  aligned : b.addr % pageSize = 0
  whole : (headerSize + b.size + footerSize) % pageSize = 0
  fits : b.addr + (headerSize + b.size + footerSize) ≤ 2 ^ 32

/-- The header of a block between `p` and `q`. -/
def Block.header (b : Block) (p q : Nat) : Header := ⟨b.size, blockMagic, b.free, q, p⟩

/-- The headers in memory are those of the list, from the first block to the last. -/
def Listed (mem : Bytes) (bs : List Block) : Prop :=
  Segment Block.addr (fun b p q => headerAt mem b.addr = b.header p q) 0 0 bs

/-- The free list is the list `bs`, each block in a region of its own. -/
structure Sited (s : MmState) (bs : List Block) : Prop where
  head : s.freeList = firstAddr Block.addr 0 bs
  listed : Listed s.mem bs
  placed : ∀ b ∈ bs, b.Placed
  regions : s.regions = bs.map Block.range
  apart : s.regions.Pairwise Apart

/-- The footer of `b` points to its header. -/
def Footed (mem : Bytes) (b : Block) : Prop := readWord mem (b.addr + b.size + headerSize) = b.addr

/-- The free list is `bs`, with footers and sizes right. -/
structure InOrder (s : MmState) (bs : List Block) : Prop extends Sited s bs where
  footed : ∀ b ∈ bs, Footed s.mem b
  computed : ∀ b ∈ bs, s.computed b.addr = b.size

/-! ### Stores -/

section Stores

variable {mem mem' : Bytes} {a b f v : Nat} {x : BitVec 8}

theorem readWord_update_of_outside (h : b < a ∨ a + 4 ≤ b) :
    readWord (Function.update mem b x) a = readWord mem a :=
  readWord_congr fun c hlo hhi => Function.update_of_ne (by omega) _ _

/-- A header is what its bytes are. -/
theorem headerAt_congr (h : Agree mem mem' a headerSize) : headerAt mem' a = headerAt mem a := by
  have hhs := headerSize_eq
  have hword : ∀ k, k + 4 ≤ 20 → readWord mem' (a + k) = readWord mem (a + k) :=
    fun k hk => readWord_congr (h.part (by omega) (by omega))
  have hbyte : mem' (a + 8) = mem (a + 8) := h _ (by omega) (by omega)
  simp only [headerAt, sizeAt, magicAt, freeAt, nextAt, prevAt, hbyte, hword 4 (by omega),
    hword 12 (by omega), hword 16 (by omega)]
  rw [show readWord mem' a = readWord mem a from hword 0 (by omega)]

theorem agree_update {n : Nat} (h : b < a ∨ a + n ≤ b) : Agree mem (Function.update mem b x) a n :=
  fun c hlo hhi => Function.update_of_ne (by omega) _ _

/-- Marking a block touches the flag of its header only. -/
theorem headerAt_setFree (s : MmState) (block : Nat) (free : Bool) :
    headerAt (setFree s block free).mem block = { headerAt s.mem block with free := free } := by
  simp (disch := omega) only [headerAt, sizeAt, magicAt, freeAt, nextAt, prevAt, setFree,
    readWord_update_of_outside, Function.update_self]
  cases free <;> rfl

theorem headerAt_setFree_of_ne (s : MmState) (free : Bool) (ha : a % 4096 = 0)
    (hb : b % 4096 = 0) (hne : a ≠ b) :
    headerAt (setFree s b free).mem a = headerAt s.mem a := by
  have hhs := headerSize_eq
  exact headerAt_congr (agree_update (by omega))

end Stores

/-! ### The list in memory -/

section Lists

variable {s : MmState} {b c : Block} {l r bs : List Block}

theorem ptr_of_pos {a : Nat} (h : 0 < a) : ptr a = some a := if_neg (by omega)

/-- Where the header and the footer of a block are. -/
theorem Block.Placed.bounds (h : b.Placed) : 0 < b.addr ∧ b.addr % 4096 = 0 ∧
    b.size % 4096 = 4072 ∧ b.addr + (b.size + 24) ≤ 2 ^ 32 := by
  obtain ⟨hpos, haligned, hwhole, hfits⟩ := h
  simp only [headerSize_eq, footerSize_eq, pageSize_eq] at haligned hwhole hfits
  omega

/-- The blocks `mm_alloc` may take. -/
def Block.Fits (b : Block) (size : Nat) : Prop := b.free = true ∧ size ≤ b.size

instance (b : Block) (size : Nat) : Decidable (b.Fits size) := inferInstanceAs (Decidable (_ ∧ _))

instance : Std.Symm fun b c : Block => Apart b.range c.range := ⟨fun _ _ h => h.symm⟩

/-- Blocks apart, in numbers. -/
theorem apart_range : Apart b.range c.range ↔
    b.addr + (b.size + 24) ≤ c.addr ∨ c.addr + (c.size + 24) ≤ b.addr := by
  simp only [Apart, Block.range, headerSize_eq, footerSize_eq]
  omega

theorem Sited.header (h : Sited s (l ++ b :: r)) : headerAt s.mem b.addr =
    b.header (lastAddr Block.addr 0 l) (firstAddr Block.addr 0 r) :=
  (segment_cut.mp h.listed).2.1

theorem Sited.ranges (h : Sited s bs) : bs.Pairwise fun b c => Apart b.range c.range := by
  have hapart := h.apart
  rwa [h.regions, List.pairwise_map] at hapart

/-- Two blocks lie apart. -/
theorem Sited.apart_of_ne (h : Sited s bs) (hb : b ∈ bs) (hc : c ∈ bs) (hne : b ≠ c) :
    b.addr + (b.size + 24) ≤ c.addr ∨ c.addr + (c.size + 24) ≤ b.addr :=
  apart_range.mp (h.ranges.forall hb hc hne)

/-- Blocks with one address are the same block. -/
theorem Sited.eq_of_addr (h : Sited s bs) (hb : b ∈ bs) (hc : c ∈ bs) (heq : b.addr = c.addr) :
    b = c := by
  by_contra hne
  rcases h.apart_of_ne hb hc hne with hapart | hapart
  · omega
  · omega

/-- Following `next` from the head meets the blocks in order. -/
theorem Segment.chain {mem : Bytes} {p : Nat}
    (h : Segment Block.addr (fun b p q => headerAt mem b.addr = b.header p q) p 0 bs)
    (hpos : ∀ b ∈ bs, 0 < b.addr) :
    Chain (nextOf mem) (ptr (firstAddr Block.addr 0 bs)) (bs.map Block.addr) := by
  induction bs generalizing p with
  | nil => rfl
  | cons b bs ih =>
    have hnext : nextAt mem b.addr = firstAddr Block.addr 0 bs := congrArg Header.next h.1
    refine ⟨ptr_of_pos (hpos b List.mem_cons_self), ?_⟩
    rw [nextOf, hnext]
    exact ih h.2 fun c hc => hpos c (List.mem_cons_of_mem b hc)

theorem Sited.chain (h : Sited s bs) :
    Chain (nextOf s.mem) (ptr s.freeList) (bs.map Block.addr) := by
  rw [h.head]
  exact Segment.chain h.listed fun b hb => (h.placed b hb).nonnull

theorem Sited.sizeAt_eq (h : Sited s bs) (hb : b ∈ bs) : sizeAt s.mem b.addr = b.size := by
  obtain ⟨l, r, rfl⟩ := List.append_of_mem hb
  exact congrArg Header.size h.header

theorem Sited.freeAt_eq (h : Sited s bs) (hb : b ∈ bs) : freeAt s.mem b.addr = b.free := by
  obtain ⟨l, r, rfl⟩ := List.append_of_mem hb
  exact congrArg Header.free h.header

theorem Sited.next_eq (h : Sited s (l ++ b :: r)) :
    nextAt s.mem b.addr = firstAddr Block.addr 0 r := congrArg Header.next h.header

theorem Sited.prev_eq (h : Sited s (l ++ b :: r)) :
    prevAt s.mem b.addr = lastAddr Block.addr 0 l := congrArg Header.prev h.header

/-- What follows a block in the list is at a page boundary or nothing. -/
theorem Sited.first_aligned (h : Sited s (l ++ r)) : firstAddr Block.addr 0 r % 4096 = 0 := by
  cases r with
  | nil => rfl
  | cons c r => exact (h.placed c (by simp)).bounds.2.1

theorem Sited.first_lt (h : Sited s (l ++ r)) : firstAddr Block.addr 0 r < 2 ^ 32 := by
  cases r with
  | nil => exact Nat.two_pow_pos 32
  | cons c r =>
    have := (h.placed c (by simp)).bounds
    show c.addr < 2 ^ 32
    omega

theorem Sited.extent_eq (h : Sited s bs) (hb : b ∈ bs) : extent s.mem b.addr = b.range := by
  rw [extent, h.sizeAt_eq hb, Block.range]

/-- **Order is sound.** -/
theorem InOrder.sound (h : InOrder s bs) : ExtentsSound s := by
  have hhs := headerSize_eq
  have hfs := footerSize_eq
  refine ⟨_, h.chain, ?_, ?_⟩
  · rw [List.pairwise_map]
    refine h.ranges.imp_of_mem fun hb hc hapart => ?_
    rw [h.extent_eq hb, h.extent_eq hc]
    exact hapart
  · intro a ha
    obtain ⟨b, hb, rfl⟩ := List.mem_map.mp ha
    have hfits := (h.placed b hb).fits
    rw [h.extent_eq hb, h.sizeAt_eq hb, h.computed b hb, wrap32_of_lt (by omega)]
    refine ⟨⟨b.range, ?_, Nat.le_refl _, Nat.le_refl _⟩, rfl, h.footed b hb⟩
    rw [h.regions]
    exact List.mem_map_of_mem hb

/-- The other blocks have other addresses. -/
theorem Sited.addr_ne (h : Sited s (l ++ b :: r)) (hc : c ∈ l ++ r) : c.addr ≠ b.addr := fun heq => by
  have hnodup := h.chain.nodup
  rw [List.map_append, List.map_cons, List.nodup_middle, ← List.map_append,
    List.nodup_cons] at hnodup
  exact hnodup.1 (heq ▸ List.mem_map_of_mem hc)

/-- What follows later in the list is another block or nothing. -/
theorem Sited.first_ne {m : List Block} (h : Sited s (l ++ b :: (m ++ r))) :
    firstAddr Block.addr 0 r ≠ b.addr := by
  cases r with
  | nil => exact (h.placed b (by simp)).nonnull.ne
  | cons d r => exact h.addr_ne (by simp)

/-- **Marking a block** free or taken. -/
theorem Sited.flag (h : Sited s (l ++ b :: r)) (free : Bool) :
    Sited (setFree s b.addr free) (l ++ { b with free := free } :: r) := by
  have hb : b ∈ l ++ b :: r := List.mem_append_right l List.mem_cons_self
  have hplaced : ∀ c ∈ l ++ { b with free := free } :: r, c.Placed := by
    have hall := h.placed
    simp only [List.forall_mem_append, List.forall_mem_cons] at hall ⊢
    obtain ⟨hl, ⟨hpos, haligned, hwhole, hfits⟩, hr⟩ := hall
    exact ⟨hl, ⟨hpos, haligned, hwhole, hfits⟩, hr⟩
  have hregions : s.regions = (l ++ { b with free := free } :: r).map Block.range := by
    rw [h.regions, List.map_append, List.map_append]
    rfl
  refine ⟨?_, ?_, hplaced, hregions, h.apart⟩
  · show s.freeList = _
    rw [h.head]
    cases l <;> rfl
  · refine Segment.replace h.listed rfl ?_ ?_
    · intro p q hheader
      show headerAt (setFree s b.addr free).mem b.addr = _
      rw [headerAt_setFree, hheader]
      rfl
    · intro c hc p q hheader
      have hc' : c ∈ l ++ b :: r := by
        rcases List.mem_append.mp hc with hc | hc
        · exact List.mem_append_left _ hc
        · exact List.mem_append_right _ (List.mem_cons_of_mem b hc)
      rw [headerAt_setFree_of_ne s free (h.placed c hc').bounds.2.1 (h.placed b hb).bounds.2.1
        (h.addr_ne hc)]
      exact hheader

/-- A flag is no part of a footer. -/
theorem footed_setFree {a : Nat} (hc : c.Placed) (ha : a % 4096 = 0) (free : Bool) :
    Footed (setFree s a free).mem c ↔ Footed s.mem c := by
  obtain ⟨-, haligned, hwhole, -⟩ := hc.bounds
  unfold Footed
  rw [setFree_mem, readWord_update_of_outside (by rw [headerSize_eq]; omega)]

theorem InOrder.flag (h : InOrder s (l ++ b :: r)) (free : Bool) :
    InOrder (setFree s b.addr free) (l ++ { b with free := free } :: r) := by
  have hb : b ∈ l ++ b :: r := List.mem_append_right l List.mem_cons_self
  have haligned := (h.placed b hb).bounds.2.1
  have hfooted : ∀ c ∈ l ++ b :: r, Footed (setFree s b.addr free).mem c := fun c hc =>
    (footed_setFree (h.placed c hc) haligned free).mpr (h.footed c hc)
  have hcomputed := h.computed
  refine ⟨h.toSited.flag free, ?_, ?_⟩
  · simp only [List.forall_mem_append, List.forall_mem_cons] at hfooted ⊢
    exact ⟨hfooted.1, hfooted.2.1, hfooted.2.2⟩
  · simp only [List.forall_mem_append, List.forall_mem_cons] at hcomputed ⊢
    exact ⟨hcomputed.1, hcomputed.2.1, hcomputed.2.2⟩

/-! ### The walk -/

/-- One step of the walk. -/
theorem bestFitFrom_cons {mem : Bytes} {p size fuel best : Nat}
    (h : Segment Block.addr (fun b p q => headerAt mem b.addr = b.header p q) p 0 (c :: bs))
    (hc : 0 < c.addr) :
    bestFitFrom mem size (fuel + 1) (firstAddr Block.addr 0 (c :: bs)) best =
      bestFitFrom mem size fuel (firstAddr Block.addr 0 bs)
        (if c.Fits size ∧ (best = 0 ∨ c.size < sizeAt mem best) then c.addr else best) := by
  have hcs : sizeAt mem c.addr = c.size := congrArg Header.size h.1
  have hcf : freeAt mem c.addr = c.free := congrArg Header.free h.1
  have hcn : nextAt mem c.addr = firstAddr Block.addr 0 bs := congrArg Header.next h.1
  show bestFitFrom mem size (fuel + 1) c.addr best = _
  rw [bestFitFrom, if_neg (by omega)]
  simp only [hcs, hcf, hcn, Block.Fits, and_assoc]

/-- The walk with a block in hand ends with the smallest one that fits. -/
theorem bestFitFrom_better {mem : Bytes} {p size fuel : Nat} {best : Block}
    (h : Segment Block.addr (fun b p q => headerAt mem b.addr = b.header p q) p 0 bs)
    (hpos : ∀ b ∈ bs, 0 < b.addr) (hbest : 0 < best.addr) (hsize : sizeAt mem best.addr = best.size)
    (hfuel : bs.length < fuel) :
    ∃ b, (b = best ∨ b ∈ bs ∧ b.Fits size) ∧ b.size ≤ best.size ∧
      (∀ c ∈ bs, c.Fits size → b.size ≤ c.size) ∧
      bestFitFrom mem size fuel (firstAddr Block.addr 0 bs) best.addr = some b.addr := by
  induction bs generalizing p fuel best with
  | nil =>
    obtain ⟨fuel, rfl⟩ := Nat.exists_eq_add_one_of_ne_zero (Nat.ne_zero_of_lt hfuel)
    exact ⟨best, Or.inl rfl, Nat.le_refl _, by simp, by simp [bestFitFrom, firstAddr]⟩
  | cons c bs ih =>
    obtain ⟨fuel, rfl⟩ := Nat.exists_eq_add_one_of_ne_zero (Nat.ne_zero_of_lt hfuel)
    have hc : 0 < c.addr := hpos c List.mem_cons_self
    have hcs : sizeAt mem c.addr = c.size := congrArg Header.size h.1
    have hpos' : ∀ b ∈ bs, 0 < b.addr := fun b hb => hpos b (List.mem_cons_of_mem c hb)
    have hfuel' : bs.length < fuel := by simpa using hfuel
    rw [bestFitFrom_cons h hc, hsize]
    by_cases htake : c.Fits size ∧ (best.addr = 0 ∨ c.size < best.size)
    · -- The walk goes on with `c` in hand.
      rw [if_pos htake]
      obtain ⟨b, hb, hle, hleast, hfound⟩ := ih h.2 hpos' hc hcs hfuel'
      refine ⟨b, ?_, by omega, ?_, hfound⟩
      · rcases hb with rfl | ⟨hb, hfits⟩
        · exact Or.inr ⟨List.mem_cons_self, htake.1⟩
        · exact Or.inr ⟨List.mem_cons_of_mem c hb, hfits⟩
      · rw [List.forall_mem_cons]
        exact ⟨fun _ => hle, hleast⟩
    · rw [if_neg htake]
      obtain ⟨b, hb, hle, hleast, hfound⟩ := ih h.2 hpos' hbest hsize hfuel'
      refine ⟨b, ?_, hle, ?_, hfound⟩
      · rcases hb with rfl | ⟨hb, hfits⟩
        · exact Or.inl rfl
        · exact Or.inr ⟨List.mem_cons_of_mem c hb, hfits⟩
      · rw [List.forall_mem_cons]
        refine ⟨?_, hleast⟩
        intro hfits
        have hnot : ¬ c.size < best.size := fun hlt => htake ⟨hfits, Or.inr hlt⟩
        omega

/-- **The walk** finds nothing when nothing fits, and else the smallest block that fits. -/
theorem bestFitFrom_cases {mem : Bytes} {p size fuel : Nat}
    (h : Segment Block.addr (fun b p q => headerAt mem b.addr = b.header p q) p 0 bs)
    (hpos : ∀ b ∈ bs, 0 < b.addr) (hfuel : bs.length < fuel) :
    bestFitFrom mem size fuel (firstAddr Block.addr 0 bs) 0 = some 0 ∧
        (∀ c ∈ bs, ¬ c.Fits size) ∨
      ∃ b ∈ bs, b.Fits size ∧ (∀ c ∈ bs, c.Fits size → b.size ≤ c.size) ∧
        bestFitFrom mem size fuel (firstAddr Block.addr 0 bs) 0 = some b.addr := by
  induction bs generalizing p fuel with
  | nil =>
    obtain ⟨fuel, rfl⟩ := Nat.exists_eq_add_one_of_ne_zero (Nat.ne_zero_of_lt hfuel)
    exact Or.inl ⟨by simp [bestFitFrom, firstAddr], by simp⟩
  | cons c bs ih =>
    obtain ⟨fuel, rfl⟩ := Nat.exists_eq_add_one_of_ne_zero (Nat.ne_zero_of_lt hfuel)
    have hc : 0 < c.addr := hpos c List.mem_cons_self
    have hcs : sizeAt mem c.addr = c.size := congrArg Header.size h.1
    have hpos' : ∀ b ∈ bs, 0 < b.addr := fun b hb => hpos b (List.mem_cons_of_mem c hb)
    have hfuel' : bs.length < fuel := by simpa using hfuel
    rw [bestFitFrom_cons h hc]
    simp only [true_or, and_true]
    by_cases htake : c.Fits size
    · rw [if_pos htake]
      obtain ⟨b, hb, hle, hleast, hfound⟩ := bestFitFrom_better h.2 hpos' hc hcs hfuel'
      refine Or.inr ⟨b, ?_, ?_, ?_, hfound⟩
      · rcases hb with rfl | ⟨hb, -⟩
        · exact List.mem_cons_self
        · exact List.mem_cons_of_mem c hb
      · rcases hb with rfl | ⟨-, hfits⟩
        · exact htake
        · exact hfits
      · rw [List.forall_mem_cons]
        exact ⟨fun _ => hle, hleast⟩
    · rw [if_neg htake]
      rcases ih h.2 hpos' hfuel' with ⟨hnone, hall⟩ | ⟨b, hb, hfits, hleast, hfound⟩
      · refine Or.inl ⟨hnone, ?_⟩
        rw [List.forall_mem_cons]
        exact ⟨htake, hall⟩
      · refine Or.inr ⟨b, List.mem_cons_of_mem c hb, hfits, ?_, hfound⟩
        rw [List.forall_mem_cons]
        exact ⟨fun hc => absurd hc htake, hleast⟩

/-- There are fewer blocks than addresses. -/
theorem Sited.length_le (h : Sited s bs) : bs.length ≤ 2 ^ 32 := by
  have hsub : bs.map Block.addr ⊆ List.range (2 ^ 32) := by
    intro a ha
    obtain ⟨b, hb, rfl⟩ := List.mem_map.mp ha
    have := (h.placed b hb).bounds
    rw [List.mem_range]
    omega
  have hle := (List.subperm_of_subset h.chain.nodup hsub).length_le
  rwa [List.length_map, List.length_range] at hle

/-- The walk of `mm_alloc` comes back. -/
theorem Sited.bestFit (h : Sited s bs) (size : Nat) :
    bestFitFrom s.mem size (2 ^ 32 + 1) s.freeList 0 = some 0 ∧ (∀ c ∈ bs, ¬ c.Fits size) ∨
      ∃ b ∈ bs, b.Fits size ∧ (∀ c ∈ bs, c.Fits size → b.size ≤ c.size) ∧
        bestFitFrom s.mem size (2 ^ 32 + 1) s.freeList 0 = some b.addr := by
  have hlength := h.length_le
  rw [h.head]
  exact bestFitFrom_cases h.listed (fun b hb => (h.placed b hb).nonnull) (by omega)

end Lists

end ArmKernel.Mm

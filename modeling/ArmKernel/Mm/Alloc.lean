/-
The kernel allocator of `src/mm_alloc.c`.

Headers and footers lie in byte memory as `block_header_t` and `block_footer_t` say
(`header_layout`). A pointer is an address, 0 for `NULL`, and pointer arithmetic wraps
at 32 bits.

`mm_alloc_pages` is declared in `mm.h` and defined nowhere: what it answers, a base and
the bytes that lie there, is an argument. `computed` and `regions` are no variables of
the program. They record the value of the last assignment to each `size` field, and the
regions that `mm_alloc_pages` has returned.
-/
import ArmKernel.Support.Bytes
import ArmKernel.Support.Word
import Mathlib.Logic.Function.Basic

namespace ArmKernel.Mm

open ArmKernel.Support

/-! ### Layout -/

/-- The members of `block_header_t`: `size`, `magic`, `is_free`, `next` and `prev`. -/
def headerMembers : List CType := [⟨4, 4⟩, ⟨4, 4⟩, ⟨1, 1⟩, ⟨4, 4⟩, ⟨4, 4⟩]

/-- `sizeof(block_header_t)`. -/
def headerSize : Nat := 20

/-- `sizeof(block_footer_t)`, one pointer. -/
def footerSize : Nat := 4

/-- `MIN_BLOCK_SIZE`. -/
def minBlockSize : Nat := headerSize + footerSize + 16

/-- `PAGE_SIZE`. -/
def pageSize : Nat := 4096

/-- `BLOCK_MAGIC`. -/
def blockMagic : Nat := 0xDEADBEEF

theorem header_layout :
    offsets headerMembers = [0, 4, 8, 12, 16] ∧ structSize headerMembers = headerSize ∧
      structSize [⟨4, 4⟩] = footerSize := by decide

theorem headerSize_eq : headerSize = 20 := rfl

theorem footerSize_eq : footerSize = 4 := rfl

theorem minBlockSize_eq : minBlockSize = 40 := rfl

theorem pageSize_eq : pageSize = 4096 := rfl

section Fields

variable (mem : Bytes) (block : Nat)

def sizeAt : Nat := readWord mem block
def magicAt : Nat := readWord mem (block + 4)
def freeAt : Bool := mem (block + 8) != 0
def nextAt : Nat := readWord mem (block + 12)
def prevAt : Nat := readWord mem (block + 16)

end Fields

/-! ### State -/

/-- Memory and `free_list`, with the records `computed` and `regions`. -/
structure MmState where
  mem : Bytes
  freeList : Nat
  computed : Nat → Nat
  regions : List (Nat × Nat)

section Stores

variable (s : MmState) (block : Nat)

def MmState.store (a v : Nat) : MmState := { s with mem := writeWord s.mem a v }

def setSize (v : Nat) : MmState :=
  { s.store block v with computed := Function.update s.computed block v }

def setMagic (v : Nat) : MmState := s.store (block + 4) v

def setFree (b : Bool) : MmState :=
  { s with mem := Function.update s.mem (block + 8) (if b then 1 else 0) }

def setNext (v : Nat) : MmState := s.store (block + 12) v

def setPrev (v : Nat) : MmState := s.store (block + 16) v

/-- `footer = (char *)block + block->size + sizeof(block_header_t); footer->header = block;` -/
def setFooter : MmState := s.store (wrap32 (block + sizeAt s.mem block + headerSize)) block

/-- `if (next) next->prev = block;` -/
def linkBack (next : Nat) : MmState := if next ≠ 0 then setPrev s next block else s

end Stores

section Stores

variable (s : MmState) (block next v : Nat) (b : Bool)

@[simp] theorem setSize_mem : (setSize s block v).mem = writeWord s.mem block v := rfl
@[simp] theorem setMagic_mem : (setMagic s block v).mem = writeWord s.mem (block + 4) v := rfl
@[simp] theorem setNext_mem : (setNext s block v).mem = writeWord s.mem (block + 12) v := rfl
@[simp] theorem setPrev_mem : (setPrev s block v).mem = writeWord s.mem (block + 16) v := rfl

@[simp] theorem setFree_mem :
    (setFree s block b).mem = Function.update s.mem (block + 8) (if b then 1 else 0) := rfl

@[simp] theorem setFooter_mem : (setFooter s block).mem =
    writeWord s.mem (wrap32 (block + sizeAt s.mem block + headerSize)) block := rfl

@[simp] theorem linkBack_mem : (linkBack s block next).mem =
    if next ≠ 0 then writeWord s.mem (next + 16) block else s.mem := by
  unfold linkBack
  split <;> rfl

@[simp] theorem setSize_computed :
    (setSize s block v).computed = Function.update s.computed block v := rfl
@[simp] theorem setMagic_computed : (setMagic s block v).computed = s.computed := rfl
@[simp] theorem setFree_computed : (setFree s block b).computed = s.computed := rfl
@[simp] theorem setNext_computed : (setNext s block v).computed = s.computed := rfl
@[simp] theorem setPrev_computed : (setPrev s block v).computed = s.computed := rfl
@[simp] theorem setFooter_computed : (setFooter s block).computed = s.computed := rfl

@[simp] theorem linkBack_computed : (linkBack s block next).computed = s.computed := by
  unfold linkBack
  split <;> rfl

@[simp] theorem setSize_freeList : (setSize s block v).freeList = s.freeList := rfl
@[simp] theorem setMagic_freeList : (setMagic s block v).freeList = s.freeList := rfl
@[simp] theorem setFree_freeList : (setFree s block b).freeList = s.freeList := rfl
@[simp] theorem setNext_freeList : (setNext s block v).freeList = s.freeList := rfl
@[simp] theorem setPrev_freeList : (setPrev s block v).freeList = s.freeList := rfl
@[simp] theorem setFooter_freeList : (setFooter s block).freeList = s.freeList := rfl

@[simp] theorem linkBack_freeList : (linkBack s block next).freeList = s.freeList := by
  unfold linkBack
  split <;> rfl

@[simp] theorem setSize_regions : (setSize s block v).regions = s.regions := rfl
@[simp] theorem setMagic_regions : (setMagic s block v).regions = s.regions := rfl
@[simp] theorem setFree_regions : (setFree s block b).regions = s.regions := rfl
@[simp] theorem setNext_regions : (setNext s block v).regions = s.regions := rfl
@[simp] theorem setPrev_regions : (setPrev s block v).regions = s.regions := rfl
@[simp] theorem setFooter_regions : (setFooter s block).regions = s.regions := rfl

@[simp] theorem linkBack_regions : (linkBack s block next).regions = s.regions := by
  unfold linkBack
  split <;> rfl

end Stores

/-- What `mm_alloc_pages` returns: the base of a region and the bytes in it. -/
structure Grant where
  base : Nat
  contents : Bytes

/-- The call `mm_alloc_pages(count)` that returns `g`. -/
def grantPages (s : MmState) (count : Nat) (g : Grant) : MmState :=
  { s with
    mem := overlay s.mem g.contents g.base (count * pageSize)
    regions := (g.base, count * pageSize) :: s.regions }

/-! ### The functions -/

/-- `mm_alloc_init`, when `mm_alloc_pages(1024)` returns `g`. -/
def mmAllocInit (mem : Bytes) (g : Grant) : MmState :=
  let block := g.base
  let s := grantPages ⟨mem, 0, fun _ => 0, []⟩ 1024 g
  let s := setSize s block (1024 * pageSize - headerSize - footerSize)
  let s := setMagic s block blockMagic
  let s := setFree s block true
  let s := setNext s block 0
  let s := setPrev s block 0
  let s := setFooter s block
  { s with freeList := block }

/-- `split_block`. -/
def splitBlock (s : MmState) (block size : Nat) : MmState :=
  if minBlockSize ≤ sub32 (sizeAt s.mem block) size then
    let new := wrap32 (block + headerSize + size)
    let s := setSize s new
      (sub32 (sub32 (sub32 (sizeAt s.mem block) size) headerSize) footerSize)
    let s := setMagic s new blockMagic
    let s := setFree s new true
    let s := setNext s new (nextAt s.mem block)
    let s := setPrev s new block
    let s := setFooter s new
    let s := setSize s block size
    let s := setNext s block new
    let s := setFooter s block
    linkBack s new (nextAt s.mem new)
  else s

/-- The first half of `coalesce`: the next block is taken in. -/
def coalesceNext (s : MmState) (block : Nat) : MmState :=
  if nextAt s.mem block ≠ 0 ∧ freeAt s.mem (nextAt s.mem block) then
    let s := setSize s block
      (wrap32 (sizeAt s.mem block + (headerSize + footerSize + sizeAt s.mem (nextAt s.mem block))))
    let s := setNext s block (nextAt s.mem (nextAt s.mem block))
    let s := linkBack s block (nextAt s.mem block)
    setFooter s block
  else s

/-- The second half of `coalesce`: the previous block takes this one in. -/
def coalescePrev (s : MmState) (block : Nat) : MmState :=
  if prevAt s.mem block ≠ 0 ∧ freeAt s.mem (prevAt s.mem block) then
    let s := setSize s (prevAt s.mem block)
      (wrap32 (sizeAt s.mem (prevAt s.mem block) + (headerSize + footerSize + sizeAt s.mem block)))
    let s := setNext s (prevAt s.mem block) (nextAt s.mem block)
    let s := linkBack s (prevAt s.mem block) (nextAt s.mem block)
    setFooter s (prevAt s.mem block)
  else s

/-- `coalesce`. -/
def coalesce (s : MmState) (block : Nat) : MmState := coalescePrev (coalesceNext s block) block

/-- The loop of `mm_alloc` with `best_fit` so far, 0 for none; `none` when the walk does
not end. -/
def bestFitFrom (mem : Bytes) (size : Nat) : Nat → Nat → Nat → Option Nat
  | 0, _, _ => none
  | fuel + 1, block, best =>
    if block = 0 then some best
    else
      let fits := freeAt mem block ∧ size ≤ sizeAt mem block ∧
        (best = 0 ∨ sizeAt mem block < sizeAt mem best)
      bestFitFrom mem size fuel (nextAt mem block) (if fits then block else best)

/-- `(size + 7) & ~7`. -/
def align8 (size : Nat) : Nat := wrap32 (size + 7) / 8 * 8

/-- The pages `mm_alloc` asks for when no block fits. -/
def pagesFor (size : Nat) : Nat :=
  wrap32 (size + headerSize + footerSize + pageSize - 1) / pageSize

/-- The block `mm_alloc` makes of the pages it got, at the head of the list. -/
def addRegion (s : MmState) (pages : Nat) (g : Grant) : MmState :=
  let block := g.base
  let s := grantPages s pages g
  let s := setSize s block (sub32 (sub32 (wrap32 (pages * pageSize)) headerSize) footerSize)
  let s := setMagic s block blockMagic
  let s := setFree s block true
  let s := setNext s block s.freeList
  let s := setPrev s block 0
  let s := linkBack s block s.freeList
  { s with freeList := block }

/-- The end of `mm_alloc`, with the pointer it returns. -/
def takeBlock (s : MmState) (block size : Nat) : MmState × Nat :=
  (setFree (splitBlock s block size) block false, wrap32 (block + headerSize))

/-- `mm_alloc`, with the pointer it returns; `none` when it does not return. `grant` is
the answer of `mm_alloc_pages`. -/
def mmAlloc (s : MmState) (size : Nat) (grant : Option Grant) : Option (MmState × Nat) :=
  if size = 0 then some (s, 0)
  else
    let size := align8 size
    (bestFitFrom s.mem size (2 ^ 32 + 1) s.freeList 0).map fun best =>
      if best ≠ 0 then takeBlock s best size
      else
        match grant with
        | none => (s, 0)
        | some g => takeBlock (addRegion s (pagesFor size) g) g.base size

/-- `mm_free`. -/
def mmFree (s : MmState) (addr : Nat) : MmState :=
  if addr = 0 then s
  else
    let block := sub32 addr headerSize
    if magicAt s.mem block ≠ blockMagic then s
    else coalesce (setFree s block true) block

/-! ### Runs -/

/-- The allocator and the pointers the program owns. -/
structure MmSystem where
  heap : MmState
  live : List Nat

/-- The calls; `grant` is what `mm_alloc_pages` would answer. -/
inductive MmCall where
  | alloc (size : Nat) (grant : Option Grant)
  | free (addr : Nat)

/-- The two ranges of bytes, each a base and a length, do not overlap. -/
def Apart (x y : Nat × Nat) : Prop := x.1 + x.2 ≤ y.1 ∨ y.1 + y.2 ≤ x.1

instance (x y : Nat × Nat) : Decidable (Apart x y) := inferInstanceAs (Decidable (_ ∨ _))

/-- Pages that `mm_alloc_pages(count)` may return: in the address space, at a multiple of
the page size, and apart from all earlier ones. -/
structure Fresh (regions : List (Nat × Nat)) (count : Nat) (base : Nat) : Prop where
  nonnull : 0 < base
  aligned : base % pageSize = 0
  fits : base + count * pageSize ≤ 2 ^ 32
  apart : ∀ r ∈ regions, Apart (base, count * pageSize) r

/-- What the program and the page allocator may do. -/
def Allowed (s : MmSystem) : MmCall → Prop
  | .alloc size none => size < 2 ^ 32
  | .alloc size (some g) => size < 2 ^ 32 ∧ Fresh s.heap.regions (pagesFor (align8 size)) g.base
  | .free addr => addr = 0 ∨ addr ∈ s.live

instance (regions : List (Nat × Nat)) (count base : Nat) : Decidable (Fresh regions count base) :=
  have : Decidable (∀ r ∈ regions, Apart (base, count * pageSize) r) := List.decidableBAll _ _
  decidable_of_iff
    (0 < base ∧ base % pageSize = 0 ∧ base + count * pageSize ≤ 2 ^ 32 ∧
      ∀ r ∈ regions, Apart (base, count * pageSize) r)
    ⟨fun ⟨h₁, h₂, h₃, h₄⟩ => ⟨h₁, h₂, h₃, h₄⟩, fun ⟨h₁, h₂, h₃, h₄⟩ => ⟨h₁, h₂, h₃, h₄⟩⟩

instance (s : MmSystem) : (call : MmCall) → Decidable (Allowed s call)
  | .alloc _ none => inferInstanceAs (Decidable (_ < _))
  | .alloc _ (some _) => inferInstanceAs (Decidable (_ ∧ _))
  | .free _ => inferInstanceAs (Decidable (_ ∨ _))

/-- What a call does; `none` when it does not return. -/
def perform (s : MmSystem) : MmCall → Option MmSystem
  | .alloc size grant =>
    (mmAlloc s.heap size grant).map fun r =>
      ⟨r.1, if r.2 = 0 then s.live else r.2 :: s.live⟩
  | .free addr => some ⟨mmFree s.heap addr, s.live.filter (· ≠ addr)⟩

def mmStep (s : MmSystem) (call : MmCall) : Option MmSystem :=
  if Allowed s call then perform s call else none

/-- The system after `mm_alloc_init`. -/
def MmSystem.init (mem : Bytes) (g : Grant) : MmSystem := ⟨mmAllocInit mem g, []⟩

end ArmKernel.Mm

/-
The allocator of `src/malloc.c`.

The heap is byte memory: headers, links and payloads lie in it as the C structure
`block_t` lays them out (`block_layout`), and a pointer is an address, 0 for `NULL`.
`sys_brk` has no definition in the sources; `SysBrk` is what `extend_heap` needs of it.

`free` and `realloc` get from a pointer to a header by `(char *)ptr - BLOCK_SIZE`.
They are given here for any such map, `header`; `headerOf` is the one of the source,
`ownerOf` the inverse of `block->data`.
-/
import ArmKernel.Support.Bytes
import ArmKernel.Support.Word

namespace ArmKernel.Libc

open ArmKernel.Support

/-! ### `block_t` -/

/-- The members of `block_t`: `size`, `next`, `prev`, `free` and `data[1]`. -/
def blockMembers : List CType := [⟨4, 4⟩, ⟨4, 4⟩, ⟨4, 4⟩, ⟨4, 4⟩, ⟨1, 1⟩]

/-- `offsetof(block_t, data)`. -/
def dataOffset : Nat := 16

/-- `BLOCK_SIZE`, that is `sizeof(block_t)`. -/
def blockSize : Nat := 20

theorem block_layout :
    offsets blockMembers = [0, 4, 8, 12, dataOffset] ∧ structSize blockMembers = blockSize := by
  decide

theorem dataOffset_eq : dataOffset = 16 := rfl

theorem blockSize_eq : blockSize = 20 := rfl

section Fields

variable (mem : Bytes) (block v : Nat)

def sizeAt : Nat := readWord mem block
def nextAt : Nat := readWord mem (block + 4)
def prevAt : Nat := readWord mem (block + 8)
def freeAt : Nat := readWord mem (block + 12)

def setSize : Bytes := writeWord mem block v
def setNext : Bytes := writeWord mem (block + 4) v
def setPrev : Bytes := writeWord mem (block + 8) v
def setFree : Bytes := writeWord mem (block + 12) v

end Fields

/-! ### The functions -/

/-- Memory, the static variables of `malloc.c`, and the break. -/
structure Heap where
  mem : Bytes
  heapStart : Nat
  heapEnd : Nat
  brk : Nat

/-- `ALIGN(x)`. -/
def align (x : Nat) : Nat := wrap32 (x + 3) / 4 * 4

/-- The loop of `find_free_block`; `none` when the walk does not end. -/
def findFreeFrom (mem : Bytes) (size : Nat) : Nat → Nat → Option Nat
  | 0, _ => none
  | fuel + 1, block =>
    if block = 0 then some 0
    else if freeAt mem block ≠ 0 ∧ size ≤ sizeAt mem block then some block
    else findFreeFrom mem size fuel (nextAt mem block)

/-- `find_free_block`. A walk of more steps than there are addresses goes on forever. -/
def findFreeBlock (heap : Heap) (size : Nat) : Option Nat :=
  findFreeFrom heap.mem size (2 ^ 32 + 1) heap.heapStart

/-- `if (next) next->prev = block; else heap_end = block;` -/
def linkBack (heap : Heap) (mem : Bytes) (next block : Nat) : Heap :=
  if next ≠ 0 then { heap with mem := setPrev mem next block }
  else { heap with mem := mem, heapEnd := block }

/-- `split_block`. -/
def splitBlock (heap : Heap) (block size : Nat) : Heap :=
  if blockSize + 4 ≤ sub32 (sizeAt heap.mem block) size then
    let new := wrap32 (block + blockSize + size)
    let mem := heap.mem
    let mem := setSize mem new (sub32 (sub32 (sizeAt mem block) size) blockSize)
    let mem := setNext mem new (nextAt mem block)
    let mem := setPrev mem new block
    let mem := setFree mem new 1
    let mem := setSize mem block size
    let mem := setNext mem block new
    linkBack heap mem (nextAt mem new) new
  else heap

/-- `sys_brk`: the break after a call, or `none` when it returns `(void *)-1`. What it does may be
another thing at every call, but 0 asks for the break, and any other address becomes the break when
the call succeeds. -/
structure SysBrk where
  answer : Nat → Nat → Option Nat
  query : ∀ brk, answer brk 0 = some brk
  moves : ∀ brk addr b, addr ≠ 0 → answer brk addr = some b → b = addr

attribute [simp] SysBrk.query

/-- A call of `sys_brk`; `none` when it fails. -/
def sysBrk (sys : SysBrk) (heap : Heap) (addr : Nat) : Option Heap :=
  (sys.answer heap.brk addr).map fun brk => { heap with brk }

/-- A `sys_brk` that moves the break up whenever it is asked to, and never down. -/
def growing : SysBrk where
  answer brk addr := if addr = 0 then some brk else if brk ≤ addr then some addr else none
  query _ := if_pos rfl
  moves brk addr b haddr h := by
    rw [if_neg haddr] at h
    split at h
    · exact (Option.some.inj h).symm
    · cases h

/-- The end of `extend_heap`: the header of the new block is written, and the block is linked in. -/
def appendBlock (heap : Heap) (block size : Nat) : Heap :=
  let mem := setSize heap.mem block size
  let mem := setNext mem block 0
  let mem := setPrev mem block heap.heapEnd
  let mem := setFree mem block 0
  if heap.heapEnd ≠ 0 then
    { heap with mem := setNext mem heap.heapEnd block, heapEnd := block }
  else { heap with mem := mem, heapStart := block, heapEnd := block }

/-- `extend_heap`, with the new block or 0. The result of `sys_brk(0)` is not checked. -/
def extendHeap (heap : Heap) (size : Nat) (sys : SysBrk) : Heap × Nat :=
  let totalSize := align (wrap32 (size + blockSize))
  let block := (sys.answer heap.brk 0).getD (2 ^ 32 - 1)
  match sysBrk sys heap (wrap32 (block + totalSize)) with
  | none => (heap, 0)
  | some heap => (appendBlock heap block size, block)

/-- The first half of `merge_blocks`: the next block is taken in. -/
def mergeNext (heap : Heap) (block : Nat) : Heap :=
  let mem := heap.mem
  if nextAt mem block ≠ 0 ∧ freeAt mem (nextAt mem block) ≠ 0 then
    let mem := setSize mem block
      (wrap32 (sizeAt mem block + (blockSize + sizeAt mem (nextAt mem block))))
    let mem := setNext mem block (nextAt mem (nextAt mem block))
    linkBack heap mem (nextAt mem block) block
  else heap

/-- The second half of `merge_blocks`: the previous block takes this one in. -/
def mergePrev (heap : Heap) (block : Nat) : Heap :=
  let mem := heap.mem
  let prev := prevAt mem block
  if prev ≠ 0 ∧ freeAt mem prev ≠ 0 then
    let mem := setSize mem prev (wrap32 (sizeAt mem prev + (blockSize + sizeAt mem block)))
    let mem := setNext mem prev (nextAt mem block)
    linkBack heap mem (nextAt mem block) prev
  else heap

/-- `merge_blocks`. -/
def mergeBlocks (heap : Heap) (block : Nat) : Heap := mergePrev (mergeNext heap block) block

/-- `malloc`, with the pointer it returns; `none` when it does not return. -/
def malloc (heap : Heap) (size : Nat) (sys : SysBrk) : Option (Heap × Nat) :=
  if size = 0 then some (heap, 0)
  else
    let size := align size
    (findFreeBlock heap size).map fun block =>
      if block ≠ 0 then
        let heap := { heap with mem := setFree heap.mem block 0 }
        (splitBlock heap block size, block + dataOffset)
      else
        let r := extendHeap heap size sys
        if r.2 = 0 then (r.1, 0) else (r.1, r.2 + dataOffset)

/-- `(char *)ptr - BLOCK_SIZE`. -/
def headerOf (ptr : Nat) : Nat := sub32 ptr blockSize

/-- The block whose member `data` is at `ptr`. -/
def ownerOf (ptr : Nat) : Nat := sub32 ptr dataOffset

section Release

variable (header : Nat → Nat)

/-- `free`. -/
def free (heap : Heap) (ptr : Nat) : Heap :=
  if ptr = 0 then heap
  else
    let block := header ptr
    mergeBlocks { heap with mem := setFree heap.mem block 1 } block

/-- `realloc`. -/
def realloc (heap : Heap) (ptr size : Nat) (sys : SysBrk) : Option (Heap × Nat) :=
  if ptr = 0 then malloc heap size sys
  else if size = 0 then some (free header heap ptr, 0)
  else
    let block := header ptr
    if size ≤ sizeAt heap.mem block then some (splitBlock heap block size, ptr)
    else
      (malloc heap size sys).map fun r =>
        if r.2 = 0 then (r.1, 0)
        else
          let mem := copyBytes r.1.mem r.2 ptr (sizeAt r.1.mem block)
          (free header { r.1 with mem := mem } ptr, r.2)

end Release

/-- `calloc`. -/
def calloc (heap : Heap) (nmemb size : Nat) (sys : SysBrk) : Option (Heap × Nat) :=
  let totalSize := wrap32 (nmemb * size)
  (malloc heap totalSize sys).map fun r =>
    if r.2 ≠ 0 then ({ r.1 with mem := fillBytes r.1.mem r.2 0 totalSize }, r.2) else r

end ArmKernel.Libc

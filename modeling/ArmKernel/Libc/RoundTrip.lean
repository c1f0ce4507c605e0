/-
From a pointer back to its header.

`malloc` returns `block->data`, which lies `offsetof(block_t, data)` above the block;
`free` and `realloc` go down by `sizeof(block_t)`, which the padding behind `data[1]`
makes larger. So they never arrive at the block: `header_below_owner` is the distance,
`release_misses_block` the consequence for every run, and `free_hits_prev` one run.
-/
import ArmKernel.Libc.HeapRuns

namespace ArmKernel.Libc

open ArmKernel.Support

/-- `free(ptr)` and `realloc(ptr, .)` work on the block that was handed out as `ptr`: the
header they compute is this block's, so the first sets the flag of this block and of no
other, and the second reads this block's size. -/
def RoundTrips (heap : Heap) (ptr : Nat) : Prop :=
  headerOf ptr = ownerOf ptr ∧
    setFree heap.mem (headerOf ptr) 1 = setFree heap.mem (ownerOf ptr) 1 ∧
    sizeAt heap.mem (headerOf ptr) = sizeAt heap.mem (ownerOf ptr)

/-- The header computed lies below the block, by the padding of `block_t`. -/
theorem header_below_owner (ptr : Nat) :
    wrap32 (headerOf ptr + (blockSize - dataOffset)) = ownerOf ptr := by
  have hbs := blockSize_eq
  have hdo := dataOffset_eq
  unfold headerOf ownerOf sub32 wrap32
  omega

theorem headerOf_ne_ownerOf (ptr : Nat) : headerOf ptr ≠ ownerOf ptr := by
  have h := header_below_owner ptr
  have hlt : headerOf ptr < 2 ^ 32 := wrap32_lt _
  have hbs := blockSize_eq
  have hdo := dataOffset_eq
  unfold wrap32 at h
  omega

/-- What `malloc` returns is the member `data` of the block it took from the list or
appended. -/
theorem malloc_returns_data {heap heap' : Heap} {size ptr : Nat} {sys : SysBrk}
    (h : malloc heap size sys = some (heap', ptr)) (hptr : ptr ≠ 0) :
    ∃ block, block ≠ 0 ∧ ptr = block + dataOffset ∧
      (findFreeBlock heap (align size) = some block ∨
        (extendHeap heap (align size) sys).2 = block) := by
  unfold malloc at h
  split at h
  · exact absurd (congrArg Prod.snd (Option.some.inj h)).symm hptr
  obtain ⟨block, hfound, hresult⟩ := Option.map_eq_some_iff.mp h
  split at hresult
  · rename_i hblock
    exact ⟨block, hblock, (congrArg Prod.snd hresult).symm, Or.inl hfound⟩
  · simp only at hresult
    split at hresult
    · exact absurd (congrArg Prod.snd hresult).symm hptr
    · rename_i htop
      exact ⟨_, htop, (congrArg Prod.snd hresult).symm, Or.inr rfl⟩

/-- **No pointer finds its block again.** In every state of every run, no pointer the
program owns round-trips; nor does the next one `malloc` returns. -/
theorem release_misses_block (mem : Bytes) (start : Nat) (calls : List HeapCall) :
    Along (allocStep headerOf)
      (fun s => (∀ ptr ∈ s.live, ¬ RoundTrips s.heap ptr) ∧
        ∀ size sys heap' ptr, malloc s.heap size sys = some (heap', ptr) → ptr ≠ 0 →
          ∃ block, ptr = block + dataOffset ∧ headerOf ptr ≠ wrap32 block ∧
            ¬ RoundTrips heap' ptr)
      (AllocState.init mem start) calls := by
  have hnever : ∀ heap ptr, ¬ RoundTrips heap ptr := fun heap ptr h => headerOf_ne_ownerOf ptr h.1
  have hevery : Along (allocStep headerOf) (fun _ => True) (AllocState.init mem start) calls :=
    along_of_preserved (fun _ _ _ _ _ => trivial) trivial calls
  refine hevery.mono fun s _ => ⟨fun ptr _ => hnever s.heap ptr, ?_⟩
  intro size sys heap' ptr hmalloc hptr
  obtain ⟨block, -, rfl, -⟩ := malloc_returns_data hmalloc hptr
  refine ⟨block, rfl, ?_, hnever heap' _⟩
  have howner : ownerOf (block + dataOffset) = wrap32 block := by
    have hdo := dataOffset_eq
    unfold ownerOf sub32 wrap32
    omega
  exact howner ▸ headerOf_ne_ownerOf _

/-- `p = malloc(8); free(p)`: the flag goes into `prev` of the block, which is not freed. -/
theorem free_hits_prev :
    (run (allocStep headerOf) (AllocState.init (fun _ => 0) 4096) [.malloc 8 growing]).map
        (fun s => (s.live, ownerOf s.ret, headerOf s.ret)) = some ([4112], 4096, 4092) ∧
      (run (allocStep headerOf) (AllocState.init (fun _ => 0) 4096)
          [.malloc 8 growing, .free 4112]).map
        (fun s => (freeAt s.heap.mem 4096, prevAt s.heap.mem 4096)) = some (0, 1) ∧
      ¬ Along (allocStep headerOf) (fun s => ∀ ptr ∈ s.live, RoundTrips s.heap ptr)
        (AllocState.init (fun _ => 0) 4096) [.malloc 8 growing] := by
  have hlive : (run (allocStep headerOf) (AllocState.init (fun _ => 0) 4096) [.malloc 8 growing]).map
      (fun s => (s.live, ownerOf s.ret, headerOf s.ret)) = some ([4112], 4096, 4092) := by decide
  refine ⟨hlive, by decide, fun h => ?_⟩
  obtain ⟨s, hrun, heq⟩ := Option.map_eq_some_iff.mp hlive
  have hptr : 4112 ∈ s.live := by
    rw [(Prod.mk.inj heq).1]
    simp
  exact headerOf_ne_ownerOf 4112 (h.last hrun 4112 hptr).1

end ArmKernel.Libc

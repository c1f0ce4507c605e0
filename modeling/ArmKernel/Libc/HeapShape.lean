/-
Free neighbours and alignment, along runs of the allocator.

`call_edits` says what a call does to the list of blocks: edits, or the split of a live
block, which only `realloc` makes. What a run keeps of the list is therefore decided by
these splits: `heap_coalesced_iff` for free neighbours, `heap_aligned_iff` for alignment.
-/
import ArmKernel.Libc.HeapRuns

namespace ArmKernel.Libc

open ArmKernel.Support

variable {s s' : AllocState} {start : Nat} {bs : List Block} {call : HeapCall}

/-! ### One call -/

/-- The call is a `realloc` that splits its block. -/
def HeapCall.Splits (s : AllocState) : HeapCall → Prop
  | .realloc ptr size _ => ptr ≠ 0 ∧ size ≠ 0 ∧ size + blockSize + 4 ≤ payloadSize s.heap ptr
  | _ => False

/-- The call splits a live block of the list. -/
def SplitsBlock (call : HeapCall) (bs bs' : List Block) : Prop :=
  ∃ l b r n sys, call = .realloc (b.addr + dataOffset) n sys ∧ b.free = false ∧
    n + blockSize + 4 ≤ b.size ∧ bs = l ++ b :: r ∧ bs' = shrunk l b r n

theorem malloc_edits {size ptr : Nat} {sys : SysBrk} {heap' : Heap} (ht : Tiled s.heap start bs)
    (hsmall : SmallSize size) (hgrows : Grows sys s.heap size)
    (hcall : malloc s.heap size sys = some (heap', ptr)) :
    ∃ bs', Tiled heap' start bs' ∧ Edits bs bs' := by
  obtain ⟨heap₁, p, hmalloc, hcases⟩ := malloc_spec ht hsmall hgrows
  rw [hcall] at hmalloc
  obtain ⟨rfl, rfl⟩ := Prod.mk.inj (Option.some.inj hmalloc)
  rcases hcases with ⟨-, rfl⟩ | ⟨bs', new, -, -, hedit, halloc⟩
  · exact ⟨bs, ht, .refl⟩
  · exact ⟨bs', halloc.tiled, .single hedit⟩

theorem free_edits {ptr : Nat} (ht : Tiled s.heap start bs) (ho : Owns bs s.live)
    (hptr : ptr = 0 ∨ ptr ∈ s.live) :
    ∃ bs', Tiled (free ownerOf s.heap ptr) start bs' ∧ Edits bs bs' := by
  rcases hptr with rfl | hptr
  · exact ⟨bs, ht, .refl⟩
  · obtain ⟨b, hb, rfl⟩ := (ho ptr).mp hptr
    obtain ⟨bs', hedit, heff⟩ := free_effect ht hb (ownerOf_data (ht.addr_lt hb.1))
    exact ⟨bs', heff.tiled, .single hedit⟩

theorem realloc_edits {ptr size ret : Nat} {sys : SysBrk} {heap' : Heap}
    (ht : Tiled s.heap start bs) (ho : Owns bs s.live) (hptr : ptr ∈ s.live)
    (hsmall : SmallSize size) (hgrows : payloadSize s.heap ptr < size → Grows sys s.heap size)
    (hcall : realloc ownerOf s.heap ptr size sys = some (heap', ret)) :
    ∃ bs', Tiled heap' start bs' ∧
      ((¬ HeapCall.Splits s (.realloc ptr size sys) ∧ Edits bs bs') ∨
        (HeapCall.Splits s (.realloc ptr size sys) ∧
          SplitsBlock (.realloc ptr size sys) bs bs')) := by
  have hdo := dataOffset_eq
  obtain ⟨b, hb, rfl⟩ := (ho ptr).mp hptr
  have hsize := ht.payloadSize_eq hb.1
  obtain ⟨heap₁, p, hrealloc, hcases⟩ :=
    realloc_effect ht hb hsmall (ownerOf_data (ht.addr_lt hb.1)) fun hlt =>
      hgrows (by rwa [hsize])
  rw [hcall] at hrealloc
  obtain ⟨rfl, rfl⟩ := Prod.mk.inj (Option.some.inj hrealloc)
  unfold HeapCall.Splits
  simp only [hsize]
  rcases hcases with ⟨rfl, -, bs', hedit, heff⟩ | ⟨hn, -, hlt, rfl⟩ |
    ⟨hn, bs', new, -, -, hresize, heff, -⟩
  · exact ⟨bs', heff.tiled, .inl ⟨fun h => h.2.1 rfl, .single hedit⟩⟩
  · exact ⟨bs, ht, .inl ⟨fun h => by omega, .refl⟩⟩
  · refine ⟨bs', heff.tiled, ?_⟩
    rcases hresize with ⟨-, hroom, l, r, hbs, hbs'⟩ | ⟨htight, hedits⟩
    · exact .inr ⟨⟨by omega, hn, hroom⟩, l, b, r, size, sys, rfl, hb.2, hroom, hbs, hbs'⟩
    · exact .inl ⟨fun h => htight.elim hn fun hlt => by omega, hedits⟩

/-- **One call.** Only a `realloc` that splits does more to the list than edits. -/
theorem call_edits (ht : Tiled s.heap start bs) (ho : Owns bs s.live)
    (hstep : allocStep ownerOf s call = some s') :
    ∃ bs', Tiled s'.heap start bs' ∧ Owns bs' s'.live ∧
      ((¬ call.Splits s ∧ Edits bs bs') ∨ (call.Splits s ∧ SplitsBlock call bs bs')) := by
  have hallowed := allowed_of_step hstep
  obtain ⟨t, hrun, ⟨bs₁, ht₁, ho₁⟩, -⟩ := heap_step ⟨bs, ht, ho⟩ hallowed
  obtain rfl : s' = t := Option.some.inj (hstep.symm.trans hrun)
  have hshape : ∃ bs', Tiled s'.heap start bs' ∧
      ((¬ call.Splits s ∧ Edits bs bs') ∨ (call.Splits s ∧ SplitsBlock call bs bs')) := by
    rw [allocStep, if_pos hallowed] at hstep
    cases call with
    | malloc size sys =>
      obtain ⟨⟨heap', ptr⟩, hcall, rfl⟩ := Option.map_eq_some_iff.mp hstep
      obtain ⟨bs', ht', hedits⟩ := malloc_edits ht hallowed.1 hallowed.2 hcall
      exact ⟨bs', ht', .inl ⟨id, hedits⟩⟩
    | free ptr =>
      cases hstep
      obtain ⟨bs', ht', hedits⟩ := free_edits ht ho hallowed
      exact ⟨bs', ht', .inl ⟨id, hedits⟩⟩
    | realloc ptr size sys =>
      obtain ⟨⟨heap', ret⟩, hcall, rfl⟩ := Option.map_eq_some_iff.mp hstep
      rcases hallowed.1 with rfl | hptr
      · rw [realloc, if_pos rfl] at hcall
        obtain ⟨bs', ht', hedits⟩ := malloc_edits ht hallowed.2.1 (hallowed.2.2 (.inl rfl)) hcall
        exact ⟨bs', ht', .inl ⟨fun h => h.1 rfl, hedits⟩⟩
      · exact realloc_edits ht ho hptr hallowed.2.1 (fun hlt => hallowed.2.2 (.inr hlt)) hcall
    | calloc nmemb size sys =>
      obtain ⟨⟨heap', ptr⟩, hcall, rfl⟩ := Option.map_eq_some_iff.mp hstep
      obtain ⟨heap₁, p, hcalloc, hcases⟩ := calloc_effect ht hallowed.1 hallowed.2.1 hallowed.2.2
      rw [hcall] at hcalloc
      obtain ⟨rfl, rfl⟩ := Prod.mk.inj (Option.some.inj hcalloc)
      rcases hcases with ⟨-, rfl⟩ | ⟨bs', new, -, -, hedit, heff⟩
      · exact ⟨bs, ht, .inl ⟨id, .refl⟩⟩
      · exact ⟨bs', heff.tiled, .inl ⟨id, .single hedit⟩⟩
    | store ptr i x =>
      cases hstep
      obtain ⟨b, hb, rfl⟩ := (ho ptr).mp hallowed.1
      have hi : i < b.size := ht.payloadSize_eq hb.1 ▸ hallowed.2
      have hwrite := ht.write_payload hb
        (Function.update s.heap.mem (b.addr + dataOffset + i) x) fun a k hout y hlo hhi =>
          Function.update_of_ne (by omega) _ _
      exact ⟨bs, hwrite.1, .inl ⟨id, .refl⟩⟩
  obtain ⟨bs', ht', hcases⟩ := hshape
  obtain rfl := ht₁.unique ht'
  exact ⟨bs₁, ht₁, ho₁, hcases⟩

/-! ### Runs -/

/-- The list of blocks, whose live ones the program owns, is as `P` says. -/
def Shaped (P : List Block → Prop) (start : Nat) (s : AllocState) : Prop :=
  ∃ bs, Tiled s.heap start bs ∧ Owns bs s.live ∧ P bs

section Splits

variable {P : List Block → Prop} {ok : AllocState → HeapCall → Prop}
  (keeps : ∀ {bs bs'}, Edit bs bs' → P bs → P bs')
  (splits : ∀ s bs bs' call, Tiled s.heap start bs → P bs → SplitsBlock call bs bs' →
    (P bs' ↔ ok s call))
include keeps splits

/-- When every edit keeps `P`, and a split keeps it exactly when `ok` says so, then so does a
step. -/
theorem shaped_step (h : Shaped P start s) (hstep : allocStep ownerOf s call = some s') :
    Shaped P start s' ↔ (call.Splits s → ok s call) := by
  obtain ⟨bs, ht, ho, hP⟩ := h
  obtain ⟨bs', ht', ho', ⟨hsplit, hedits⟩ | ⟨hsplit, hblock⟩⟩ := call_edits ht ho hstep
  · exact ⟨fun _ hs => absurd hs hsplit, fun _ => ⟨bs', ht', ho', hedits.keep keeps hP⟩⟩
  · have hiff := splits s bs bs' call ht hP hblock
    constructor
    · rintro ⟨bs₁, ht₁, -, hP₁⟩ -
      obtain rfl := ht₁.unique ht'
      exact hiff.mp hP₁
    · exact fun hok => ⟨bs', ht', ho', hiff.mpr (hok hsplit)⟩

/-- **Splits decide.** A run keeps `P` exactly when all its splits are `ok`. -/
theorem shaped_iff (h : Shaped P start s) (calls : List HeapCall) :
    Along (allocStep ownerOf) (Shaped P start) s calls ↔
      Meets (allocStep ownerOf) (fun s call => call.Splits s → ok s call) s calls := by
  refine along_iff_meets (I := Shaped P start) (fun _ hs => hs) ?_ ?_ h calls
  · exact fun s call s' hs hok hstep => (shaped_step keeps splits hs hstep).mpr hok
  · exact fun s call s' hs hbad hstep hs' => hbad ((shaped_step keeps splits hs hstep).mp hs')

end Splits

theorem shaped_init {P : List Block → Prop} (hnil : P []) (mem : Bytes) (hstart : 0 < start)
    (hfits : start < 2 ^ 32) : Shaped P start (AllocState.init mem start) :=
  ⟨[], ⟨trivial, rfl, rfl, rfl, hstart, hfits⟩, fun ptr => by simp [AllocState.init], hnil⟩

/-! ### Free neighbours -/

/-- The block behind the one the call is about is not free. -/
def NextInUse (s : AllocState) : HeapCall → Prop
  | .realloc ptr _ _ =>
    let next := nextAt s.heap.mem (ownerOf ptr)
    next = 0 ∨ freeAt s.heap.mem next = 0
  | _ => True

/-- What memory says of the block behind another. -/
theorem Tiled.next_eq {heap : Heap} {b : Block} {l r : List Block}
    (ht : Tiled heap start (l ++ b :: r)) :
    (nextAt heap.mem b.addr = 0 ∨ freeAt heap.mem (nextAt heap.mem b.addr) = 0) ↔
      ∀ c ∈ r.head?, c.free = false := by
  have hnext : nextAt heap.mem b.addr = headAddr 0 r := ht.around.words.2.1
  rw [hnext]
  cases r with
  | nil => simp [headAddr]
  | cons c r =>
    have ht' : Tiled heap start ((l ++ [b]) ++ c :: r) := by
      rwa [List.append_assoc, List.singleton_append]
    have habove := ht'.around.above
    have hfree : freeAt heap.mem c.addr = if c.free then 1 else 0 := ht'.around.words.2.2.2
    show c.addr = 0 ∨ freeAt heap.mem c.addr = 0 ↔ _
    rw [hfree]
    constructor
    · rintro (h0 | hflag) d hd
      · omega
      · cases hd
        cases hc : c.free with
        | false => rfl
        | true => simp [hc] at hflag
    · intro h
      simp [h c rfl]

/-- **Free neighbours.** Along a run no two blocks side by side are free, exactly when
`realloc` splits no block in front of a free one. -/
theorem heap_coalesced_iff (mem : Bytes) (hstart : 0 < start) (hfits : start < 2 ^ 32)
    (calls : List HeapCall) :
    Along (allocStep ownerOf) (Shaped Coalesced start) (AllocState.init mem start) calls ↔
      Meets (allocStep ownerOf) (fun s call => call.Splits s → NextInUse s call)
        (AllocState.init mem start) calls := by
  refine shaped_iff Edit.coalesced ?_ (shaped_init .nil mem hstart hfits) calls
  rintro s bs bs' call ht hP ⟨l, b, r, n, sys, rfl, hfree, -, rfl, rfl⟩
  have howner := ownerOf_data (ht.addr_lt (List.mem_append_right l List.mem_cons_self))
  rw [coalesced_shrunk_iff hP hfree]
  show _ ↔ nextAt s.heap.mem (ownerOf (b.addr + dataOffset)) = 0 ∨ _
  rw [howner]
  exact ht.next_eq.symm

instance (s : AllocState) : (call : HeapCall) → Decidable (call.Splits s)
  | .realloc _ _ _ => inferInstanceAs (Decidable (_ ∧ _))
  | .malloc _ _ | .free _ | .calloc _ _ _ | .store _ _ _ => isFalse id

instance (s : AllocState) : (call : HeapCall) → Decidable (NextInUse s call)
  | .realloc _ _ _ => inferInstanceAs (Decidable (_ ∨ _))
  | .malloc _ _ | .free _ | .calloc _ _ _ | .store _ _ _ => isTrue trivial

/-- In a coalesced list, the second and the third block are not both free. -/
theorem Shaped.second_or_third (h : Shaped Coalesced start s) {p q : Nat}
    (hp : nextAt s.heap.mem s.heap.heapStart = p) (hq : nextAt s.heap.mem p = q)
    (hstart : s.heap.heapStart ≠ 0) (hp0 : p ≠ 0) (hq0 : q ≠ 0) :
    freeAt s.heap.mem p = 0 ∨ freeAt s.heap.mem q = 0 := by
  obtain ⟨bs, ht, -, hbs⟩ := h
  have hfirst := ht.first
  cases bs with
  | nil => exact absurd hfirst hstart
  | cons a bs =>
    have ha : Around s.heap start [] a bs := Tiled.around ht
    have hsecond : nextAt s.heap.mem a.addr = headAddr 0 bs := ha.words.2.1
    have hpa : p = headAddr 0 bs := by rw [← hp, hfirst, ← hsecond]; rfl
    cases bs with
    | nil => exact absurd hpa hp0
    | cons b bs =>
      have hpb : p = b.addr := hpa
      have hb : Around s.heap start [a] b bs := Tiled.around ht
      have hflag : freeAt s.heap.mem b.addr = if b.free then 1 else 0 := hb.words.2.2.2
      obtain ⟨-, -, hnext⟩ := (coalesced_cut (l := [a])).mp hbs
      cases hfree : b.free with
      | false =>
        rw [hpb, hflag, hfree]
        exact .inl rfl
      | true =>
        have hthird := (Tiled.next_eq (l := [a]) ht).mpr fun c hc => (hnext c hc).right hfree
        rw [← hpb, hq] at hthird
        exact hthird.imp_left fun h0 => absurd h0 hq0

/-- Three blocks; the second one is freed, and `realloc` makes the first one smaller. -/
def shrinkBeforeFree : List HeapCall :=
  [.malloc 40 growing, .malloc 40 growing, .malloc 8 growing, .free 4172, .realloc 4112 8 growing]

/-- Afterwards the rest of the first block and the second one are free, side by side. -/
theorem shrink_leaves_free_pair :
    ¬ Along (allocStep ownerOf) (Shaped Coalesced 4096) (AllocState.init (fun _ => 0) 4096)
      shrinkBeforeFree := by
  have hrun : (run (allocStep ownerOf) (AllocState.init (fun _ => 0) 4096) shrinkBeforeFree).map
      (fun s => (s.heap.heapStart, nextAt s.heap.mem 4096, nextAt s.heap.mem 4124,
        freeAt s.heap.mem 4124, freeAt s.heap.mem 4156)) = some (4096, 4124, 4156, 1, 1) := by
    decide +kernel
  intro halong
  obtain ⟨s, hs, hfacts⟩ := Option.map_eq_some_iff.mp hrun
  simp only [Prod.mk.injEq] at hfacts
  obtain ⟨hstart, hp, hq, hfree, hfree'⟩ := hfacts
  rw [← hstart] at hp
  rcases (halong.last hs).second_or_third hp hq (by omega) (by omega) (by omega) with h | h
  · omega
  · omega

/-- Made smaller before its neighbour is freed, the first block leaves no such pair. -/
theorem heap_coalesced_iff_run :
    Along (allocStep ownerOf) (Shaped Coalesced 4096) (AllocState.init (fun _ => 0) 4096)
      [.malloc 40 growing, .malloc 40 growing, .realloc 4112 8 growing, .free 4172] :=
  (heap_coalesced_iff (fun _ => 0) (by decide) (by decide) _).mpr (by decide +kernel)

/-! ### Alignment -/

/-- The size the call asks for is a multiple of `sizeof(size_t)`. -/
def AsksRounded : HeapCall → Prop
  | .realloc _ size _ => size % 4 = 0
  | _ => True

/-- Every header lies at a multiple of `sizeof(size_t)`, every payload size is one, and every
pointer of the program is aligned as the first one was. -/
structure HeapAligned (start : Nat) (s : AllocState) : Prop where
  blocks : ∃ bs, Tiled s.heap start bs ∧ Owns bs s.live ∧
    ∀ b ∈ bs, b.addr % 4 = 0 ∧ b.size % 4 = 0
  pointers : ∀ ptr ∈ s.live, ptr % 4 = (start + dataOffset) % 4

/-- The heap is aligned when it begins at a multiple of four and its sizes are rounded. -/
theorem heapAligned_iff (halign : start % 4 = 0) :
    HeapAligned start s ↔ Shaped Rounded start s := by
  constructor
  · intro h
    obtain ⟨bs, ht, ho, hbs⟩ := h.blocks
    exact ⟨bs, ht, ho, fun b hb => (hbs b hb).2⟩
  · rintro ⟨bs, ht, ho, hbs⟩
    have haddr := ht.tiles.aligned halign hbs
    refine ⟨⟨bs, ht, ho, fun b hb => ⟨haddr b hb, hbs b hb⟩⟩, ?_⟩
    intro ptr hptr
    obtain ⟨c, hc, rfl⟩ := (ho ptr).mp hptr
    have hca := haddr c hc.1
    omega

/-- `free` and `realloc` get from the pointer of the call to its block. -/
def FindsBlock (header : Nat → Nat) : HeapCall → Prop
  | .free ptr => ptr ≠ 0 → header ptr = ownerOf ptr
  | .realloc ptr _ _ => ptr ≠ 0 → header ptr = ownerOf ptr
  | _ => True

theorem free_congr {header header' : Nat → Nat} {ptr : Nat} (heap : Heap)
    (h : ptr ≠ 0 → header ptr = header' ptr) : free header heap ptr = free header' heap ptr := by
  unfold free
  split
  · rfl
  · rename_i hptr
    rw [h hptr]

/-- Only the header of its own pointer matters for a call. -/
theorem allocStep_congr {header : Nat → Nat} (h : FindsBlock header call) :
    allocStep header s call = allocStep ownerOf s call := by
  suffices hperform : perform header s call = perform ownerOf s call by
    rw [allocStep, allocStep, hperform]
  cases call with
  | malloc size sys => simp only [perform]
  | calloc nmemb size sys => simp only [perform]
  | store ptr i x => simp only [perform]
  | free ptr => simp only [perform, free_congr s.heap h]
  | realloc ptr size sys =>
    have hrealloc : realloc header s.heap ptr size sys = realloc ownerOf s.heap ptr size sys := by
      unfold realloc
      by_cases hptr : ptr = 0
      · rw [if_pos hptr, if_pos hptr]
      · rw [if_neg hptr, if_neg hptr, free_congr s.heap h, h hptr]
        simp only [free_congr _ h]
    simp only [perform, hrealloc]

/-- A split keeps the sizes rounded exactly when it is asked for a rounded size. -/
theorem splits_rounded (s : AllocState) (bs bs' : List Block) (call : HeapCall)
    (_ : Tiled s.heap start bs) (hP : Rounded bs) (hblock : SplitsBlock call bs bs') :
    Rounded bs' ↔ AsksRounded call := by
  obtain ⟨l, b, r, n, sys, rfl, -, hroom, rfl, rfl⟩ := hblock
  exact rounded_shrunk_iff hP hroom

/-- **Alignment.** With a break at a multiple of four, a run keeps the heap aligned exactly
when `realloc` splits no block at another size than a multiple of four. In general this is
enough where `free` and `realloc` get to the blocks of their pointers. -/
theorem heap_aligned_iff (mem : Bytes) (hstart : 0 < start) (hfits : start < 2 ^ 32)
    (halign : start % 4 = 0) (calls : List HeapCall) :
    (∀ header, Meets (allocStep header)
        (fun s call => FindsBlock header call ∧ (call.Splits s → AsksRounded call))
        (AllocState.init mem start) calls →
      Along (allocStep header) (HeapAligned start) (AllocState.init mem start) calls) ∧
    (Along (allocStep ownerOf) (HeapAligned start) (AllocState.init mem start) calls ↔
      Meets (allocStep ownerOf) (fun s call => call.Splits s → AsksRounded call)
        (AllocState.init mem start) calls) := by
  have hinit : Shaped Rounded start (AllocState.init mem start) :=
    shaped_init rounded_nil mem hstart hfits
  constructor
  · intro header hmeets
    have halong : Along (allocStep header) (Shaped Rounded start) (AllocState.init mem start)
        calls := by
      refine along_of_meets ?_ hinit hmeets
      rintro s call s' hs ⟨hfinds, hok⟩ hstep
      rw [allocStep_congr hfinds] at hstep
      exact (shaped_step Edit.rounded splits_rounded hs hstep).mpr hok
    exact halong.mono fun s hs => (heapAligned_iff halign).mpr hs
  · rw [← shaped_iff Edit.rounded splits_rounded hinit calls]
    exact ⟨fun h => h.mono fun s hs => (heapAligned_iff halign).mp hs,
      fun h => h.mono fun s hs => (heapAligned_iff halign).mpr hs⟩

instance : (call : HeapCall) → Decidable (AsksRounded call)
  | .realloc _ _ _ => inferInstanceAs (Decidable (_ = _))
  | .malloc _ _ | .free _ | .calloc _ _ _ | .store _ _ _ => isTrue trivial

/-- The program asks for 40 bytes, and then for 5. -/
def shrinkToFive : List HeapCall := [.malloc 40 growing, .realloc 4112 5 growing]

theorem heap_aligned_iff_run :
    Along (allocStep ownerOf) (HeapAligned 4096) (AllocState.init (fun _ => 0) 4096)
      [.malloc 40 growing, .realloc 4112 8 growing, .malloc 7 growing, .free 4112] :=
  (heap_aligned_iff (fun _ => 0) (by decide) (by decide) (by decide) _).2.mpr (by decide +kernel)

/-- The size of the first block. -/
theorem HeapAligned.first_size (h : HeapAligned start s) (hstart : s.heap.heapStart ≠ 0) :
    sizeAt s.heap.mem s.heap.heapStart % 4 = 0 := by
  obtain ⟨bs, ht, -, hbs⟩ := h.blocks
  have hfirst := ht.first
  cases bs with
  | nil => exact absurd hfirst hstart
  | cons b bs =>
    have haddr : s.heap.heapStart = b.addr := hfirst
    rw [haddr, ht.sizeAt_eq List.mem_cons_self]
    exact (hbs b List.mem_cons_self).2

/-- The split at five bytes. With `(char *)ptr - BLOCK_SIZE` for the header, the split takes
place four bytes below, and the size of the block is overwritten by a link. -/
theorem shrink_to_five :
    ¬ Along (allocStep ownerOf) (HeapAligned 4096) (AllocState.init (fun _ => 127) 4096)
        shrinkToFive ∧
      ¬ Along (allocStep headerOf) (HeapAligned 4096) (AllocState.init (fun _ => 127) 4096)
        shrinkToFive := by
  have hsize : ∀ header, (run (allocStep header) (AllocState.init (fun _ => 127) 4096)
      shrinkToFive).map (fun s => (s.heap.heapStart, sizeAt s.heap.mem 4096 % 4)) =
        some (4096, 1) →
      ¬ Along (allocStep header) (HeapAligned 4096) (AllocState.init (fun _ => 127) 4096)
        shrinkToFive := by
    intro header hrun halong
    obtain ⟨s, hs, hfacts⟩ := Option.map_eq_some_iff.mp hrun
    obtain ⟨hstart, hmod⟩ := Prod.mk.inj hfacts
    have hzero := (halong.last hs).first_size (by omega)
    rw [hstart] at hzero
    omega
  exact ⟨hsize ownerOf (by decide +kernel), hsize headerOf (by decide +kernel)⟩

end ArmKernel.Libc

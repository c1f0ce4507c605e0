/-
The tiling invariant of the heap, and what the functions of `src/malloc.c` do to it.

`Tiled heap start bs`: the blocks reachable from `heap_start` are `bs`; they tile the
region from `start` to the break, `prev` is the inverse of `next`, and `heap_end` is the
last one. Every function is described by the list it leaves and by the bytes it writes
(`HeadersOnly`): headers of blocks that are in the list.

* `splitBlock_spec`, `extendHeap_spec`, `mergeNext_spec`, `mergePrev_spec`: one list edit each.
* `findFreeFrom_spec`: the search of `malloc`.
-/
import ArmKernel.Libc.Blocks

namespace ArmKernel.Libc

open ArmKernel.Support

/-- The blocks of the heap are `bs`, from `start` to the break. -/
structure Tiled (heap : Heap) (start : Nat) (bs : List Block) : Prop where
  seg : Seg heap.mem 0 0 bs
  first : heap.heapStart = headAddr 0 bs
  last : heap.heapEnd = lastAddr 0 bs
  tiles : Tiles start bs heap.brk
  pos : 0 < start
  fits : heap.brk < 2 ^ 32

/-- Only headers of the blocks `bs` differ. -/
def HeadersOnly (mem mem' : Bytes) (bs : List Block) : Prop :=
  ∀ x, (∀ b ∈ bs, x < b.addr ∨ b.addr + 16 ≤ x) → mem' x = mem x

section HeadersOnly

variable {mem mem' mem'' : Bytes} {b : Block} {bs bs' : List Block} {a n : Nat}

theorem HeadersOnly.rfl : HeadersOnly mem mem bs := fun _ _ => Eq.refl _

theorem HeadersOnly.trans (h : HeadersOnly mem mem' bs) (h' : HeadersOnly mem' mem'' bs) :
    HeadersOnly mem mem'' bs := fun x hx => (h' x hx).trans (h x hx)

theorem HeadersOnly.mono (h : HeadersOnly mem mem' bs)
    (hsub : bs.map Block.addr ⊆ bs'.map Block.addr) : HeadersOnly mem mem' bs' :=
  fun x hx => h x fun b hb => by
    obtain ⟨c, hc, heq⟩ := List.mem_map.mp (hsub (List.mem_map_of_mem hb))
    exact heq ▸ hx c hc

theorem OnlyAt.headersOnly (h : OnlyAt mem mem' b.addr) (hb : b ∈ bs) :
    HeadersOnly mem mem' bs := fun x hx => h x (hx b hb)

/-- Regions between the headers keep their bytes. -/
theorem HeadersOnly.agree (h : HeadersOnly mem mem' bs)
    (hout : ∀ b ∈ bs, a + n ≤ b.addr ∨ b.addr + 16 ≤ a) : Agree mem mem' a n :=
  fun x hlo hhi => h x fun b hb => by
    have := hout b hb
    omega

/-- Payloads of a tiling lie between its headers. -/
theorem Tiles.payload_agree {start e : Nat} (htiles : Tiles start bs e) (hb : b ∈ bs)
    (h : HeadersOnly mem mem' bs) (hn : n ≤ b.size) : Agree mem mem' (b.addr + dataOffset) n := by
  apply h.agree
  intro c hc
  have hb' : b.stop = b.addr + blockSize + b.size := rfl
  have hc' : c.stop = c.addr + blockSize + c.size := rfl
  have hbs := blockSize_eq
  have hdo := dataOffset_eq
  rcases htiles.apart hb hc with heq | hle | hle
  · subst heq
    omega
  · omega
  · omega

end HeadersOnly

/-! ### Linking back -/

section LinkBack

variable {heap : Heap} {mem : Bytes} {p y m : Nat} {r : List Block}

/-- After `linkBack` the block `y` is before the segment, and `heap_end` is still last. -/
theorem linkBack_spec (hseg : Seg mem p 0 r) (htiles : Tiles m r heap.brk) (hm : 0 < m)
    (hy : y < 2 ^ 32) (hlast : ∃ z, heap.heapEnd = lastAddr z r) :
    Seg (linkBack heap mem (headAddr 0 r) y).mem y 0 r ∧
      (linkBack heap mem (headAddr 0 r) y).heapEnd = lastAddr y r ∧
      (linkBack heap mem (headAddr 0 r) y).heapStart = heap.heapStart ∧
      (linkBack heap mem (headAddr 0 r) y).brk = heap.brk ∧
      HeadersOnly mem (linkBack heap mem (headAddr 0 r) y).mem r := by
  cases r with
  | nil => exact ⟨trivial, rfl, rfl, rfl, HeadersOnly.rfl⟩
  | cons c r =>
    have hc : m ≤ c.addr := (htiles.mem List.mem_cons_self).1
    have hne : headAddr 0 (c :: r) ≠ 0 := by
      show c.addr ≠ 0
      omega
    obtain ⟨z, hlast⟩ := hlast
    unfold linkBack
    rw [if_pos hne]
    refine ⟨hseg.reprev (headerAt_setPrev hy) ?_, hlast, rfl, rfl,
      OnlyAt.headersOnly onlyAt_setPrev List.mem_cons_self⟩
    intro d hd
    have hcd : c.stop ≤ d.addr := (htiles.2.mem hd).1
    have hcs : c.stop = c.addr + blockSize + c.size := rfl
    have hbs := blockSize_eq
    exact onlyAt_setPrev.header (by show _ ∨ c.addr + 16 ≤ _; omega)

/-- Headers below the segment are not touched. -/
theorem HeadersOnly.header_below {mem' : Bytes} (h : HeadersOnly mem mem' r) {e a : Nat}
    (htiles : Tiles m r e) (ha : a + 16 ≤ m) : headerAt mem' a = headerAt mem a := by
  apply headerAt_congr
  apply h.agree
  intro b hb
  have := (htiles.mem hb).1
  omega

end LinkBack

/-! ### A block in its place -/

section Cut

variable {heap : Heap} {start : Nat} {b : Block} {l r : List Block}

/-- What the invariant says around the block `b`. -/
structure Around (heap : Heap) (start : Nat) (l : List Block) (b : Block) (r : List Block) :
    Prop where
  header : headerAt heap.mem b.addr = b.header (lastAddr 0 l) (headAddr 0 r)
  before : Seg heap.mem 0 b.addr l
  after : Seg heap.mem b.addr 0 r
  tilesBefore : Tiles start l b.addr
  tilesAfter : Tiles b.stop r heap.brk
  above : 0 < b.addr
  below : b.stop ≤ heap.brk

theorem Tiled.around (ht : Tiled heap start (l ++ b :: r)) : Around heap start l b r := by
  obtain ⟨hbefore, hheader, hafter⟩ := Seg.append.mp ht.seg
  obtain ⟨htl, htr⟩ := ht.tiles.cut
  have := htl.le
  have := ht.pos
  exact ⟨hheader, hbefore, hafter, htl, htr, by omega, htr.le⟩

/-- The words of the header of `b`. -/
theorem Around.words (h : Around heap start l b r) :
    sizeAt heap.mem b.addr = b.size ∧ nextAt heap.mem b.addr = headAddr 0 r ∧
      prevAt heap.mem b.addr = lastAddr 0 l ∧
      freeAt heap.mem b.addr = if b.free then 1 else 0 :=
  ⟨congrArg Header.size h.header, congrArg Header.next h.header, congrArg Header.prev h.header,
    congrArg Header.free h.header⟩

theorem Tiled.heapEnd_after (ht : Tiled heap start (l ++ b :: r)) :
    heap.heapEnd = lastAddr b.addr r := by
  rw [ht.last, lastAddr_append]
  rfl

/-- **Rebuilding.** The blocks from `b` on are replaced by `c :: bs` and `r`: the new headers
are written, and what follows is linked back to the last new block. -/
theorem Tiled.rebuild {heap' : Heap} {rest bs : List Block} {c : Block} {m : Nat}
    (ht : Tiled heap start (l ++ b :: rest)) (hc : c.addr = b.addr)
    (hseg : Seg heap'.mem (lastAddr 0 l) (headAddr 0 r) (c :: bs))
    (hafter : Seg heap'.mem (lastAddr c.addr bs) 0 r)
    (hsame : ∀ d ∈ l, headerAt heap'.mem d.addr = headerAt heap.mem d.addr)
    (htiles : Tiles b.addr (c :: bs) m) (htr : Tiles m r heap.brk)
    (hstart : heap'.heapStart = heap.heapStart)
    (hend : heap'.heapEnd = lastAddr (lastAddr c.addr bs) r)
    (hbrk : heap'.brk = heap.brk) : Tiled heap' start (l ++ (c :: bs) ++ r) := by
  have ha := ht.around
  have hl : Seg heap'.mem 0 (headAddr 0 ((c :: bs) ++ r)) l := by
    show Seg heap'.mem 0 c.addr l
    rw [hc]
    exact ha.before.congr hsame
  refine ⟨?_, ?_, ?_, ?_, ht.pos, hbrk ▸ ht.fits⟩
  · rw [List.append_assoc]
    exact Seg.append.mpr ⟨hl, Seg.append.mpr ⟨hseg, hafter⟩⟩
  · rw [hstart, ht.first, List.append_assoc, headAddr_append, headAddr_append]
    show headAddr b.addr l = headAddr c.addr l
    rw [hc]
  · rw [hend, lastAddr_append, lastAddr_append]
    rfl
  · rw [hbrk, List.append_assoc]
    exact Tiles.append.mpr ⟨b.addr, ha.tilesBefore, Tiles.append.mpr ⟨m, htiles, htr⟩⟩

end Cut

/-! ### Splitting -/

section Split

variable {heap : Heap} {start size : Nat} {b : Block} {l r : List Block}

/-- The block a split leaves behind the first `size` bytes. -/
def Block.rest (b : Block) (size : Nat) : Block :=
  ⟨b.addr + blockSize + size, b.size - size - blockSize, true⟩

/-- **A split** cuts the block in two when a header and a word fit behind. -/
theorem splitBlock_spec (size : Nat) (ht : Tiled heap start (l ++ b :: r))
    (hroom : size + blockSize + 4 ≤ b.size) :
    Tiled (splitBlock heap b.addr size) start (l ++ [{ b with size := size }, b.rest size] ++ r) ∧
      HeadersOnly heap.mem (splitBlock heap b.addr size).mem
        ([{ b with size := size }, b.rest size] ++ r) := by
  have ha := ht.around
  obtain ⟨hsz, hnx, hpv, hfr⟩ := ha.words
  have hbs := blockSize_eq
  have hstop : b.stop = b.addr + blockSize + b.size := rfl
  have hbelow := ha.below
  have hfits := ht.fits
  have hT : headAddr 0 r < 2 ^ 32 := hnx ▸ readWord_lt _ _
  -- The new header, then `size` and `next` of the old one.
  let A := b.addr
  let N := A + blockSize + size
  let rest := b.size - size - blockSize
  let m₄ := setFree (setPrev (setNext (setSize heap.mem N rest) N (headAddr 0 r)) N A) N 1
  let m₆ := setNext (setSize m₄ A size) A N
  have hN : N = A + blockSize + size := rfl
  have hrest : rest = b.size - size - blockSize := rfl
  have hA : A = b.addr := rfl
  have honlyN : OnlyAt heap.mem m₄ N :=
    ((onlyAt_setSize.trans onlyAt_setNext).trans onlyAt_setPrev).trans onlyAt_setFree
  have honlyA : OnlyAt m₄ m₆ A := onlyAt_setSize.trans onlyAt_setNext
  have hheaderN : headerAt m₆ N = ⟨rest, headAddr 0 r, A, 1⟩ := by
    rw [honlyA.header (by omega)]
    exact headerAt_fill (by omega) hT (by omega) (by decide)
  have hheaderA : headerAt m₆ A = ⟨size, N, lastAddr 0 l, if b.free then 1 else 0⟩ := by
    show headerAt (setNext (setSize m₄ A size) A N) A = _
    rw [headerAt_setNext (by omega), headerAt_setSize (by omega), honlyN.header (by omega),
      ha.header]
    rfl
  have hother : ∀ a, a + 16 ≤ A ∨ b.stop ≤ a → headerAt m₆ a = headerAt heap.mem a := by
    intro a hout
    rw [honlyA.header (by omega), honlyN.header (by omega)]
  have hresult : splitBlock heap b.addr size = linkBack heap m₆ (headAddr 0 r) N := by
    have hsub : sub32 b.size size = b.size - size := sub32_of_le (by omega) (by omega)
    have hsub' : sub32 (b.size - size) blockSize = rest := sub32_of_le (by omega) (by omega)
    have hnext : nextAt (setSize heap.mem N rest) b.addr = headAddr 0 r :=
      (congrArg Header.next (onlyAt_setSize.header (by omega))).trans hnx
    have hnextN : nextAt m₆ N = headAddr 0 r := congrArg Header.next hheaderN
    have hnew : wrap32 (b.addr + blockSize + size) = N := wrap32_of_lt (by omega)
    unfold splitBlock
    simp only [hsz, hsub]
    rw [if_pos (by omega), hsub', hnew, hnext]
    show linkBack heap m₆ (nextAt m₆ N) N = _
    rw [hnextN]
  rw [hresult]
  have htr : Tiles b.stop r heap.brk := ha.tilesAfter
  have hafter : Seg m₆ b.addr 0 r := ha.after.congr fun c hc => hother c.addr (by
    have := (htr.mem hc).1
    omega)
  obtain ⟨hseg, hend, hstart, hbrk, honly⟩ := linkBack_spec (y := N) hafter htr (by omega)
    (by omega) ⟨b.addr, ht.heapEnd_after⟩
  have hbelow' : ∀ a, a + 16 ≤ b.stop → headerAt (linkBack heap m₆ (headAddr 0 r) N).mem a
      = headerAt m₆ a := fun a ha => honly.header_below htr ha
  have hsame : ∀ d ∈ l, headerAt (linkBack heap m₆ (headAddr 0 r) N).mem d.addr
      = headerAt heap.mem d.addr := fun d hd => by
    have hd' := (ha.tilesBefore.mem hd).2
    have hds : d.stop = d.addr + blockSize + d.size := rfl
    rw [hbelow' _ (by omega), hother _ (by omega)]
  have htiles : Tiles b.addr [{ b with size := size }, b.rest size] b.stop :=
    ⟨rfl, rfl, by
      show b.addr + blockSize + size + blockSize + (b.size - size - blockSize) = b.stop
      omega⟩
  refine ⟨ht.rebuild rfl ⟨(hbelow' A (by omega)).trans hheaderA,
    (hbelow' N (by omega)).trans hheaderN, trivial⟩ hseg hsame htiles htr hstart hend hbrk, ?_⟩
  have hone : HeadersOnly heap.mem m₄ ([{ b with size := size }, b.rest size] ++ r) :=
    OnlyAt.headersOnly (b := b.rest size) honlyN (by simp)
  have htwo : HeadersOnly m₄ m₆ ([{ b with size := size }, b.rest size] ++ r) :=
    OnlyAt.headersOnly (b := { b with size := size }) honlyA (by simp)
  exact (hone.trans htwo).trans (honly.mono (by simp))

/-- Otherwise nothing happens. -/
theorem splitBlock_of_tight (size : Nat) (ht : Tiled heap start (l ++ b :: r)) (hsize : size ≤ b.size)
    (htight : b.size < size + blockSize + 4) : splitBlock heap b.addr size = heap := by
  have ha := ht.around
  have hstop : b.stop = b.addr + blockSize + b.size := rfl
  have hbelow := ha.below
  have hfits := ht.fits
  have hsub : sub32 b.size size = b.size - size := sub32_of_le (by omega) hsize
  unfold splitBlock
  rw [ha.words.1, hsub, if_neg (by omega)]

end Split

/-! ### Merging -/

section Merge

variable {heap : Heap} {start : Nat} {x y : Block} {l r : List Block}

/-- The block `x` with the block `y` behind it. -/
def Block.absorb (x y : Block) : Block := { x with size := x.size + (blockSize + y.size) }

/-- Memory when `x` has its new size and its new next block. -/
def absorbMem (mem : Bytes) (x y : Block) (next : Nat) : Bytes :=
  setNext (setSize mem x.addr (x.absorb y).size) x.addr next

/-- **Merging** two blocks that lie side by side. -/
theorem absorb_spec (ht : Tiled heap start (l ++ x :: y :: r)) :
    Tiled (linkBack heap (absorbMem heap.mem x y (headAddr 0 r)) (headAddr 0 r) x.addr) start
        (l ++ [x.absorb y] ++ r) ∧
      HeadersOnly heap.mem
        (linkBack heap (absorbMem heap.mem x y (headAddr 0 r)) (headAddr 0 r) x.addr).mem
        (l ++ x :: y :: r) := by
  have hx := ht.around
  have hy : Around heap start (l ++ [x]) y r :=
    Tiled.around (by simpa only [List.append_assoc, List.singleton_append] using ht)
  have hbs := blockSize_eq
  have hxs : x.stop = x.addr + blockSize + x.size := rfl
  have hys : y.stop = y.addr + blockSize + y.size := rfl
  have hxy : y.addr = x.stop := hx.tilesAfter.1
  have hbelow := hy.below
  have hfits := ht.fits
  have hT : headAddr 0 r < 2 ^ 32 := hy.words.2.1 ▸ readWord_lt _ _
  have hsize : (x.absorb y).size = x.size + (blockSize + y.size) := rfl
  have honly : OnlyAt heap.mem (absorbMem heap.mem x y (headAddr 0 r)) x.addr :=
    onlyAt_setSize.trans onlyAt_setNext
  have hheader : headerAt (absorbMem heap.mem x y (headAddr 0 r)) x.addr
      = (x.absorb y).header (lastAddr 0 l) (headAddr 0 r) := by
    unfold absorbMem
    rw [headerAt_setNext hT, headerAt_setSize (by omega), hx.header]
    rfl
  have htr : Tiles y.stop r heap.brk := hy.tilesAfter
  have hafter : Seg (absorbMem heap.mem x y (headAddr 0 r)) y.addr 0 r :=
    hy.after.congr fun c hc => honly.header (by
      have := (htr.mem hc).1
      omega)
  obtain ⟨hseg, hend, hstart, hbrk, hheaders⟩ := linkBack_spec (y := x.addr) hafter htr (by omega)
    (by omega) ⟨y.addr, ht.heapEnd_after⟩
  have hbelow' : ∀ a, a + 16 ≤ y.stop →
      headerAt (linkBack heap (absorbMem heap.mem x y (headAddr 0 r)) (headAddr 0 r) x.addr).mem a
        = headerAt (absorbMem heap.mem x y (headAddr 0 r)) a :=
    fun a ha => hheaders.header_below htr ha
  constructor
  · refine ht.rebuild (c := x.absorb y) rfl ⟨(hbelow' _ ?_).trans hheader, trivial⟩ hseg
      ?_ ⟨rfl, ?_⟩ htr hstart hend hbrk
    · show x.addr + 16 ≤ y.stop
      omega
    · intro d hd
      have hd' := (hx.tilesBefore.mem hd).2
      have hds : d.stop = d.addr + blockSize + d.size := rfl
      rw [hbelow' _ (by omega), honly.header (by omega)]
    · show x.addr + blockSize + (x.absorb y).size = y.stop
      omega
  · have hone : HeadersOnly heap.mem (absorbMem heap.mem x y (headAddr 0 r)) (l ++ x :: y :: r) :=
      honly.headersOnly (by simp)
    exact hone.trans (hheaders.mono fun a ha => by simp [ha])

/-- The list after the first half of `merge_blocks` on `x`. -/
def absorbNext (x : Block) : List Block → List Block
  | [] => [x]
  | y :: r => if y.free then x.absorb y :: r else x :: y :: r

/-- The list after the second half, `l` being what is before `x`, last block first. -/
def absorbPrev (x : Block) (r : List Block) : List Block → List Block
  | [] => x :: r
  | p :: l => if p.free then l.reverse ++ p.absorb x :: r else l.reverse ++ p :: x :: r

theorem mergeNext_spec (ht : Tiled heap start (l ++ x :: r)) :
    Tiled (mergeNext heap x.addr) start (l ++ absorbNext x r) ∧
      HeadersOnly heap.mem (mergeNext heap x.addr).mem (l ++ x :: r) := by
  have hx := ht.around
  obtain ⟨hsz, hnx, -, -⟩ := hx.words
  cases r with
  | nil =>
    have hkeep : mergeNext heap x.addr = heap := by
      simp only [mergeNext, hnx, headAddr]
      simp
    rw [hkeep]
    exact ⟨ht, HeadersOnly.rfl⟩
  | cons y r =>
    have hy : Around heap start (l ++ [x]) y r :=
      Tiled.around (by simpa only [List.append_assoc, List.singleton_append] using ht)
    obtain ⟨hsy, hny, -, hfy⟩ := hy.words
    have hnext : nextAt heap.mem x.addr = y.addr := hnx
    cases hfree : y.free with
    | false =>
      have hkeep : mergeNext heap x.addr = heap := by
        simp only [mergeNext, hnext, hfy, hfree]
        simp
      rw [hkeep]
      simp only [absorbNext, hfree]
      exact ⟨ht, HeadersOnly.rfl⟩
    | true =>
      have hbs := blockSize_eq
      have hxs : x.stop = x.addr + blockSize + x.size := rfl
      have hys : y.stop = y.addr + blockSize + y.size := rfl
      have hxy : y.addr = x.stop := hx.tilesAfter.1
      have hbelow := hy.below
      have hfits := ht.fits
      have habove := hy.above
      have hT : headAddr 0 r < 2 ^ 32 := hny ▸ readWord_lt _ _
      have hresult : mergeNext heap x.addr
          = linkBack heap (absorbMem heap.mem x y (headAddr 0 r)) (headAddr 0 r) x.addr := by
        have hsum : wrap32 (x.size + (blockSize + y.size)) = (x.absorb y).size :=
          wrap32_of_lt (by omega)
        have hnextx : nextAt (setSize heap.mem x.addr (x.absorb y).size) x.addr = y.addr :=
          (congrArg Header.next (headerAt_setSize (by
            show x.size + (blockSize + y.size) < _
            omega))).trans hnext
        have hnexty : nextAt (setSize heap.mem x.addr (x.absorb y).size) y.addr = headAddr 0 r :=
          (congrArg Header.next (onlyAt_setSize.header (by omega))).trans hny
        have hnext' : nextAt (absorbMem heap.mem x y (headAddr 0 r)) x.addr = headAddr 0 r :=
          congrArg Header.next (headerAt_setNext hT)
        simp only [mergeNext, hnext, hfy, hfree, hsz, hsy, hsum, hnextx, hnexty, if_true]
        rw [if_pos ⟨by omega, by decide⟩]
        show linkBack heap _ (nextAt (absorbMem heap.mem x y (headAddr 0 r)) x.addr) _ = _
        rw [hnext']
        rfl
      have := absorb_spec ht
      rw [hresult]
      simpa only [absorbNext, hfree, if_true, List.append_assoc, List.singleton_append] using this

theorem mergePrev_spec (ht : Tiled heap start (l.reverse ++ x :: r)) :
    Tiled (mergePrev heap x.addr) start (absorbPrev x r l) ∧
      HeadersOnly heap.mem (mergePrev heap x.addr).mem (l.reverse ++ x :: r) := by
  have hx := ht.around
  obtain ⟨hsz, hnx, hpx, -⟩ := hx.words
  cases l with
  | nil =>
    have hkeep : mergePrev heap x.addr = heap := by
      simp only [mergePrev, hpx, List.reverse_nil, lastAddr]
      simp
    rw [hkeep]
    exact ⟨ht, HeadersOnly.rfl⟩
  | cons p l =>
    have ht' : Tiled heap start (l.reverse ++ p :: x :: r) := by
      simpa only [List.reverse_cons, List.append_assoc, List.singleton_append] using ht
    have hp := ht'.around
    obtain ⟨hsp, -, -, hfp⟩ := hp.words
    have hprev : prevAt heap.mem x.addr = p.addr := by
      rw [hpx, List.reverse_cons, lastAddr_append]
      rfl
    cases hfree : p.free with
    | false =>
      have hkeep : mergePrev heap x.addr = heap := by
        simp only [mergePrev, hprev, hfp, hfree]
        simp
      rw [hkeep]
      simp only [absorbPrev, hfree]
      exact ⟨ht', HeadersOnly.rfl⟩
    | true =>
      have hbs := blockSize_eq
      have hps : p.stop = p.addr + blockSize + p.size := rfl
      have hxs : x.stop = x.addr + blockSize + x.size := rfl
      have hpx : x.addr = p.stop := hp.tilesAfter.1
      have hbelow := hx.below
      have hfits := ht.fits
      have habove := hp.above
      have hT : headAddr 0 r < 2 ^ 32 := hnx ▸ readWord_lt _ _
      have hresult : mergePrev heap x.addr
          = linkBack heap (absorbMem heap.mem p x (headAddr 0 r)) (headAddr 0 r) p.addr := by
        have hsum : wrap32 (p.size + (blockSize + x.size)) = (p.absorb x).size :=
          wrap32_of_lt (by omega)
        have hnextx : nextAt (setSize heap.mem p.addr (p.absorb x).size) x.addr = headAddr 0 r :=
          (congrArg Header.next (onlyAt_setSize.header (by omega))).trans hnx
        have hnext' : nextAt (absorbMem heap.mem p x (headAddr 0 r)) x.addr = headAddr 0 r :=
          (congrArg Header.next ((onlyAt_setSize.trans onlyAt_setNext).header (by omega))).trans hnx
        simp only [mergePrev, hprev, hfp, hfree, hsz, hsp, hsum, hnextx, if_true]
        rw [if_pos ⟨by omega, by decide⟩]
        show linkBack heap _ (nextAt (absorbMem heap.mem p x (headAddr 0 r)) x.addr) _ = _
        rw [hnext']
        rfl
      have hspec := absorb_spec ht'
      rw [hresult]
      simpa only [absorbPrev, hfree, if_true, List.append_assoc, List.singleton_append,
        List.reverse_cons] using hspec

end Merge

/-! ### Growing -/

section Extend

variable {heap : Heap} {start size : Nat} {bs : List Block}

/-- The block `extend_heap` appends. -/
def topBlock (heap : Heap) (size : Nat) : Block := ⟨heap.brk, size, false⟩

/-- Memory when the header of the new block is written. -/
def topMem (heap : Heap) (size : Nat) : Bytes :=
  setFree (setPrev (setNext (setSize heap.mem heap.brk size) heap.brk 0) heap.brk heap.heapEnd)
    heap.brk 0

theorem onlyAt_topMem : OnlyAt heap.mem (topMem heap size) heap.brk :=
  ((onlyAt_setSize.trans onlyAt_setNext).trans onlyAt_setPrev).trans onlyAt_setFree

/-- The last block lies below the break. -/
theorem Tiled.heapEnd_lt (ht : Tiled heap start bs) : heap.heapEnd < 2 ^ 32 := by
  have hfits := ht.fits
  rcases List.eq_nil_or_concat bs with rfl | ⟨l, z, rfl⟩
  · rw [ht.last]
    decide
  · rw [List.concat_eq_append] at ht
    have hz := ht.around
    have hzs : z.stop = z.addr + blockSize + z.size := rfl
    have hbelow := hz.below
    rw [ht.heapEnd_after]
    show z.addr < _
    omega

/-- The break that `extend_heap` asks for. -/
def newBreak (heap : Heap) (size : Nat) : Nat :=
  wrap32 (heap.brk + align (wrap32 (size + blockSize)))

theorem newBreak_eq (halign : size % 4 = 0) (hsize : size + blockSize < 2 ^ 32) :
    newBreak heap size = wrap32 (heap.brk + (size + blockSize)) := by
  have hbs := blockSize_eq
  have htotal : align (size + blockSize) = size + blockSize := by
    rw [align, wrap32_of_lt (by omega)]
    omega
  rw [newBreak, wrap32_of_lt hsize, htotal]

theorem sysBrk_eq_none {sys : SysBrk} {addr : Nat} :
    sysBrk sys heap addr = none ↔ sys.answer heap.brk addr = none := Option.map_eq_none_iff

/-- When `sys_brk` succeeds: the break afterwards. -/
theorem sysBrk_extend {sys : SysBrk} {heap₁ : Heap} (halign : size % 4 = 0)
    (hfit : heap.brk + blockSize + size < 2 ^ 32)
    (h : sysBrk sys heap (newBreak heap size) = some heap₁) :
    heap₁ = { heap with brk := heap.brk + blockSize + size } := by
  have hbs := blockSize_eq
  have haddr : newBreak heap size = heap.brk + blockSize + size := by
    rw [newBreak_eq halign (by omega), wrap32_of_lt (by omega)]
    omega
  obtain ⟨brk, hanswer, rfl⟩ := Option.map_eq_some_iff.mp h
  rw [haddr] at hanswer
  rw [sys.moves heap.brk _ brk (by omega) hanswer]

theorem extendHeap_of_none {sys : SysBrk} (h : sysBrk sys heap (newBreak heap size) = none) :
    extendHeap heap size sys = (heap, 0) := by
  unfold newBreak at h
  simp only [extendHeap, SysBrk.query, Option.getD_some, h]

theorem extendHeap_of_some {sys : SysBrk} {heap₁ : Heap}
    (h : sysBrk sys heap (newBreak heap size) = some heap₁) :
    extendHeap heap size sys = (appendBlock heap₁ heap.brk size, heap.brk) := by
  unfold newBreak at h
  simp only [extendHeap, SysBrk.query, Option.getD_some, h]

/-- **Growing** appends a block at the break, or changes nothing. -/
theorem extendHeap_spec (ht : Tiled heap start bs) (halign : size % 4 = 0) {sys : SysBrk}
    (hgrows : sysBrk sys heap (newBreak heap size) = none ∨
      heap.brk + blockSize + size < 2 ^ 32) :
    extendHeap heap size sys = (heap, 0) ∨
      ∃ heap', extendHeap heap size sys = (heap', heap.brk) ∧
        Tiled heap' start (bs ++ [topBlock heap size]) ∧
        HeadersOnly heap.mem heap'.mem (bs ++ [topBlock heap size]) := by
  have hbs := blockSize_eq
  have hfits := ht.fits
  have hend := ht.heapEnd_lt
  cases hbrk : sysBrk sys heap (newBreak heap size) with
  | none => exact Or.inl (extendHeap_of_none hbrk)
  | some heap₁ =>
    have hfit : heap.brk + blockSize + size < 2 ^ 32 := hgrows.resolve_left (by simp [hbrk])
    obtain rfl := sysBrk_extend halign hfit hbrk
    have hheader : headerAt (topMem heap size) heap.brk = ⟨size, 0, heap.heapEnd, 0⟩ :=
      headerAt_fill (by omega) (by decide) hend (by decide)
    have htiles : Tiles start (bs ++ [topBlock heap size]) (heap.brk + blockSize + size) :=
      Tiles.append.mpr ⟨heap.brk, ht.tiles, rfl, rfl⟩
    refine Or.inr ⟨_, extendHeap_of_some hbrk, ?_⟩
    rcases List.eq_nil_or_concat bs with rfl | ⟨l, z, rfl⟩
    · -- The first block of the heap.
      have hzero : heap.heapEnd = 0 := ht.last
      have happend : appendBlock { heap with brk := heap.brk + blockSize + size } heap.brk size =
          { heap with
            mem := topMem heap size
            heapStart := heap.brk
            heapEnd := heap.brk
            brk := heap.brk + blockSize + size } := by
        unfold appendBlock
        dsimp only
        rw [if_neg (not_not.mpr hzero)]
        rfl
      rw [happend]
      refine ⟨⟨⟨?_, trivial⟩, rfl, rfl, htiles, ht.pos, hfit⟩,
        onlyAt_topMem.headersOnly (b := topBlock heap size) (by simp)⟩
      exact hheader.trans (by rw [hzero]; rfl)
    · rw [List.concat_eq_append] at ht htiles ⊢
      have hz := ht.around
      have hzs : z.stop = z.addr + blockSize + z.size := rfl
      have hbelow := hz.below
      have habove := hz.above
      have hlast : heap.heapEnd = z.addr := ht.heapEnd_after
      let m := setNext (topMem heap size) z.addr heap.brk
      have honly : OnlyAt (topMem heap size) m z.addr := onlyAt_setNext
      have hz' : headerAt m z.addr = z.header (lastAddr 0 l) heap.brk := by
        show headerAt (setNext (topMem heap size) z.addr heap.brk) z.addr = _
        rw [headerAt_setNext hfits, onlyAt_topMem.header (by omega), hz.header]
        rfl
      have happend : appendBlock { heap with brk := heap.brk + blockSize + size } heap.brk size =
          { heap with
            mem := m
            heapEnd := heap.brk
            brk := heap.brk + blockSize + size } := by
        unfold appendBlock
        dsimp only
        rw [if_pos (by omega), hlast]
        show _ = Heap.mk (setNext (topMem heap size) z.addr heap.brk) _ _ _
        rw [topMem, hlast]
      rw [happend]
      refine ⟨⟨?_, ?_, ?_, htiles, ht.pos, hfit⟩, ?_⟩
      · rw [List.append_assoc]
        refine Seg.append.mpr ⟨hz.before.congr ?_, hz', ?_, trivial⟩
        · intro d hd
          have hd' := (hz.tilesBefore.mem hd).2
          have hds : d.stop = d.addr + blockSize + d.size := rfl
          rw [honly.header (by omega), onlyAt_topMem.header (by omega)]
        · show headerAt m heap.brk = ⟨size, 0, z.addr, 0⟩
          rw [honly.header (by omega), hheader, hlast]
      · show heap.heapStart = _
        rw [ht.first, headAddr_append, headAddr_append, headAddr_append]
        rfl
      · rw [lastAddr_append]
        rfl
      · have hone : HeadersOnly heap.mem (topMem heap size) (l ++ [z] ++ [topBlock heap size]) :=
          onlyAt_topMem.headersOnly (b := topBlock heap size) (by simp)
        exact hone.trans (honly.headersOnly (by simp))

end Extend

/-! ### Searching -/

section Search

variable {mem : Bytes} {size : Nat}

/-- **The search** ends, with 0 or with a free block that is large enough. -/
theorem findFreeFrom_spec (size : Nat) {bs : List Block} {p a e fuel : Nat} (hseg : Seg mem p 0 bs)
    (htiles : Tiles a bs e) (ha : 0 < a) (hfuel : bs.length < fuel) :
    findFreeFrom mem size fuel (headAddr 0 bs) = some 0 ∨
      ∃ l b r, bs = l ++ b :: r ∧ b.free = true ∧ size ≤ b.size ∧
        findFreeFrom mem size fuel (headAddr 0 bs) = some b.addr := by
  induction bs generalizing p a fuel with
  | nil =>
    obtain ⟨fuel, rfl⟩ : ∃ k, fuel = k + 1 := ⟨fuel - 1, by simp at hfuel; omega⟩
    exact Or.inl (by simp [findFreeFrom, headAddr])
  | cons b bs ih =>
    obtain ⟨fuel, rfl⟩ : ∃ k, fuel = k + 1 := ⟨fuel - 1, by simp at hfuel; omega⟩
    obtain ⟨hheader, hrest⟩ := hseg
    have hsz : sizeAt mem b.addr = b.size := congrArg Header.size hheader
    have hnx : nextAt mem b.addr = headAddr 0 bs := congrArg Header.next hheader
    have hfr : freeAt mem b.addr = if b.free then 1 else 0 := congrArg Header.free hheader
    have hba : b.addr = a := htiles.1
    have hle := htiles.2.le
    have hbs : b.stop = b.addr + blockSize + b.size := rfl
    show findFreeFrom mem size (fuel + 1) b.addr = some 0 ∨ _
    rw [show headAddr 0 (b :: bs) = b.addr from rfl, findFreeFrom, if_neg (by omega), hsz, hfr, hnx]
    by_cases hfits : b.free = true ∧ size ≤ b.size
    · rw [if_pos (by simp [hfits.1, hfits.2])]
      exact Or.inr ⟨[], b, bs, rfl, hfits.1, hfits.2, rfl⟩
    · rw [if_neg (by simpa using hfits)]
      have hstop : 0 < b.stop := by omega
      rcases ih hrest htiles.2 hstop (by simpa using hfuel) with h | ⟨l, c, r, rfl, hc⟩
      · exact Or.inl h
      · exact Or.inr ⟨b :: l, c, r, rfl, hc⟩

/-- There are fewer blocks than addresses. -/
theorem Tiles.length_le {bs : List Block} {a e : Nat} (h : Tiles a bs e) :
    a + bs.length ≤ e := by
  induction bs generalizing a with
  | nil => exact Nat.le_of_eq h
  | cons b bs ih =>
    have hb : b.stop = b.addr + blockSize + b.size := rfl
    have hbs := blockSize_eq
    have := h.1
    have := ih h.2
    rw [List.length_cons]
    omega

end Search

end ArmKernel.Libc

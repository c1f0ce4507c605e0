/-
The blocks of the heap as a list.

A `Block` is a header with its address. `Tiles a bs e` says that the blocks lie side by
side from `a` to `e`, and `Seg mem p q bs` that the headers in memory say what the list
says: sizes, free flags, `next` leading to the following block (to `q` from the last)
and `prev` back to the one before (to `p` from the first).

* `Tiles.append`, `Seg.append`: cutting a list at a block.
* `headerAt_setSize` and its like: a store to a field, seen through `headerAt`;
  `OnlyAt.header`: stores to one header leave the others alone.
* `Seg.congr`, `Seg.reprev`: the frame rules; a segment survives stores elsewhere, and
  only the `prev` of its first block depends on what is before it.
-/
import ArmKernel.Libc.Malloc

namespace ArmKernel.Libc

open ArmKernel.Support

/-- A block of the heap. -/
structure Block where
  addr : Nat
  size : Nat
  free : Bool
deriving DecidableEq

/-- The first byte after a block. -/
def Block.stop (b : Block) : Nat := b.addr + blockSize + b.size

/-- The blocks lie side by side from `a` to `e`. -/
def Tiles (a : Nat) : List Block → Nat → Prop
  | [], e => a = e
  | b :: bs, e => b.addr = a ∧ Tiles b.stop bs e

/-- The address of the first block, `q` when there is none. -/
def headAddr (q : Nat) : List Block → Nat
  | [] => q
  | b :: _ => b.addr

/-- The address of the last block, `p` when there is none. -/
def lastAddr (p : Nat) : List Block → Nat
  | [] => p
  | b :: bs => lastAddr b.addr bs

/-! ### Tiling -/

section Tiles

variable {a e : Nat} {b c : Block} {l r : List Block}

theorem Tiles.append : Tiles a (l ++ r) e ↔ ∃ m, Tiles a l m ∧ Tiles m r e := by
  induction l generalizing a with
  | nil => simp [Tiles]
  | cons b l ih => simp [Tiles, ih, and_assoc]

/-- Cutting a tiling at a block. -/
theorem Tiles.cut (h : Tiles a (l ++ b :: r) e) : Tiles a l b.addr ∧ Tiles b.stop r e := by
  obtain ⟨m, hl, rfl, hr⟩ := Tiles.append.mp h
  exact ⟨hl, hr⟩

theorem Tiles.le (h : Tiles a l e) : a ≤ e := by
  induction l generalizing a with
  | nil => exact Nat.le_of_eq h
  | cons b l ih =>
    have hb : b.stop = b.addr + blockSize + b.size := rfl
    have := h.1
    have := ih h.2
    omega

/-- Every block lies inside. -/
theorem Tiles.mem (h : Tiles a l e) (hb : b ∈ l) : a ≤ b.addr ∧ b.stop ≤ e := by
  induction l generalizing a with
  | nil => simp at hb
  | cons c l ih =>
    have hc : c.stop = c.addr + blockSize + c.size := rfl
    have hcb : b.stop = b.addr + blockSize + b.size := rfl
    have hca := h.1
    rcases List.mem_cons.mp hb with rfl | hb
    · have := h.2.le
      omega
    · have := ih h.2 hb
      omega

/-- Two blocks of a tiling are the same or lie apart. -/
theorem Tiles.apart (h : Tiles a l e) (hb : b ∈ l) (hc : c ∈ l) :
    b = c ∨ b.stop ≤ c.addr ∨ c.stop ≤ b.addr := by
  induction l generalizing a with
  | nil => simp at hb
  | cons d l ih =>
    rcases List.mem_cons.mp hb with rfl | hb' <;> rcases List.mem_cons.mp hc with rfl | hc'
    · exact Or.inl rfl
    · exact Or.inr (Or.inl (h.2.mem hc').1)
    · exact Or.inr (Or.inr (h.2.mem hb').1)
    · exact ih h.2 hb' hc'

/-- Blocks at one address are the same. -/
theorem Tiles.eq_of_addr (h : Tiles a l e) (hb : b ∈ l) (hc : c ∈ l) (heq : b.addr = c.addr) :
    b = c := by
  have hsb : b.stop = b.addr + blockSize + b.size := rfl
  have hsc : c.stop = c.addr + blockSize + c.size := rfl
  have hbs := blockSize_eq
  rcases h.apart hb hc with h | h | h
  · exact h
  · omega
  · omega

end Tiles

/-! ### Headers in memory -/

/-- The four words of a header. -/
structure Header where
  size : Nat
  next : Nat
  prev : Nat
  free : Nat

/-- The header at `a`. -/
def headerAt (mem : Bytes) (a : Nat) : Header :=
  ⟨sizeAt mem a, nextAt mem a, prevAt mem a, freeAt mem a⟩

section Stores

variable {mem mem' : Bytes} {a b v : Nat}

theorem headerAt_congr (h : Agree mem mem' a 16) : headerAt mem' a = headerAt mem a := by
  have hword : ∀ k, k + 4 ≤ 16 → readWord mem' (a + k) = readWord mem (a + k) :=
    fun k hk => readWord_congr (h.part (by omega) (by omega))
  simp only [headerAt, sizeAt, nextAt, prevAt, freeAt, hword 4 (by omega), hword 8 (by omega),
    hword 12 (by omega)]
  rw [show readWord mem' a = readWord mem a from hword 0 (by omega)]

theorem headerAt_setSize (h : v < 2 ^ 32) :
    headerAt (setSize mem a v) a = { headerAt mem a with size := v } := by
  simp only [headerAt, sizeAt, nextAt, prevAt, freeAt, setSize]
  rw [readWord_writeWord_self h, readWord_writeWord_of_apart (by omega),
    readWord_writeWord_of_apart (by omega), readWord_writeWord_of_apart (by omega)]

theorem headerAt_setNext (h : v < 2 ^ 32) :
    headerAt (setNext mem a v) a = { headerAt mem a with next := v } := by
  simp only [headerAt, sizeAt, nextAt, prevAt, freeAt, setNext]
  rw [readWord_writeWord_self h, readWord_writeWord_of_apart (by omega),
    readWord_writeWord_of_apart (by omega), readWord_writeWord_of_apart (by omega)]

theorem headerAt_setPrev (h : v < 2 ^ 32) :
    headerAt (setPrev mem a v) a = { headerAt mem a with prev := v } := by
  simp only [headerAt, sizeAt, nextAt, prevAt, freeAt, setPrev]
  rw [readWord_writeWord_self h, readWord_writeWord_of_apart (by omega),
    readWord_writeWord_of_apart (by omega), readWord_writeWord_of_apart (by omega)]

theorem headerAt_setFree (h : v < 2 ^ 32) :
    headerAt (setFree mem a v) a = { headerAt mem a with free := v } := by
  simp only [headerAt, sizeAt, nextAt, prevAt, freeAt, setFree]
  rw [readWord_writeWord_self h, readWord_writeWord_of_apart (by omega),
    readWord_writeWord_of_apart (by omega), readWord_writeWord_of_apart (by omega)]

/-- A header written field by field. -/
theorem headerAt_fill {size next prev free : Nat} (hsize : size < 2 ^ 32) (hnext : next < 2 ^ 32)
    (hprev : prev < 2 ^ 32) (hfree : free < 2 ^ 32) :
    headerAt (setFree (setPrev (setNext (setSize mem a size) a next) a prev) a free) a
      = ⟨size, next, prev, free⟩ := by
  rw [headerAt_setFree hfree, headerAt_setPrev hprev, headerAt_setNext hnext,
    headerAt_setSize hsize]

/-- The memories differ in the header at `a` only. -/
def OnlyAt (mem mem' : Bytes) (a : Nat) : Prop := ∀ x, x < a ∨ a + 16 ≤ x → mem' x = mem x

theorem OnlyAt.trans {mem'' : Bytes} (h : OnlyAt mem mem' a) (h' : OnlyAt mem' mem'' a) :
    OnlyAt mem mem'' a := fun x hx => (h' x hx).trans (h x hx)

theorem onlyAt_setSize : OnlyAt mem (setSize mem a v) a :=
  fun _ hx => writeWord_of_outside (by omega)

theorem onlyAt_setNext : OnlyAt mem (setNext mem a v) a :=
  fun _ hx => writeWord_of_outside (by omega)

theorem onlyAt_setPrev : OnlyAt mem (setPrev mem a v) a :=
  fun _ hx => writeWord_of_outside (by omega)

theorem onlyAt_setFree : OnlyAt mem (setFree mem a v) a :=
  fun _ hx => writeWord_of_outside (by omega)

/-- A header that lies apart keeps its words. -/
theorem OnlyAt.header (h : OnlyAt mem mem' b) (hab : a + 16 ≤ b ∨ b + 16 ≤ a) :
    headerAt mem' a = headerAt mem a :=
  headerAt_congr fun _ hlo hhi => h _ (by omega)

end Stores

/-! ### Segments -/

/-- The header a block has between `p` and `q`. -/
def Block.header (b : Block) (p q : Nat) : Header := ⟨b.size, q, p, if b.free then 1 else 0⟩

/-- The headers in memory are those of the list. -/
def Seg (mem : Bytes) (p q : Nat) : List Block → Prop
  | [] => True
  | b :: bs => headerAt mem b.addr = b.header p (headAddr q bs) ∧ Seg mem b.addr q bs

section Seg

variable {mem mem' : Bytes} {p p' q : Nat} {b : Block} {l r : List Block}

theorem headAddr_append : headAddr q (l ++ r) = headAddr (headAddr q r) l := by
  cases l <;> rfl

theorem lastAddr_append : lastAddr p (l ++ r) = lastAddr (lastAddr p l) r := by
  induction l generalizing p with
  | nil => rfl
  | cons b l ih => exact ih

/-- Cutting a segment. -/
theorem Seg.append :
    Seg mem p q (l ++ r) ↔ Seg mem p (headAddr q r) l ∧ Seg mem (lastAddr p l) q r := by
  induction l generalizing p with
  | nil => simp [Seg, lastAddr]
  | cons b l ih => simp [Seg, lastAddr, ih, headAddr_append, and_assoc]

/-- **Frame.** A segment survives where its headers do. -/
theorem Seg.congr (h : Seg mem p q l) (same : ∀ b ∈ l, headerAt mem' b.addr = headerAt mem b.addr) :
    Seg mem' p q l := by
  induction l generalizing p with
  | nil => trivial
  | cons b l ih =>
    exact ⟨(same b List.mem_cons_self).trans h.1,
      ih h.2 fun c hc => same c (List.mem_cons_of_mem b hc)⟩

/-- **Relinking from the left.** Only `prev` of the first block says what is before. -/
theorem Seg.reprev (h : Seg mem p q (b :: l))
    (first : headerAt mem' b.addr = { headerAt mem b.addr with prev := p' })
    (same : ∀ c ∈ l, headerAt mem' c.addr = headerAt mem c.addr) : Seg mem' p' q (b :: l) := by
  refine ⟨?_, h.2.congr same⟩
  rw [first, h.1]
  rfl

end Seg

end ArmKernel.Libc

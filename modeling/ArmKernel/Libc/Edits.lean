/-
What the calls of the allocator do to the list of blocks.

`Edit bs bs'` lists the ways `malloc` and `free` change the list; `shrunk` is the one
further way, the split of a live block by `realloc`. A property of the list that every
edit keeps is then a matter of this one:

* `Coalesced`: no two blocks side by side are free. An edit keeps it, since `free` merges
  on both sides and `malloc` splits a block whose neighbours are not free.
* `Rounded`: all payload sizes are multiples of four. An edit keeps it, since `malloc`
  rounds the size it asks for.
-/
import ArmKernel.Libc.Tiling
import Mathlib.Data.List.Chain
import Mathlib.Logic.Relation

namespace ArmKernel.Libc

open ArmKernel.Support

/-- What `malloc` and `free` do to the list. -/
inductive Edit : List Block → List Block → Prop where
  /-- `malloc` takes a free block. -/
  | take {l r : List Block} {b : Block} : b.free = true →
    Edit (l ++ b :: r) (l ++ { b with free := false } :: r)
  /-- `malloc` takes the beginning of a free block. -/
  | carve {l r : List Block} {b : Block} {n : Nat} : b.free = true → n % 4 = 0 →
    n + blockSize + 4 ≤ b.size →
    Edit (l ++ b :: r) (l ++ [{ b with size := n, free := false }, b.rest n] ++ r)
  /-- `malloc` extends the heap. -/
  | grow {bs : List Block} {heap : Heap} {n : Nat} : n % 4 = 0 →
    Edit bs (bs ++ [topBlock heap n])
  /-- `free` gives a block back, merged with its free neighbours. -/
  | release {l r r' : List Block} {b x : Block} : b.free = false →
    absorbNext { b with free := true } r = x :: r' →
    Edit (l.reverse ++ b :: r) (absorbPrev x r' l)

/-- Edits, one after the other. -/
def Edits : List Block → List Block → Prop := Relation.ReflTransGen Edit

/-- The list after a split of the block `b`. -/
def shrunk (l : List Block) (b : Block) (r : List Block) (n : Nat) : List Block :=
  l ++ [{ b with size := n }, b.rest n] ++ r

/-- What `realloc` of the block `b` to `n` bytes does: a split, when a header and a word fit
behind; edits otherwise. -/
def Resized (b : Block) (n : Nat) (bs bs' : List Block) : Prop :=
  (n ≠ 0 ∧ n + blockSize + 4 ≤ b.size ∧ ∃ l r, bs = l ++ b :: r ∧ bs' = shrunk l b r n) ∨
    (n = 0 ∨ b.size < n + blockSize + 4) ∧ Edits bs bs'

/-- What every edit keeps, edits keep. -/
theorem Edits.keep {P : List Block → Prop} (keeps : ∀ {bs bs'}, Edit bs bs' → P bs → P bs')
    {bs bs' : List Block} (h : Edits bs bs') (hbs : P bs) : P bs' := by
  induction h with
  | refl => exact hbs
  | tail _ hedit ih => exact keeps hedit ih

/-! ### Free neighbours -/

/-- One of the two blocks is not free. -/
def NotBothFree (b c : Block) : Prop := b.free = false ∨ c.free = false

/-- No two blocks side by side are free. -/
def Coalesced (bs : List Block) : Prop := bs.IsChain NotBothFree

section Coalesced

variable {b x : Block} {l r bs bs' : List Block}

/-- What a coalesced list says around a block. -/
theorem coalesced_cut : Coalesced (l ++ b :: r) ↔
    (Coalesced l ∧ ∀ c ∈ l.getLast?, NotBothFree c b) ∧
      Coalesced r ∧ ∀ c ∈ r.head?, NotBothFree b c := by
  unfold Coalesced
  rw [List.isChain_append, List.isChain_cons, List.head?_cons]
  constructor
  · rintro ⟨hl, ⟨hbr, hr⟩, hlb⟩
    exact ⟨⟨hl, fun c hc => hlb c hc b rfl⟩, hr, hbr⟩
  · rintro ⟨⟨hl, hlb⟩, hr, hbr⟩
    refine ⟨hl, ⟨hbr, hr⟩, ?_⟩
    intro c hc d hd
    cases hd
    exact hlb c hc

theorem NotBothFree.left (h : NotBothFree b x) (hx : x.free = true) : b.free = false :=
  h.resolve_right (by simp [hx])

theorem NotBothFree.right (h : NotBothFree b x) (hb : b.free = true) : x.free = false :=
  h.resolve_left (by simp [hb])

/-- A block that is not free goes in anywhere. -/
theorem coalesced_of_live (hl : Coalesced l) (hr : Coalesced r) (hb : b.free = false) :
    Coalesced (l ++ b :: r) :=
  coalesced_cut.mpr ⟨⟨hl, fun _ _ => .inr hb⟩, hr, fun _ _ => .inl hb⟩

/-- **A split** leaves a free block, so what follows may not be free. -/
theorem coalesced_split_iff {c d : Block} (hl : Coalesced l) (hr : Coalesced r)
    (hc : c.free = false) (hd : d.free = true) :
    Coalesced (l ++ [c, d] ++ r) ↔ ∀ e ∈ r.head?, e.free = false := by
  rw [List.append_assoc, List.cons_append, List.singleton_append, coalesced_cut]
  constructor
  · rintro ⟨-, hdr, -⟩ e he
    exact ((List.isChain_cons.mp hdr).1 e he).right hd
  · intro hnext
    refine ⟨⟨hl, fun _ _ => .inr hc⟩, ?_, fun _ _ => .inl hc⟩
    exact List.isChain_cons.mpr ⟨fun e he => .inr (hnext e he), hr⟩

/-- After the first half of `merge_blocks` the next block is not free. -/
theorem coalesced_absorbNext {r' : List Block} (hr : Coalesced r)
    (h : absorbNext b r = x :: r') : Coalesced r' ∧ ∀ c ∈ r'.head?, c.free = false := by
  cases r with
  | nil =>
    cases h
    exact ⟨hr, by simp⟩
  | cons y r =>
    obtain ⟨hyr, hr'⟩ := List.isChain_cons.mp hr
    cases hy : y.free with
    | false =>
      simp only [absorbNext, hy] at h
      cases h
      refine ⟨hr, ?_⟩
      intro c hc
      cases hc
      exact hy
    | true =>
      simp only [absorbNext, hy, if_true] at h
      cases h
      exact ⟨hr', fun c hc => (hyr c hc).right hy⟩

/-- After the second half the previous one is not free either. -/
theorem coalesced_absorbPrev (hl : Coalesced l.reverse) (hr : Coalesced r)
    (hnext : ∀ c ∈ r.head?, c.free = false) : Coalesced (absorbPrev x r l) := by
  cases l with
  | nil => exact List.isChain_cons.mpr ⟨fun c hc => .inr (hnext c hc), hr⟩
  | cons p l =>
    rw [List.reverse_cons] at hl
    obtain ⟨⟨hl', hlp⟩, -⟩ := coalesced_cut.mp hl
    have hx : Coalesced (x :: r) := List.isChain_cons.mpr ⟨fun c hc => .inr (hnext c hc), hr⟩
    cases hp : p.free with
    | false =>
      simp only [absorbPrev, hp]
      exact coalesced_of_live hl' hx hp
    | true =>
      simp only [absorbPrev, hp, if_true]
      refine coalesced_cut.mpr ⟨⟨hl', ?_⟩, hr, fun c hc => .inr (hnext c hc)⟩
      intro c hc
      exact .inl ((hlp c hc).left hp)

/-- **An edit keeps the list coalesced.** -/
theorem Edit.coalesced (h : Edit bs bs') (hbs : Coalesced bs) : Coalesced bs' := by
  cases h with
  | take hfree =>
    obtain ⟨⟨hl, -⟩, hr, -⟩ := coalesced_cut.mp hbs
    exact coalesced_of_live hl hr rfl
  | carve hfree hn hroom =>
    obtain ⟨⟨hl, -⟩, hr, hnext⟩ := coalesced_cut.mp hbs
    exact (coalesced_split_iff hl hr rfl rfl).mpr fun c hc => (hnext c hc).right hfree
  | grow hn => exact coalesced_of_live hbs .nil rfl
  | release hlive habsorb =>
    obtain ⟨⟨hl, -⟩, hr, -⟩ := coalesced_cut.mp hbs
    obtain ⟨hr', hnext⟩ := coalesced_absorbNext hr habsorb
    exact coalesced_absorbPrev hl hr' hnext

/-- `realloc` splits a coalesced list into one exactly when the next block is not free. -/
theorem coalesced_shrunk_iff {n : Nat} (hbs : Coalesced (l ++ b :: r)) (hb : b.free = false) :
    Coalesced (shrunk l b r n) ↔ ∀ c ∈ r.head?, c.free = false := by
  obtain ⟨⟨hl, -⟩, hr, -⟩ := coalesced_cut.mp hbs
  exact coalesced_split_iff hl hr hb rfl

end Coalesced

/-! ### Payload sizes -/

/-- All payload sizes are multiples of `sizeof(size_t)`. -/
def Rounded (bs : List Block) : Prop := ∀ b ∈ bs, b.size % 4 = 0

section Rounded

variable {b x : Block} {l r bs bs' : List Block}

theorem rounded_append : Rounded (l ++ r) ↔ Rounded l ∧ Rounded r := List.forall_mem_append

theorem rounded_cons : Rounded (b :: r) ↔ b.size % 4 = 0 ∧ Rounded r := List.forall_mem_cons

theorem rounded_nil : Rounded [] := List.forall_mem_nil _

/-- A block cut out of another leaves a rounded rest when it is rounded. -/
theorem rest_rounded {n : Nat} (hb : b.size % 4 = 0) (hn : n % 4 = 0)
    (hroom : n + blockSize + 4 ≤ b.size) : (b.rest n).size % 4 = 0 := by
  have hbs := blockSize_eq
  show (b.size - n - blockSize) % 4 = 0
  omega

theorem absorb_rounded (hb : b.size % 4 = 0) (hx : x.size % 4 = 0) :
    (b.absorb x).size % 4 = 0 := by
  have hbs := blockSize_eq
  show (b.size + (blockSize + x.size)) % 4 = 0
  omega

theorem rounded_absorbNext (hb : b.size % 4 = 0) (hr : Rounded r) : Rounded (absorbNext b r) := by
  cases r with
  | nil => exact rounded_cons.mpr ⟨hb, rounded_nil⟩
  | cons y r =>
    obtain ⟨hy, hr'⟩ := rounded_cons.mp hr
    simp only [absorbNext]
    split
    · exact rounded_cons.mpr ⟨absorb_rounded hb hy, hr'⟩
    · exact rounded_cons.mpr ⟨hb, hr⟩

theorem rounded_absorbPrev (hb : b.size % 4 = 0) (hr : Rounded r) (hl : Rounded l.reverse) :
    Rounded (absorbPrev b r l) := by
  cases l with
  | nil => exact rounded_cons.mpr ⟨hb, hr⟩
  | cons p l =>
    rw [List.reverse_cons, rounded_append, rounded_cons] at hl
    obtain ⟨hl', hp, -⟩ := hl
    simp only [absorbPrev]
    split
    · exact rounded_append.mpr ⟨hl', rounded_cons.mpr ⟨absorb_rounded hp hb, hr⟩⟩
    · exact rounded_append.mpr ⟨hl', rounded_cons.mpr ⟨hp, rounded_cons.mpr ⟨hb, hr⟩⟩⟩

/-- **An edit keeps the sizes rounded.** -/
theorem Edit.rounded (h : Edit bs bs') (hbs : Rounded bs) : Rounded bs' := by
  cases h with
  | take hfree =>
    obtain ⟨hl, hb, hr⟩ := (rounded_append.trans (and_congr_right' rounded_cons)).mp hbs
    exact rounded_append.mpr ⟨hl, rounded_cons.mpr ⟨hb, hr⟩⟩
  | carve hfree hn hroom =>
    obtain ⟨hl, hb, hr⟩ := (rounded_append.trans (and_congr_right' rounded_cons)).mp hbs
    have hrest := rest_rounded hb hn hroom
    rw [rounded_append, rounded_append, rounded_cons, rounded_cons]
    exact ⟨⟨hl, hn, hrest, rounded_nil⟩, hr⟩
  | grow hn => exact rounded_append.mpr ⟨hbs, rounded_cons.mpr ⟨hn, rounded_nil⟩⟩
  | @release l r r' b x hlive habsorb =>
    obtain ⟨hl, hb, hr⟩ := (rounded_append.trans (and_congr_right' rounded_cons)).mp hbs
    have hnext : Rounded (x :: r') := by
      rw [← habsorb]
      exact rounded_absorbNext hb hr
    obtain ⟨hx, hr'⟩ := rounded_cons.mp hnext
    exact rounded_absorbPrev hx hr' hl

/-- `realloc` keeps the sizes rounded exactly when it is asked for a rounded one. -/
theorem rounded_shrunk_iff {n : Nat} (hbs : Rounded (l ++ b :: r))
    (hroom : n + blockSize + 4 ≤ b.size) : Rounded (shrunk l b r n) ↔ n % 4 = 0 := by
  obtain ⟨hl, hb, hr⟩ := (rounded_append.trans (and_congr_right' rounded_cons)).mp hbs
  unfold shrunk
  rw [rounded_append, rounded_append, rounded_cons, rounded_cons]
  constructor
  · rintro ⟨⟨-, hn, -⟩, -⟩
    exact hn
  · intro hn
    exact ⟨⟨hl, hn, rest_rounded hb hn hroom, rounded_nil⟩, hr⟩

/-- In a tiling with rounded sizes every block begins at a multiple of four. -/
theorem Tiles.aligned {a e : Nat} (h : Tiles a bs e) (ha : a % 4 = 0) (hbs : Rounded bs) :
    ∀ b ∈ bs, b.addr % 4 = 0 := by
  induction bs generalizing a with
  | nil => simp
  | cons b bs ih =>
    obtain ⟨hb, hrest⟩ := rounded_cons.mp hbs
    have hstop : b.stop = b.addr + blockSize + b.size := rfl
    have hsize := blockSize_eq
    have haddr := h.1
    intro c hc
    rcases List.mem_cons.mp hc with rfl | hc
    · rwa [haddr]
    · exact ih h.2 (by omega) hrest c hc

end Rounded

/-! ### The list is in memory -/

/-- The headers determine the list. -/
theorem Seg.unique {mem : Bytes} {p p' : Nat} {bs bs' : List Block} {a a' e e' : Nat}
    (h : Seg mem p 0 bs) (h' : Seg mem p' 0 bs') (ht : Tiles a bs e) (ht' : Tiles a' bs' e')
    (ha : 0 < a) (ha' : 0 < a') (hhead : headAddr 0 bs = headAddr 0 bs') : bs = bs' := by
  induction bs generalizing p p' a a' bs' with
  | nil =>
    cases bs' with
    | nil => rfl
    | cons c bs' =>
      have hc : 0 = c.addr := hhead
      have := ht'.1
      omega
  | cons b bs ih =>
    cases bs' with
    | nil =>
      have hb : b.addr = 0 := hhead
      have := ht.1
      omega
    | cons c bs' =>
      have haddr : b.addr = c.addr := hhead
      have hheader : b.header p (headAddr 0 bs) = c.header p' (headAddr 0 bs') := by
        rw [← h.1, ← h'.1, haddr]
      have hsize : b.size = c.size := congrArg Header.size hheader
      have hfree : b.free = c.free := by
        have hflag := congrArg Header.free hheader
        revert hflag
        simp only [Block.header]
        cases b.free <;> cases c.free <;> simp
      have hstop : b.stop = b.addr + blockSize + b.size := rfl
      have hstop' : c.stop = c.addr + blockSize + c.size := rfl
      have hbs := blockSize_eq
      have hrest := ih h.2 h'.2 ht.2 ht'.2 (by omega) (by omega) (congrArg Header.next hheader)
      rw [hrest]
      obtain ⟨ba, bz, bf⟩ := b
      obtain ⟨ca, cz, cf⟩ := c
      simp only at haddr hsize hfree
      rw [haddr, hsize, hfree]

theorem Tiled.unique {heap : Heap} {start start' : Nat} {bs bs' : List Block}
    (h : Tiled heap start bs) (h' : Tiled heap start' bs') : bs = bs' :=
  h.seg.unique h'.seg h.tiles h'.tiles h.pos h'.pos (h.first.symm.trans h'.first)

end ArmKernel.Libc

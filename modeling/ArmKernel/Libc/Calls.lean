/-
What `malloc`, `free`, `realloc` and `calloc` do to the live blocks.

A block that is not free is live. `malloc` adds one and leaves the others as they are,
`free` takes one away, and the bytes between headers are left alone; so payloads of
live blocks keep their contents.

`free` and `realloc` are followed for any map from pointers to headers that takes the
pointer of a live block to this block.
-/
import ArmKernel.Libc.Edits
import Mathlib.Tactic.Tauto

namespace ArmKernel.Libc

open ArmKernel.Support

/-- The block is in the list and not free. -/
def IsLive (bs : List Block) (c : Block) : Prop := c ∈ bs ∧ c.free = false

section Live

variable {b c x : Block} {l r : List Block}

@[simp] theorem isLive_nil : IsLive [] c ↔ False := by simp [IsLive]

@[simp] theorem isLive_append : IsLive (l ++ r) c ↔ IsLive l c ∨ IsLive r c := by
  simp [IsLive, or_and_right]

@[simp] theorem isLive_cons : IsLive (b :: r) c ↔ (c = b ∧ b.free = false) ∨ IsLive r c := by
  unfold IsLive
  rw [List.mem_cons, or_and_right]
  exact or_congr_left ⟨fun ⟨h, hc⟩ => ⟨h, h ▸ hc⟩, fun ⟨h, hb⟩ => ⟨h, h ▸ hb⟩⟩

@[simp] theorem isLive_reverse : IsLive l.reverse c ↔ IsLive l c := by simp [IsLive]

/-- Only free blocks are taken in. -/
theorem absorbNext_eq (x : Block) (r : List Block) :
    ∃ x' r', absorbNext x r = x' :: r' ∧ x'.addr = x.addr ∧ x'.free = x.free ∧
      r'.map Block.addr ⊆ r.map Block.addr ∧ ∀ c, IsLive r' c ↔ IsLive r c := by
  cases r with
  | nil => exact ⟨x, [], rfl, rfl, rfl, by simp, fun c => Iff.rfl⟩
  | cons y r =>
    cases hfree : y.free with
    | false => exact ⟨x, y :: r, by simp [absorbNext, hfree], rfl, rfl, by simp, fun c => Iff.rfl⟩
    | true => exact ⟨x.absorb y, r, by simp [absorbNext, hfree], rfl, rfl, by simp, by simp [hfree]⟩

theorem isLive_absorbPrev (hx : x.free = true) :
    IsLive (absorbPrev x r l) c ↔ IsLive l c ∨ IsLive r c := by
  cases l with
  | nil => simp [absorbPrev, hx]
  | cons p l =>
    cases hfree : p.free with
    | false => simp [absorbPrev, hfree, hx, or_comm, or_assoc, or_left_comm]
    | true => simp [absorbPrev, hfree, Block.absorb]

end Live

/-! ### Flags -/

section Flag

variable {heap : Heap} {start : Nat} {b : Block} {l r : List Block}

/-- **Setting a flag.** -/
theorem setFree_spec (ht : Tiled heap start (l ++ b :: r)) (flag : Bool) :
    Tiled { heap with mem := setFree heap.mem b.addr (if flag then 1 else 0) } start
        (l ++ { b with free := flag } :: r) ∧
      HeadersOnly heap.mem (setFree heap.mem b.addr (if flag then 1 else 0)) (l ++ b :: r) := by
  have ha := ht.around
  have hbs := blockSize_eq
  have hb : b.stop = b.addr + blockSize + b.size := rfl
  have honly : OnlyAt heap.mem (setFree heap.mem b.addr (if flag then 1 else 0)) b.addr :=
    onlyAt_setFree
  have hheader : headerAt (setFree heap.mem b.addr (if flag then 1 else 0)) b.addr
      = { b with free := flag }.header (lastAddr 0 l) (headAddr 0 r) := by
    rw [headerAt_setFree (by split <;> decide), ha.header]
    rfl
  have hsame : ∀ d ∈ l, headerAt (setFree heap.mem b.addr (if flag then 1 else 0)) d.addr
      = headerAt heap.mem d.addr := fun d hd => honly.header (by
    have := (ha.tilesBefore.mem hd).2
    have hds : d.stop = d.addr + blockSize + d.size := rfl
    omega)
  have hafter : Seg (setFree heap.mem b.addr (if flag then 1 else 0)) b.addr 0 r :=
    ha.after.congr fun c hc => honly.header (by
      have := (ha.tilesAfter.mem hc).1
      omega)
  have htiled : Tiled { heap with mem := setFree heap.mem b.addr (if flag then 1 else 0) } start
      (l ++ [{ b with free := flag }] ++ r) :=
    ht.rebuild rfl ⟨hheader, trivial⟩ hafter hsame ⟨rfl, rfl⟩ ha.tilesAfter rfl
      ht.heapEnd_after rfl
  exact ⟨by simpa using htiled, honly.headersOnly (by simp)⟩

end Flag

/-! ### Allocation -/

/-- `ALIGN(n) + BLOCK_SIZE` does not wrap. -/
def SmallSize (n : Nat) : Prop := (n + 3) / 4 * 4 + blockSize < 2 ^ 32

instance (n : Nat) : Decidable (SmallSize n) := inferInstanceAs (Decidable (_ < _))

theorem align_of_small {n : Nat} (h : SmallSize n) :
    align n = (n + 3) / 4 * 4 ∧ n ≤ align n ∧ align n % 4 = 0 ∧ align n + blockSize < 2 ^ 32 := by
  have hbs := blockSize_eq
  unfold SmallSize at h
  have hn : align n = (n + 3) / 4 * 4 := by
    rw [align, wrap32_of_lt (by omega)]
  omega

/-- `malloc(n)` finds no free block, and extends the heap. -/
def Extends (heap : Heap) (n : Nat) : Prop := n ≠ 0 ∧ findFreeBlock heap (align n) = some 0

instance (heap : Heap) (n : Nat) : Decidable (Extends heap n) := inferInstanceAs (Decidable (_ ∧ _))

/-- When `malloc(n)` extends the heap, `sys_brk` fails, or the break stays below the end of
memory. -/
def Grows (sys : SysBrk) (heap : Heap) (n : Nat) : Prop :=
  Extends heap n → sys.answer heap.brk (newBreak heap (align n)) = none ∨
    heap.brk + blockSize + align n < 2 ^ 32

instance (sys : SysBrk) (heap : Heap) (n : Nat) : Decidable (Grows sys heap n) :=
  inferInstanceAs (Decidable (_ → _))

/-- The heap has one more live block, `new`, of at least `n` bytes. -/
structure Allocated (heap heap' : Heap) (start n : Nat) (bs bs' : List Block) (new : Block) :
    Prop where
  tiled : Tiled heap' start bs'
  mem : new ∈ bs'
  live : ∀ c, IsLive bs' c ↔ IsLive bs c ∨ c = new
  apart : ∀ c, IsLive bs c → c.addr ≠ new.addr
  enough : n ≤ new.size
  headers : HeadersOnly heap.mem heap'.mem bs'

section Calls

variable {heap : Heap} {start n : Nat} {bs : List Block}

/-- Taking a free block that the search found. -/
theorem take_spec {b : Block} {l r : List Block} (ht : Tiled heap start (l ++ b :: r))
    (hfree : b.free = true) (hsize : n ≤ b.size) (halign : n % 4 = 0) :
    ∃ bs' new, new.addr = b.addr ∧ Edit (l ++ b :: r) bs' ∧
      Allocated heap (splitBlock { heap with mem := setFree heap.mem b.addr 0 } b.addr n) start n
        (l ++ b :: r) bs' new := by
  obtain ⟨htaken, hheaders⟩ := setFree_spec ht false
  simp only [Bool.false_eq_true, if_false] at htaken hheaders
  have hapart : ∀ c, IsLive (l ++ b :: r) c → c.addr ≠ b.addr := fun c hc heq => by
    have hcb := ht.tiles.eq_of_addr hc.1 (List.mem_append_right l List.mem_cons_self) heq
    have hlive := hc.2
    rw [hcb, hfree] at hlive
    simp at hlive
  rcases Nat.lt_or_ge b.size (n + blockSize + 4) with htight | hroom
  · have hkeep := splitBlock_of_tight n htaken hsize htight
    refine ⟨l ++ { b with free := false } :: r, { b with free := false }, rfl, .take hfree, ?_⟩
    rw [show splitBlock { heap with mem := setFree heap.mem b.addr 0 } b.addr n = _ from hkeep]
    refine ⟨htaken, by simp, fun c => ?_, hapart, hsize, hheaders.mono (by simp)⟩
    simp only [isLive_append, isLive_cons, hfree]
    tauto
  · obtain ⟨hsplit, hheaders'⟩ := splitBlock_spec n htaken hroom
    refine ⟨_, { b with free := false, size := n }, rfl, .carve hfree halign hroom, hsplit, by simp,
      fun c => ?_, hapart, Nat.le_refl _, ?_⟩
    · simp only [isLive_append, isLive_cons, isLive_nil, hfree, Block.rest]
      tauto
    · refine (hheaders.mono ?_).trans (hheaders'.mono ?_)
      · intro a
        simp only [List.map_append, List.map_cons, List.mem_append, List.mem_cons]
        tauto
      · intro a
        simp only [List.map_append, List.map_cons, List.mem_append, List.mem_cons]
        tauto

/-- **`malloc`** returns 0 and leaves the heap alone, or adds a live block. -/
theorem malloc_spec (ht : Tiled heap start bs) (hsmall : SmallSize n) {sys : SysBrk}
    (hgrows : Grows sys heap n) :
    ∃ heap' ptr, malloc heap n sys = some (heap', ptr) ∧
      (ptr = 0 ∧ heap' = heap ∨
        ∃ bs' new, n ≠ 0 ∧ ptr = new.addr + dataOffset ∧ Edit bs bs' ∧
          Allocated heap heap' start n bs bs' new) := by
  obtain ⟨-, hle, halign, -⟩ := align_of_small hsmall
  have hdo := dataOffset_eq
  unfold malloc
  split
  · exact ⟨heap, 0, rfl, Or.inl ⟨rfl, rfl⟩⟩
  rename_i hn
  have hsearch := findFreeFrom_spec (align n) ht.seg ht.tiles ht.pos (show bs.length < 2 ^ 32 + 1 by
    have := ht.tiles.length_le
    have := ht.fits
    omega)
  rw [← ht.first] at hsearch
  rcases hsearch with hnone | ⟨l, b, r, rfl, hfree, hsize, hfound⟩
  · -- No free block is large enough.
    simp only [findFreeBlock, hnone, Option.map_some]
    rw [if_neg (by simp)]
    have hbreak := (hgrows ⟨hn, hnone⟩).imp_left sysBrk_eq_none.mpr
    rcases extendHeap_spec ht halign hbreak with hfail | ⟨heap', hgrown, htiled, hheaders⟩
    · rw [hfail]
      exact ⟨heap, 0, rfl, Or.inl ⟨rfl, rfl⟩⟩
    · have hbrk := ht.tiles.le
      have hpos := ht.pos
      rw [hgrown]
      simp only
      rw [if_neg (by omega)]
      refine ⟨heap', _, rfl, Or.inr ⟨_, topBlock heap (align n), hn, rfl, .grow halign, htiled,
        by simp, fun c => by simp [topBlock], fun c hc heq => ?_, hle, hheaders⟩⟩
      have hc' := (ht.tiles.mem hc.1).2
      have hcs : c.stop = c.addr + blockSize + c.size := rfl
      have hbs := blockSize_eq
      have : c.addr = heap.brk := heq
      omega
  · -- The search found the free block `b`.
    have habove := ht.around.above
    simp only [findFreeBlock, hfound, Option.map_some]
    rw [if_pos (by omega)]
    obtain ⟨bs', new, haddr, hedit, halloc⟩ := take_spec ht hfree hsize halign
    exact ⟨_, _, rfl, Or.inr ⟨bs', new, hn, by rw [haddr], hedit, { halloc with
      enough := Nat.le_trans hle halloc.enough }⟩⟩

variable {header : Nat → Nat}

/-- **`free`** takes the live block away. -/
theorem free_spec {b : Block} (ht : Tiled heap start bs) (hb : IsLive bs b)
    (hheader : header (b.addr + dataOffset) = b.addr) :
    ∃ bs', Tiled (free header heap (b.addr + dataOffset)) start bs' ∧ Edit bs bs' ∧
      (∀ c, IsLive bs' c ↔ IsLive bs c ∧ c ≠ b) ∧
      HeadersOnly heap.mem (free header heap (b.addr + dataOffset)).mem bs := by
  obtain ⟨l, r, rfl⟩ := List.append_of_mem hb.1
  have hdo := dataOffset_eq
  obtain ⟨ht₁, hh₁⟩ := setFree_spec ht true
  simp only [if_true] at ht₁ hh₁
  obtain ⟨ht₂, hh₂⟩ := mergeNext_spec ht₁
  obtain ⟨x, r', hlist, haddr, hfree, hsub, hlive⟩ := absorbNext_eq { b with free := true } r
  rw [hlist, ← List.reverse_reverse l] at ht₂
  obtain ⟨ht₃, hh₃⟩ := mergePrev_spec ht₂
  rw [List.reverse_reverse] at hh₃
  have hresult : free header heap (b.addr + dataOffset)
      = mergePrev (mergeNext { heap with mem := setFree heap.mem b.addr 1 } b.addr) x.addr := by
    rw [haddr, free, if_neg (by omega), hheader]
    rfl
  have hothers : ∀ c, IsLive l c ∨ IsLive r c → c ≠ b := by
    rintro c hc rfl
    have htiles := ht.tiles.cut
    have hcs : c.stop = c.addr + blockSize + c.size := rfl
    have hbs := blockSize_eq
    rcases hc with hc | hc
    · have := (htiles.1.mem hc.1).2
      omega
    · have := (htiles.2.mem hc.1).1
      omega
  have hedit : Edit (l ++ b :: r) (absorbPrev x r' l.reverse) := by
    have hrelease := Edit.release (l := l.reverse) hb.2 hlist
    rwa [List.reverse_reverse] at hrelease
  rw [hresult]
  refine ⟨_, ht₃, hedit, ?_, ?_⟩
  · intro c
    rw [isLive_absorbPrev hfree, isLive_reverse, hlive c]
    simp only [isLive_append, isLive_cons]
    constructor
    · intro hc
      exact ⟨hc.elim Or.inl fun h => Or.inr (Or.inr h), hothers c hc⟩
    · rintro ⟨hc | ⟨rfl, -⟩ | hc, hne⟩
      · exact Or.inl hc
      · exact absurd rfl hne
      · exact Or.inr hc
  · refine (hh₁.trans (hh₂.mono (by simp))).trans (hh₃.mono fun a ha => ?_)
    simp only [List.map_append, List.map_cons, List.mem_append, List.mem_cons, haddr] at ha ⊢
    rcases ha with ha | ha | ha
    · exact Or.inl ha
    · exact Or.inr (Or.inl ha)
    · exact Or.inr (Or.inr (hsub ha))

end Calls

/-! ### Effects -/

/-- What a call does: the live block `gone` goes, `new` comes, and the payloads of the
others stay as they are. -/
structure Effect (heap heap' : Heap) (start : Nat) (bs bs' : List Block)
    (gone new : Option Block) : Prop where
  tiled : Tiled heap' start bs'
  live : ∀ c, IsLive bs' c ↔ (IsLive bs c ∧ gone ≠ some c) ∨ new = some c
  apart : ∀ c d, IsLive bs c → gone ≠ some c → new = some d → c.addr ≠ d.addr
  payloads : ∀ c, IsLive bs c → gone ≠ some c →
    Agree heap.mem heap'.mem (c.addr + dataOffset) c.size

section Effects

variable {heap heap' : Heap} {start n : Nat} {bs bs' : List Block} {b new : Block}

theorem Allocated.effect (h : Allocated heap heap' start n bs bs' new) :
    Effect heap heap' start bs bs' none (some new) where
  tiled := h.tiled
  live c := by
    rw [h.live c]
    simp [eq_comm]
  apart c d hc _ hd := Option.some.inj hd ▸ h.apart c hc
  payloads c hc _ := by
    have hc' := (h.live c).mpr (Or.inl hc)
    exact h.tiled.tiles.payload_agree hc'.1 h.headers (Nat.le_refl _)

/-- Bytes outside the headers do not matter for the list. -/
theorem Tiled.congr {mem' : Bytes} (ht : Tiled heap start bs)
    (hsame : ∀ c ∈ bs, Agree heap.mem mem' c.addr 16) :
    Tiled { heap with mem := mem' } start bs where
  seg := ht.seg.congr fun c hc => headerAt_congr (hsame c hc)
  first := ht.first
  last := ht.last
  tiles := ht.tiles
  pos := ht.pos
  fits := ht.fits

/-- **Writing into a payload.** Memory changes inside the payload of `b` only. -/
theorem Tiled.write_payload (ht : Tiled heap start bs) (hb : IsLive bs b)
    (mem' : Bytes) (hout : ∀ a k, a + k ≤ b.addr + dataOffset ∨ b.addr + dataOffset + b.size ≤ a →
      Agree heap.mem mem' a k) :
    Tiled { heap with mem := mem' } start bs ∧
      ∀ c, IsLive bs c → c ≠ b → Agree heap.mem mem' (c.addr + dataOffset) c.size := by
  have hbs := blockSize_eq
  have hdo := dataOffset_eq
  have hstop : b.stop = b.addr + blockSize + b.size := rfl
  constructor
  · refine ht.congr fun c hc => hout _ _ ?_
    have hcs : c.stop = c.addr + blockSize + c.size := rfl
    rcases ht.tiles.apart hb.1 hc with rfl | h | h
    · omega
    · omega
    · omega
  · intro c hc hne
    apply hout
    have hcs : c.stop = c.addr + blockSize + c.size := rfl
    rcases ht.tiles.apart hb.1 hc.1 with rfl | h | h
    · exact absurd rfl hne
    · omega
    · omega

variable {header : Nat → Nat}

theorem free_effect (ht : Tiled heap start bs) (hb : IsLive bs b)
    (hheader : header (b.addr + dataOffset) = b.addr) :
    ∃ bs', Edit bs bs' ∧
      Effect heap (free header heap (b.addr + dataOffset)) start bs bs' (some b) none := by
  obtain ⟨bs', htiled, hedit, hlive, hheaders⟩ := free_spec ht hb hheader
  refine ⟨bs', hedit, htiled, fun c => ?_, fun _ _ _ _ h => by simp at h, fun c hc _ =>
    ht.tiles.payload_agree hc.1 hheaders (Nat.le_refl _)⟩
  rw [hlive c]
  simp [eq_comm]

/-- **Shrinking in place**, the block keeping at least `n` bytes. -/
theorem splitBlock_effect (ht : Tiled heap start bs) (hb : IsLive bs b) (hn : n ≤ b.size) :
    ∃ bs' b', b'.addr = b.addr ∧ n ≤ b'.size ∧ b'.size ≤ b.size ∧ (n ≠ 0 → Resized b n bs bs') ∧
      Effect heap (splitBlock heap b.addr n) start bs bs' (some b) (some b') ∧
      Agree heap.mem (splitBlock heap b.addr n).mem (b.addr + dataOffset) b'.size := by
  obtain ⟨l, r, rfl⟩ := List.append_of_mem hb.1
  have hfree := hb.2
  have hothers : ∀ c, IsLive (l ++ b :: r) c → some b ≠ some c → c.addr ≠ b.addr :=
    fun c hc hne heq => hne (congrArg some (ht.tiles.eq_of_addr hb.1 hc.1 heq.symm))
  rcases Nat.lt_or_ge b.size (n + blockSize + 4) with htight | hroom
  · rw [splitBlock_of_tight n ht hn htight]
    refine ⟨l ++ b :: r, b, rfl, hn, Nat.le_refl _, fun _ => .inr ⟨.inr htight, .refl⟩,
      ⟨ht, ?_, ?_, fun _ _ _ => Agree.rfl⟩, Agree.rfl⟩
    · intro c
      by_cases h : b = c
      · subst h
        simp [hb]
      · simp [h]
    · rintro c d hc hne hd
      exact Option.some.inj hd ▸ hothers c hc hne
  · obtain ⟨hsplit, hheaders⟩ := splitBlock_spec n ht hroom
    have hheaders' : HeadersOnly heap.mem (splitBlock heap b.addr n).mem
        (l ++ [{ b with size := n }, b.rest n] ++ r) := hheaders.mono fun a ha => by
        simp only [List.map_append, List.map_cons, List.mem_append] at ha ⊢
        exact ha.elim (fun h => Or.inl (Or.inr h)) Or.inr
    have hlive : ∀ c, IsLive (l ++ [{ b with size := n }, b.rest n] ++ r) c ↔
        (IsLive (l ++ b :: r) c ∧ some b ≠ some c) ∨ some { b with size := n } = some c := by
      intro c
      have hne : IsLive l c ∨ IsLive r c → b ≠ c := by
        rintro hc rfl
        have htiles := ht.tiles.cut
        have hbs : b.stop = b.addr + blockSize + b.size := rfl
        have hb20 := blockSize_eq
        rcases hc with hc | hc
        · have := (htiles.1.mem hc.1).2
          omega
        · have := (htiles.2.mem hc.1).1
          omega
      simp only [isLive_append, isLive_cons, isLive_nil, Block.rest, hfree, ne_eq,
        Option.some.injEq, Bool.true_eq_false, and_false, and_true, or_false]
      constructor
      · rintro ((h | rfl) | h)
        · exact Or.inl ⟨Or.inl h, hne (Or.inl h)⟩
        · exact Or.inr rfl
        · exact Or.inl ⟨Or.inr (Or.inr h), hne (Or.inr h)⟩
      · rintro (⟨h | rfl | h, hbc⟩ | rfl)
        · exact Or.inl (Or.inl h)
        · exact absurd rfl hbc
        · exact Or.inr h
        · exact Or.inl (Or.inr rfl)
    refine ⟨_, { b with size := n }, rfl, Nat.le_refl _, hn,
      fun hn0 => .inl ⟨hn0, hroom, l, r, rfl, rfl⟩, ⟨hsplit, hlive, ?_, ?_⟩, ?_⟩
    · rintro c d hc hne hd
      obtain rfl := Option.some.inj hd
      exact hothers c hc hne
    · intro c hc hne
      have hc' := (hlive c).mpr (Or.inl ⟨hc, hne⟩)
      exact hsplit.tiles.payload_agree hc'.1 hheaders' (Nat.le_refl _)
    · exact hsplit.tiles.payload_agree (b := { b with size := n }) (by simp) hheaders'
        (Nat.le_refl _)

/-- **Moving** the contents of the live block `b` to the new block, and freeing `b`. -/
theorem move_effect {bs₁ : List Block} {heap₁ : Heap} (halloc : Allocated heap heap₁ start n bs bs₁ new)
    (hb : IsLive bs b) (hn : b.size ≤ n) (hheader : header (b.addr + dataOffset) = b.addr) :
    let mem := copyBytes heap₁.mem (new.addr + dataOffset) (b.addr + dataOffset)
      (sizeAt heap₁.mem b.addr)
    let heap₂ := free header { heap₁ with mem := mem } (b.addr + dataOffset)
    ∃ bs', Edit bs₁ bs' ∧ Effect heap heap₂ start bs bs' (some b) (some new) ∧
      ∀ i, i < b.size → heap₂.mem (new.addr + dataOffset + i) = heap.mem (b.addr + dataOffset + i) := by
  intro mem heap₂
  have hdo := dataOffset_eq
  have heff₁ := halloc.effect
  have hb₁ : IsLive bs₁ b := (halloc.live b).mpr (Or.inl hb)
  have hnew₁ : IsLive bs₁ new := (halloc.live new).mpr (Or.inr rfl)
  have hbnew : b ≠ new := fun h => halloc.apart b hb (congrArg Block.addr h)
  have hsize : sizeAt heap₁.mem b.addr = b.size := by
    obtain ⟨l, r, rfl⟩ := List.append_of_mem hb₁.1
    exact halloc.tiled.around.words.1
  have henough := halloc.enough
  obtain ⟨ht₂, hkeep₂⟩ := halloc.tiled.write_payload hnew₁ mem fun a k hout =>
    agree_copyBytes (by omega)
  have hcopied : ∀ i < b.size,
      mem (new.addr + dataOffset + i) = heap₁.mem (b.addr + dataOffset + i) := by
    intro i hi
    show copyBytes _ _ _ _ _ = _
    rw [copyBytes, hsize, if_pos (by omega)]
    congr 1
    omega
  obtain ⟨bs', hedit, heff⟩ :
      ∃ bs', Edit bs₁ bs' ∧
        Effect { heap₁ with mem := mem } heap₂ start bs₁ bs' (some b) none :=
    free_effect ht₂ hb₁ hheader
  -- From here on it does not matter what the copy and the release compute.
  clear_value heap₂
  clear_value mem
  refine ⟨bs', hedit, ⟨heff.tiled, ?_, ?_, ?_⟩,
    ?_⟩
  · intro c
    rw [heff.live c, halloc.live c]
    constructor
    · rintro (⟨hc | rfl, hne⟩ | hc)
      · exact Or.inl ⟨hc, hne⟩
      · exact Or.inr rfl
      · simp at hc
    · rintro (⟨hc, hne⟩ | hc)
      · exact Or.inl ⟨Or.inl hc, hne⟩
      · obtain rfl := Option.some.inj hc
        exact Or.inl ⟨Or.inr rfl, fun h => hbnew (Option.some.inj h)⟩
  · intro c d hc hne hd
    exact Option.some.inj hd ▸ halloc.apart c hc
  · intro c hc hne
    have hc₁ : IsLive bs₁ c := (halloc.live c).mpr (Or.inl hc)
    have hcnew : c ≠ new := fun h => halloc.apart c hc (congrArg Block.addr h)
    exact ((heff₁.payloads c hc (by simp)).trans (hkeep₂ c hc₁ hcnew)).trans
      (heff.payloads c hc₁ hne)
  · intro i hi
    have hfreed : heap₂.mem (new.addr + dataOffset + i) = mem (new.addr + dataOffset + i) :=
      heff.payloads new hnew₁ (fun h => hbnew (Option.some.inj h)) _ (by omega) (by omega)
    have hmalloc : heap₁.mem (b.addr + dataOffset + i) = heap.mem (b.addr + dataOffset + i) :=
      heff₁.payloads b hb (by simp) _ (by omega) (by omega)
    rw [hfreed, hcopied i hi, hmalloc]

/-! The ways `realloc` goes, by what it reads at the header. -/

theorem realloc_free {header : Nat → Nat} (heap : Heap) {ptr : Nat} (hptr : ptr ≠ 0)
    (sys : SysBrk) : realloc header heap ptr 0 sys = some (free header heap ptr, 0) := by
  unfold realloc
  rw [if_neg hptr, if_pos rfl]

theorem realloc_fits {header : Nat → Nat} {ptr : Nat} (hptr : ptr ≠ 0) (hn : n ≠ 0)
    (hle : n ≤ sizeAt heap.mem (header ptr)) (sys : SysBrk) :
    realloc header heap ptr n sys = some (splitBlock heap (header ptr) n, ptr) := by
  unfold realloc
  rw [if_neg hptr, if_neg hn]
  exact if_pos hle

theorem realloc_moves {header : Nat → Nat} {ptr : Nat} (hptr : ptr ≠ 0) (hn : n ≠ 0)
    (hlt : ¬ n ≤ sizeAt heap.mem (header ptr)) (sys : SysBrk) :
    realloc header heap ptr n sys = (malloc heap n sys).map fun r =>
      if r.2 = 0 then (r.1, 0)
      else (free header { r.1 with
        mem := copyBytes r.1.mem r.2 ptr (sizeAt r.1.mem (header ptr)) } ptr, r.2) := by
  unfold realloc
  rw [if_neg hptr, if_neg hn]
  exact if_neg hlt

/-- **`realloc`** of the live block `b`. -/
theorem realloc_effect (ht : Tiled heap start bs) (hb : IsLive bs b) (hsmall : SmallSize n)
    (hheader : header (b.addr + dataOffset) = b.addr) {sys : SysBrk}
    (hgrows : b.size < n → Grows sys heap n) :
    ∃ heap' ptr, realloc header heap (b.addr + dataOffset) n sys = some (heap', ptr) ∧
      (n = 0 ∧ ptr = 0 ∧ (∃ bs', Edit bs bs' ∧ Effect heap heap' start bs bs' (some b) none) ∨
        n ≠ 0 ∧ ptr = 0 ∧ b.size < n ∧ heap' = heap ∨
        n ≠ 0 ∧ ∃ bs' new, ptr = new.addr + dataOffset ∧ n ≤ new.size ∧ Resized b n bs bs' ∧
          Effect heap heap' start bs bs' (some b) (some new) ∧
          ∀ i, i < b.size → i < new.size →
            heap'.mem (ptr + i) = heap.mem (b.addr + dataOffset + i)) := by
  have hdo := dataOffset_eq
  have hsize : sizeAt heap.mem (header (b.addr + dataOffset)) = b.size := by
    obtain ⟨l, r, rfl⟩ := List.append_of_mem hb.1
    rw [hheader]
    exact ht.around.words.1
  have hptr : b.addr + dataOffset ≠ 0 := by omega
  by_cases hn : n = 0
  · subst hn
    exact ⟨_, 0, realloc_free heap hptr sys, Or.inl ⟨rfl, rfl, free_effect ht hb hheader⟩⟩
  by_cases hle : n ≤ b.size
  · -- The block is large enough.
    obtain ⟨bs', b', haddr, hn', hle', hresize, heff, hagree⟩ := splitBlock_effect ht hb hle
    rw [realloc_fits hptr hn (by rwa [hsize]), hheader]
    refine ⟨_, _, rfl, Or.inr (Or.inr ⟨hn, bs', b', by rw [haddr], hn', hresize hn, heff,
      fun i _ hi => ?_⟩)⟩
    exact hagree _ (by omega) (by omega)
  · rw [realloc_moves hptr hn (by rwa [hsize])]
    obtain ⟨heap₁, ptr, hmalloc, ⟨rfl, rfl⟩ | ⟨bs₁, new, -, rfl, hedit₁, halloc⟩⟩ :=
      malloc_spec ht hsmall (hgrows (Nat.lt_of_not_le hle))
    · rw [hmalloc]
      exact ⟨heap₁, 0, rfl, Or.inr (Or.inl ⟨hn, rfl, Nat.lt_of_not_le hle, rfl⟩)⟩
    · obtain ⟨bs', hedit₂, heff, hcopied⟩ := move_effect halloc hb (by omega) hheader
      have hresize : Resized b n bs bs' := .inr ⟨.inr (by omega), .tail (.single hedit₁) hedit₂⟩
      have hnew : new.addr + dataOffset ≠ 0 := by omega
      rw [hmalloc, Option.map_some]
      dsimp only
      rw [if_neg hnew, hheader]
      exact ⟨_, _, rfl, Or.inr (Or.inr ⟨hn, bs', new, rfl, halloc.enough, hresize, heff,
        fun i hi _ => hcopied i hi⟩)⟩

/-- **`calloc`** allocates, or leaves the heap alone. -/
theorem calloc_effect (ht : Tiled heap start bs) {nmemb : Nat} (hmul : nmemb * n < 2 ^ 32)
    (hsmall : SmallSize (nmemb * n)) {sys : SysBrk} (hgrows : Grows sys heap (nmemb * n)) :
    ∃ heap' ptr, calloc heap nmemb n sys = some (heap', ptr) ∧
      (ptr = 0 ∧ heap' = heap ∨
        ∃ bs' new, ptr = new.addr + dataOffset ∧ nmemb * n ≤ new.size ∧ Edit bs bs' ∧
          Effect heap heap' start bs bs' none (some new)) := by
  have hdo := dataOffset_eq
  unfold calloc
  simp only [wrap32_of_lt hmul]
  obtain ⟨heap₁, ptr, hmalloc, ⟨rfl, rfl⟩ | ⟨bs₁, new, -, rfl, hedit, halloc⟩⟩ :=
    malloc_spec ht hsmall hgrows
  · rw [hmalloc]
    exact ⟨heap₁, 0, rfl, Or.inl ⟨rfl, rfl⟩⟩
  · have heff := halloc.effect
    have henough := halloc.enough
    have hnew : IsLive bs₁ new := (halloc.live new).mpr (Or.inr rfl)
    obtain ⟨htiled, hkeep⟩ := halloc.tiled.write_payload hnew
      (fillBytes heap₁.mem (new.addr + dataOffset) 0 (nmemb * n)) fun a k hout =>
        agree_fillBytes (by omega)
    rw [hmalloc, Option.map_some, if_pos (by simp only; omega)]
    refine ⟨_, _, rfl, Or.inr ⟨bs₁, new, rfl, henough, hedit, htiled, heff.live, heff.apart, ?_⟩⟩
    intro c hc hne
    have hcnew : c ≠ new := fun h => halloc.apart c hc (congrArg Block.addr h)
    exact (heff.payloads c hc hne).trans (hkeep c ((halloc.live c).mpr (Or.inl hc)) hcnew)

end Effects

end ArmKernel.Libc

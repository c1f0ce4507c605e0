/-
The block cache of the file system (`src/fs_core.c`: `read_block`, `write_block`).

All mounts share one circular doubly-linked list of cached blocks. A new entry is
linked in before `cache_head`, and a read that misses evicts from
`cache_head->prev` while `cache_size` is above `MAX_CACHE_BLOCKS`.

What lies outside this file is a parameter: the block devices behind
`device_read` and `device_write` (`DeviceOps`) and the lookup `cache_get_block`,
which the source declares and does not define. `malloc` succeeds; the address it
returns is an argument.

* `CacheList fs l`: the entries of the cache are the addresses `l`, in `next` order.
* `insertCache_list`, `evictOldest_list`: what linking in and eviction do to it.
* `LookupSpec`: what `cache_get_block` promises; `walkLookup` is a function that
  keeps the promise.
-/
import ArmKernel.Support.Ring
import ArmKernel.Support.Word
import Mathlib.Data.Finset.Card
import Mathlib.Order.Interval.Finset.Nat

namespace ArmKernel.Fs

open ArmKernel.Support

/-- `BLOCK_SIZE`. -/
def blockSize : Nat := 4096

/-- `MAX_CACHE_BLOCKS`. -/
def maxCacheBlocks : Nat := 1024

/-- `device_read` and `device_write` of one block at a byte offset. A read that
does not deliver `BLOCK_SIZE` bytes is `none`; the code never looks at what
`device_write` returns. -/
structure DeviceOps (Dev D : Type*) where
  deviceRead : Dev → Nat → Option D
  deviceWrite : Dev → Nat → D → Dev

/-- `cache_block_t`. `home` is not a field of the source: it is the mount for which
the entry was inserted, and no function reads it. -/
structure CacheBlock (M D : Type*) where
  blockNo : Nat
  data : D
  dirty : Bool
  refCount : Nat
  next : Nat
  prev : Nat
  home : M

/-- What an entry holds, its links left out. -/
structure Line (M D : Type*) where
  home : M
  blockNo : Nat
  data : D
  dirty : Bool

def CacheBlock.line {M D : Type*} (b : CacheBlock M D) : Line M D :=
  ⟨b.home, b.blockNo, b.data, b.dirty⟩

/-- One call of `device_write`: the entry written back, the mount whose device it
went to, and the byte offset. -/
structure WriteBack (M D : Type*) where
  block : CacheBlock M D
  mount : M
  offset : Nat

/-- The static variables of `fs_core.c` and what they reach. `allocated` are the
entries `malloc` has handed out and `free` has not taken back, `writeBacks` the
calls of `device_write` so far. -/
structure FsState (M Dev D : Type*) where
  cacheHead : Option Nat
  cacheSize : Nat
  mem : Nat → CacheBlock M D
  allocated : List Nat
  devices : M → Dev
  writeBacks : List (WriteBack M D)

variable {M Dev D : Type*}

namespace FsState

/-- `fs_init`, with whatever memory holds and the devices as they are. -/
def fsInit (mem : Nat → CacheBlock M D) (devices : M → Dev) : FsState M Dev D where
  cacheHead := none
  cacheSize := 0
  mem := mem
  allocated := []
  devices := devices
  writeBacks := []

/-- The entries of the cache in `next` order, as far as `cache_size` says. -/
def entriesFrom (mem : Nat → CacheBlock M D) : Nat → Nat → List Nat
  | 0, _ => []
  | k + 1, p => p :: entriesFrom mem k (mem p).next

def entries (fs : FsState M Dev D) : List Nat :=
  match fs.cacheHead with
  | none => []
  | some h => entriesFrom fs.mem fs.cacheSize h

end FsState

open FsState

/-! ### The functions -/

/-- Store through a `cache_block_t *`. -/
def modify (mem : Nat → CacheBlock M D) (p : Nat) (f : CacheBlock M D → CacheBlock M D) :
    Nat → CacheBlock M D :=
  Function.update mem p (f (mem p))

def setNext (mem : Nat → CacheBlock M D) (p q : Nat) : Nat → CacheBlock M D :=
  modify mem p fun b => { b with next := q }

def setPrev (mem : Nat → CacheBlock M D) (p q : Nat) : Nat → CacheBlock M D :=
  modify mem p fun b => { b with prev := q }

/-- Linking `cache` in before the head. -/
def linkCache (mem : Nat → CacheBlock M D) (cache head : Nat) : Nat → CacheBlock M D :=
  let mem := setNext mem cache head
  let mem := setPrev mem cache (mem head).prev
  let mem := setNext mem (mem head).prev cache
  setPrev mem head cache

/-- The tail of `read_block` and `write_block` that makes the entry `cache` and
adds it to the list. -/
def insertCache (fs : FsState M Dev D) (cache : Nat) (mp : M) (blockNo : Nat) (data : D)
    (dirty : Bool) : FsState M Dev D :=
  let mem := modify fs.mem cache fun b =>
    { b with blockNo := blockNo, data := data, dirty := dirty, refCount := 1, home := mp }
  { fs with
    cacheHead := match fs.cacheHead with
      | some head => some head
      | none => some cache
    cacheSize := wrap32 (fs.cacheSize + 1)
    mem := match fs.cacheHead with
      | some head => linkCache mem cache head
      | none => setPrev (setNext mem cache cache) cache cache
    allocated := cache :: fs.allocated }

/-- Taking the entry `oldest` out of the list. -/
def unlinkCache (mem : Nat → CacheBlock M D) (oldest : Nat) : Nat → CacheBlock M D :=
  let mem := setNext mem (mem oldest).prev (mem oldest).next
  setPrev mem (mem oldest).next (mem oldest).prev

section Functions

variable [DecidableEq M] (ops : DeviceOps Dev D)

/-- `device_write` of an evicted entry. -/
def writeBack (fs : FsState M Dev D) (mp : M) (oldest : Nat) : FsState M Dev D :=
  let block := fs.mem oldest
  let offset := wrap32 (block.blockNo * blockSize)
  { fs with
    devices := Function.update fs.devices mp
      (ops.deviceWrite (fs.devices mp) offset block.data)
    writeBacks := ⟨block, mp, offset⟩ :: fs.writeBacks }

/-- One pass of the eviction loop; `none` when it reads through a null head. -/
def evictOldest (fs : FsState M Dev D) (mp : M) : Option (FsState M Dev D) :=
  fs.cacheHead.map fun head =>
    let oldest := (fs.mem head).prev
    let fs := if (fs.mem oldest).dirty then writeBack ops fs mp oldest else fs
    { fs with
      mem := unlinkCache fs.mem oldest
      allocated := fs.allocated.filter (· ≠ oldest)
      cacheSize := sub32 fs.cacheSize 1 }

/-- `while (cache_size > MAX_CACHE_BLOCKS)`, for at most `fuel` passes; `none` when
the passes run out. -/
def evictLoop : Nat → FsState M Dev D → M → Option (FsState M Dev D)
  | 0, fs, _ => if maxCacheBlocks < fs.cacheSize then none else some fs
  | fuel + 1, fs, mp =>
    if maxCacheBlocks < fs.cacheSize then
      (evictOldest ops fs mp).bind fun fs => evictLoop fuel fs mp
    else some fs

variable (cacheGetBlock : FsState M Dev D → Nat → Option Nat)

/-- `read_block`, with what it leaves in the buffer (`none`: it returned -1). On a
miss `cache` is the address `malloc` returns. -/
def readBlock (fs : FsState M Dev D) (mp : M) (blockNo cache : Nat) :
    Option (FsState M Dev D × Option D) :=
  match cacheGetBlock fs blockNo with
  | some p => some (fs, some (fs.mem p).data)
  | none =>
    match ops.deviceRead (fs.devices mp) (wrap32 (blockNo * blockSize)) with
    | none => some (fs, none)
    | some buffer =>
      let fs := insertCache fs cache mp blockNo buffer false
      (evictLoop ops fs.cacheSize fs mp).map fun fs => (fs, some buffer)

/-- `write_block`; it always returns 0. -/
def writeBlock (fs : FsState M Dev D) (mp : M) (blockNo : Nat) (buffer : D) (cache : Nat) :
    FsState M Dev D :=
  match cacheGetBlock fs blockNo with
  | some p =>
    { fs with mem := modify fs.mem p fun b => { b with data := buffer, dirty := true } }
  | none => insertCache fs cache mp blockNo buffer true

end Functions

/-! ### Reading the memory after a store -/

/-- What the entry at each address holds. -/
def lineAt (mem : Nat → CacheBlock M D) (p : Nat) : Line M D := (mem p).line

/-- The `next` pointers of a memory, and its `prev` pointers. -/
def nextAt (mem : Nat → CacheBlock M D) (p : Nat) : Nat := (mem p).next

def prevAt (mem : Nat → CacheBlock M D) (p : Nat) : Nat := (mem p).prev

section Memory

variable {mem : Nat → CacheBlock M D} {p q a : Nat}

/-- A view of the entries sees a store as an update of the view. -/
theorem modify_view {β : Type*} (view : CacheBlock M D → β) (f : CacheBlock M D → CacheBlock M D) :
    (fun a => view (modify mem p f a)) = Function.update (fun a => view (mem a)) p (view (f (mem p))) := by
  funext a
  rcases eq_or_ne a p with rfl | hne
  · simp [modify]
  · simp [modify, hne]

/-- A store that a view does not see. -/
theorem modify_view_of_eq {β : Type*} (view : CacheBlock M D → β)
    {f : CacheBlock M D → CacheBlock M D} (hf : view (f (mem p)) = view (mem p)) :
    (fun a => view (modify mem p f a)) = fun a => view (mem a) := by
  rw [modify_view, hf, Function.update_eq_self]

@[simp] theorem setNext_next : nextAt (setNext mem p q) = Function.update (nextAt mem) p q :=
  modify_view CacheBlock.next _

@[simp] theorem setNext_prev : prevAt (setNext mem p q) = prevAt mem :=
  modify_view_of_eq CacheBlock.prev rfl

@[simp] theorem setNext_line : lineAt (setNext mem p q) = lineAt mem :=
  modify_view_of_eq CacheBlock.line rfl

@[simp] theorem setPrev_next : nextAt (setPrev mem p q) = nextAt mem :=
  modify_view_of_eq CacheBlock.next rfl

@[simp] theorem setPrev_prev : prevAt (setPrev mem p q) = Function.update (prevAt mem) p q :=
  modify_view CacheBlock.prev _

@[simp] theorem setPrev_line : lineAt (setPrev mem p q) = lineAt mem :=
  modify_view_of_eq CacheBlock.line rfl

/-- The four stores of linking in, as the two pointer maps see them. -/
theorem linkCache_pointers {c head : Nat} (hne : c ≠ head) :
    nextAt (linkCache mem c head)
        = Function.update (Function.update (nextAt mem) c head) (prevAt mem head) c ∧
      prevAt (linkCache mem c head)
        = Function.update (Function.update (prevAt mem) c (prevAt mem head)) head c := by
  have hhead : (setNext mem c head head).prev = prevAt mem head :=
    congrFun setNext_prev head
  have hhead' : (setPrev (setNext mem c head) c (prevAt mem head) head).prev = prevAt mem head := by
    have : prevAt (setPrev (setNext mem c head) c (prevAt mem head)) head = _ :=
      congrFun setPrev_prev head
    rw [setNext_prev, Function.update_of_ne hne.symm] at this
    exact this
  unfold linkCache
  simp only [hhead, hhead', setPrev_next, setPrev_prev, setNext_next, setNext_prev, and_self]

theorem linkCache_line {c head : Nat} : lineAt (linkCache mem c head) = lineAt mem := by
  simp [linkCache]

/-- The two stores of taking out an entry that is not alone. -/
theorem unlinkCache_pointers {o : Nat} (hne : prevAt mem o ≠ o) :
    nextAt (unlinkCache mem o)
        = Function.update (nextAt mem) (prevAt mem o) (nextAt mem o) ∧
      prevAt (unlinkCache mem o)
        = Function.update (prevAt mem) (nextAt mem o) (prevAt mem o) := by
  have hnext : (setNext mem (prevAt mem o) (nextAt mem o) o).next = nextAt mem o := by
    have : nextAt (setNext mem (prevAt mem o) (nextAt mem o)) o = _ := congrFun setNext_next o
    rw [Function.update_of_ne hne.symm] at this
    exact this
  have hprev : (setNext mem (prevAt mem o) (nextAt mem o) o).prev = prevAt mem o :=
    congrFun setNext_prev o
  unfold unlinkCache
  simp only [← nextAt.eq_1, ← prevAt.eq_1] at hnext hprev ⊢
  simp only [hnext, hprev, setPrev_next, setPrev_prev, setNext_next, setNext_prev, and_self]

theorem unlinkCache_line {o : Nat} : lineAt (unlinkCache mem o) = lineAt mem := by
  simp [unlinkCache]

end Memory

/-! ### The cache list -/

/-- The entries of the cache are the addresses `l`, in `next` order. -/
structure CacheList (fs : FsState M Dev D) (l : List Nat) : Prop where
  nodup : l.Nodup
  size : fs.cacheSize = l.length
  owned : ∀ p ∈ l, p ∈ fs.allocated
  /-- Addresses are nonzero words, so `cache_size` does not wrap. -/
  address : ∀ p ∈ l, 0 < p ∧ p < 2 ^ 32
  head : fs.cacheHead = l.head?
  ring : ∀ h rest, l = h :: rest → Ring (nextAt fs.mem) (prevAt fs.mem) h rest

theorem cacheList_fsInit (mem : Nat → CacheBlock M D) (devices : M → Dev) :
    CacheList (fsInit mem devices) [] where
  nodup := List.nodup_nil
  size := rfl
  owned := by simp
  address := by simp
  head := rfl
  ring := by simp

/-- Distinct addresses are fewer than the words. -/
theorem length_lt_of_addresses {l : List Nat} (hnodup : l.Nodup)
    (haddr : ∀ p ∈ l, 0 < p ∧ p < 2 ^ 32) : l.length < 2 ^ 32 := by
  have hsub : l.toFinset ⊆ Finset.Ioo 0 (2 ^ 32) := by
    intro p hp
    exact Finset.mem_Ioo.mpr (haddr p (List.mem_toFinset.mp hp))
  have hcard := Finset.card_le_card hsub
  rw [List.toFinset_card_of_nodup hnodup, Nat.card_Ioo] at hcard
  omega

/-- Overwriting what an entry holds leaves the list alone. -/
theorem CacheList.congr {fs fs' : FsState M Dev D} {l : List Nat} (hl : CacheList fs l)
    (hhead : fs'.cacheHead = fs.cacheHead) (hsize : fs'.cacheSize = fs.cacheSize)
    (halloc : fs'.allocated = fs.allocated) (hnext : nextAt fs'.mem = nextAt fs.mem)
    (hprev : prevAt fs'.mem = prevAt fs.mem) : CacheList fs' l where
  nodup := hl.nodup
  size := by rw [hsize, hl.size]
  owned := by rw [halloc]; exact hl.owned
  address := hl.address
  head := by rw [hhead, hl.head]
  ring := by rw [hnext, hprev]; exact hl.ring

/-! ### Linking in and taking out -/

section Edits

variable {fs : FsState M Dev D} {mp : M} {n c o : Nat} {x : D} {dirty : Bool} {l : List Nat}

/-- The new entry holds what it was given and the other entries what they held. -/
theorem insertCache_line :
    lineAt (insertCache fs c mp n x dirty).mem
      = Function.update (lineAt fs.mem) c ⟨mp, n, x, dirty⟩ := by
  have hfill : lineAt (modify fs.mem c fun b =>
        { b with blockNo := n, data := x, dirty := dirty, refCount := 1, home := mp })
      = Function.update (lineAt fs.mem) c ⟨mp, n, x, dirty⟩ :=
    modify_view CacheBlock.line _
  unfold insertCache
  cases fs.cacheHead with
  | none => simpa only [setPrev_line, setNext_line] using hfill
  | some head => simpa only [linkCache_line] using hfill

/-- **Linking in.** The new entry is the last one of the list. -/
theorem insertCache_list (hl : CacheList fs l) (haddr : 0 < c ∧ c < 2 ^ 32)
    (hfresh : c ∉ fs.allocated) : CacheList (insertCache fs c mp n x dirty) (l ++ [c]) := by
  have hc : c ∉ l := fun h => hfresh (hl.owned c h)
  have hnodup : (l ++ [c]).Nodup :=
    List.Nodup.append hl.nodup (List.nodup_singleton c) (by simpa using hc)
  have haddrs : ∀ p ∈ l ++ [c], 0 < p ∧ p < 2 ^ 32 := by
    intro p hp
    rcases List.mem_append.mp hp with h | h
    · exact hl.address p h
    · exact List.mem_singleton.mp h ▸ haddr
  have hlen := length_lt_of_addresses hnodup haddrs
  refine ⟨hnodup, ?_, ?_, haddrs, ?_, ?_⟩
  · show wrap32 (fs.cacheSize + 1) = _
    rw [hl.size]
    simpa using wrap32_of_lt (by simpa using hlen)
  · intro p hp
    show p ∈ c :: fs.allocated
    rcases List.mem_append.mp hp with h | h
    · exact List.mem_cons_of_mem _ (hl.owned p h)
    · exact List.mem_singleton.mp h ▸ List.mem_cons_self
  · show (match fs.cacheHead with | some head => some head | none => some c) = _
    rw [hl.head]
    cases l <;> rfl
  · -- The stores that fill the entry do not touch the links of the others.
    have hnext : nextAt (modify fs.mem c fun b =>
        { b with blockNo := n, data := x, dirty := dirty, refCount := 1, home := mp })
        = nextAt fs.mem := modify_view_of_eq CacheBlock.next rfl
    have hprev : prevAt (modify fs.mem c fun b =>
        { b with blockNo := n, data := x, dirty := dirty, refCount := 1, home := mp })
        = prevAt fs.mem := modify_view_of_eq CacheBlock.prev rfl
    intro h rest heq
    unfold insertCache
    cases l with
    | nil =>
      obtain ⟨rfl, rfl⟩ : c = h ∧ [] = rest := by simpa using heq
      have hhead : fs.cacheHead = none := hl.head
      simp only [hhead]
      apply ring_singleton
      · simp
      · simp
    | cons h' rest' =>
      obtain ⟨rfl, rfl⟩ : h' = h ∧ rest' ++ [c] = rest := by simpa using heq
      have hhead : fs.cacheHead = some h' := hl.head
      have hne : c ≠ h' := fun e => hc (e ▸ List.mem_cons_self)
      simp only [hhead]
      rw [(linkCache_pointers hne).1, (linkCache_pointers hne).2, hnext, hprev]
      exact (hl.ring h' rest' rfl).insert_last hl.nodup hc

variable [DecidableEq M] (ops : DeviceOps Dev D)

@[simp] theorem writeBack_cacheHead : (writeBack ops fs mp o).cacheHead = fs.cacheHead := rfl
@[simp] theorem writeBack_cacheSize : (writeBack ops fs mp o).cacheSize = fs.cacheSize := rfl
@[simp] theorem writeBack_mem : (writeBack ops fs mp o).mem = fs.mem := rfl
@[simp] theorem writeBack_allocated : (writeBack ops fs mp o).allocated = fs.allocated := rfl

/-- What `device_write` has done when the entry `o` goes. -/
def flushed (fs : FsState M Dev D) (mp : M) (o : Nat) : FsState M Dev D :=
  if (fs.mem o).dirty then writeBack ops fs mp o else fs

/-- **Taking out.** One pass evicts the last entry of the list. -/
theorem evictOldest_list (mp : M) (hl : CacheList fs (l ++ [o])) (hne : l ≠ []) :
    ∃ fs', evictOldest ops fs mp = some fs' ∧ CacheList fs' l ∧
      lineAt fs'.mem = lineAt fs.mem ∧ fs'.devices = (flushed ops fs mp o).devices ∧
      fs'.writeBacks = (flushed ops fs mp o).writeBacks := by
  obtain ⟨h, rest, rfl⟩ := List.exists_cons_of_ne_nil hne
  have hring := hl.ring h (rest ++ [o]) rfl
  have holdest : prevAt fs.mem h = o := (hring.prev_head (l := h :: rest) rfl).1
  have hnexto : nextAt fs.mem o = h := (hring.prev_head (l := h :: rest) rfl).2
  have hnodup : (h :: (rest ++ [o])).Nodup := hl.nodup
  -- `oldest` is not its own predecessor: the list has another entry.
  have hprevo : prevAt fs.mem o ≠ o := by
    obtain ⟨l', last, hlast⟩ := exists_append_singleton h rest
    have hwalk := hring.linked
    rw [← List.cons_append, hlast, List.append_assoc, List.singleton_append,
      linked_append] at hwalk
    intro e
    have hsame : last = o := hwalk.2.2.1.symm.trans e
    have hmem : last ∈ h :: rest := by rw [hlast]; simp
    exact (List.disjoint_of_nodup_append hl.nodup) hmem (by simp [hsame])
  have hmem : (flushed ops fs mp o).mem = fs.mem := by
    unfold flushed
    split <;> rfl
  have hsize : (flushed ops fs mp o).cacheSize = fs.cacheSize := by
    unfold flushed
    split <;> rfl
  have halloc : (flushed ops fs mp o).allocated = fs.allocated := by
    unfold flushed
    split <;> rfl
  have hcacheHead : (flushed ops fs mp o).cacheHead = fs.cacheHead := by
    unfold flushed
    split <;> rfl
  refine ⟨{ flushed ops fs mp o with
      mem := unlinkCache fs.mem o
      allocated := fs.allocated.filter (· ≠ o)
      cacheSize := sub32 fs.cacheSize 1 }, ?_, ?_, unlinkCache_line, rfl, rfl⟩
  · have hhead : fs.cacheHead = some h := hl.head
    have hold : (fs.mem h).prev = o := holdest
    simp only [evictOldest, hhead, Option.map_some, hold]
    rw [← flushed.eq_1 ops fs mp o, hmem, hsize, halloc]
  · have hlen := length_lt_of_addresses hl.nodup hl.address
    refine ⟨hl.nodup.of_append_left, ?_, ?_, fun p hp => hl.address p ?_, ?_, ?_⟩
    · show sub32 fs.cacheSize 1 = _
      rw [hl.size, sub32_of_le hlen (by simp)]
      simp
    · intro p hp
      have hpo : p ≠ o := fun e =>
        (List.disjoint_of_nodup_append hl.nodup) hp (by simp [e])
      show p ∈ fs.allocated.filter (· ≠ o)
      exact List.mem_filter.mpr ⟨hl.owned p (List.mem_append_left _ hp), by simpa using hpo⟩
    · exact List.mem_append_left _ hp
    · show (flushed ops fs mp o).cacheHead = _
      rw [hcacheHead]
      exact hl.head
    · rintro h' rest' heq
      obtain ⟨rfl, rfl⟩ : h = h' ∧ rest = rest' := by simpa using heq
      show Ring (nextAt (unlinkCache fs.mem o)) (prevAt (unlinkCache fs.mem o)) h rest
      rw [(unlinkCache_pointers hprevo).1, (unlinkCache_pointers hprevo).2]
      exact hring.remove_last hnodup

/-- **The eviction loop ends**, with the first `MAX_CACHE_BLOCKS` entries left, and
keeps what every pass keeps. -/
theorem evictLoop_rule (mp : M) {I : FsState M Dev D → List Nat → Prop}
    (pass : ∀ fs fs' l o, maxCacheBlocks ≤ l.length → CacheList fs (l ++ [o]) →
      I fs (l ++ [o]) → CacheList fs' l → lineAt fs'.mem = lineAt fs.mem →
      fs'.devices = (flushed ops fs mp o).devices →
      fs'.writeBacks = (flushed ops fs mp o).writeBacks → I fs' l) :
    ∀ (fuel : Nat) {fs : FsState M Dev D} {l : List Nat}, CacheList fs l → I fs l →
      l.length ≤ fuel → ∃ fs', evictLoop ops fuel fs mp = some fs' ∧
        CacheList fs' (l.take maxCacheBlocks) ∧ I fs' (l.take maxCacheBlocks) := by
  intro fuel
  induction fuel with
  | zero =>
    intro fs l hl hI hfuel
    have hsmall : ¬ maxCacheBlocks < fs.cacheSize := by rw [hl.size]; omega
    rw [List.take_of_length_le (by omega)]
    exact ⟨fs, by simp [evictLoop, hsmall], hl, hI⟩
  | succ fuel ih =>
    intro fs l hl hI hfuel
    rcases Nat.lt_or_ge maxCacheBlocks l.length with hlarge | hsmall
    · obtain ⟨l, o, rfl⟩ : ∃ l' o, l = l' ++ [o] :=
        ⟨l.dropLast, l.getLast (List.ne_nil_of_length_pos (by omega)),
          (List.dropLast_append_getLast _).symm⟩
      have hlen : maxCacheBlocks ≤ l.length := by
        simpa [Nat.lt_succ_iff] using hlarge
      have hne : l ≠ [] := List.ne_nil_of_length_pos (by unfold maxCacheBlocks at hlen; omega)
      obtain ⟨fs₁, hstep, hl₁, hline, hdev, hwb⟩ := evictOldest_list ops mp hl hne
      have hI₁ := pass fs fs₁ l o hlen hl hI hl₁ hline hdev hwb
      obtain ⟨fs₂, hloop, hl₂, hI₂⟩ := ih hl₁ hI₁ (by simpa using hfuel)
      rw [List.take_append_of_le_length hlen]
      refine ⟨fs₂, ?_, hl₂, hI₂⟩
      rw [evictLoop, if_pos (by rw [hl.size]; exact hlarge), hstep]
      exact hloop
    · rw [List.take_of_length_le hsmall]
      refine ⟨fs, ?_, hl, hI⟩
      rw [evictLoop, if_neg (by rw [hl.size]; omega)]

end Edits

/-! ### Walking the list -/

/-- Following `next` from the first node of a walk visits the walk. -/
theorem entriesFrom_eq {mem : Nat → CacheBlock M D} {h : Nat} {rest : List Nat} {z : Nat}
    (hwalk : Linked (nextAt mem) (prevAt mem) (h :: rest ++ [z])) :
    entriesFrom mem (rest.length + 1) h = h :: rest := by
  induction rest generalizing h with
  | nil => rfl
  | cons y rest ih =>
    obtain ⟨hnext, -, hwalk⟩ := hwalk
    show h :: entriesFrom mem (rest.length + 1) (nextAt mem h) = h :: y :: rest
    rw [hnext, ih hwalk]

theorem CacheList.entries_eq {fs : FsState M Dev D} {l : List Nat} (hl : CacheList fs l) :
    fs.entries = l := by
  cases l with
  | nil =>
    have hhead : fs.cacheHead = none := hl.head
    simp [entries, hhead]
  | cons h rest =>
    have hhead : fs.cacheHead = some h := hl.head
    have hsize : fs.cacheSize = rest.length + 1 := hl.size
    simp only [entries, hhead, hsize]
    exact entriesFrom_eq (hl.ring h rest rfl)

/-- `cache_get_block(n)` returns the entry with number `n` on the list, or `NULL`. -/
structure LookupSpec (cacheGetBlock : FsState M Dev D → Nat → Option Nat) : Prop where
  found : ∀ {fs l n p}, CacheList fs l → cacheGetBlock fs n = some p →
    p ∈ l ∧ (fs.mem p).blockNo = n
  absent : ∀ {fs l n}, CacheList fs l → cacheGetBlock fs n = none →
    ∀ p ∈ l, (fs.mem p).blockNo ≠ n

/-- A lookup that walks the list once. -/
def walkLookup (fs : FsState M Dev D) (n : Nat) : Option Nat :=
  fs.entries.find? fun p => (fs.mem p).blockNo == n

theorem walkLookup_spec : LookupSpec (@walkLookup M Dev D) where
  found := by
    intro fs l n p hl h
    rw [walkLookup, hl.entries_eq] at h
    exact ⟨List.mem_of_find?_eq_some h, by simpa using List.find?_some h⟩
  absent := by
    intro fs l n hl h p hp
    rw [walkLookup, hl.entries_eq] at h
    simpa using List.find?_eq_none.mp h p hp

end ArmKernel.Fs

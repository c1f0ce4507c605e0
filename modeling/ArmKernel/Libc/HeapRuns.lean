/-
Runs of the allocator.

A program calls `malloc`, `free`, `realloc` and `calloc` in any order, with pointers it
was given and has not freed, and writes into the payloads it owns. `live` is the list of
these pointers.

* `HeapInOrder`: the list of blocks tiles the heap, and its non-free blocks are the live
  pointers.
* `effect_step`: a call changes the live blocks as `live` says, and no payload but its own.
* `heap_stays_tiled`: every state of every run is in order, `realloc` keeps the contents
  of what it moves, and every call comes back.
-/
import ArmKernel.Libc.Calls
import ArmKernel.Support.Run
import Mathlib.Logic.Function.Basic

namespace ArmKernel.Libc

open ArmKernel.Support

/-- The heap, the pointers the program owns, and what the last call returned. -/
structure AllocState where
  heap : Heap
  live : List Nat
  ret : Nat

/-- Calls and stores of the program; `sys` is what `sys_brk` does at the call. -/
inductive HeapCall where
  | malloc (size : Nat) (sys : SysBrk)
  | free (ptr : Nat)
  | realloc (ptr size : Nat) (sys : SysBrk)
  | calloc (nmemb size : Nat) (sys : SysBrk)
  | store (ptr i : Nat) (x : BitVec 8)

/-- The bytes the program owns at `ptr`. -/
def payloadSize (heap : Heap) (ptr : Nat) : Nat := sizeAt heap.mem (ownerOf ptr)

/-- What the program may do: release and write what it owns, with sizes that do not wrap. And
`sys_brk` grows the region, or fails, where it is called. -/
def Allowed (s : AllocState) : HeapCall → Prop
  | .malloc size sys => SmallSize size ∧ Grows sys s.heap size
  | .free ptr => ptr = 0 ∨ ptr ∈ s.live
  | .realloc ptr size sys =>
    (ptr = 0 ∨ ptr ∈ s.live) ∧ SmallSize size ∧
      (ptr = 0 ∨ payloadSize s.heap ptr < size → Grows sys s.heap size)
  | .calloc nmemb size sys =>
    nmemb * size < 2 ^ 32 ∧ SmallSize (nmemb * size) ∧ Grows sys s.heap (nmemb * size)
  | .store ptr i _ => ptr ∈ s.live ∧ i < payloadSize s.heap ptr

instance (s : AllocState) : (call : HeapCall) → Decidable (Allowed s call)
  | .malloc _ _ => inferInstanceAs (Decidable (_ ∧ _))
  | .free _ => inferInstanceAs (Decidable (_ ∨ _))
  | .realloc _ _ _ => inferInstanceAs (Decidable (_ ∧ _))
  | .calloc _ _ _ => inferInstanceAs (Decidable (_ ∧ _))
  | .store _ _ _ => inferInstanceAs (Decidable (_ ∧ _))

/-- The pointers owned after an allocation that returned `ptr`. -/
def granted (live : List Nat) (ptr : Nat) : List Nat := if ptr = 0 then live else ptr :: live

/-- The pointers owned when `ptr` is given up. -/
def without (live : List Nat) (ptr : Nat) : List Nat := live.filter (· ≠ ptr)

section Step

variable (header : Nat → Nat)

/-- What the call does to the state; `none` when it does not come back. -/
def perform (s : AllocState) : HeapCall → Option AllocState
  | .malloc size sys =>
    (malloc s.heap size sys).map fun r => ⟨r.1, granted s.live r.2, r.2⟩
  | .free ptr => some ⟨free header s.heap ptr, without s.live ptr, 0⟩
  | .realloc ptr size sys =>
    (realloc header s.heap ptr size sys).map fun r =>
      let kept := if r.2 = 0 ∧ size ≠ 0 then s.live else without s.live ptr
      ⟨r.1, granted kept r.2, r.2⟩
  | .calloc nmemb size sys =>
    (calloc s.heap nmemb size sys).map fun r => ⟨r.1, granted s.live r.2, r.2⟩
  | .store ptr i x =>
    some { s with heap := { s.heap with mem := Function.update s.heap.mem (ptr + i) x } }

def allocStep (s : AllocState) (call : HeapCall) : Option AllocState :=
  if Allowed s call then perform header s call else none

end Step

/-- No block yet; the break at `start`. -/
def AllocState.init (mem : Bytes) (start : Nat) : AllocState := ⟨⟨mem, 0, 0, start⟩, [], 0⟩

/-! ### The invariant -/

/-- The live pointers are the payloads of the live blocks. -/
def Owns (bs : List Block) (live : List Nat) : Prop :=
  ∀ ptr, ptr ∈ live ↔ ∃ c, IsLive bs c ∧ ptr = c.addr + dataOffset

/-- The blocks tile the heap and the non-free ones are the live pointers. -/
def HeapInOrder (start : Nat) (s : AllocState) : Prop :=
  ∃ bs, Tiled s.heap start bs ∧ Owns bs s.live

theorem ownerOf_data {b : Block} (h : b.addr < 2 ^ 32) : ownerOf (b.addr + dataOffset) = b.addr := by
  have hdo := dataOffset_eq
  unfold ownerOf sub32 wrap32
  omega

section Invariant

variable {s s' : AllocState} {start : Nat} {bs bs' : List Block} {b c : Block}

theorem Tiled.addr_lt {heap : Heap} (ht : Tiled heap start bs) (hb : b ∈ bs) : b.addr < 2 ^ 32 := by
  have := (ht.tiles.mem hb).2
  have hbs : b.stop = b.addr + blockSize + b.size := rfl
  have := ht.fits
  omega

theorem Tiled.sizeAt_eq {heap : Heap} (ht : Tiled heap start bs) (hb : b ∈ bs) :
    sizeAt heap.mem b.addr = b.size := by
  obtain ⟨l, r, rfl⟩ := List.append_of_mem hb
  exact ht.around.words.1

/-- The payload size of a live pointer is the size of its block. -/
theorem Tiled.payloadSize_eq {heap : Heap} (ht : Tiled heap start bs) (hb : b ∈ bs) :
    payloadSize heap (b.addr + dataOffset) = b.size := by
  rw [payloadSize, ownerOf_data (ht.addr_lt hb), ht.sizeAt_eq hb]

/-- How the live pointers follow an effect. -/
theorem Owns.effect {heap heap' : Heap} {live live' : List Nat} {gone new : Option Block}
    (ht : Tiled heap start bs) (ho : Owns bs live) (heff : Effect heap heap' start bs bs' gone new)
    (hgone : ∀ d, gone = some d → IsLive bs d)
    (hlive : ∀ ptr, ptr ∈ live' ↔
      (ptr ∈ live ∧ ∀ d, gone = some d → ptr ≠ d.addr + dataOffset) ∨
        ∃ d, new = some d ∧ ptr = d.addr + dataOffset) : Owns bs' live' := by
  intro ptr
  rw [hlive ptr, ho ptr]
  constructor
  · rintro (⟨⟨c, hc, rfl⟩, hne⟩ | ⟨d, hd, rfl⟩)
    · exact ⟨c, (heff.live c).mpr (Or.inl ⟨hc, fun h => hne c h rfl⟩), rfl⟩
    · exact ⟨d, (heff.live d).mpr (Or.inr hd), rfl⟩
  · rintro ⟨c, hc, rfl⟩
    rcases (heff.live c).mp hc with ⟨hc, hne⟩ | hnew
    · refine Or.inl ⟨⟨c, hc, rfl⟩, fun d hd heq => hne ?_⟩
      have hdc : d = c := ht.tiles.eq_of_addr (hgone d hd).1 hc.1 (by omega)
      exact hdc ▸ hd
    · exact Or.inr ⟨c, hnew, rfl⟩

/-- The null pointer is never live. -/
theorem Owns.null_notMem {live : List Nat} (ho : Owns bs live) : (0 : Nat) ∉ live := fun h0 => by
  have hdo := dataOffset_eq
  obtain ⟨c, -, hc⟩ := (ho 0).mp h0
  omega

end Invariant

/-! ### What a call leaves alone -/

/-- The call is about the pointer. -/
def HeapCall.Touches : HeapCall → Nat → Prop
  | .free ptr, q => q = ptr
  | .realloc ptr _ _, q => q = ptr
  | .store ptr _ _, q => q = ptr
  | _, _ => False

/-- Payloads the call is not about keep their place, their size and their bytes. -/
def KeepsPayloads (s : AllocState) (call : HeapCall) (s' : AllocState) : Prop :=
  ∀ q ∈ s.live, ¬ call.Touches q → q ∈ s'.live ∧
    payloadSize s'.heap q = payloadSize s.heap q ∧
    Agree s.heap.mem s'.heap.mem q (payloadSize s.heap q)

/-- `realloc` of a live pointer: what it returns has room for `size` bytes and starts with
the old contents, as far as both go; when it fails the old payload is still there. -/
def KeepsContents (s : AllocState) (ptr size : Nat) (s' : AllocState) : Prop :=
  (s'.ret ≠ 0 → size ≤ payloadSize s'.heap s'.ret ∧
    ∀ i, i < payloadSize s.heap ptr → i < payloadSize s'.heap s'.ret →
      s'.heap.mem (s'.ret + i) = s.heap.mem (ptr + i)) ∧
  (s'.ret = 0 → size ≠ 0 → ptr ∈ s'.live ∧ payloadSize s'.heap ptr = payloadSize s.heap ptr ∧
    Agree s.heap.mem s'.heap.mem ptr (payloadSize s.heap ptr))

section Calls

variable {s s' : AllocState} {start : Nat} {bs bs' : List Block} {call : HeapCall}

theorem mem_granted {live : List Nat} {ptr q : Nat} :
    q ∈ granted live ptr ↔ q ∈ live ∨ (ptr ≠ 0 ∧ q = ptr) := by
  unfold granted
  split
  · simp_all
  · rename_i h
    simp [h, or_comm]

theorem mem_without {live : List Nat} {ptr q : Nat} :
    q ∈ without live ptr ↔ q ∈ live ∧ q ≠ ptr := by simp [without]

theorem without_of_notMem {live : List Nat} {ptr : Nat} (h : ptr ∉ live) :
    without live ptr = live :=
  List.filter_eq_self.mpr fun q hq => by
    have hne : q ≠ ptr := fun e => h (e ▸ hq)
    simpa using hne

/-- **From effects to steps.** -/
theorem effect_step {gone new : Option Block} (ht : Tiled s.heap start bs) (ho : Owns bs s.live)
    (heff : Effect s.heap s'.heap start bs bs' gone new)
    (hgone : ∀ d, gone = some d → IsLive bs d ∧ call.Touches (d.addr + dataOffset))
    (hlive : ∀ ptr, ptr ∈ s'.live ↔
      (ptr ∈ s.live ∧ ∀ d, gone = some d → ptr ≠ d.addr + dataOffset) ∨
        ∃ d, new = some d ∧ ptr = d.addr + dataOffset) :
    HeapInOrder start s' ∧ KeepsPayloads s call s' := by
  refine ⟨⟨bs', heff.tiled, ho.effect ht heff (fun d hd => (hgone d hd).1) hlive⟩, ?_⟩
  intro q hq htouch
  obtain ⟨c, hc, rfl⟩ := (ho q).mp hq
  have hkept : gone ≠ some c := fun h => htouch (hgone c h).2
  have hc' : IsLive bs' c := (heff.live c).mpr (Or.inl ⟨hc, hkept⟩)
  rw [ht.payloadSize_eq hc.1, heff.tiled.payloadSize_eq hc'.1]
  refine ⟨(hlive _).mpr (Or.inl ⟨hq, fun d hd heq => htouch ?_⟩), rfl, heff.payloads c hc hkept⟩
  exact heq ▸ (hgone d hd).2

/-- A call that changes nothing. -/
theorem idle_step (h : HeapInOrder start s) (hheap : s'.heap = s.heap) (hlive : s'.live = s.live) :
    HeapInOrder start s' ∧ KeepsPayloads s call s' := by
  obtain ⟨bs, ht, ho⟩ := h
  refine ⟨⟨bs, hheap ▸ ht, hlive ▸ ho⟩, ?_⟩
  intro q hq _
  rw [hheap, hlive]
  exact ⟨hq, rfl, Agree.rfl⟩

/-- A call that adds the block `new` and returns it. -/
theorem grant_step {new : Block} {heap' : Heap} (ht : Tiled s.heap start bs) (ho : Owns bs s.live)
    (heff : Effect s.heap heap' start bs bs' none (some new)) :
    HeapInOrder start ⟨heap', granted s.live (new.addr + dataOffset), new.addr + dataOffset⟩ ∧
      KeepsPayloads s call
        ⟨heap', granted s.live (new.addr + dataOffset), new.addr + dataOffset⟩ := by
  have hdo := dataOffset_eq
  refine effect_step ht ho heff (fun d hd => by simp at hd) fun ptr => ?_
  rw [mem_granted]
  constructor
  · rintro (h | ⟨-, rfl⟩)
    · exact Or.inl ⟨h, fun d hd => by simp at hd⟩
    · exact Or.inr ⟨new, rfl, rfl⟩
  · rintro (⟨h, -⟩ | ⟨d, hd, rfl⟩)
    · exact Or.inl h
    · obtain rfl := Option.some.inj hd
      exact Or.inr ⟨by omega, rfl⟩

theorem malloc_step (h : HeapInOrder start s) {size : Nat} (hsmall : SmallSize size)
    {sys : SysBrk} (hgrows : Grows sys s.heap size) :
    ∃ s', perform ownerOf s (.malloc size sys) = some s' ∧
      HeapInOrder start s' ∧ KeepsPayloads s (.malloc size sys) s' := by
  obtain ⟨bs, ht, ho⟩ := h
  obtain ⟨heap', ptr, hcall, ⟨rfl, rfl⟩ | ⟨bs', new, -, rfl, -, halloc⟩⟩ :=
    malloc_spec ht hsmall hgrows
  · exact ⟨⟨s.heap, s.live, 0⟩, by rw [perform, hcall]; rfl, idle_step ⟨bs, ht, ho⟩ rfl rfl⟩
  · exact ⟨_, by rw [perform, hcall]; rfl, grant_step ht ho halloc.effect⟩

theorem calloc_step (h : HeapInOrder start s) {nmemb size : Nat} (hmul : nmemb * size < 2 ^ 32)
    (hsmall : SmallSize (nmemb * size)) {sys : SysBrk} (hgrows : Grows sys s.heap (nmemb * size)) :
    ∃ s', perform ownerOf s (.calloc nmemb size sys) = some s' ∧
      HeapInOrder start s' ∧ KeepsPayloads s (.calloc nmemb size sys) s' := by
  obtain ⟨bs, ht, ho⟩ := h
  obtain ⟨heap', ptr, hcall, ⟨rfl, rfl⟩ | ⟨bs', new, rfl, -, -, heff⟩⟩ :=
    calloc_effect ht hmul hsmall hgrows
  · exact ⟨⟨s.heap, s.live, 0⟩, by rw [perform, hcall]; rfl, idle_step ⟨bs, ht, ho⟩ rfl rfl⟩
  · exact ⟨_, by rw [perform, hcall]; rfl, grant_step ht ho heff⟩

/-- A call that frees the block `b` and returns 0. -/
theorem release_step (call : HeapCall) {b : Block} {heap' : Heap} (ht : Tiled s.heap start bs)
    (ho : Owns bs s.live)
    (hb : IsLive bs b) (heff : Effect s.heap heap' start bs bs' (some b) none)
    (htouch : call.Touches (b.addr + dataOffset)) :
    HeapInOrder start ⟨heap', without s.live (b.addr + dataOffset), 0⟩ ∧
      KeepsPayloads s call ⟨heap', without s.live (b.addr + dataOffset), 0⟩ := by
  refine effect_step ht ho heff ?_ ?_
  · intro d hd
    obtain rfl := Option.some.inj hd
    exact ⟨hb, htouch⟩
  · intro ptr
    show ptr ∈ without s.live (b.addr + dataOffset) ↔ _
    rw [mem_without]
    simp

theorem free_step (h : HeapInOrder start s) {ptr : Nat} (hptr : ptr = 0 ∨ ptr ∈ s.live) :
    ∃ s', perform ownerOf s (.free ptr) = some s' ∧
      HeapInOrder start s' ∧ KeepsPayloads s (.free ptr) s' := by
  obtain ⟨bs, ht, ho⟩ := h
  have hdo := dataOffset_eq
  refine ⟨_, rfl, ?_⟩
  rcases hptr with rfl | hptr
  · exact idle_step ⟨bs, ht, ho⟩ rfl (without_of_notMem ho.null_notMem)
  · obtain ⟨b, hb, rfl⟩ := (ho ptr).mp hptr
    obtain ⟨bs', -, heff⟩ := free_effect ht hb (ownerOf_data (ht.addr_lt hb.1))
    exact release_step (.free (b.addr + dataOffset)) ht ho hb heff rfl

theorem store_step (h : HeapInOrder start s) {ptr i : Nat} (x : BitVec 8) (hptr : ptr ∈ s.live)
    (hi : i < payloadSize s.heap ptr) :
    ∃ s', perform ownerOf s (.store ptr i x) = some s' ∧
      HeapInOrder start s' ∧ KeepsPayloads s (.store ptr i x) s' := by
  obtain ⟨bs, ht, ho⟩ := h
  obtain ⟨b, hb, rfl⟩ := (ho ptr).mp hptr
  rw [ht.payloadSize_eq hb.1] at hi
  obtain ⟨htiled, hkeep⟩ := ht.write_payload hb
    (Function.update s.heap.mem (b.addr + dataOffset + i) x) fun a k hout y hlo hhi =>
      Function.update_of_ne (by omega) _ _
  refine ⟨_, rfl, ⟨bs, htiled, ho⟩, ?_⟩
  intro q hq htouch
  obtain ⟨c, hc, rfl⟩ := (ho q).mp hq
  have hcb : c ≠ b := fun e => htouch (e ▸ rfl)
  rw [ht.payloadSize_eq hc.1]
  exact ⟨hq, htiled.payloadSize_eq hc.1, hkeep c hc hcb⟩

theorem realloc_step (h : HeapInOrder start s) {ptr size : Nat} (hptr : ptr = 0 ∨ ptr ∈ s.live)
    (hsmall : SmallSize size) {sys : SysBrk}
    (hgrows : ptr = 0 ∨ payloadSize s.heap ptr < size → Grows sys s.heap size) :
    ∃ s', perform ownerOf s (.realloc ptr size sys) = some s' ∧
      HeapInOrder start s' ∧ KeepsPayloads s (.realloc ptr size sys) s' ∧
      (ptr ∈ s.live → KeepsContents s ptr size s') := by
  obtain ⟨bs, ht, ho⟩ := h
  have hdo := dataOffset_eq
  rcases hptr with rfl | hptr
  · -- `realloc(NULL, size)` is `malloc(size)`.
    obtain ⟨s', hmalloc, hinv, hkeep⟩ := malloc_step ⟨bs, ht, ho⟩ hsmall (hgrows (.inl rfl))
    refine ⟨s', ?_, hinv, fun q hq _ => hkeep q hq (by simp [HeapCall.Touches]),
      fun h0 => absurd h0 ho.null_notMem⟩
    rw [← hmalloc]
    simp only [perform, realloc, if_true, without_of_notMem ho.null_notMem, ite_self]
  · obtain ⟨b, hb, rfl⟩ := (ho ptr).mp hptr
    have hsize := ht.payloadSize_eq hb.1
    obtain ⟨heap', ret, hcall, hcases⟩ :=
      realloc_effect ht hb hsmall (ownerOf_data (ht.addr_lt hb.1)) fun hlt =>
        hgrows (.inr (by rwa [hsize]))
    rcases hcases with ⟨rfl, rfl, bs', -, heff⟩ | ⟨hn, rfl, -, rfl⟩ |
      ⟨hn, bs', new, rfl, hroom, -, heff, hcopied⟩
    · -- `realloc(ptr, 0)` is `free(ptr)`.
      obtain ⟨hinv, hkeep⟩ := release_step (.realloc (b.addr + dataOffset) 0 sys) ht ho hb heff rfl
      refine ⟨_, ?_, hinv, hkeep, fun _ => ⟨fun h => absurd rfl h, fun _ h => absurd rfl h⟩⟩
      rw [perform, hcall]
      rfl
    · -- There was no memory.
      obtain ⟨hinv, hkeep⟩ : HeapInOrder start ⟨s.heap, s.live, 0⟩ ∧
          KeepsPayloads s (.realloc (b.addr + dataOffset) size sys) ⟨s.heap, s.live, 0⟩ :=
        idle_step ⟨bs, ht, ho⟩ rfl rfl
      refine ⟨_, ?_, hinv, hkeep, fun _ => ⟨fun h => absurd rfl h, fun _ _ => ⟨hptr, rfl, Agree.rfl⟩⟩⟩
      rw [perform, hcall, Option.map_some, if_pos ⟨rfl, hn⟩]
      rfl
    · let s' : AllocState :=
        ⟨heap', granted (without s.live (b.addr + dataOffset)) (new.addr + dataOffset),
          new.addr + dataOffset⟩
      obtain ⟨hinv, hkeep⟩ : HeapInOrder start s' ∧
          KeepsPayloads s (.realloc (b.addr + dataOffset) size sys) s' :=
        effect_step ht ho heff
          (fun d hd => by
            obtain rfl := Option.some.inj hd
            exact ⟨hb, rfl⟩)
          (fun q => by
            rw [mem_granted, mem_without]
            simp only [Option.some.injEq, forall_eq', exists_eq_left', ne_eq]
            exact or_congr_right ⟨fun h => h.2, fun h => ⟨by omega, h⟩⟩)
      refine ⟨_, ?_, hinv, hkeep, fun _ => ⟨?_, ?_⟩⟩
      · rw [perform, hcall, Option.map_some, if_neg (by simp only; omega)]
      · intro _
        have hnew : IsLive bs' new := (heff.live new).mpr (Or.inr rfl)
        simp only [hsize, s', heff.tiled.payloadSize_eq hnew.1]
        exact ⟨hroom, hcopied⟩
      · intro h
        have : new.addr + dataOffset = 0 := h
        omega

end Calls

/-! ### Runs -/

/-- What is claimed of a state: the list of blocks tiles the heap, its non-free blocks are
the live pointers, whose payloads do not overlap; and what is claimed of the next call. -/
structure HeapSound (start : Nat) (s : AllocState) : Prop where
  inOrder : HeapInOrder start s
  disjoint : ∀ p ∈ s.live, ∀ q ∈ s.live, p ≠ q →
    p + payloadSize s.heap p ≤ q ∨ q + payloadSize s.heap q ≤ p
  completes : ∀ call, Allowed s call → (allocStep ownerOf s call).isSome
  keepsPayloads : ∀ call s', allocStep ownerOf s call = some s' → KeepsPayloads s call s'
  keepsContents : ∀ ptr size sys s', ptr ∈ s.live →
    allocStep ownerOf s (.realloc ptr size sys) = some s' → KeepsContents s ptr size s'

section Runs

variable {s s' : AllocState} {start : Nat} {call : HeapCall}

/-- **The step.** Every allowed call comes back, in order. -/
theorem heap_step (h : HeapInOrder start s) (hallowed : Allowed s call) :
    ∃ s', allocStep ownerOf s call = some s' ∧ HeapInOrder start s' ∧ KeepsPayloads s call s' := by
  rw [allocStep, if_pos hallowed]
  cases call with
  | malloc size sys => exact malloc_step h hallowed.1 hallowed.2
  | free ptr => exact free_step h hallowed
  | realloc ptr size sys =>
    obtain ⟨s', hstep, hinv, hkeep, -⟩ := realloc_step h hallowed.1 hallowed.2.1 hallowed.2.2
    exact ⟨s', hstep, hinv, hkeep⟩
  | calloc nmemb size sys => exact calloc_step h hallowed.1 hallowed.2.1 hallowed.2.2
  | store ptr i x => exact store_step h x hallowed.1 hallowed.2

theorem allowed_of_step {header : Nat → Nat} (h : allocStep header s call = some s') :
    Allowed s call := by
  unfold allocStep at h
  split at h
  · assumption
  · simp at h

theorem heapSound_of_inOrder (h : HeapInOrder start s) : HeapSound start s where
  inOrder := h
  disjoint := by
    obtain ⟨bs, ht, ho⟩ := h
    intro p hp q hq hne
    obtain ⟨b, hb, rfl⟩ := (ho p).mp hp
    obtain ⟨c, hc, rfl⟩ := (ho q).mp hq
    have hbs : b.stop = b.addr + blockSize + b.size := rfl
    have hcs : c.stop = c.addr + blockSize + c.size := rfl
    have hb20 := blockSize_eq
    have hdo := dataOffset_eq
    rw [ht.payloadSize_eq hb.1, ht.payloadSize_eq hc.1]
    rcases ht.tiles.apart hb.1 hc.1 with rfl | hle | hle
    · exact absurd rfl hne
    · omega
    · omega
  completes call hallowed := by
    obtain ⟨s', hstep, -⟩ := heap_step h hallowed
    rw [hstep]
    rfl
  keepsPayloads call s' hstep := by
    obtain ⟨t, ht, -, hkeep⟩ := heap_step h (allowed_of_step hstep)
    rw [hstep] at ht
    exact Option.some.inj ht ▸ hkeep
  keepsContents ptr size sys s' hptr hstep := by
    have hallowed := allowed_of_step hstep
    obtain ⟨t, ht, -, -, hkeep⟩ := realloc_step h hallowed.1 hallowed.2.1 hallowed.2.2
    rw [allocStep, if_pos hallowed, ht] at hstep
    exact Option.some.inj hstep ▸ hkeep hptr

/-- **The heap stays tiled**: every state of every run from an empty heap is sound. -/
theorem heap_stays_tiled (mem : Bytes) (hstart : 0 < start) (hfits : start < 2 ^ 32)
    (calls : List HeapCall) :
    Along (allocStep ownerOf) (HeapSound start) (AllocState.init mem start) calls := by
  have hinit : HeapInOrder start (AllocState.init mem start) :=
    ⟨[], ⟨trivial, rfl, rfl, rfl, hstart, hfits⟩, fun ptr => by simp [AllocState.init]⟩
  refine (along_of_preserved ?_ hinit calls).mono
    fun s hs => heapSound_of_inOrder hs
  intro s call s' hs hstep
  obtain ⟨t, ht, hinv, -⟩ := heap_step hs (allowed_of_step hstep)
  rw [hstep] at ht
  exact Option.some.inj ht ▸ hinv

/-- The theorem for one run: two blocks, one freed, one moved. -/
theorem heap_stays_tiled_run :
    Along (allocStep ownerOf) (HeapSound 4096) (AllocState.init (fun _ => 0) 4096)
      [.malloc 8 growing, .malloc 40 growing, .free 4112, .realloc 4140 80 growing] :=
  heap_stays_tiled (fun _ => 0) (by decide) (by decide) _

end Runs

end ArmKernel.Libc

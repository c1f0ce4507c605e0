/-
How large the block cache grows, and which block leaves it (`src/fs_core.c`: `read_block`,
`write_block`).

`CacheRun` is the cache with the time at which each entry came in. `evictions` lists the states
in which the passes of the eviction loop of a call begin, and `victim` the entry that a pass
takes. A new entry is the last one of the list, and the last one is the victim, so the first
pass takes the entry that just came in; `write_block` has no eviction. `cache_order_iff` says
that a run keeps the bound and the order exactly when no call finds the cache full.
-/
import ArmKernel.Fs.Coherence

namespace ArmKernel.Fs

open ArmKernel.Support FsState

variable {M Dev D : Type*}

/-- The file system, the number of calls so far, and the call in which each entry came in. -/
structure CacheRun (M Dev D : Type*) where
  fs : FsState M Dev D
  clock : Nat
  insertedAt : Nat → Nat

/-- `fs_init`. -/
def CacheRun.start (mem : Nat → CacheBlock M D) (devices : M → Dev) : CacheRun M Dev D where
  fs := fsInit mem devices
  clock := 0
  insertedAt := fun _ => 0

/-- The entry that a pass of the eviction loop takes. -/
def victim (fs : FsState M Dev D) : Option Nat := fs.cacheHead.map fun head => (fs.mem head).prev

section System

variable [DecidableEq M] (ops : DeviceOps Dev D)
  (cacheGetBlock : FsState M Dev D → Nat → Option Nat)

/-- The call adds an entry: it misses, and `read_block` gets the block from its device. -/
def Inserts (fs : FsState M Dev D) (call : BlockCall M D) : Prop :=
  cacheGetBlock fs call.blockNo = none ∧
    match call with
    | .read mp n _ => (ops.deviceRead (fs.devices mp) (wrap32 (n * blockSize))).isSome
    | .write .. => True

instance (fs : FsState M Dev D) :
    (call : BlockCall M D) → Decidable (Inserts ops cacheGetBlock fs call)
  | .read .. => inferInstanceAs (Decidable (_ ∧ _))
  | .write .. => inferInstanceAs (Decidable (_ ∧ True))

/-- The times after a call. -/
def stamp (s : CacheRun M Dev D) (call : BlockCall M D) : Nat → Nat :=
  if Inserts ops cacheGetBlock s.fs call then Function.update s.insertedAt call.cache s.clock
  else s.insertedAt

/-- One call. -/
def cacheStep (s : CacheRun M Dev D) (call : BlockCall M D) : Option (CacheRun M Dev D) :=
  if Served cacheGetBlock s.fs call then
    match call with
    | .read mp n cache =>
      (readBlock ops cacheGetBlock s.fs mp n cache).map fun r =>
        { fs := r.1, clock := s.clock + 1, insertedAt := stamp ops cacheGetBlock s call }
    | .write mp n x cache =>
      some { fs := writeBlock cacheGetBlock s.fs mp n x cache
             clock := s.clock + 1
             insertedAt := stamp ops cacheGetBlock s call }
  else none

/-- The states in which the passes of `evictLoop` begin. -/
def evictPasses : Nat → FsState M Dev D → M → List (FsState M Dev D)
  | 0, _, _ => []
  | fuel + 1, fs, mp =>
    if maxCacheBlocks < fs.cacheSize then
      match evictOldest ops fs mp with
      | none => [fs]
      | some fs' => fs :: evictPasses fuel fs' mp
    else []

/-- The states in which the passes of a call begin. -/
def evictions (fs : FsState M Dev D) : BlockCall M D → List (FsState M Dev D)
  | .read mp n cache =>
    match cacheGetBlock fs n, ops.deviceRead (fs.devices mp) (wrap32 (n * blockSize)) with
    | none, some buffer =>
      let fs := insertCache fs cache mp n buffer false
      evictPasses ops fs.cacheSize fs mp
    | _, _ => []
  | .write .. => []

/-- After the call at most `MAX_CACHE_BLOCKS` blocks are cached, and each block it evicts is
the one that has been in the cache longest. -/
def BoundedInOrder (s : CacheRun M Dev D) (call : BlockCall M D) : Prop :=
  ∀ s', cacheStep ops cacheGetBlock s call = some s' →
    s'.fs.entries.length ≤ maxCacheBlocks ∧
      ∀ fs ∈ evictions ops cacheGetBlock s.fs call, ∃ o ∈ victim fs, o ∈ fs.entries ∧
        ∀ p ∈ fs.entries, s'.insertedAt o ≤ s'.insertedAt p

/-- A call that adds an entry finds room for it. -/
def FindsRoom (s : CacheRun M Dev D) (call : BlockCall M D) : Prop :=
  Inserts ops cacheGetBlock s.fs call → s.fs.cacheSize < maxCacheBlocks

end System

/-! ### One call -/

/-- The invariant of the runs: the entries are at most `MAX_CACHE_BLOCKS`, and came in by now. -/
structure WithinBound (s : CacheRun M Dev D) (l : List Nat) : Prop where
  list : CacheList s.fs l
  bound : l.length ≤ maxCacheBlocks
  past : ∀ p ∈ l, s.insertedAt p < s.clock

section Steps

variable {fs : FsState M Dev D} {l : List Nat} {mp : M} {n c o : Nat} {x : D} {dirty : Bool}

/-- Overwriting the block of an entry. -/
theorem CacheList.overwrite (hl : CacheList fs l) (p : Nat) (x : D) :
    CacheList { fs with mem := modify fs.mem p fun b => { b with data := x, dirty := true } } l :=
  hl.congr rfl rfl rfl (modify_view_of_eq CacheBlock.next rfl)
    (modify_view_of_eq CacheBlock.prev rfl)

/-- The last entry of the list is the victim. -/
theorem victim_eq (hl : CacheList fs (l ++ [o])) : victim fs = some o := by
  cases l with
  | nil =>
    have hring := hl.ring o [] rfl
    have hprev : prevAt fs.mem o = o := (hring.prev_head (l := []) rfl).1
    have hhead : fs.cacheHead = some o := hl.head
    unfold victim
    rw [hhead]
    exact congrArg some hprev
  | cons h rest =>
    have hring := hl.ring h (rest ++ [o]) rfl
    have hprev : prevAt fs.mem h = o := (hring.prev_head (l := h :: rest) rfl).1
    have hhead : fs.cacheHead = some h := hl.head
    unfold victim
    rw [hhead]
    exact congrArg some hprev

variable [DecidableEq M] {ops : DeviceOps Dev D}

theorem evictLoop_small (h : fs.cacheSize ≤ maxCacheBlocks) (fuel : Nat) (mp : M) :
    evictLoop ops fuel fs mp = some fs ∧ evictPasses ops fuel fs mp = [] := by
  have hnot : ¬ maxCacheBlocks < fs.cacheSize := Nat.not_lt.mpr h
  cases fuel with
  | zero => exact ⟨if_neg hnot, rfl⟩
  | succ fuel => exact ⟨if_neg hnot, if_neg hnot⟩

/-- The first pass begins with the state the loop is entered in. -/
theorem evictPasses_full (h : maxCacheBlocks < fs.cacheSize) (mp : M) :
    fs ∈ evictPasses ops fs.cacheSize fs mp := by
  obtain ⟨fuel, hfuel⟩ := Nat.exists_eq_succ_of_ne_zero (Nat.ne_of_gt (Nat.zero_lt_of_lt h))
  rw [hfuel]
  unfold evictPasses
  rw [if_pos h]
  cases evictOldest ops fs mp with
  | none => exact List.mem_singleton.mpr rfl
  | some fs' => exact List.mem_cons_self

variable {cacheGetBlock : FsState M Dev D → Nat → Option Nat} {s s' : CacheRun M Dev D}
  {call : BlockCall M D}

theorem evictions_read {mp : M} {n cache : Nat} {buffer : D}
    (hget : cacheGetBlock fs n = none)
    (hdev : ops.deviceRead (fs.devices mp) (wrap32 (n * blockSize)) = some buffer) :
    evictions ops cacheGetBlock fs (.read mp n cache) =
      evictPasses ops (insertCache fs cache mp n buffer false).cacheSize
        (insertCache fs cache mp n buffer false) mp := by
  simp only [evictions, hget, hdev]

/-- A call that adds no entry evicts nothing. -/
theorem evictions_quiet (hquiet : ¬ Inserts ops cacheGetBlock fs call) :
    evictions ops cacheGetBlock fs call = [] := by
  cases call with
  | write mp n x cache => rfl
  | read mp n cache =>
    cases hget : cacheGetBlock fs n with
    | some p => simp only [evictions, hget]
    | none =>
      cases hdev : ops.deviceRead (fs.devices mp) (wrap32 (n * blockSize)) with
      | none => simp only [evictions, hget, hdev]
      | some buffer => exact absurd ⟨hget, Option.isSome_iff_exists.mpr ⟨buffer, hdev⟩⟩ hquiet

/-- A call that adds no entry leaves the list and the times alone. -/
theorem cacheStep_quiet (hl : CacheList s.fs l)
    (hquiet : ¬ Inserts ops cacheGetBlock s.fs call)
    (hstep : cacheStep ops cacheGetBlock s call = some s') :
    CacheList s'.fs l ∧ s'.clock = s.clock + 1 ∧ s'.insertedAt = s.insertedAt := by
  have hstamp : stamp ops cacheGetBlock s call = s.insertedAt := if_neg hquiet
  unfold cacheStep at hstep
  split at hstep
  · cases call with
    | read mp n cache =>
      obtain ⟨r, hread, rfl⟩ := Option.map_eq_some_iff.mp hstep
      unfold readBlock at hread
      cases hget : cacheGetBlock s.fs n with
      | some p =>
        rw [hget] at hread
        cases hread
        exact ⟨hl, rfl, hstamp⟩
      | none =>
        cases hdev : ops.deviceRead (s.fs.devices mp) (wrap32 (n * blockSize)) with
        | none =>
          rw [hget, hdev] at hread
          cases hread
          exact ⟨hl, rfl, hstamp⟩
        | some buffer => exact absurd ⟨hget, Option.isSome_iff_exists.mpr ⟨buffer, hdev⟩⟩ hquiet
    | write mp n x cache =>
      cases hstep
      unfold writeBlock
      cases hget : cacheGetBlock s.fs n with
      | some p => exact ⟨hl.overwrite p x, rfl, hstamp⟩
      | none => exact absurd ⟨hget, trivial⟩ hquiet
  · cases hstep

/-- The cache of a call that adds an entry, before the eviction loop. -/
theorem cacheStep_inserts (hl : CacheList s.fs l)
    (hinserts : Inserts ops cacheGetBlock s.fs call)
    (hstep : cacheStep ops cacheGetBlock s call = some s') :
    ∃ fs, CacheList fs (l ++ [call.cache]) ∧ call.cache ∉ l ∧ s'.clock = s.clock + 1 ∧
      s'.insertedAt = Function.update s.insertedAt call.cache s.clock ∧
      (s'.fs = fs ∧ evictions ops cacheGetBlock s.fs call = [] ∨
        ∃ mp, evictLoop ops fs.cacheSize fs mp = some s'.fs ∧
          evictions ops cacheGetBlock s.fs call = evictPasses ops fs.cacheSize fs mp) := by
  have hstamp : stamp ops cacheGetBlock s call =
      Function.update s.insertedAt call.cache s.clock := if_pos hinserts
  unfold cacheStep at hstep
  split at hstep
  · rename_i hserved
    obtain ⟨haddr, hfresh⟩ := hserved.of_miss hinserts.1
    have hc : call.cache ∉ l := fun h => hfresh (hl.owned _ h)
    cases call with
    | read mp n cache =>
      obtain ⟨r, hread, rfl⟩ := Option.map_eq_some_iff.mp hstep
      obtain ⟨hmiss, hdev⟩ := hinserts
      have hget : cacheGetBlock s.fs n = none := hmiss
      obtain ⟨buffer, hbuffer⟩ := Option.isSome_iff_exists.mp hdev
      unfold readBlock at hread
      rw [hget, hbuffer] at hread
      obtain ⟨fs', hloop, rfl⟩ := Option.map_eq_some_iff.mp hread
      exact ⟨_, insertCache_list hl haddr hfresh, hc, rfl, hstamp,
        .inr ⟨mp, hloop, evictions_read hget hbuffer⟩⟩
    | write mp n x cache =>
      cases hstep
      have hget : cacheGetBlock s.fs n = none := hinserts.1
      refine ⟨insertCache s.fs cache mp n x true, insertCache_list hl haddr hfresh, hc, rfl,
        hstamp, .inl ⟨?_, rfl⟩⟩
      simp only [writeBlock, hget]
  · cases hstep

/-- Where there is room, an entry is added and none is evicted. -/
theorem cacheStep_room (h : WithinBound s l) (hroom : FindsRoom ops cacheGetBlock s call)
    (hstep : cacheStep ops cacheGetBlock s call = some s') :
    (∃ l', WithinBound s' l') ∧ evictions ops cacheGetBlock s.fs call = [] := by
  by_cases hinserts : Inserts ops cacheGetBlock s.fs call
  · obtain ⟨fs, hl', hc, hclock, htimes, hends⟩ := cacheStep_inserts h.list hinserts hstep
    have hlen : (l ++ [call.cache]).length ≤ maxCacheBlocks := by
      have hsize := hroom hinserts
      rw [h.list.size] at hsize
      rw [List.length_append]
      exact hsize
    have hsmall : fs.cacheSize ≤ maxCacheBlocks := hl'.size.trans_le hlen
    have hpast : ∀ p ∈ l ++ [call.cache], s'.insertedAt p < s'.clock := by
      intro p hp
      rw [hclock, htimes]
      rcases List.mem_append.mp hp with hold | hnew
      · rw [Function.update_of_ne fun e : p = call.cache => hc (e ▸ hold)]
        exact Nat.lt_succ_of_lt (h.past p hold)
      · rw [List.mem_singleton.mp hnew, Function.update_self]
        exact Nat.lt_succ_self _
    rcases hends with ⟨hfs, hnone⟩ | ⟨mp, hloop, hpasses⟩
    · exact ⟨⟨_, hfs ▸ hl', hlen, hpast⟩, hnone⟩
    · obtain ⟨hsame, hnone⟩ := @evictLoop_small _ _ _ _ _ ops hsmall fs.cacheSize mp
      rw [hloop] at hsame
      cases hsame
      exact ⟨⟨_, hl', hlen, hpast⟩, hpasses.trans hnone⟩
  · obtain ⟨hl', hclock, htimes⟩ := cacheStep_quiet h.list hinserts hstep
    refine ⟨⟨l, hl', h.bound, ?_⟩, evictions_quiet hinserts⟩
    intro p hp
    rw [hclock, htimes]
    exact Nat.lt_succ_of_lt (h.past p hp)

/-- In a full cache a write goes over the bound, and a read evicts the newest entry. -/
theorem not_boundedInOrder (h : WithinBound s l) (hinserts : Inserts ops cacheGetBlock s.fs call)
    (hfull : maxCacheBlocks ≤ s.fs.cacheSize)
    (hstep : cacheStep ops cacheGetBlock s call = some s') :
    ¬ BoundedInOrder ops cacheGetBlock s call := by
  intro hbounded
  obtain ⟨hsize, horder⟩ := hbounded s' hstep
  obtain ⟨fs, hl', hc, hclock, htimes, hends⟩ := cacheStep_inserts h.list hinserts hstep
  have hlen : maxCacheBlocks < (l ++ [call.cache]).length := by
    rw [h.list.size] at hfull
    simpa using Nat.lt_succ_of_le hfull
  rcases hends with ⟨rfl, -⟩ | ⟨mp, -, hpasses⟩
  · rw [hl'.entries_eq] at hsize
    exact absurd hsize (Nat.not_le.mpr hlen)
  · have hlarge : maxCacheBlocks < fs.cacheSize := hl'.size ▸ hlen
    obtain ⟨o, hvictim, -, holdest⟩ := horder fs (hpasses ▸ evictPasses_full hlarge mp)
    rw [victim_eq hl'] at hvictim
    cases hvictim
    -- Some entry was there before.
    obtain ⟨p, hp⟩ : ∃ p, p ∈ l := by
      apply List.exists_mem_of_length_pos
      rw [← h.list.size]
      exact Nat.lt_of_lt_of_le (by decide) hfull
    have hage := holdest p (hl'.entries_eq ▸ List.mem_append_left _ hp)
    rw [htimes, Function.update_self,
      Function.update_of_ne fun e : p = call.cache => hc (e ▸ hp)] at hage
    exact absurd (h.past p hp) (Nat.not_lt.mpr hage)

/-- **Exact condition of a call.** -/
theorem boundedInOrder_iff (h : WithinBound s l) :
    BoundedInOrder ops cacheGetBlock s call ↔
      ∀ s', cacheStep ops cacheGetBlock s call = some s' → FindsRoom ops cacheGetBlock s call := by
  constructor
  · intro hbounded s' hstep hinserts
    by_contra hfull
    exact not_boundedInOrder h hinserts (Nat.not_lt.mp hfull) hstep hbounded
  · intro hroom s' hstep
    obtain ⟨⟨l', h'⟩, hnone⟩ := cacheStep_room h (hroom s' hstep) hstep
    rw [hnone, h'.list.entries_eq]
    exact ⟨h'.bound, fun fs hfs => absurd hfs List.not_mem_nil⟩

end Steps

/-! ### Runs -/

section Runs

variable [DecidableEq M]

/-- **Bound and order of the cache.** In a run from the empty cache both hold after every call
exactly when every call that adds an entry finds room for it. -/
theorem cache_order_iff (ops : DeviceOps Dev D)
    (cacheGetBlock : FsState M Dev D → Nat → Option Nat) (mem : Nat → CacheBlock M D)
    (devices : M → Dev) (calls : List (BlockCall M D)) :
    Each (cacheStep ops cacheGetBlock) (BoundedInOrder ops cacheGetBlock)
        (CacheRun.start mem devices) calls ↔
      Meets (cacheStep ops cacheGetBlock) (FindsRoom ops cacheGetBlock)
        (CacheRun.start mem devices) calls :=
  each_iff_meets (I := fun s => ∃ l, WithinBound s l)
    (fun _ _ _ ⟨_, h⟩ hroom hstep => (cacheStep_room h hroom hstep).1)
    (fun _ _ ⟨_, h⟩ => boundedInOrder_iff h)
    ⟨[], cacheList_fsInit mem devices, Nat.zero_le _, fun _ hp => absurd hp List.not_mem_nil⟩ calls

end Runs

/-! ### A run that fills the cache -/

section Filling

variable {D : Type}

/-- Writes to the first `k` blocks of one mount, with the addresses from 1 on. -/
def fillCalls (x : D) (k : Nat) : List (BlockCall Unit D) :=
  (List.range k).map fun i => .write () i x (i + 1)

/-- The cache after `k` of these writes. -/
structure HoldsFirst (s : CacheRun Unit (Nat → D) D) (k : Nat) : Prop where
  list : CacheList s.fs ((List.range k).map (· + 1))
  numbers : ∀ p, 1 ≤ p → p ≤ k → (lineAt s.fs.mem p).blockNo + 1 = p
  allocated : ∀ p ∈ s.fs.allocated, p ≤ k
  past : ∀ p, 1 ≤ p → p ≤ k → s.insertedAt p < s.clock

/-- The next block is not cached. -/
theorem HoldsFirst.miss {s : CacheRun Unit (Nat → D) D} {k : Nat} (h : HoldsFirst s k) :
    walkLookup s.fs k = none := by
  rw [walkLookup, h.list.entries_eq, List.find?_eq_none]
  intro p hp
  obtain ⟨i, hi, rfl⟩ := List.mem_map.mp hp
  have hik := List.mem_range.mp hi
  have hnumber : (s.fs.mem (i + 1)).blockNo + 1 = i + 1 := h.numbers (i + 1) (by omega) (by omega)
  simp only [beq_iff_eq]
  omega

theorem HoldsFirst.served {s : CacheRun Unit (Nat → D) D} {k : Nat} (h : HoldsFirst s k)
    (hk : k + 1 < 2 ^ 32) {call : BlockCall Unit D} (hcache : call.cache = k + 1) :
    Served walkLookup s.fs call := by
  rw [Served, hcache]
  exact .inr ⟨⟨Nat.succ_pos k, hk⟩, fun hold => absurd (h.allocated _ hold) (Nat.not_succ_le_self k)⟩

/-- **Writes never evict**: each leaves one entry more. -/
theorem fillCalls_run (x : D) (k : Nat) (hk : k < 2 ^ 32) :
    ∃ s, run (cacheStep arrayOps walkLookup)
        (CacheRun.start (blankMem () x) fun _ _ => x) (fillCalls x k) = some s ∧
      HoldsFirst s k := by
  induction k with
  | zero =>
    exact ⟨_, rfl, cacheList_fsInit _ _, fun p hp hp' => absurd (hp.trans hp') (by decide),
      fun p hp => absurd hp List.not_mem_nil,
      fun p hp hp' => absurd (hp.trans hp') (by decide)⟩
  | succ k ih =>
    obtain ⟨s, hrun, h⟩ := ih (Nat.lt_of_succ_lt hk)
    have hserved : Served walkLookup s.fs (.write () k x (k + 1)) := h.served hk rfl
    have hfs : writeBlock walkLookup s.fs () k x (k + 1) = insertCache s.fs (k + 1) () k x true := by
      simp only [writeBlock, h.miss]
    have hcalls : fillCalls x (k + 1) = fillCalls x k ++ [.write () k x (k + 1)] := by
      rw [fillCalls, List.range_succ, List.map_append]
      rfl
    refine ⟨_, hcalls ▸ run_append.mpr ⟨s, hrun, by
      rw [run_cons_eq_some]
      exact ⟨_, if_pos hserved, rfl⟩⟩, ?_, fun p hp hp' => ?_, fun p hp => ?_, fun p hp hp' => ?_⟩
    · have hlist := @insertCache_list _ _ _ _ () k _ x true _ h.list
        ⟨Nat.succ_pos k, hk⟩ fun hold => absurd (h.allocated _ hold) (Nat.not_succ_le_self k)
      rw [List.range_succ, List.map_append]
      exact hfs ▸ hlist
    · have hline : lineAt (writeBlock walkLookup s.fs () k x (k + 1)).mem =
          Function.update (lineAt s.fs.mem) (k + 1) ⟨(), k, x, true⟩ := by
        rw [hfs, insertCache_line]
      show (lineAt (writeBlock walkLookup s.fs () k x (k + 1)).mem p).blockNo + 1 = p
      rw [hline]
      rcases Nat.lt_or_eq_of_le hp' with hlt | rfl
      · rw [Function.update_of_ne (Nat.ne_of_lt hlt)]
        exact h.numbers p hp (Nat.le_of_lt_succ hlt)
      · rw [Function.update_self]
    · have halloc : (writeBlock walkLookup s.fs () k x (k + 1)).allocated =
          (k + 1) :: s.fs.allocated := by
        rw [hfs]
        rfl
      have hp' : p ∈ (k + 1) :: s.fs.allocated := halloc ▸ hp
      rcases List.mem_cons.mp hp' with rfl | hold
      · exact Nat.le_refl _
      · exact Nat.le_succ_of_le (h.allocated p hold)
    · have hstamp : stamp arrayOps walkLookup s (.write () k x (k + 1)) =
          Function.update s.insertedAt (k + 1) s.clock := if_pos ⟨h.miss, trivial⟩
      show stamp arrayOps walkLookup s (.write () k x (k + 1)) p < s.clock + 1
      rw [hstamp]
      rcases Nat.lt_or_eq_of_le hp' with hlt | rfl
      · rw [Function.update_of_ne (Nat.ne_of_lt hlt)]
        exact Nat.lt_succ_of_lt (h.past p hp (Nat.le_of_lt_succ hlt))
      · rw [Function.update_self]
        exact Nat.lt_succ_self _

/-- A read of the next block returns. -/
theorem HoldsFirst.read_returns {s : CacheRun Unit (Nat → D) D} {k : Nat} (h : HoldsFirst s k)
    (hk : k + 1 < 2 ^ 32) : ∃ s', cacheStep arrayOps walkLookup s (.read () k (k + 1)) = some s' := by
  have hserved : Served walkLookup s.fs (.read () k (k + 1)) := h.served hk rfl
  obtain ⟨haddr, hfresh⟩ := hserved.of_miss h.miss
  obtain ⟨x, hx⟩ : ∃ x, arrayOps.deviceRead (s.fs.devices ()) (wrap32 (k * blockSize)) = some x :=
    ⟨_, rfl⟩
  have hlist : CacheList (insertCache s.fs (k + 1) () k x false) _ :=
    insertCache_list h.list haddr hfresh
  obtain ⟨fs', hloop, -⟩ := evictLoop_rule arrayOps () (I := fun _ _ => True)
    (fun _ _ _ _ _ _ _ _ _ _ _ => trivial) _ hlist trivial hlist.size.ge
  refine ⟨_, (if_pos hserved).trans (Option.map_eq_some_iff.mpr ⟨(fs', some x), ?_, rfl⟩)⟩
  unfold readBlock
  rw [h.miss, hx]
  exact Option.map_eq_some_iff.mpr ⟨fs', hloop, rfl⟩

/-- The call that adds the entry after the last one that has room. -/
theorem HoldsFirst.not_bounded {s s' : CacheRun Unit (Nat → D) D} {k : Nat} (h : HoldsFirst s k)
    (hk : k = maxCacheBlocks) {call : BlockCall Unit D}
    (hinserts : Inserts arrayOps walkLookup s.fs call)
    (hstep : cacheStep arrayOps walkLookup s call = some s') :
    ¬ BoundedInOrder arrayOps walkLookup s call := by
  have hlen : ((List.range k).map (· + 1)).length = k := by simp
  refine not_boundedInOrder ⟨h.list, Nat.le_of_eq (hlen.trans hk), ?_⟩ hinserts
    (Nat.le_of_eq (h.list.size.trans (hlen.trans hk)).symm) hstep
  intro p hp
  obtain ⟨i, hi, rfl⟩ := List.mem_map.mp hp
  exact h.past (i + 1) (Nat.succ_pos i) (List.mem_range.mp hi)

/-- Behind `MAX_CACHE_BLOCKS` writes to different blocks neither call keeps bound and order. -/
theorem not_each_of_full (x : D) {k : Nat} (hk : k = maxCacheBlocks) {call : BlockCall Unit D}
    (hcall : call = .write () k x (k + 1) ∨ call = .read () k (k + 1)) :
    ¬ Each (cacheStep arrayOps walkLookup) (BoundedInOrder arrayOps walkLookup)
      (CacheRun.start (blankMem () x) fun _ _ => x) (fillCalls x k ++ [call]) := by
  have hlt : k + 1 < 2 ^ 32 := hk ▸ by decide
  obtain ⟨s, hrun, h⟩ := fillCalls_run x k (Nat.lt_of_succ_lt hlt)
  intro heach
  have hbounded := heach.at_append hrun
  rcases hcall with rfl | rfl
  · have hinserts : Inserts arrayOps walkLookup s.fs (.write () k x (k + 1)) := ⟨h.miss, trivial⟩
    have hserved : Served walkLookup s.fs (.write () k x (k + 1)) := h.served hlt rfl
    exact h.not_bounded hk hinserts (if_pos hserved) hbounded
  · have hinserts : Inserts arrayOps walkLookup s.fs (.read () k (k + 1)) := ⟨h.miss, rfl⟩
    obtain ⟨s', hstep⟩ := h.read_returns hlt
    exact h.not_bounded hk hinserts hstep hbounded

/-- After 1024 writes to different blocks another write leaves 1025 entries, and a read of
another block evicts the entry it has just made. -/
theorem full_cache_breaks_order :
    ¬ Each (cacheStep arrayOps walkLookup) (BoundedInOrder arrayOps walkLookup)
        (CacheRun.start (blankMem () 0) fun _ _ => 0)
        (fillCalls 0 1024 ++ [.write () 1024 0 1025]) ∧
      ¬ Each (cacheStep arrayOps walkLookup) (BoundedInOrder arrayOps walkLookup)
        (CacheRun.start (blankMem () 0) fun _ _ => 0)
        (fillCalls 0 1024 ++ [.read () 1024 1025]) :=
  ⟨not_each_of_full 0 rfl (.inl rfl), not_each_of_full 0 rfl (.inr rfl)⟩

end Filling

end ArmKernel.Fs

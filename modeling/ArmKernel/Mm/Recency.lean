/-
Which page goes out (`src/mm_pra.c`, lines 44 to 83 and 104 to 211).

A `PraHistory` follows the calls beside the table: when each page was last used, when it
was allocated, and how often it was accessed since. `EvictsFirst age` says that a call of
`pra_alloc_page` that replaces a page takes out the resident page that is least by `age`.

LRU keeps a count per frame, `reference`, and takes the first frame with the least one:
`lruSelect_eq_some`. The count is the number of accesses since the allocation, so LRU
evicts by frequency; `lru_evicts_least_recent_iff` says when that is the same.

FIFO walks the frames in the order of their numbers. `InArrivalOrder` says that the pages from
`fifo_head` on stand in the order they were allocated in. A refill of a freed frame keeps
that only at the end of the line: `fifo_evicts_oldest`.
-/
import ArmKernel.Mm.Victims

namespace ArmKernel.Mm

open ArmKernel.Support

/-- The table, the time, and the history of each page. -/
structure PraHistory where
  memory : PraMemory
  now : Nat
  lastUse : Nat → Nat
  allocated : Nat → Nat
  accesses : Nat → Nat

/-- The history after a call that led to the table `m`. A page is used when it is allocated
and whenever it is accessed. -/
def PraHistory.record (h : PraHistory) (m : PraMemory) : PraCall → PraHistory
  | .alloc _ (some p) =>
    { memory := m
      now := h.now + 1
      lastUse := Function.update h.lastUse p h.now
      allocated := Function.update h.allocated p h.now
      accesses := Function.update h.accesses p 0 }
  | .alloc _ none | .free _ => { h with memory := m, now := h.now + 1 }
  | .access p =>
    { h with
      memory := m
      now := h.now + 1
      lastUse := Function.update h.lastUse p h.now
      accesses := Function.update h.accesses p (h.accesses p + 1) }

/-- One call, with its history. -/
def historyStep (h : PraHistory) (call : PraCall) : Option PraHistory :=
  (praStep h.memory call).map fun m => h.record m call

/-- After `pra_init`, at time 1. -/
def historyStart (type : PraType) : PraHistory where
  memory := praStart type
  now := 1
  lastUse _ := 0
  allocated _ := 0
  accesses _ := 0

/-- A call of `pra_alloc_page` that finds no free frame, whatever `mm_alloc_pages` answers,
takes out a resident page, and no resident page comes before it by `age`. -/
def EvictsFirst (age : PraHistory → Nat → Nat) (h : PraHistory) : PraCall → Prop
  | .alloc swapOut page =>
    (∀ p ∈ page, p ≠ 0 ∧ p < 2 ^ 32 ∧ ¬ Held h.memory p) → ¬ HasFree h.memory →
      ∃ r m' v, praAllocPage h.memory swapOut page = some (r, m') ∧
        m'.unmapped = v :: h.memory.unmapped ∧ Resident h.memory v ∧
        ∀ q, Resident h.memory q → age h v ≤ age h q
  | .free _ | .access _ => True

/-! ### What a call does to the table -/

/-- The pages in the table are held, and each is in one frame. -/
structure Owned (m : PraMemory) : Prop where
  held : ∀ i < m.ctx.frameCount, (m.ctx.frames i).vaddr ≠ 0 → Held m (m.ctx.frames i).vaddr
  single : ∀ i < m.ctx.frameCount, ∀ j < m.ctx.frameCount,
    (m.ctx.frames i).vaddr = (m.ctx.frames j).vaddr → (m.ctx.frames i).vaddr ≠ 0 → i = j
  once : ∀ p, p ≠ 0 → m.returned p ≤ m.obtained p

/-- A page, if there is one, is put into the frame `i`; the frames are as before otherwise. -/
structure Filling (m m' : PraMemory) (i : Nat) (page : Option Nat) : Prop where
  here : i < m.ctx.frameCount
  count : m'.ctx.frameCount = m.ctx.frameCount
  type : m'.ctx.type = m.ctx.type
  frames : m'.ctx.frames =
    match page with
    | none => m.ctx.frames
    | some p => Function.update m.ctx.frames i
        { m.ctx.frames i with vaddr := p, accessed := 1, dirty := 0, reference := 0 }
  obtained : m'.obtained =
    match page with
    | none => m.obtained
    | some p => Function.update m.obtained p (m.obtained p + 1)
  returned : m'.returned = m.returned

section Steps

variable {m m' : PraMemory} {ctx : PraContext} {i p addr : Nat} {swapOut : Bool}
  {page : Option Nat}

theorem filling_install {m₁ : PraMemory} (hi : i < m.ctx.frameCount)
    (hcount : m₁.ctx.frameCount = m.ctx.frameCount) (htype : m₁.ctx.type = m.ctx.type)
    (hframes : m₁.ctx.frames = m.ctx.frames) (hobtained : m₁.obtained = m.obtained)
    (hreturned : m₁.returned = m.returned) : Filling m (installPage m₁ i page).2 i page := by
  cases page with
  | none => exact ⟨hi, hcount, htype, hframes, hobtained, hreturned⟩
  | some p =>
    refine ⟨hi, hcount, htype, ?_, ?_, hreturned⟩
    · simp only [installPage, PraContext.setFrame, hframes]
    · simp only [installPage, hobtained]

/-- The counters of the table are no part of it. -/
theorem installPage_fifoHead (m : PraMemory) (i : Nat) (page : Option Nat) :
    (installPage m i page).2.ctx.fifoHead = m.ctx.fifoHead ∧
      (installPage m i page).2.unmapped = m.unmapped := by
  cases page with
  | none => exact ⟨rfl, rfl⟩
  | some p => exact ⟨rfl, rfl⟩

/-- **An allocation that finds a free frame** fills the first one. -/
theorem alloc_free (hfree : HasFree m) (hstep : praStep m (.alloc swapOut page) = some m') :
    ∃ i, Filling m m' i page ∧ m.ctx.findFrame 0 = some i ∧ m'.ctx.fifoHead = m.ctx.fifoHead := by
  obtain ⟨-, r, hcall⟩ := praStep_alloc hstep
  obtain ⟨i, hi, -, hfind, heq⟩ := praAllocPage_of_free hfree swapOut page
  obtain rfl : m' = (installPage m i page).2 :=
    congrArg Prod.snd (Option.some.inj (hcall.symm.trans heq))
  exact ⟨i, filling_install hi rfl rfl rfl rfl rfl, hfind, (installPage_fifoHead m i page).1⟩

/-- **An allocation that finds no free frame**, under a policy that changes no frame. -/
theorem alloc_full (hlinked : Linked m.ctx) (hfull : ¬ HasFree m)
    (hselect : (faulted m.ctx).selectVictim = some (i, ctx)) (hframes : ctx.frames = m.ctx.frames)
    (htype : ctx.type = m.ctx.type) (swapOut : Bool) (page : Option Nat) :
    ∃ m', praAllocPage m swapOut page = some (page, m') ∧ Filling m m' i page ∧
      m'.ctx.fifoHead = ctx.fifoHead ∧ m'.unmapped = (m.ctx.frames i).vaddr :: m.unmapped := by
  obtain ⟨hi, hsame, -⟩ := selectVictim_spec hlinked.faulted hselect
  refine ⟨(installPage (evicted m ctx i) i page).2, ?_, ?_, ?_⟩
  · rw [praAllocPage_of_full hlinked hfull, hselect, Option.map_some]
    exact congrArg some (Prod.ext (installPage_fst _ i page) rfl)
  · exact filling_install hi hsame.count htype hframes rfl rfl
  · obtain ⟨hhead, hunmapped⟩ := installPage_fifoHead (evicted m ctx i) i page
    refine ⟨hhead, hunmapped.trans ?_⟩
    rw [evicted, hframes]

/-- A frame that is not filled is as it was. -/
theorem Filling.other (h : Filling m m' i page) {j : Nat} (hj : j ≠ i) :
    m'.ctx.frames j = m.ctx.frames j := by
  rw [h.frames]
  cases page with
  | none => rfl
  | some p => exact Function.update_of_ne hj _ _

theorem Filling.vaddr_self (h : Filling m m' i (some p)) : (m'.ctx.frames i).vaddr = p := by
  rw [h.frames]
  simp

theorem Filling.owned (h : Filling m m' i page) (howned : Owned m)
    (hpage : ∀ p ∈ page, p ≠ 0 ∧ p < 2 ^ 32 ∧ ¬ Held m p) : Owned m' := by
  cases page with
  | none =>
    constructor
    · simp only [Held, h.frames, h.count, h.obtained, h.returned]
      exact howned.held
    · simp only [h.frames, h.count]
      exact howned.single
    · simp only [h.obtained, h.returned]
      exact howned.once
  | some p =>
    obtain ⟨hp, -, hnew⟩ := hpage p rfl
    have hapart : ∀ j < m.ctx.frameCount, (m.ctx.frames j).vaddr ≠ p := by
      intro j hj heq
      exact hnew (heq ▸ howned.held j hj (heq ▸ hp))
    have hbalance : m.returned p = m.obtained p :=
      Nat.le_antisymm (howned.once p hp) (Nat.not_lt.mp hnew)
    constructor
    · intro j hj hne
      rw [h.count] at hj
      by_cases hji : j = i
      · subst hji
        rw [h.vaddr_self, Held, h.obtained, h.returned]
        simp [hbalance]
      · rw [h.other hji] at hne ⊢
        rw [Held, h.obtained, h.returned]
        simp only [Function.update_of_ne (hapart j hj)]
        exact howned.held j hj hne
    · intro j hj k hk heq hne
      rw [h.count] at hj hk
      by_cases hji : j = i
      · by_cases hki : k = i
        · rw [hji, hki]
        · rw [hji, h.vaddr_self, h.other hki] at heq
          exact absurd heq.symm (hapart k hk)
      · by_cases hki : k = i
        · rw [hki, h.vaddr_self, h.other hji] at heq
          exact absurd heq (hapart j hj)
        · rw [h.other hji, h.other hki] at heq
          rw [h.other hji] at hne
          exact howned.single j hj k hk heq hne
    · intro q hq
      rw [h.obtained, h.returned]
      by_cases hqp : q = p
      · subst hqp
        simp [hbalance]
      · simp only [Function.update_of_ne hqp]
        exact howned.once q hq

/-- **`pra_free_page`** takes the page out of its frame. -/
theorem free_step (howned : Owned m) (addr : Nat) :
    Owned (praFreePage m addr) ∧ (praFreePage m addr).ctx.frameCount = m.ctx.frameCount ∧
      (praFreePage m addr).ctx.type = m.ctx.type ∧
      (praFreePage m addr).ctx.fifoHead = m.ctx.fifoHead ∧
      ∀ j < m.ctx.frameCount, ((praFreePage m addr).ctx.frames j).vaddr ≠ 0 →
        (praFreePage m addr).ctx.frames j = m.ctx.frames j := by
  cases hfind : m.ctx.findFrame addr with
  | none =>
    rw [praFreePage, hfind]
    exact ⟨howned, rfl, rfl, rfl, fun _ _ _ => rfl⟩
  | some i =>
    obtain ⟨hi, hvaddr⟩ := findFrame_eq_some hfind
    have hframes : ∀ j, ((praFreePage m addr).ctx.frames j).vaddr ≠ 0 →
        j ≠ i ∧ (praFreePage m addr).ctx.frames j = m.ctx.frames j := by
      intro j hne
      by_cases hji : j = i
      · subst hji
        simp [praFreePage, hfind, PraContext.setFrame] at hne
      · exact ⟨hji, by simp [praFreePage, hfind, PraContext.setFrame, hji]⟩
    have hcount : (praFreePage m addr).ctx.frameCount = m.ctx.frameCount := by
      rw [praFreePage, hfind]
      rfl
    have hreturned : (praFreePage m addr).returned =
        Function.update m.returned addr (m.returned addr + 1) := by
      rw [praFreePage, hfind]
    have hobtained : (praFreePage m addr).obtained = m.obtained := by
      rw [praFreePage, hfind]
    refine ⟨⟨?_, ?_, ?_⟩, hcount, ?_, ?_, fun j _ hne => (hframes j hne).2⟩
    · intro j hj hne
      rw [hcount] at hj
      obtain ⟨hji, hsame⟩ := hframes j hne
      rw [hsame] at hne ⊢
      have hother : (m.ctx.frames j).vaddr ≠ addr := fun heq =>
        hji (howned.single j hj i hi (heq.trans hvaddr.symm) hne)
      rw [Held, hreturned, hobtained, Function.update_of_ne hother]
      exact howned.held j hj hne
    · intro j hj k hk heq hne
      rw [hcount] at hj hk
      have hsamej := (hframes j hne).2
      have hsamek := (hframes k (heq ▸ hne)).2
      rw [hsamej, hsamek] at heq
      rw [hsamej] at hne
      exact howned.single j hj k hk heq hne
    · intro q hq
      rw [hreturned, hobtained]
      by_cases hqa : q = addr
      · subst hqa
        rw [Function.update_self]
        exact hvaddr ▸ howned.held i hi (hvaddr ▸ hq)
      · rw [Function.update_of_ne hqa]
        exact howned.once q hq
    · rw [praFreePage, hfind]
      rfl
    · rw [praFreePage, hfind]
      rfl

/-- The same pages with the same counts are owned alike. -/
theorem Owned.of_sameTable (h : Owned m) (hsame : SameTable m.ctx m'.ctx)
    (hobtained : m'.obtained = m.obtained) (hreturned : m'.returned = m.returned) : Owned m' := by
  constructor
  · simp only [Held, hsame.count, hsame.vaddr, hobtained, hreturned]
    exact h.held
  · simp only [hsame.count, hsame.vaddr]
    exact h.single
  · rw [hobtained, hreturned]
    exact h.once

/-- **`pra_access_page`** leaves every page where it is. -/
theorem access_step (m : PraMemory) (addr : Nat) :
    SameTable m.ctx (praAccessPage m addr).ctx ∧
      (praAccessPage m addr).obtained = m.obtained ∧
      (praAccessPage m addr).returned = m.returned ∧
      (praAccessPage m addr).ctx.type = m.ctx.type ∧
      (praAccessPage m addr).ctx.fifoHead = m.ctx.fifoHead := by
  cases hfind : m.ctx.findFrame addr with
  | none =>
    rw [praAccessPage, hfind]
    exact ⟨SameTable.rfl, rfl, rfl, rfl, rfl⟩
  | some i =>
    rw [praAccessPage, hfind]
    exact ⟨sameTable_setFrame rfl, rfl, rfl, rfl, rfl⟩

end Steps

/-! ### Least recently used -/

/-- The first of the numbers below `n` with the least value of `f`. -/
structure FirstLeast (f : Nat → Nat) (n i : Nat) : Prop where
  here : i < n
  before : ∀ j < i, f i < f j
  least : ∀ j < n, f i ≤ f j

theorem FirstLeast.unique {f : Nat → Nat} {n i j : Nat} (hi : FirstLeast f n i)
    (hj : FirstLeast f n j) : i = j := by
  rcases Nat.lt_trichotomy i j with hlt | heq | hgt
  · exact absurd (hj.before i hlt) (Nat.not_lt.mpr (hi.least j hj.here))
  · exact heq
  · exact absurd (hi.before j hgt) (Nat.not_lt.mpr (hj.least i hi.here))

section Lru

variable {ctx : PraContext} {h h' : PraHistory} {i k : Nat}

/-- What the loop of `lru_select` knows after the first `k` frames. -/
def Scanned (f : Nat → Nat) (k : Nat) : Option Nat × Nat → Prop
  | (none, least) => least = 2 ^ 32 - 1 ∧ ∀ j < k, 2 ^ 32 - 1 ≤ f j
  | (some i, least) => least = f i ∧ f i < 2 ^ 32 - 1 ∧ FirstLeast f k i

theorem lruPass_scanned (ctx : PraContext) (k : Nat) :
    Scanned (fun j => (ctx.frames j).reference) k
      ((List.range k).foldl ctx.lruPass (none, 2 ^ 32 - 1)) := by
  induction k with
  | zero => exact ⟨rfl, fun j hj => absurd hj (Nat.not_lt_zero j)⟩
  | succ k ih =>
    rw [List.range_succ, List.foldl_append, List.foldl_cons, List.foldl_nil]
    revert ih
    generalize (List.range k).foldl ctx.lruPass (none, 2 ^ 32 - 1) = state
    obtain ⟨victim, least⟩ := state
    intro ih
    rw [PraContext.lruPass]
    simp only
    cases victim with
    | none =>
      obtain ⟨rfl, hall⟩ := ih
      split
      · rename_i hlt
        refine ⟨rfl, hlt, Nat.lt_succ_self k, ?_, ?_⟩
        · exact fun j hj => Nat.lt_of_lt_of_le hlt (hall j hj)
        · intro j hj
          rcases Nat.lt_succ_iff_lt_or_eq.mp hj with hjk | rfl
          · exact Nat.le_trans (Nat.le_of_lt hlt) (hall j hjk)
          · exact Nat.le_refl _
      · rename_i hge
        refine ⟨rfl, fun j hj => ?_⟩
        rcases Nat.lt_succ_iff_lt_or_eq.mp hj with hjk | rfl
        · exact hall j hjk
        · exact Nat.not_lt.mp hge
    | some i =>
      obtain ⟨rfl, hbound, hfirst⟩ := ih
      split
      · rename_i hlt
        refine ⟨rfl, Nat.lt_trans hlt hbound, Nat.lt_succ_self k, ?_, ?_⟩
        · exact fun j hj => Nat.lt_of_lt_of_le hlt (hfirst.least j hj)
        · intro j hj
          rcases Nat.lt_succ_iff_lt_or_eq.mp hj with hjk | rfl
          · exact Nat.le_trans (Nat.le_of_lt hlt) (hfirst.least j hjk)
          · exact Nat.le_refl _
      · rename_i hge
        refine ⟨rfl, hbound, Nat.lt_succ_of_lt hfirst.here, hfirst.before, fun j hj => ?_⟩
        rcases Nat.lt_succ_iff_lt_or_eq.mp hj with hjk | rfl
        · exact hfirst.least j hjk
        · exact Nat.not_lt.mp hge

/-- **`lru_select`** takes the first frame with the least `reference`, if that is below
`UINT32_MAX`. -/
theorem lruSelect_eq_some :
    ctx.lruSelect = some i ↔ (ctx.frames i).reference < 2 ^ 32 - 1 ∧
      FirstLeast (fun j => (ctx.frames j).reference) ctx.frameCount i := by
  have hscan := lruPass_scanned ctx ctx.frameCount
  rw [PraContext.lruSelect]
  revert hscan
  generalize (List.range ctx.frameCount).foldl ctx.lruPass (none, 2 ^ 32 - 1) = state
  obtain ⟨victim, least⟩ := state
  intro hscan
  cases victim with
  | none =>
    refine iff_of_false nofun ?_
    rintro ⟨hbound, hfirst⟩
    exact absurd hbound (Nat.not_lt.mpr (hscan.2 i hfirst.here))
  | some j =>
    obtain ⟨-, hbound, hfirst⟩ := hscan
    constructor
    · rintro ⟨⟩
      exact ⟨hbound, hfirst⟩
    · rintro ⟨-, hfirst'⟩
      exact congrArg some (hfirst.unique hfirst')

theorem FirstLeast.congr {f g : Nat → Nat} {n i : Nat} (hfg : ∀ j < n, f j = g j)
    (hfirst : FirstLeast f n i) : FirstLeast g n i := by
  refine ⟨hfirst.here, ?_, ?_⟩
  · intro j hj
    rw [← hfg i hfirst.here, ← hfg j (Nat.lt_trans hj hfirst.here)]
    exact hfirst.before j hj
  · intro j hj
    rw [← hfg i hfirst.here, ← hfg j hj]
    exact hfirst.least j hj

/-- The accesses since its allocation of the page in the frame `i`, in 32 bits. -/
def PraHistory.accessCount (h : PraHistory) (i : Nat) : Nat :=
  wrap32 (h.accesses (h.memory.ctx.frames i).vaddr)

/-- At a replacement, a page whose latest use is the earliest was accessed less often than
the pages in the frames before it, no more often than those behind it, and less often than
`UINT32_MAX` times. -/
def LeastRecentIsRarest (h : PraHistory) : PraCall → Prop
  | .alloc _ page =>
    (∀ p ∈ page, p ≠ 0 ∧ p < 2 ^ 32 ∧ ¬ Held h.memory p) → ¬ HasFree h.memory →
      ∃ i, (∀ j < h.memory.ctx.frameCount, h.lastUse (h.memory.ctx.frames i).vaddr ≤
          h.lastUse (h.memory.ctx.frames j).vaddr) ∧
        FirstLeast h.accessCount h.memory.ctx.frameCount i ∧ h.accessCount i < 2 ^ 32 - 1
  | .free _ | .access _ => True

/-- What every run under LRU keeps: `reference` counts the accesses. -/
structure LruKept (h : PraHistory) : Prop where
  linked : Linked h.memory.ctx
  owned : Owned h.memory
  type : h.memory.ctx.type = .lru
  counted : ∀ i < h.memory.ctx.frameCount, (h.memory.ctx.frames i).vaddr ≠ 0 →
    (h.memory.ctx.frames i).reference = h.accessCount i

theorem selectVictim_lru (htype : ctx.type = .lru) :
    (faulted ctx).selectVictim = ctx.lruSelect.map fun i => (i, faulted ctx) := by
  unfold PraContext.selectVictim
  simp only [faulted, htype]
  rfl

/-- Under LRU every allocation is a filling. -/
theorem lru_filling {m m' : PraMemory} {swapOut : Bool} {page : Option Nat}
    (hlinked : Linked m.ctx) (htype : m.ctx.type = .lru)
    (hstep : praStep m (.alloc swapOut page) = some m') : ∃ i, Filling m m' i page := by
  by_cases hfree : HasFree m
  · obtain ⟨i, hfill, -⟩ := alloc_free hfree hstep
    exact ⟨i, hfill⟩
  · obtain ⟨-, r, hcall⟩ := praStep_alloc hstep
    have hselect := selectVictim_lru htype
    cases hlru : m.ctx.lruSelect with
    | none =>
      rw [praAllocPage_of_full hlinked hfree, hselect, hlru] at hcall
      cases hcall
    | some i =>
      rw [hlru, Option.map_some] at hselect
      obtain ⟨m₁, hcall', hfill, -⟩ :=
        alloc_full hlinked hfree hselect rfl rfl swapOut page
      obtain rfl : m' = m₁ := congrArg Prod.snd (Option.some.inj (hcall.symm.trans hcall'))
      exact ⟨i, hfill⟩

/-- An access counts for the page accessed. -/
theorem access_reference {m : PraMemory} {addr j : Nat} (htype : m.ctx.type = .lru)
    (howned : Owned m) (hj : j < m.ctx.frameCount) (hne : (m.ctx.frames j).vaddr ≠ 0) :
    ((praAccessPage m addr).ctx.frames j).reference =
      if (m.ctx.frames j).vaddr = addr then wrap32 ((m.ctx.frames j).reference + 1)
      else (m.ctx.frames j).reference := by
  cases hfind : m.ctx.findFrame addr with
  | none =>
    rw [if_neg (findFrame_eq_none.mp hfind j hj), praAccessPage, hfind]
  | some i =>
    obtain ⟨hi, hvaddr⟩ := findFrame_eq_some hfind
    by_cases hji : j = i
    · subst hji
      rw [if_pos hvaddr]
      simp [praAccessPage, hfind, PraContext.setFrame, htype]
    · have hother : (m.ctx.frames j).vaddr ≠ addr := fun heq =>
        hji (howned.single j hj i hi (heq.trans hvaddr.symm) hne)
      rw [if_neg hother]
      simp [praAccessPage, hfind, PraContext.setFrame, hji]

theorem lruKept_step {call : PraCall} (hkept : LruKept h)
    (hstep : historyStep h call = some h') : LruKept h' := by
  obtain ⟨m, hpra, rfl⟩ := Option.map_eq_some_iff.mp hstep
  have hlinked := linked_step call hkept.linked hpra
  cases call with
  | alloc swapOut page =>
    obtain ⟨i, hfill⟩ := lru_filling hkept.linked hkept.type hpra
    obtain ⟨hpage, -⟩ := praStep_alloc hpra
    have howned := hfill.owned hkept.owned hpage
    cases page with
    | none =>
      refine ⟨hlinked, howned, hfill.type.trans hkept.type, ?_⟩
      simp only [PraHistory.record, PraHistory.accessCount, hfill.count, hfill.frames]
      exact hkept.counted
    | some p =>
      refine ⟨hlinked, howned, hfill.type.trans hkept.type, ?_⟩
      intro j hj hne
      simp only [PraHistory.record, PraHistory.accessCount] at hj hne ⊢
      by_cases hji : j = i
      · subst hji
        rw [hfill.vaddr_self, Function.update_self, hfill.frames]
        simp [wrap32]
      · rw [hfill.count] at hj
        rw [hfill.other hji] at hne ⊢
        have hother : (h.memory.ctx.frames j).vaddr ≠ p := fun heq =>
          (hpage p rfl).2.2 (heq ▸ hkept.owned.held j hj hne)
        rw [Function.update_of_ne hother]
        exact hkept.counted j hj hne
  | free addr =>
    cases hpra
    obtain ⟨howned, hcount, htype, -, hframes⟩ := free_step hkept.owned addr
    refine ⟨hlinked, howned, htype.trans hkept.type, ?_⟩
    intro j hj hne
    simp only [PraHistory.record, PraHistory.accessCount] at hj hne ⊢
    rw [hcount] at hj
    have hsame := hframes j hj hne
    rw [hsame] at hne ⊢
    exact hkept.counted j hj hne
  | access addr =>
    cases hpra
    obtain ⟨hsame, hobtained, hreturned, htype, -⟩ := access_step h.memory addr
    refine ⟨hlinked, hkept.owned.of_sameTable hsame hobtained hreturned,
      htype.trans hkept.type, ?_⟩
    intro j hj hne
    simp only [PraHistory.record, PraHistory.accessCount] at hj hne ⊢
    rw [hsame.count] at hj
    rw [hsame.vaddr] at hne ⊢
    rw [access_reference hkept.type hkept.owned hj hne, hkept.counted j hj hne]
    split
    · rename_i haddr
      rw [haddr, Function.update_self, PraHistory.accessCount, haddr]
      simp [wrap32]
    · rename_i haddr
      rw [Function.update_of_ne haddr, PraHistory.accessCount]

/-- In a full table every frame has a page. -/
theorem vaddr_of_full {m : PraMemory} {j : Nat} (hfull : ¬ HasFree m) (hj : j < m.ctx.frameCount) :
    (m.ctx.frames j).vaddr ≠ 0 := fun hzero => hfull ⟨j, hj, hzero⟩

/-- **One replacement under LRU.** -/
theorem evictsFirst_lru_iff {call : PraCall} (hkept : LruKept h) :
    EvictsFirst PraHistory.lastUse h call ↔ LeastRecentIsRarest h call := by
  cases call with
  | free addr => exact Iff.rfl
  | access addr => exact Iff.rfl
  | alloc swapOut page =>
    refine forall_congr' fun hpage => forall_congr' fun hfull => ?_
    have hcounts : ∀ j < h.memory.ctx.frameCount,
        (h.memory.ctx.frames j).reference = h.accessCount j :=
      fun j hj => hkept.counted j hj (vaddr_of_full hfull hj)
    have hselect := selectVictim_lru hkept.type
    constructor
    · rintro ⟨r, m', v, hcall, hunmapped, -, hleast⟩
      cases hlru : h.memory.ctx.lruSelect with
      | none =>
        rw [praAllocPage_of_full hkept.linked hfull, hselect, hlru] at hcall
        cases hcall
      | some i =>
        obtain ⟨hbound, hfirst⟩ := lruSelect_eq_some.mp hlru
        rw [hlru, Option.map_some] at hselect
        obtain ⟨m₁, hcall', -, -, hout⟩ :=
          alloc_full hkept.linked hfull hselect rfl rfl swapOut page
        obtain rfl : m' = m₁ := congrArg Prod.snd (Option.some.inj (hcall.symm.trans hcall'))
        have hv : v = (h.memory.ctx.frames i).vaddr := (List.cons.inj (hunmapped.symm.trans hout)).1
        refine ⟨i, ?_, hfirst.congr hcounts, hcounts i hfirst.here ▸ hbound⟩
        intro j hj
        rw [← hv]
        exact hleast _ ⟨vaddr_of_full hfull hj, j, hj, rfl⟩
    · rintro ⟨i, hleast, hfirst, hbound⟩
      have hlru : h.memory.ctx.lruSelect = some i := by
        refine lruSelect_eq_some.mpr ⟨hcounts i hfirst.here ▸ hbound, ?_⟩
        exact hfirst.congr fun j hj => (hcounts j hj).symm
      rw [hlru, Option.map_some] at hselect
      obtain ⟨m', hcall, -, -, hout⟩ :=
        alloc_full hkept.linked hfull hselect rfl rfl swapOut page
      refine ⟨page, m', _, hcall, hout, ?_, ?_⟩
      · exact ⟨vaddr_of_full hfull hfirst.here, i, hfirst.here, rfl⟩
      · rintro q ⟨-, j, hj, rfl⟩
        exact hleast j hj

theorem owned_start (type : PraType) : Owned (praStart type) :=
  ⟨fun _ _ hne => absurd rfl hne, fun _ _ _ _ _ hne => absurd rfl hne, fun _ _ => Nat.le_refl 0⟩

theorem lruKept_start : LruKept (historyStart .lru) :=
  ⟨(praInv_start .lru).linked, owned_start .lru, rfl, fun _ _ hne => absurd rfl hne⟩

/-- **Least recently used.** For every run of calls after `pra_init(PRA_LRU)`. -/
theorem lru_evicts_least_recent_iff (calls : List PraCall) :
    Each historyStep (EvictsFirst PraHistory.lastUse) (historyStart .lru) calls ↔
      Each historyStep LeastRecentIsRarest (historyStart .lru) calls :=
  Each.congr (each_of_preserved (I := LruKept) (fun _ _ hkept => evictsFirst_lru_iff hkept)
    (fun _ _ _ hkept hstep => lruKept_step hkept hstep) lruKept_start calls)

end Lru

/-! ### First in, first out -/

/-- The frame `fifo_select` takes next. -/
def PraContext.fifoFrame (ctx : PraContext) : Nat := ctx.fifoHead.getD 0

/-- The place of the frame `j` in the line that begins there. -/
def PraContext.placeInLine (ctx : PraContext) (j : Nat) : Nat :=
  if ctx.fifoFrame ≤ j then j - ctx.fifoFrame else j + ctx.frameCount - ctx.fifoFrame

/-- The pages in the line stand in the order they were allocated in. -/
def InArrivalOrder (h : PraHistory) : Prop :=
  ∀ i < h.memory.ctx.frameCount, ∀ j < h.memory.ctx.frameCount,
    (h.memory.ctx.frames i).vaddr ≠ 0 → (h.memory.ctx.frames j).vaddr ≠ 0 →
    h.memory.ctx.placeInLine i < h.memory.ctx.placeInLine j →
    h.allocated (h.memory.ctx.frames i).vaddr < h.allocated (h.memory.ctx.frames j).vaddr

/-- A page that is put into a free frame, the first one of the table, stands behind all
resident pages of the line; and a replacement gets a page. -/
def RefillsInOrder (h : PraHistory) : PraCall → Prop
  | .alloc _ page =>
    (page ≠ none → ∀ i, h.memory.ctx.findFrame 0 = some i →
      ∀ j < h.memory.ctx.frameCount, (h.memory.ctx.frames j).vaddr ≠ 0 →
        h.memory.ctx.placeInLine j < h.memory.ctx.placeInLine i) ∧
      (¬ HasFree h.memory → page ≠ none)
  | .free _ | .access _ => True

/-- What every run under FIFO keeps whose refills are in order. -/
structure FifoKept (h : PraHistory) : Prop where
  linked : Linked h.memory.ctx
  owned : Owned h.memory
  type : h.memory.ctx.type = .fifo
  links : ∀ i < h.memory.ctx.frameCount, (h.memory.ctx.frames i).next =
    if i + 1 < h.memory.ctx.frameCount then some (i + 1) else none
  past : ∀ i < h.memory.ctx.frameCount, (h.memory.ctx.frames i).vaddr ≠ 0 →
    h.allocated (h.memory.ctx.frames i).vaddr < h.now
  order : InArrivalOrder h

section Fifo

variable {ctx : PraContext} {m m' : PraMemory} {h h' : PraHistory} {i j : Nat} {swapOut : Bool}

theorem fifoFrame_lt (hlinked : Linked ctx) : ctx.fifoFrame < ctx.frameCount :=
  (fifoSelect_spec hlinked).1

theorem selectVictim_fifo (htype : ctx.type = .fifo) :
    (faulted ctx).selectVictim =
      some (ctx.fifoFrame,
        { faulted ctx with fifoHead := (ctx.frames ctx.fifoFrame).next }) := by
  unfold PraContext.selectVictim
  simp only [faulted, htype]
  rfl

/-- The line begins with the frame that is taken next. -/
theorem placeInLine_fifoFrame (ctx : PraContext) : ctx.placeInLine ctx.fifoFrame = 0 := by
  rw [PraContext.placeInLine, if_pos (Nat.le_refl _), Nat.sub_self]

/-- The other frames stand behind it. -/
theorem placeInLine_pos (hlinked : Linked ctx) (hj : j ≠ ctx.fifoFrame) :
    0 < ctx.placeInLine j := by
  have hhead := fifoFrame_lt hlinked
  rw [PraContext.placeInLine]
  split
  · omega
  · omega

/-- **Moving on.** The frame taken goes to the end of the line, and the others move up. -/
theorem placeInLine_next {ctx' : PraContext} (hlinked : Linked ctx)
    (hcount : ctx'.frameCount = ctx.frameCount)
    (hhead : ctx'.fifoHead =
      if ctx.fifoFrame + 1 < ctx.frameCount then some (ctx.fifoFrame + 1) else none)
    (hj : j < ctx.frameCount) :
    ctx'.placeInLine j =
      if j = ctx.fifoFrame then ctx.frameCount - 1 else ctx.placeInLine j - 1 := by
  have hlt := fifoFrame_lt hlinked
  have hframe : ctx'.fifoFrame =
      if ctx.fifoFrame + 1 < ctx.frameCount then ctx.fifoFrame + 1 else 0 := by
    rw [PraContext.fifoFrame, hhead]
    split
    · rfl
    · rfl
  simp only [PraContext.placeInLine, hframe, hcount]
  split_ifs <;> omega

theorem placeInLine_lt (hj : j < ctx.frameCount) : ctx.placeInLine j < ctx.frameCount := by
  rw [PraContext.placeInLine]
  split
  · omega
  · omega

/-- The line depends on its head and its length. -/
theorem placeInLine_congr {ctx' : PraContext} (hcount : ctx'.frameCount = ctx.frameCount)
    (hhead : ctx'.fifoHead = ctx.fifoHead) (j : Nat) : ctx'.placeInLine j = ctx.placeInLine j := by
  unfold PraContext.placeInLine PraContext.fifoFrame
  rw [hcount, hhead]

/-- **A page at the end of the line.** The new page stands behind the others, which keep
their order. -/
theorem inOrder_of_last {p : Nat} (hkept : FifoKept h) (hnew : ¬ Held h.memory p)
    (hfill : Filling h.memory m' i (some p))
    (hlast : ∀ j < h.memory.ctx.frameCount, j ≠ i → (h.memory.ctx.frames j).vaddr ≠ 0 →
      m'.ctx.placeInLine j < m'.ctx.placeInLine i)
    (hmoved : ∀ j < h.memory.ctx.frameCount, ∀ k < h.memory.ctx.frameCount, j ≠ i → k ≠ i →
      m'.ctx.placeInLine j < m'.ctx.placeInLine k →
      h.memory.ctx.placeInLine j < h.memory.ctx.placeInLine k) :
    InArrivalOrder (h.record m' (.alloc swapOut (some p))) := by
  have hother : ∀ j < h.memory.ctx.frameCount, (h.memory.ctx.frames j).vaddr ≠ 0 →
      (h.memory.ctx.frames j).vaddr ≠ p := by
    intro j hj hne heq
    exact hnew (heq ▸ hkept.owned.held j hj hne)
  intro j hj k hk hjne hkne hplace
  simp only [PraHistory.record] at hj hk hjne hkne hplace ⊢
  rw [hfill.count] at hj hk
  by_cases hki : k = i
  · subst hki
    have hjk : j ≠ k := fun heq => Nat.lt_irrefl _ (heq ▸ hplace)
    rw [hfill.other hjk] at hjne ⊢
    rw [hfill.vaddr_self, Function.update_self, Function.update_of_ne (hother j hj hjne)]
    exact hkept.past j hj hjne
  · rw [hfill.other hki] at hkne ⊢
    by_cases hji : j = i
    · subst hji
      exact absurd (hlast k hk hki hkne) (Nat.lt_asymm hplace)
    · rw [hfill.other hji] at hjne ⊢
      rw [Function.update_of_ne (hother j hj hjne), Function.update_of_ne (hother k hk hkne)]
      exact hkept.order j hj k hk hjne hkne (hmoved j hj k hk hji hki hplace)

/-- What a call that places no page leaves in order. -/
theorem FifoKept.of_sub (hkept : FifoKept h) (hlinked : Linked h'.memory.ctx)
    (howned : Owned h'.memory) (htype : h'.memory.ctx.type = h.memory.ctx.type)
    (hcount : h'.memory.ctx.frameCount = h.memory.ctx.frameCount)
    (hhead : h'.memory.ctx.fifoHead = h.memory.ctx.fifoHead)
    (hnext : ∀ i, (h'.memory.ctx.frames i).next = (h.memory.ctx.frames i).next)
    (hvaddr : ∀ i < h.memory.ctx.frameCount, (h'.memory.ctx.frames i).vaddr ≠ 0 →
      (h'.memory.ctx.frames i).vaddr = (h.memory.ctx.frames i).vaddr)
    (hallocated : h'.allocated = h.allocated) (hnow : h.now ≤ h'.now) : FifoKept h' := by
  refine ⟨hlinked, howned, htype.trans hkept.type, ?_, ?_, ?_⟩
  · intro i hi
    rw [hnext, hcount]
    exact hkept.links i (hcount ▸ hi)
  · intro i hi hne
    rw [hcount] at hi
    have hsame := hvaddr i hi hne
    rw [hsame] at hne ⊢
    rw [hallocated]
    exact Nat.lt_of_lt_of_le (hkept.past i hi hne) hnow
  · intro i hi j hj hine hjne hplace
    rw [hcount] at hi hj
    rw [placeInLine_congr hcount hhead, placeInLine_congr hcount hhead] at hplace
    have hsamei := hvaddr i hi hine
    have hsamej := hvaddr j hj hjne
    rw [hsamei] at hine ⊢
    rw [hsamej] at hjne ⊢
    rw [hallocated]
    exact hkept.order i hi j hj hine hjne hplace

/-- No call changes a link. -/
theorem free_next (m : PraMemory) (addr i : Nat) :
    ((praFreePage m addr).ctx.frames i).next = (m.ctx.frames i).next := by
  cases hfind : m.ctx.findFrame addr with
  | none => rw [praFreePage, hfind]
  | some k =>
    by_cases hik : i = k
    · subst hik
      simp [praFreePage, hfind, PraContext.setFrame]
    · simp [praFreePage, hfind, PraContext.setFrame, hik]

theorem access_next (m : PraMemory) (addr i : Nat) :
    ((praAccessPage m addr).ctx.frames i).next = (m.ctx.frames i).next := by
  cases hfind : m.ctx.findFrame addr with
  | none => rw [praAccessPage, hfind]
  | some k =>
    by_cases hik : i = k
    · subst hik
      simp [praAccessPage, hfind, PraContext.setFrame]
    · simp [praAccessPage, hfind, PraContext.setFrame, hik]

theorem Filling.next {page : Option Nat} (hfill : Filling m m' i page) (j : Nat) :
    (m'.ctx.frames j).next = (m.ctx.frames j).next := by
  by_cases hji : j = i
  · subst hji
    rw [hfill.frames]
    cases page with
    | none => rfl
    | some p => simp
  · rw [hfill.other hji]

/-- A filled frame's page was allocated now, the others before. -/
theorem past_of_filling {p : Nat} (hkept : FifoKept h) (hnew : ¬ Held h.memory p)
    (hfill : Filling h.memory m' i (some p)) (hj : j < m'.ctx.frameCount)
    (hne : (m'.ctx.frames j).vaddr ≠ 0) :
    Function.update h.allocated p h.now (m'.ctx.frames j).vaddr < h.now + 1 := by
  rw [hfill.count] at hj
  by_cases hji : j = i
  · subst hji
    rw [hfill.vaddr_self, Function.update_self]
    exact Nat.lt_succ_self h.now
  · rw [hfill.other hji] at hne ⊢
    have hother : (h.memory.ctx.frames j).vaddr ≠ p := fun heq =>
      hnew (heq ▸ hkept.owned.held j hj hne)
    rw [Function.update_of_ne hother]
    exact Nat.lt_succ_of_lt (hkept.past j hj hne)

/-- A page that is placed at the end of the line keeps the line. -/
theorem FifoKept.of_filling {p : Nat} (hkept : FifoKept h) (hp : p ≠ 0 ∧ p < 2 ^ 32)
    (hnew : ¬ Held h.memory p)
    (hfill : Filling h.memory m' i (some p)) (hlinked : Linked m'.ctx)
    (horder : InArrivalOrder (h.record m' (.alloc swapOut (some p)))) :
    FifoKept (h.record m' (.alloc swapOut (some p))) where
  linked := hlinked
  owned := hfill.owned hkept.owned (by rintro _ ⟨⟩; exact ⟨hp.1, hp.2, hnew⟩)
  type := hfill.type.trans hkept.type
  links j hj := by
    show (m'.ctx.frames j).next = if j + 1 < m'.ctx.frameCount then some (j + 1) else none
    rw [hfill.next, hfill.count]
    exact hkept.links j (hfill.count ▸ hj)
  past j hj hne := past_of_filling hkept hnew hfill hj hne
  order := horder

/-- **One call.** -/
theorem fifoKept_step {call : PraCall} (hkept : FifoKept h) (hok : RefillsInOrder h call)
    (hstep : historyStep h call = some h') : FifoKept h' := by
  obtain ⟨m, hpra, rfl⟩ := Option.map_eq_some_iff.mp hstep
  have hlinked := linked_step call hkept.linked hpra
  cases call with
  | free addr =>
    cases hpra
    obtain ⟨howned, hcount, htype, hhead, hframes⟩ := free_step hkept.owned addr
    exact hkept.of_sub hlinked howned htype hcount hhead (free_next _ _)
      (fun i hi hne => congrArg PageFrame.vaddr (hframes i hi hne)) rfl (Nat.le_succ _)
  | access addr =>
    cases hpra
    obtain ⟨hsame, hobtained, hreturned, htype, hhead⟩ := access_step h.memory addr
    exact hkept.of_sub hlinked (hkept.owned.of_sameTable hsame hobtained hreturned) htype
      hsame.count hhead (access_next _ _) (fun i _ _ => hsame.vaddr i) rfl (Nat.le_succ _)
  | alloc swapOut page =>
    obtain ⟨hpage, r, hcall⟩ := praStep_alloc hpra
    obtain ⟨hlast, hgets⟩ := hok
    by_cases hfree : HasFree h.memory
    · obtain ⟨i, hfill, hfind, hhead⟩ := alloc_free hfree hpra
      cases page with
      | none =>
        have hframes : m.ctx.frames = h.memory.ctx.frames := hfill.frames
        exact hkept.of_sub hlinked (hfill.owned hkept.owned hpage) hfill.type hfill.count hhead
          (hfill.next) (fun j _ _ => congrArg (fun frames => (frames j).vaddr) hframes) rfl
          (Nat.le_succ _)
      | some p =>
        obtain ⟨hp, hbound, hnew⟩ := hpage p rfl
        have hplace := placeInLine_congr hfill.count hhead
        refine hkept.of_filling ⟨hp, hbound⟩ hnew hfill hlinked
          (inOrder_of_last hkept hnew hfill ?_ ?_)
        · intro j hj _ hne
          rw [hplace, hplace]
          exact hlast (Option.some_ne_none p) i hfind j hj hne
        · intro j _ k _ _ _ hlt
          rwa [hplace, hplace] at hlt
    · obtain ⟨p, rfl⟩ := Option.ne_none_iff_exists'.mp (hgets hfree)
      obtain ⟨hp, hbound, hnew⟩ := hpage p rfl
      obtain ⟨m₁, hcall', hfill, hhead, -⟩ := alloc_full hkept.linked hfree
        (selectVictim_fifo hkept.type) rfl rfl swapOut (some p)
      obtain rfl : m = m₁ := congrArg Prod.snd (Option.some.inj (hcall.symm.trans hcall'))
      -- The victim was first in the line, and its frame is now last.
      have hframe := fifoFrame_lt hkept.linked
      have hnext := hhead.trans (hkept.links _ hframe)
      refine hkept.of_filling ⟨hp, hbound⟩ hnew hfill hlinked
        (inOrder_of_last hkept hnew hfill ?_ ?_)
      · intro j hj hji _
        rw [placeInLine_next hkept.linked hfill.count hnext hj, if_neg hji,
          placeInLine_next hkept.linked hfill.count hnext hframe, if_pos rfl]
        have hplace := placeInLine_lt hj
        have hpos := placeInLine_pos hkept.linked hji
        omega
      · intro j hj k hk hji hki hlt
        rw [placeInLine_next hkept.linked hfill.count hnext hj, if_neg hji,
          placeInLine_next hkept.linked hfill.count hnext hk, if_neg hki] at hlt
        omega

/-- **One replacement under FIFO.** -/
theorem evictsFirst_fifo {call : PraCall} (hkept : FifoKept h) :
    EvictsFirst PraHistory.allocated h call := by
  cases call with
  | free addr => trivial
  | access addr => trivial
  | alloc swapOut page =>
    intro hpage hfull
    have hframe := fifoFrame_lt hkept.linked
    have hne := vaddr_of_full hfull hframe
    obtain ⟨m', hcall, -, -, hout⟩ := alloc_full hkept.linked hfull
      (selectVictim_fifo hkept.type) rfl rfl swapOut page
    refine ⟨page, m', _, hcall, hout, ⟨hne, _, hframe, rfl⟩, ?_⟩
    rintro q ⟨hq, j, hj, rfl⟩
    by_cases hj' : j = h.memory.ctx.fifoFrame
    · rw [hj']
    · refine Nat.le_of_lt (hkept.order _ hframe j hj hne hq ?_)
      rw [placeInLine_fifoFrame]
      exact placeInLine_pos hkept.linked hj'

theorem fifoKept_start : FifoKept (historyStart .fifo) :=
  { linked := (praInv_start .fifo).linked
    owned := owned_start .fifo
    type := rfl
    links := fun i _ => by
      simp only [historyStart, praStart, praInit]
      congr 1
      exact propext (by omega)
    past := fun _ _ hne => absurd rfl hne
    order := fun _ _ _ _ hne => absurd rfl hne }

/-- **First in, first out.** In every run of calls after `pra_init(PRA_FIFO)` whose refills
are in order, every replacement takes out the page that was allocated earliest. -/
theorem fifo_evicts_oldest {calls : List PraCall}
    (hmeets : Meets historyStep RefillsInOrder (historyStart .fifo) calls) :
    Each historyStep (EvictsFirst PraHistory.allocated) (historyStart .fifo) calls :=
  each_of_meets (I := FifoKept) (fun _ _ hkept _ => evictsFirst_fifo hkept)
    (fun _ _ _ hkept hok hstep => fifoKept_step hkept hok hstep) fifoKept_start hmeets

end Fifo

/-! ### A freed frame is filled again -/

/-- After `pra_init`, the pages 1 to `k` were allocated at the times 1 to `k`. -/
structure FilledHistory (type : PraType) (k : Nat) (h : PraHistory) : Prop where
  filled : Filled type k h.memory
  linked : Linked h.memory.ctx
  now : h.now = k + 1
  stamps : ∀ p, 0 < p → p ≤ k → h.lastUse p = p ∧ h.allocated p = p

section Refill

variable {type : PraType} {k n : Nat} {h : PraHistory}

theorem filledHistory_start (type : PraType) : FilledHistory type 0 (historyStart type) :=
  { filled := filled_start type
    linked := (praInv_start type).linked
    now := rfl
    stamps := fun _ hp hle => absurd hp (Nat.not_lt.mpr hle) }

theorem filledHistory_step (hf : FilledHistory type k h) (hk : k < 1024) :
    ∃ h', historyStep h (.alloc true (some (k + 1))) = some h' ∧ FilledHistory type (k + 1) h' := by
  obtain ⟨m, hstep, hfilled⟩ := filled_step hf.filled hk
  refine ⟨h.record m (.alloc true (some (k + 1))), ?_, ?_⟩
  · rw [historyStep, hstep]
    rfl
  · refine ⟨hfilled, linked_step _ hf.linked hstep, congrArg (· + 1) hf.now, ?_⟩
    intro p hp hle
    simp only [PraHistory.record]
    by_cases hpk : p = k + 1
    · rw [hpk, Function.update_self, Function.update_self, hf.now]
      exact ⟨rfl, rfl⟩
    · rw [Function.update_of_ne hpk, Function.update_of_ne hpk]
      exact hf.stamps p hp (by omega)

theorem filledHistory_run (hf : FilledHistory type k h) (hk : k + n ≤ 1024) :
    ∃ h', run historyStep h (fillCalls k n) = some h' ∧ FilledHistory type (k + n) h' := by
  induction n generalizing k h with
  | zero => exact ⟨h, rfl, hf⟩
  | succ n ih =>
    obtain ⟨h₁, hstep, hfilled⟩ := filledHistory_step hf (by omega)
    have hassoc : k + 1 + n = k + (n + 1) := by omega
    obtain ⟨h', hrun, hfilled'⟩ := ih hfilled (hassoc ▸ hk)
    refine ⟨h', ?_, hassoc ▸ hfilled'⟩
    rw [fillCalls, List.range'_succ, List.map_cons]
    exact run_cons_eq_some.mpr ⟨h₁, hstep, hrun⟩

/-- Filling the table from frame 0 on is in order. -/
theorem refillsInOrder_of_filled (hf : Filled .fifo k h.memory) (p : Nat) :
    RefillsInOrder h (.alloc true (some p)) := by
  refine ⟨?_, fun _ => Option.some_ne_none p⟩
  intro _ i hfind j _ hj
  have hplace : ∀ j, h.memory.ctx.placeInLine j = j := by
    intro j
    rw [PraContext.placeInLine, PraContext.fifoFrame, hf.head, Option.getD_none,
      if_pos (Nat.zero_le j), Nat.sub_zero]
  have hi := (findFrame_eq_some hfind).2
  rw [hplace, hplace]
  rw [hf.vaddr] at hi hj
  split at hi
  · cases hi
  · split at hj
    · omega
    · exact absurd rfl hj

theorem meets_fillCalls (hf : FilledHistory .fifo k h) (hk : k + n ≤ 1024) (p : Nat) :
    Meets historyStep RefillsInOrder h (fillCalls k n ++ [.alloc true (some p)]) := by
  induction n generalizing k h with
  | zero => exact fun h' _ => ⟨refillsInOrder_of_filled hf.filled p, trivial⟩
  | succ n ih =>
    obtain ⟨h₁, hstep, hfilled⟩ := filledHistory_step hf (by omega)
    rw [fillCalls, List.range'_succ, List.map_cons, List.cons_append]
    intro h' hstep'
    obtain rfl := Option.some.inj (hstep.symm.trans hstep')
    exact ⟨refillsInOrder_of_filled hf.filled (k + 1), ih hfilled (by omega)⟩

/-- The 1025th page takes the place of the first one. -/
theorem fifo_evicts_first_page :
    Each historyStep (EvictsFirst PraHistory.allocated) (historyStart .fifo)
      (fillCalls 0 1024 ++ [.alloc true (some 1025)]) :=
  fifo_evicts_oldest (meets_fillCalls (filledHistory_start .fifo) (Nat.le_refl (0 + 1024)) 1025)

/-- The calls that fill the table, free the first page and fill its frame again. -/
def refillCalls : List PraCall := fillCalls 0 1024 ++ [.free 1, .alloc true (some 2000)]

/-- The newest page is in frame 0, with the least count. -/
structure Refilled (type : PraType) (h : PraHistory) : Prop where
  linked : Linked h.memory.ctx
  count : h.memory.ctx.frameCount = 1024
  type : h.memory.ctx.type = type
  head : h.memory.ctx.fifoHead = none
  full : ¬ HasFree h.memory
  reference : ∀ i, (h.memory.ctx.frames i).reference = 0
  newest : (h.memory.ctx.frames 0).vaddr = 2000 ∧ h.allocated 2000 = 1026 ∧ h.lastUse 2000 = 1026
  older : (h.memory.ctx.frames 1).vaddr = 2 ∧ h.allocated 2 = 2 ∧ h.lastUse 2 = 2
  fresh : ¬ Held h.memory 2001

/-- The first page is in frame 0, and freeing it leaves that frame free. -/
theorem free_first_page {m : PraMemory} (hf : Filled type 1024 m) :
    praFreePage m 1 =
      { m with
        ctx := m.ctx.setFrame 0
          { m.ctx.frames 0 with vaddr := 0, accessed := 0, dirty := 0, reference := 0 }
        returned := Function.update m.returned 1 (m.returned 1 + 1) } := by
  have hfirst : 0 < m.ctx.frameCount := by
    rw [hf.count]
    exact Nat.zero_lt_succ 1023
  have hone : (m.ctx.frames 0).vaddr = 1 := hf.vaddr 0
  obtain ⟨i, hfind⟩ := exists_findFrame hfirst hone
  have hvaddr := (findFrame_eq_some hfind).2
  rw [hf.vaddr] at hvaddr
  split at hvaddr
  · obtain rfl := Nat.succ.inj hvaddr
    rw [praFreePage, hfind]
  · cases hvaddr

/-- The filled table with frame 0 free. -/
structure FirstFreed (type : PraType) (m₀ m : PraMemory) : Prop where
  linked : Linked m.ctx
  count : m.ctx.frameCount = 1024
  type : m.ctx.type = type
  head : m.ctx.fifoHead = none
  vaddr : ∀ j, (m.ctx.frames j).vaddr = if j = 0 then 0 else (m₀.ctx.frames j).vaddr
  reference : ∀ j, (m.ctx.frames j).reference = 0
  obtained : m.obtained = m₀.obtained

theorem firstFreed_free {m : PraMemory} (hlinked : Linked m.ctx) (hf : Filled type 1024 m) :
    FirstFreed type m (praFreePage m 1) := by
  have hfreed := free_first_page hf
  refine ⟨linked_step (.free 1) hlinked rfl, ?_, ?_, ?_, ?_, ?_, by rw [hfreed]⟩
  · rw [hfreed]
    exact hf.count
  · rw [hfreed]
    exact hf.type
  · rw [hfreed]
    exact hf.head
  · intro j
    rw [hfreed]
    by_cases hj : j = 0
    · simp [PraContext.setFrame, hj]
    · simp [PraContext.setFrame, hj]
  · intro j
    rw [hfreed]
    by_cases hj : j = 0
    · simp [PraContext.setFrame, hj]
    · simp [PraContext.setFrame, hj, hf.reference]

/-- The next page goes into frame 0, the only free one. -/
theorem FirstFreed.refill {m₀ m : PraMemory} (hm : FirstFreed type m₀ m)
    (hf : Filled type 1024 m₀) :
    ∃ m', praStep m (.alloc true (some 2000)) = some m' ∧ Filling m m' 0 (some 2000) ∧
      Linked m'.ctx ∧ m'.ctx.fifoHead = none := by
  have hfree : HasFree m := ⟨0, by rw [hm.count]; decide, hm.vaddr 0⟩
  have hnew : ∀ p ∈ some 2000, p ≠ 0 ∧ p < 2 ^ 32 ∧ ¬ Held m p := by
    rintro p ⟨⟩
    refine ⟨by decide, by decide, ?_⟩
    rw [Held, hm.obtained, hf.fresh 2000 (by decide)]
    exact Nat.not_lt_zero _
  obtain ⟨k, -, -, -, hcall⟩ := praAllocPage_of_free hfree true (some 2000)
  have hstep : praStep m (.alloc true (some 2000)) = some (installPage m k (some 2000)).2 := by
    rw [praStep, if_pos hnew, hcall]
    rfl
  obtain ⟨i, hfill, hfind, hhead⟩ := alloc_free hfree hstep
  have hi : i = 0 := by
    obtain ⟨hlt, hzero⟩ := findFrame_eq_some hfind
    rw [hm.vaddr] at hzero
    split at hzero
    · assumption
    · rw [hf.vaddr, if_pos (hm.count ▸ hlt)] at hzero
      cases hzero
  subst hi
  exact ⟨_, hstep, hfill, linked_step _ hm.linked hstep, hhead.trans hm.head⟩

theorem refilled_run (type : PraType) :
    ∃ h, run historyStep (historyStart type) refillCalls = some h ∧ Refilled type h := by
  obtain ⟨h, hrun, hf⟩ := filledHistory_run (filledHistory_start type) (Nat.le_refl (0 + 1024))
  rw [Nat.zero_add] at hf
  have hfreed := firstFreed_free hf.linked hf.filled
  obtain ⟨m', hstep, hfill, hlinked, hhead⟩ := hfreed.refill hf.filled
  generalize hm : praFreePage h.memory 1 = m at *
  refine ⟨(h.record m (.free 1)).record m' (.alloc true (some 2000)), ?_, ?_⟩
  · refine run_append.mpr ⟨h, hrun, run_cons_eq_some.mpr ⟨h.record m (.free 1), ?_, ?_⟩⟩
    · rw [historyStep, praStep, Option.map_some, hm]
    · refine run_cons_eq_some.mpr ⟨_, ?_, rfl⟩
      simp only [historyStep, PraHistory.record, hstep, Option.map_some]
  · have hother : ∀ j, j ≠ 0 → (m'.ctx.frames j).vaddr = (h.memory.ctx.frames j).vaddr := by
      intro j hj
      rw [hfill.other hj, hfreed.vaddr, if_neg hj]
    refine ⟨hlinked, hfill.count.trans hfreed.count, hfill.type.trans hfreed.type, hhead,
      ?_, ?_, ?_, ?_, ?_⟩
    · rintro ⟨j, hj, hzero⟩
      simp only [PraHistory.record] at hj hzero
      by_cases hj0 : j = 0
      · subst hj0
        rw [hfill.vaddr_self] at hzero
        cases hzero
      · rw [hfill.count, hfreed.count] at hj
        rw [hother j hj0, hf.filled.vaddr, if_pos hj] at hzero
        cases hzero
    · intro j
      simp only [PraHistory.record]
      by_cases hj0 : j = 0
      · subst hj0
        rw [hfill.frames]
        simp
      · rw [hfill.other hj0]
        exact hfreed.reference j
    · refine ⟨hfill.vaddr_self, ?_, ?_⟩
      · simp only [PraHistory.record, hf.now, Function.update_self]
      · simp only [PraHistory.record, hf.now, Function.update_self]
    · have hstamp := hf.stamps 2 (by decide) (by decide)
      have hne : (2 : Nat) ≠ 2000 := by decide
      simp only [PraHistory.record, Function.update_of_ne hne]
      refine ⟨?_, hstamp.2, hstamp.1⟩
      rw [hother 1 Nat.one_ne_zero, hf.filled.vaddr]
      rfl
    · have hne : (2001 : Nat) ≠ 2000 := by decide
      simp only [PraHistory.record, Held, hfill.obtained, hfill.returned]
      rw [Function.update_of_ne hne, hfreed.obtained, hf.filled.fresh 2001 (by decide)]
      exact Nat.not_lt_zero _

/-- The next replacement takes out the page it was filled with, whenever the victim is the one in
frame 0. -/
theorem Refilled.evicts {ctx : PraContext} {age : PraHistory → Nat → Nat} (hr : Refilled type h)
    (hselect : (faulted h.memory.ctx).selectVictim = some (0, ctx))
    (hframes : ctx.frames = h.memory.ctx.frames) (htype : ctx.type = h.memory.ctx.type)
    (hage : age h 2 < age h 2000) : ¬ EvictsFirst age h (.alloc true (some 2001)) := by
  intro hevicts
  have hpage : ∀ p ∈ some 2001, p ≠ 0 ∧ p < 2 ^ 32 ∧ ¬ Held h.memory p := by
    rintro p ⟨⟩
    exact ⟨by decide, by decide, hr.fresh⟩
  obtain ⟨r, m', v, hcall, hout, -, hfirst⟩ := hevicts hpage hr.full
  obtain ⟨m₁, hcall', -, -, hout'⟩ := alloc_full hr.linked hr.full hselect hframes
    htype true (some 2001)
  obtain rfl : m' = m₁ := congrArg Prod.snd (Option.some.inj (hcall.symm.trans hcall'))
  have hv : v = 2000 := (List.cons.inj (hout.symm.trans hout')).1.trans hr.newest.1
  have hle := hfirst 2 ⟨by decide, 1, by rw [hr.count]; decide, hr.older.1⟩
  rw [hv] at hle
  exact Nat.not_lt.mpr hle hage

/-- Under LRU the newest page goes out: it was accessed as often as the others, never. -/
theorem lru_evicts_newest :
    ¬ ∀ calls, Each historyStep (EvictsFirst PraHistory.lastUse) (historyStart .lru) calls := by
  intro hall
  obtain ⟨h, hrun, hr⟩ := refilled_run .lru
  have hselect := selectVictim_lru hr.type
  have hlru : h.memory.ctx.lruSelect = some 0 := by
    refine lruSelect_eq_some.mpr ⟨by rw [hr.reference]; decide, ?_, ?_, ?_⟩
    · rw [hr.count]
      decide
    · exact fun j hj => absurd hj (Nat.not_lt_zero j)
    · exact fun j _ => by rw [hr.reference, hr.reference]
  rw [hlru, Option.map_some] at hselect
  refine hr.evicts hselect rfl rfl ?_
    ((hall (refillCalls ++ [.alloc true (some 2001)])).at_append hrun)
  rw [hr.newest.2.2, hr.older.2.2]
  decide

/-- Under FIFO the newest page goes out: its frame comes first. -/
theorem fifo_evicts_newest :
    ¬ ∀ calls, Each historyStep (EvictsFirst PraHistory.allocated) (historyStart .fifo) calls := by
  intro hall
  obtain ⟨h, hrun, hr⟩ := refilled_run .fifo
  have hframe : h.memory.ctx.fifoFrame = 0 := by
    rw [PraContext.fifoFrame, hr.head]
    rfl
  have hselect := selectVictim_fifo hr.type
  rw [hframe] at hselect
  refine hr.evicts hselect rfl rfl ?_
    ((hall (refillCalls ++ [.alloc true (some 2001)])).at_append hrun)
  rw [hr.newest.2.1, hr.older.2.1]
  decide

end Refill

end ArmKernel.Mm

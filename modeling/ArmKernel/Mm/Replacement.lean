/-
Page replacement (`src/mm_pra.c`).

The frame table is indexed from 0 to `frameCount`; a frame with `vaddr` 0 is free. What
the calls do outside the table is kept beside it: the pages `mm_alloc_pages` gave and
`mm_free_pages` took back, counted per page, and the addresses `mmu_unmap_page` was
called with. `none` in place of a result stands for a call that uses a null frame.

`Conserved` is the law of the table: the pages obtained and not returned are the
addresses in the table, each in one frame. `pages_conserved_iff` says which runs keep it.
The victim of a replacement is not given back, and address 0 is found in every free
frame; these are the two ways out of it.
-/
import ArmKernel.Support.Run
import ArmKernel.Support.Word
import Mathlib.Logic.Function.Basic
import Mathlib.Data.List.Basic

namespace ArmKernel.Mm

open ArmKernel.Support

/-- `page_frame_t`; `next` is the index of a frame. -/
structure PageFrame where
  vaddr : Nat
  accessed : Nat
  dirty : Nat
  reference : Nat
  next : Option Nat

/-- `pra_type_t`. -/
inductive PraType where
  | fifo
  | clock
  | lru
  | nfu

/-- `pra_stats_t`. -/
structure PraStats where
  pageFaults : Nat
  pageIns : Nat
  pageOuts : Nat
  replacedPages : Nat

/-- `pra_context_t`, and `fifo_head`, the static variable of `fifo_select`. -/
structure PraContext where
  type : PraType
  frames : Nat → PageFrame
  frameCount : Nat
  clockHand : Nat
  stats : PraStats
  fifoHead : Option Nat

/-- The table, and what the calls did outside it. -/
structure PraMemory where
  ctx : PraContext
  obtained : Nat → Nat
  returned : Nat → Nat
  unmapped : List Nat

/-- `pra_init`, when `mm_alloc` succeeds, as the first call. -/
def praInit (type : PraType) : PraContext where
  type
  frames i :=
    { vaddr := 0, accessed := 0, dirty := 0, reference := 0
      next := if i < 1024 - 1 then some (i + 1) else none }
  frameCount := 1024
  clockHand := 0
  stats := { pageFaults := 0, pageIns := 0, pageOuts := 0, replacedPages := 0 }
  fifoHead := none

namespace PraContext

def setFrame (ctx : PraContext) (i : Nat) (frame : PageFrame) : PraContext :=
  { ctx with frames := Function.update ctx.frames i frame }

/-- The search all functions do: the first frame with this `vaddr`. -/
def findFrame (ctx : PraContext) (vaddr : Nat) : Option Nat :=
  (List.range ctx.frameCount).find? fun i => decide ((ctx.frames i).vaddr = vaddr)

/-- `fifo_select`. -/
def fifoSelect (ctx : PraContext) : Nat × PraContext :=
  let victim := ctx.fifoHead.getD 0
  (victim, { ctx with fifoHead := (ctx.frames victim).next })

/-- `clock_select`, in `rounds` passes of its loop. -/
def clockSelect : Nat → PraContext → Option (Nat × PraContext)
  | 0, _ => none
  | rounds + 1, ctx =>
    let i := ctx.clockHand
    let frame := ctx.frames i
    let ctx := { ctx with clockHand := wrap32 (ctx.clockHand + 1) % ctx.frameCount }
    if frame.accessed ≠ 0 then clockSelect rounds (ctx.setFrame i { frame with accessed := 0 })
    else some (i, ctx)

/-- `lru_select`: one pass of the loop over `(victim, min_ref)`. -/
def lruPass (ctx : PraContext) (state : Option Nat × Nat) (i : Nat) : Option Nat × Nat :=
  let ref := (ctx.frames i).reference
  if ref < state.2 then (some i, ref) else state

/-- `lru_select`. -/
def lruSelect (ctx : PraContext) : Option Nat :=
  ((List.range ctx.frameCount).foldl ctx.lruPass (none, 2 ^ 32 - 1)).1

/-- `nfu_select`: one pass of the loop. -/
def nfuPass (state : (Option Nat × Nat) × PraContext) (i : Nat) : (Option Nat × Nat) × PraContext :=
  let frame := state.2.frames i
  let ref := frame.reference / 2
  let ctx := state.2.setFrame i { frame with reference := ref }
  if ref < state.1.2 then ((some i, ref), ctx) else (state.1, ctx)

/-- `nfu_select`. -/
def nfuSelect (ctx : PraContext) : Option Nat × PraContext :=
  let state := (List.range ctx.frameCount).foldl nfuPass ((none, 2 ^ 32 - 1), ctx)
  (state.1.1, state.2)

/-- The choice of `pra_alloc_page`. The clock goes round at most once before it comes
back to a frame it has cleared. -/
def selectVictim (ctx : PraContext) : Option (Nat × PraContext) :=
  match ctx.type with
  | .fifo => some ctx.fifoSelect
  | .clock => clockSelect (ctx.frameCount + 1) ctx
  | .lru => ctx.lruSelect.map fun i => (i, ctx)
  | .nfu =>
    let (victim, ctx) := ctx.nfuSelect
    victim.map fun i => (i, ctx)

end PraContext

/-- The end of `pra_alloc_page`: `page` is the result of `mm_alloc_pages(1)`. -/
def installPage (m : PraMemory) (i : Nat) (page : Option Nat) : Option Nat × PraMemory :=
  match page with
  | none => (none, m)
  | some p =>
    let frame := { m.ctx.frames i with vaddr := p, accessed := 1, dirty := 0, reference := 0 }
    let ctx := m.ctx.setFrame i frame
    let stats := { ctx.stats with pageIns := wrap32 (ctx.stats.pageIns + 1) }
    (some p,
      { m with
        ctx := { ctx with stats }
        obtained := Function.update m.obtained p (m.obtained p + 1) })

/-- `pra_alloc_page`. `swapOut` says that `swap_out` succeeds, `page` is the result of
`mm_alloc_pages(1)`. -/
def praAllocPage (m : PraMemory) (swapOut : Bool) (page : Option Nat) :
    Option (Option Nat × PraMemory) :=
  match m.ctx.findFrame 0 with
  | some i => some (installPage m i page)
  | none =>
    let stats := { m.ctx.stats with pageFaults := wrap32 (m.ctx.stats.pageFaults + 1) }
    match { m.ctx with stats }.selectVictim with
    | none => none
    | some (i, ctx) =>
      let frame := ctx.frames i
      if frame.dirty ≠ 0 ∧ swapOut = false then some (none, { m with ctx })
      else
        let stats :=
          if frame.dirty ≠ 0 then { ctx.stats with pageOuts := wrap32 (ctx.stats.pageOuts + 1) }
          else ctx.stats
        let stats := { stats with replacedPages := wrap32 (stats.replacedPages + 1) }
        let m := { m with ctx := { ctx with stats }, unmapped := frame.vaddr :: m.unmapped }
        some (installPage m i page)

/-- `pra_free_page`. -/
def praFreePage (m : PraMemory) (addr : Nat) : PraMemory :=
  match m.ctx.findFrame addr with
  | none => m
  | some i =>
    let frame := { m.ctx.frames i with vaddr := 0, accessed := 0, dirty := 0, reference := 0 }
    { m with
      ctx := m.ctx.setFrame i frame
      returned := Function.update m.returned addr (m.returned addr + 1) }

/-- `pra_access_page`. -/
def praAccessPage (m : PraMemory) (addr : Nat) : PraMemory :=
  match m.ctx.findFrame addr with
  | none => m
  | some i =>
    let frame := m.ctx.frames i
    let reference := wrap32 (frame.reference + 1)
    let reference :=
      match m.ctx.type with
      | .nfu => reference ||| 0x80000000
      | _ => reference
    { m with ctx := m.ctx.setFrame i { frame with accessed := 1, reference } }

/-! ### The table -/

/-- Both tables hold the same pages. -/
structure SameTable (ctx ctx' : PraContext) : Prop where
  count : ctx'.frameCount = ctx.frameCount
  vaddr : ∀ i, (ctx'.frames i).vaddr = (ctx.frames i).vaddr

/-- The indices of a table stay inside it, and no page is dirty. -/
structure Linked (ctx : PraContext) : Prop where
  nonempty : 0 < ctx.frameCount
  next : ∀ i j, (ctx.frames i).next = some j → j < ctx.frameCount
  head : ∀ j, ctx.fifoHead = some j → j < ctx.frameCount
  hand : ctx.clockHand < ctx.frameCount
  clean : ∀ i, (ctx.frames i).dirty = 0

theorem SameTable.rfl {ctx : PraContext} : SameTable ctx ctx := ⟨Eq.refl _, fun _ => Eq.refl _⟩

theorem SameTable.trans {ctx ctx' ctx'' : PraContext} (h : SameTable ctx ctx')
    (h' : SameTable ctx' ctx'') : SameTable ctx ctx'' :=
  ⟨h'.count.trans h.count, fun i => (h'.vaddr i).trans (h.vaddr i)⟩

section Table

variable {ctx ctx' : PraContext} {i v : Nat} {frame : PageFrame}

theorem findFrame_eq_some (h : ctx.findFrame v = some i) :
    i < ctx.frameCount ∧ (ctx.frames i).vaddr = v := by
  constructor
  · exact List.mem_range.mp (List.mem_of_find?_eq_some h)
  · exact of_decide_eq_true (List.find?_some (p := fun j => (ctx.frames j).vaddr = v) h)

theorem findFrame_eq_none :
    ctx.findFrame v = none ↔ ∀ j < ctx.frameCount, (ctx.frames j).vaddr ≠ v := by
  simp [PraContext.findFrame]

/-- A store that keeps the address of a frame keeps the table. -/
theorem sameTable_setFrame (h : frame.vaddr = (ctx.frames i).vaddr) :
    SameTable ctx (ctx.setFrame i frame) where
  count := rfl
  vaddr j := by
    by_cases hj : j = i
    · subst hj
      simp [PraContext.setFrame, h]
    · simp [PraContext.setFrame, hj]

/-- A store that keeps the link and leaves the page clean keeps the indices. -/
theorem Linked.setFrame (h : Linked ctx) (hnext : frame.next = (ctx.frames i).next)
    (hdirty : frame.dirty = 0) : Linked (ctx.setFrame i frame) where
  nonempty := h.nonempty
  next j k hk := by
    by_cases hj : j = i
    · subst hj
      simp only [PraContext.setFrame, Function.update_self, hnext] at hk
      exact h.next j k hk
    · simp only [PraContext.setFrame, Function.update_of_ne hj] at hk
      exact h.next j k hk
  head := h.head
  hand := h.hand
  clean j := by
    by_cases hj : j = i
    · subst hj
      simp [PraContext.setFrame, hdirty]
    · simp [PraContext.setFrame, hj, h.clean j]

end Table

/-! ### The choice of a victim -/

section Victims

variable {ctx ctx' : PraContext} {i : Nat}

theorem fifoSelect_spec (h : Linked ctx) :
    ctx.fifoSelect.1 < ctx.frameCount ∧ SameTable ctx ctx.fifoSelect.2 ∧ Linked ctx.fifoSelect.2 := by
  have hvictim : ctx.fifoHead.getD 0 < ctx.frameCount := by
    cases hhead : ctx.fifoHead with
    | none => exact h.nonempty
    | some j => exact h.head j hhead
  exact ⟨hvictim, ⟨rfl, fun _ => rfl⟩,
    { nonempty := h.nonempty, next := h.next, head := fun j hj => h.next _ j hj, hand := h.hand
      clean := h.clean }⟩

theorem clockSelect_spec {rounds : Nat} (h : Linked ctx)
    (hselect : PraContext.clockSelect rounds ctx = some (i, ctx')) :
    i < ctx.frameCount ∧ SameTable ctx ctx' ∧ Linked ctx' := by
  induction rounds generalizing ctx with
  | zero => cases hselect
  | succ rounds ih =>
    have hmoved : Linked { ctx with clockHand := wrap32 (ctx.clockHand + 1) % ctx.frameCount } :=
      { nonempty := h.nonempty, next := h.next, head := h.head, clean := h.clean
        hand := Nat.mod_lt _ h.nonempty }
    rw [PraContext.clockSelect] at hselect
    split at hselect
    · have hspec := fun hcleared => ih hcleared hselect
      obtain ⟨hi, hsame, hlinked⟩ := hspec (hmoved.setFrame rfl (h.clean ctx.clockHand))
      refine ⟨hi, SameTable.trans (SameTable.trans ?_ (sameTable_setFrame ?_)) hsame, hlinked⟩
      · exact ⟨rfl, fun _ => rfl⟩
      · rfl
    · cases hselect
      exact ⟨h.hand, ⟨rfl, fun _ => rfl⟩, hmoved⟩

/-- The victim of `lru_select` is one of the frames looked at. -/
theorem lruPass_mem (l : List Nat) {state : Option Nat × Nat}
    (h : (l.foldl ctx.lruPass state).1 = some i) : state.1 = some i ∨ i ∈ l := by
  induction l generalizing state with
  | nil => exact Or.inl h
  | cons j l ih =>
    rcases ih h with hstate | hmem
    · unfold PraContext.lruPass at hstate
      simp only at hstate
      split at hstate
      · cases hstate
        exact Or.inr List.mem_cons_self
      · exact Or.inl hstate
    · exact Or.inr (List.mem_cons_of_mem j hmem)

/-- So is the victim of `nfu_select`, which changes references only. -/
theorem nfuPass_spec (l : List Nat) {state : (Option Nat × Nat) × PraContext} (h : Linked state.2) :
    SameTable state.2 (l.foldl PraContext.nfuPass state).2 ∧
      Linked (l.foldl PraContext.nfuPass state).2 ∧
      ∀ i, (l.foldl PraContext.nfuPass state).1.1 = some i → state.1.1 = some i ∨ i ∈ l := by
  induction l generalizing state with
  | nil => exact ⟨SameTable.rfl, h, fun i hi => Or.inl hi⟩
  | cons j l ih =>
    have hpass : SameTable state.2 (PraContext.nfuPass state j).2 ∧
        Linked (PraContext.nfuPass state j).2 ∧
        ∀ i, (PraContext.nfuPass state j).1.1 = some i → state.1.1 = some i ∨ i = j := by
      unfold PraContext.nfuPass
      simp only
      split
      · refine ⟨sameTable_setFrame rfl, h.setFrame rfl (h.clean j), ?_⟩
        intro i hi
        cases hi
        exact Or.inr rfl
      · exact ⟨sameTable_setFrame rfl, h.setFrame rfl (h.clean j), fun i hi => Or.inl hi⟩
    obtain ⟨hsame, hlinked, hvictim⟩ := hpass
    obtain ⟨hsame', hlinked', hvictim'⟩ := ih hlinked
    refine ⟨hsame.trans hsame', hlinked', ?_⟩
    intro i hi
    rcases hvictim' i hi with hstate | hmem
    · rcases hvictim i hstate with hstate | hij
      · exact Or.inl hstate
      · exact Or.inr (hij ▸ List.mem_cons_self)
    · exact Or.inr (List.mem_cons_of_mem j hmem)

/-- **The victim.** Every policy chooses a frame of the table and keeps the table. -/
theorem selectVictim_spec (h : Linked ctx) (hselect : ctx.selectVictim = some (i, ctx')) :
    i < ctx.frameCount ∧ SameTable ctx ctx' ∧ Linked ctx' := by
  unfold PraContext.selectVictim at hselect
  split at hselect
  · have hspec := fifoSelect_spec h
    cases hselect
    exact hspec
  · exact clockSelect_spec h hselect
  · obtain ⟨j, hj, heq⟩ := Option.map_eq_some_iff.mp hselect
    cases heq
    rcases lruPass_mem _ hj with hnone | hmem
    · cases hnone
    · exact ⟨List.mem_range.mp hmem, SameTable.rfl, h⟩
  · obtain ⟨j, hj, heq⟩ := Option.map_eq_some_iff.mp hselect
    have hstart : Linked ((((none, 2 ^ 32 - 1), ctx) : (Option Nat × Nat) × PraContext)).2 := h
    obtain ⟨hsame, hlinked, hvictim⟩ := nfuPass_spec (List.range ctx.frameCount) hstart
    have hmem := hvictim j hj
    cases heq
    rcases hmem with hnone | hmem
    · cases hnone
    · exact ⟨List.mem_range.mp hmem, hsame, hlinked⟩

end Victims

/-! ### Conservation -/

/-- The page was obtained and is not returned. -/
def Held (m : PraMemory) (p : Nat) : Prop := m.returned p < m.obtained p

/-- The page is in the table. -/
def Resident (m : PraMemory) (p : Nat) : Prop :=
  p ≠ 0 ∧ ∃ i < m.ctx.frameCount, (m.ctx.frames i).vaddr = p

/-- A frame is free. -/
def HasFree (m : PraMemory) : Prop := ∃ i < m.ctx.frameCount, (m.ctx.frames i).vaddr = 0

/-- The pages obtained and not returned are the pages in the table, each in one frame,
and no page is returned more often than it was obtained. -/
structure Conserved (m : PraMemory) : Prop where
  held : ∀ p, Held m p ↔ Resident m p
  single : ∀ i < m.ctx.frameCount, ∀ j < m.ctx.frameCount,
    (m.ctx.frames i).vaddr = (m.ctx.frames j).vaddr → (m.ctx.frames i).vaddr ≠ 0 → i = j
  once : ∀ p, m.returned p ≤ m.obtained p ∧ m.obtained p ≤ m.returned p + 1

/-- A call of `pra_alloc_page`, with what the system answers it, of `pra_free_page` or of
`pra_access_page`. -/
inductive PraCall where
  | alloc (swapOut : Bool) (page : Option Nat)
  | free (addr : Nat)
  | access (addr : Nat)

instance (m : PraMemory) (p : Nat) : Decidable (Held m p) :=
  inferInstanceAs (Decidable (_ < _))

/-- One call. `mm_alloc_pages` gives a page that is not held, or none. -/
def praStep (m : PraMemory) : PraCall → Option PraMemory
  | .alloc swapOut page =>
    if ∀ p ∈ page, p ≠ 0 ∧ p < 2 ^ 32 ∧ ¬ Held m p then (praAllocPage m swapOut page).map Prod.snd
    else none
  | .free addr => some (praFreePage m addr)
  | .access addr => some (praAccessPage m addr)

/-- The call is one of `pra_free_page` or `pra_access_page` on a page that is not in the
table. -/
def Misses (m : PraMemory) : PraCall → Prop
  | .alloc _ _ => False
  | .free addr | .access addr => ¬ Resident m addr

/-- The call keeps the law of the table, and changes nothing when it misses. -/
def KeepsPages (m : PraMemory) (call : PraCall) : Prop :=
  ∀ m', praStep m call = some m' → Conserved m' ∧ (Misses m call → m' = m)

/-- An allocation finds a free frame or gets no page; address 0 is not freed or accessed
while a frame is free. -/
def NoReplacement (m : PraMemory) : PraCall → Prop
  | .alloc _ page => page = none ∨ HasFree m
  | .free addr | .access addr => addr = 0 → ¬ HasFree m

section Calls

variable {m m' : PraMemory} {i p addr : Nat}

/-- A table with the same pages and the same counts is conserved alike. -/
theorem Conserved.of_sameTable (h : Conserved m) (hsame : SameTable m.ctx m'.ctx)
    (hobtained : m'.obtained = m.obtained) (hreturned : m'.returned = m.returned) :
    Conserved m' := by
  constructor
  · intro q
    unfold Held Resident
    rw [hobtained, hreturned, hsame.count]
    simp only [hsame.vaddr]
    exact h.held q
  · intro j hj k hk
    rw [hsame.count] at hj hk
    rw [hsame.vaddr, hsame.vaddr]
    exact h.single j hj k hk
  · intro q
    rw [hobtained, hreturned]
    exact h.once q

/-- One frame gets the address `x`, which no other frame has. -/
structure Readdressed (m m' : PraMemory) (i x : Nat) : Prop where
  here : i < m.ctx.frameCount
  count : m'.ctx.frameCount = m.ctx.frameCount
  vaddr : ∀ j, (m'.ctx.frames j).vaddr = if j = i then x else (m.ctx.frames j).vaddr
  apart : x ≠ 0 → ∀ j < m.ctx.frameCount, j ≠ i → (m.ctx.frames j).vaddr ≠ x

theorem Readdressed.single {x : Nat} (hr : Readdressed m m' i x) (h : Conserved m) :
    ∀ j < m'.ctx.frameCount, ∀ k < m'.ctx.frameCount,
      (m'.ctx.frames j).vaddr = (m'.ctx.frames k).vaddr → (m'.ctx.frames j).vaddr ≠ 0 → j = k := by
  intro j hj k hk
  rw [hr.count] at hj hk
  rw [hr.vaddr, hr.vaddr]
  intro heq hne
  by_cases hji : j = i
  · by_cases hki : k = i
    · rw [hji, hki]
    · rw [if_pos hji, if_neg hki] at heq
      rw [if_pos hji] at hne
      exact absurd heq.symm (hr.apart hne k hk hki)
  · by_cases hki : k = i
    · rw [if_neg hji, if_pos hki] at heq
      rw [if_neg hji, heq] at hne
      exact absurd heq (hr.apart hne j hj hji)
    · rw [if_neg hji, if_neg hki] at heq
      rw [if_neg hji] at hne
      exact h.single j hj k hk heq hne

/-- The new address is in the table, and the old one is not. -/
theorem Readdressed.resident {x : Nat} (hr : Readdressed m m' i x) (h : Conserved m) (q : Nat) :
    Resident m' q ↔ q ≠ 0 ∧ (q = x ∨ q ≠ (m.ctx.frames i).vaddr ∧ Resident m q) := by
  apply and_congr_right
  intro hq
  constructor
  · rintro ⟨j, hj, heq⟩
    rw [hr.count] at hj
    rw [hr.vaddr] at heq
    by_cases hji : j = i
    · rw [if_pos hji] at heq
      exact .inl heq.symm
    · rw [if_neg hji] at heq
      refine .inr ⟨fun hold => hji ?_, hq, j, hj, heq⟩
      exact h.single j hj i hr.here (heq.trans hold) (heq ▸ hq)
  · rintro (rfl | ⟨hold, -, j, hj, heq⟩)
    · exact ⟨i, hr.count ▸ hr.here, (hr.vaddr i).trans (if_pos rfl)⟩
    · have hji : j ≠ i := fun e => hold (e ▸ heq.symm)
      exact ⟨j, hr.count ▸ hj, (hr.vaddr j).trans ((if_neg hji).trans heq)⟩

/-- A new page in a free frame. -/
theorem conserved_install (h : Conserved m) (hi : i < m.ctx.frameCount)
    (hfree : (m.ctx.frames i).vaddr = 0) (hp : p ≠ 0) (hheld : ¬ Held m p) :
    Conserved (installPage m i (some p)).2 := by
  have hr : Readdressed m (installPage m i (some p)).2 i p :=
    { here := hi
      count := rfl
      vaddr := fun j => by
        by_cases hj : j = i
        · subst hj
          simp [installPage, PraContext.setFrame]
        · simp [installPage, PraContext.setFrame, hj]
      apart := fun _ j hj _ heq => hheld ((h.held p).mpr ⟨hp, j, hj, heq⟩) }
  have hbalance : m.obtained p = m.returned p :=
    Nat.le_antisymm (Nat.not_lt.mp hheld) (h.once p).1
  refine ⟨?_, hr.single h, ?_⟩
  · intro q
    rw [hr.resident h q, hfree]
    by_cases hq : q = p
    · subst hq
      have hnow : Held (installPage m i (some q)).2 q := by
        simp [Held, installPage, hbalance]
      exact iff_of_true hnow ⟨hp, .inl rfl⟩
    · have hsame : Held (installPage m i (some p)).2 q ↔ Held m q := by
        simp [Held, installPage, hq]
      rw [hsame, h.held q]
      exact ⟨fun hres => ⟨hres.1, .inr ⟨hres.1, hres⟩⟩, fun hres => (hres.2.resolve_left hq).2⟩
  · intro q
    by_cases hq : q = p
    · subst hq
      simp [installPage, hbalance]
    · simpa [installPage, hq] using h.once q

/-- A page given back. -/
theorem conserved_free (h : Conserved m) (haddr : addr ≠ 0) : Conserved (praFreePage m addr) := by
  cases hfind : m.ctx.findFrame addr with
  | none =>
    rw [praFreePage, hfind]
    exact h
  | some i =>
    obtain ⟨hi, hvaddr⟩ := findFrame_eq_some hfind
    have hheld : m.returned addr < m.obtained addr := (h.held addr).mpr ⟨haddr, i, hi, hvaddr⟩
    have hbalance : m.obtained addr = m.returned addr + 1 :=
      Nat.le_antisymm (h.once addr).2 hheld
    have hr : Readdressed m (praFreePage m addr) i 0 :=
      { here := hi
        count := by simp [praFreePage, hfind, PraContext.setFrame]
        vaddr := fun j => by
          by_cases hj : j = i
          · subst hj
            simp [praFreePage, hfind, PraContext.setFrame]
          · simp [praFreePage, hfind, PraContext.setFrame, hj]
        apart := fun hne => absurd rfl hne }
    refine ⟨?_, hr.single h, ?_⟩
    · intro q
      rw [hr.resident h q, hvaddr]
      by_cases hq : q = addr
      · subst hq
        have hnow : ¬ Held (praFreePage m q) q := by
          simp [Held, praFreePage, hfind, hbalance]
        exact iff_of_false hnow fun hres => (hres.2.resolve_left haddr).1 rfl
      · have hsame : Held (praFreePage m addr) q ↔ Held m q := by
          simp [Held, praFreePage, hfind, hq]
        rw [hsame, h.held q]
        exact ⟨fun hres => ⟨hres.1, .inr ⟨hq, hres⟩⟩, fun hres => (hres.2.resolve_left hres.1).2⟩
    · intro q
      by_cases hq : q = addr
      · subst hq
        simp [praFreePage, hfind, hbalance]
      · simpa [praFreePage, hfind, hq] using h.once q

/-- An access. -/
theorem conserved_access (h : Conserved m) : Conserved (praAccessPage m addr) := by
  unfold praAccessPage
  split
  · exact h
  · exact h.of_sameTable (sameTable_setFrame rfl) rfl rfl

/-- **A call of `pra_alloc_page`.** It fills a free frame; or no frame is free, it
chooses a victim, and fills the victim's frame. -/
theorem praAllocPage_cases {swapOut : Bool} {page r : Option Nat} (h : Linked m.ctx)
    (hcall : praAllocPage m swapOut page = some (r, m')) :
    ∃ m₁ i, i < m.ctx.frameCount ∧ SameTable m.ctx m₁.ctx ∧ Linked m₁.ctx ∧
      m₁.obtained = m.obtained ∧ m₁.returned = m.returned ∧ (r, m') = installPage m₁ i page ∧
      ((m₁ = m ∧ (m.ctx.frames i).vaddr = 0) ∨ ¬ HasFree m) := by
  unfold praAllocPage at hcall
  split at hcall
  · rename_i i hfind
    obtain ⟨hi, hvaddr⟩ := findFrame_eq_some hfind
    exact ⟨m, i, hi, SameTable.rfl, h, rfl, rfl, (Option.some.inj hcall).symm, Or.inl ⟨rfl, hvaddr⟩⟩
  · rename_i hfind
    have hfull : ¬ HasFree m := fun ⟨j, hj, hfree⟩ => findFrame_eq_none.mp hfind j hj hfree
    simp only at hcall
    split at hcall
    · cases hcall
    · rename_i i ctx hselect
      have hcounted : Linked { m.ctx with
          stats := { m.ctx.stats with pageFaults := wrap32 (m.ctx.stats.pageFaults + 1) } } :=
        ⟨h.nonempty, h.next, h.head, h.hand, h.clean⟩
      obtain ⟨hi, hsame, hlinked⟩ := selectVictim_spec hcounted hselect
      -- No page is dirty, so nothing is swapped out.
      rw [if_neg fun hdirty => hdirty.1 (hlinked.clean i)] at hcall
      refine ⟨_, i, hi, ?_, ?_, ?_, ?_, (Option.some.inj hcall).symm, Or.inr hfull⟩
      · exact ⟨hsame.count, hsame.vaddr⟩
      · exact ⟨hlinked.nonempty, hlinked.next, hlinked.head, hlinked.hand, hlinked.clean⟩
      · rfl
      · rfl

/-- What the table and its indices keep. -/
structure PraInv (m : PraMemory) : Prop where
  conserved : Conserved m
  linked : Linked m.ctx

/-- An access always changes the reference of the frame it finds. -/
theorem reference_changes (reference : Nat) :
    wrap32 (reference + 1) ≠ reference ∧ wrap32 (reference + 1) ||| 0x80000000 ≠ reference := by
  constructor
  · unfold wrap32
    omega
  · intro heq
    have hlow : 0x80000000 ≤ reference := heq ▸ Nat.right_le_or
    have hle : wrap32 (reference + 1) ≤ reference := le_of_le_of_eq Nat.left_le_or heq
    have hlt : reference < 2 ^ 32 := heq ▸ Nat.or_lt_two_pow (wrap32_lt _) (by decide)
    have htop : reference + 1 = 2 ^ 32 := by
      unfold wrap32 at hle
      omega
    rw [htop] at heq
    have hmid : (0x80000000 : Nat) = reference := heq
    omega

/-- A miss changes nothing, unless address 0 finds a free frame. -/
theorem findFrame_of_misses (haddr : addr = 0 → ¬ HasFree m) (h : ¬ Resident m addr) :
    m.ctx.findFrame addr = none := by
  rw [findFrame_eq_none]
  intro j hj heq
  by_cases h0 : addr = 0
  · exact haddr h0 ⟨j, hj, heq.trans h0⟩
  · exact h ⟨h0, j, hj, heq⟩

theorem Linked.install {page : Option Nat} (h : Linked m.ctx) :
    Linked (installPage m i page).2.ctx := by
  cases page with
  | none => exact h
  | some p =>
    have hset : Linked (m.ctx.setFrame i { m.ctx.frames i with
        vaddr := p, accessed := 1, dirty := 0, reference := 0 }) := h.setFrame rfl rfl
    exact ⟨hset.nonempty, hset.next, hset.head, hset.hand, hset.clean⟩

theorem praStep_alloc {swapOut : Bool} {page : Option Nat}
    (h : praStep m (.alloc swapOut page) = some m') :
    (∀ p ∈ page, p ≠ 0 ∧ p < 2 ^ 32 ∧ ¬ Held m p) ∧
      ∃ r, praAllocPage m swapOut page = some (r, m') := by
  rw [praStep] at h
  split at h
  · rename_i hpage
    obtain ⟨⟨r, _⟩, hcall, rfl⟩ := Option.map_eq_some_iff.mp h
    exact ⟨hpage, r, hcall⟩
  · cases h

/-- **One call without a replacement.** -/
theorem praInv_step {call : PraCall} (hinv : PraInv m) (hok : NoReplacement m call)
    (hstep : praStep m call = some m') : PraInv m' := by
  cases call with
  | alloc swapOut page =>
    obtain ⟨hpage, r, hcall⟩ := praStep_alloc hstep
    obtain ⟨m₁, i, hi, hsame, hlinked, hobtained, hreturned, hinstall, hfrom⟩ :=
      praAllocPage_cases hinv.linked hcall
    obtain rfl : m' = (installPage m₁ i page).2 := congrArg Prod.snd hinstall
    cases page with
    | none => exact ⟨hinv.conserved.of_sameTable hsame hobtained hreturned, hlinked⟩
    | some p =>
      obtain ⟨hp, -, hheld⟩ := hpage p rfl
      have hfree := hok.resolve_left (Option.some_ne_none p)
      rcases hfrom with ⟨rfl, hvaddr⟩ | hfull
      · exact ⟨conserved_install hinv.conserved hi hvaddr hp hheld, hlinked.install⟩
      · exact absurd hfree hfull
  | free addr =>
    cases hstep
    by_cases haddr : addr = 0
    · have hnone : m.ctx.findFrame addr = none :=
        findFrame_of_misses hok fun hres => hres.1 haddr
      rw [praFreePage, hnone]
      exact hinv
    · refine ⟨conserved_free hinv.conserved haddr, ?_⟩
      unfold praFreePage
      split
      · exact hinv.linked
      · exact hinv.linked.setFrame rfl rfl
  | access addr =>
    cases hstep
    refine ⟨conserved_access hinv.conserved, ?_⟩
    unfold praAccessPage
    split
    · exact hinv.linked
    · exact hinv.linked.setFrame rfl (hinv.linked.clean _)

/-- **A replacement** loses the page of the victim. -/
theorem not_conserved_of_replacement {swapOut : Bool} {r : Option Nat} (hinv : PraInv m)
    (hfull : ¬ HasFree m) (hheld : ¬ Held m p)
    (hcall : praAllocPage m swapOut (some p) = some (r, m')) : ¬ Conserved m' := by
  obtain ⟨m₁, i, hi, hsame, -, hobtained, hreturned, hinstall, hfrom⟩ :=
    praAllocPage_cases hinv.linked hcall
  cases hinstall
  intro hafter
  generalize hv : (m.ctx.frames i).vaddr = v at *
  have hv0 : v ≠ 0 := fun h0 => hfull ⟨i, hi, hv.trans h0⟩
  have hheldv : Held m v := (hinv.conserved.held v).mpr ⟨hv0, i, hi, hv⟩
  have hvp : v ≠ p := fun heq => hheld (heq ▸ hheldv)
  have hstill : Held (installPage m₁ i (some p)).2 v := by
    unfold Held at *
    simp only [installPage, Function.update_of_ne hvp, hobtained, hreturned]
    exact hheldv
  obtain ⟨-, j, hj, hjv⟩ := (hafter.held v).mp hstill
  simp only [PraContext.setFrame] at hj hjv
  rw [hsame.count] at hj
  by_cases hji : j = i
  · subst hji
    rw [Function.update_self] at hjv
    exact hvp hjv.symm
  · rw [Function.update_of_ne hji, hsame.vaddr] at hjv
    exact hji (hinv.conserved.single j hj i hi (hjv.trans hv.symm) (hjv ▸ hv0))

/-- A page is found when a frame has it. -/
theorem exists_findFrame (hi : i < m.ctx.frameCount) (hvaddr : (m.ctx.frames i).vaddr = addr) :
    ∃ j, m.ctx.findFrame addr = some j := by
  cases hfind : m.ctx.findFrame addr with
  | none => exact absurd hvaddr (findFrame_eq_none.mp hfind i hi)
  | some j => exact ⟨j, rfl⟩

/-- **What one call keeps.** A call keeps the law of the table and misses silently exactly
when it replaces nothing and does not take a free frame for a page. -/
theorem keepsPages_iff {call : PraCall} (hinv : PraInv m) :
    KeepsPages m call ↔ ∀ m', praStep m call = some m' → NoReplacement m call := by
  constructor
  · intro hkeeps m' hstep
    obtain ⟨hconserved, hmiss⟩ := hkeeps m' hstep
    cases call with
    | alloc swapOut page =>
      cases page with
      | none => exact Or.inl rfl
      | some p =>
        refine Or.inr (Classical.byContradiction ?_)
        intro hfull
        obtain ⟨hpage, r, hcall⟩ := praStep_alloc hstep
        exact not_conserved_of_replacement hinv hfull (hpage p rfl).2.2 hcall hconserved
    | free addr =>
      rintro rfl ⟨i, hi, hfree⟩
      cases hstep
      obtain ⟨j, hfind⟩ := exists_findFrame hi hfree
      -- Page 0 was never obtained, and is returned here.
      have hnone : m.obtained 0 ≤ m.returned 0 :=
        Nat.not_lt.mp fun hheld => ((hinv.conserved.held 0).mp hheld).1 rfl
      have honce := (hconserved.once 0).1
      rw [praFreePage, hfind] at honce
      simp only [Function.update_self] at honce
      exact absurd hnone (Nat.not_le.mpr honce)
    | access addr =>
      rintro rfl ⟨i, hi, hfree⟩
      cases hstep
      obtain ⟨j, hfind⟩ := exists_findFrame hi hfree
      have hsame := hmiss fun hres => hres.1 rfl
      rw [praAccessPage, hfind] at hsame
      have href := congrArg (fun m => (m.ctx.frames j).reference) hsame
      obtain ⟨hplain, hnfu⟩ := reference_changes (m.ctx.frames j).reference
      simp only [PraContext.setFrame, Function.update_self] at href
      split at href
      · exact hnfu href
      · exact hplain href
  · intro hok m' hstep
    have hno := hok m' hstep
    refine ⟨(praInv_step hinv hno hstep).conserved, ?_⟩
    intro hmiss
    cases call with
    | alloc swapOut page => exact hmiss.elim
    | free addr =>
      cases hstep
      rw [praFreePage, findFrame_of_misses hno hmiss]
    | access addr =>
      cases hstep
      rw [praAccessPage, findFrame_of_misses hno hmiss]

end Calls

/-- The table as `pra_init` leaves it, with no page obtained. -/
def praStart (type : PraType) : PraMemory :=
  { ctx := praInit type, obtained := fun _ => 0, returned := fun _ => 0, unmapped := [] }

theorem praInv_start (type : PraType) : PraInv (praStart type) := by
  constructor
  · constructor
    · intro p
      refine iff_of_false (Nat.lt_irrefl 0) ?_
      rintro ⟨hp, i, -, hi⟩
      exact hp hi.symm
    · intro i _ j _ _ hne
      exact absurd rfl hne
    · exact fun _ => ⟨Nat.le_refl 0, Nat.zero_le 1⟩
  · refine ⟨Nat.zero_lt_succ 1023, ?_, ?_, Nat.zero_lt_succ 1023, fun _ => rfl⟩
    · intro i j hj
      simp only [praStart, praInit] at hj ⊢
      split at hj
      · cases hj
        omega
      · cases hj
    · intro j hj
      cases hj

/-- **Conservation of pages.** For every replacement type and every run of calls after
`pra_init`. -/
theorem pages_conserved_iff (type : PraType) (calls : List PraCall) :
    Each praStep KeepsPages (praStart type) calls ↔
      Meets praStep NoReplacement (praStart type) calls :=
  each_iff_meets (fun _ _ _ hinv hok hstep => praInv_step hinv hok hstep)
    (fun _ _ hinv => keepsPages_iff hinv) (praInv_start type) calls

/-- `pra_free_page(0)` right after `pra_init` returns page 0, which was never obtained. -/
theorem free_zero_returns_page :
    (praFreePage (praStart .fifo) 0).returned 0 = 1 ∧ (praStart .fifo).obtained 0 = 0 ∧
      ¬ ∀ type calls, Each praStep KeepsPages (praStart type) calls := by
  obtain ⟨j, hfind⟩ : ∃ j, (praStart .fifo).ctx.findFrame 0 = some j :=
    exists_findFrame (Nat.zero_lt_succ 1023) rfl
  have hreturned : (praFreePage (praStart .fifo) 0).returned 0 = 1 := by
    rw [praFreePage, hfind]
    rfl
  have hobtained : (praFreePage (praStart .fifo) 0).obtained 0 = 0 := by
    rw [praFreePage, hfind]
    rfl
  refine ⟨hreturned, rfl, ?_⟩
  intro hall
  have honce := (((hall .fifo [.free 0]).1 _ rfl).1.once 0).1
  rw [hreturned, hobtained] at honce
  exact absurd honce (Nat.not_succ_le_zero 0)

end ArmKernel.Mm

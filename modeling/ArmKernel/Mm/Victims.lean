/-
The clock, and allocations that fail (`src/mm_pra.c`, lines 57 to 68 and 104 to 168).

`clock_select` has no bound on its loop. `passed ctx k` is the table after `k` frames
got their second chance, and `SecondChance` says what one call does, for any table:
`clock_gives_second_chance`.

`pra_alloc_page` takes the victim out before it asks for a page. `FailsCleanly` says that
a call that returns `NULL` changes nothing, and `failed_alloc_iff` which runs keep that.
-/
import ArmKernel.Mm.Replacement
import ArmKernel.Support.Circular
import Mathlib.Data.Nat.Find

namespace ArmKernel.Mm

open ArmKernel.Support

/-! ### Second chances -/

/-- The frame `j` places behind the hand. -/
def PraContext.behindHand (ctx : PraContext) (j : Nat) : Nat :=
  index ctx.frameCount ctx.clockHand j

/-- The table when the `k` frames from the hand on got their second chance. -/
def PraContext.passed (ctx : PraContext) : Nat → PraContext
  | 0 => ctx
  | k + 1 =>
    let before := ctx.passed k
    let frame := before.frames before.clockHand
    { before.setFrame before.clockHand { frame with accessed := 0 } with
      clockHand := index ctx.frameCount before.clockHand 1 }

/-- What one call of `clock_select` does: `chances` frames from the hand on were accessed
and lose their bit, and the frame behind them is the victim. -/
structure SecondChance (ctx : PraContext) (chances victim : Nat) (after : PraContext) : Prop where
  bounded : chances ≤ ctx.frameCount
  place : victim = ctx.behindHand chances
  passed : ∀ j < chances, (ctx.frames (ctx.behindHand j)).accessed ≠ 0
  stopped : chances < ctx.frameCount ∧ (ctx.frames victim).accessed = 0 ∨
    chances = ctx.frameCount ∧ victim = ctx.clockHand ∧
      ∀ i < ctx.frameCount, (ctx.frames i).accessed ≠ 0
  cleared : ∀ j < chances, after.frames (ctx.behindHand j) =
    { ctx.frames (ctx.behindHand j) with accessed := 0 }
  kept : ∀ i, (∀ j < chances, i ≠ ctx.behindHand j) → after.frames i = ctx.frames i
  hand : after.clockHand = (victim + 1) % ctx.frameCount ∧ after.clockHand < ctx.frameCount
  rest : after = { ctx with frames := after.frames, clockHand := after.clockHand }

section Clock

variable {ctx ctx' : PraContext} {i j k n rounds : Nat}

/-- Passing frames moves the hand and clears bits, nothing else. -/
theorem passed_rest (ctx : PraContext) (k : Nat) :
    ctx.passed k =
      { ctx with frames := (ctx.passed k).frames, clockHand := (ctx.passed k).clockHand } := by
  induction k with
  | zero => rfl
  | succ k ih =>
    rw [PraContext.passed, ih]
    rfl

theorem passed_count (ctx : PraContext) (k : Nat) : (ctx.passed k).frameCount = ctx.frameCount := by
  rw [passed_rest]

theorem passed_hand (hhand : ctx.clockHand < ctx.frameCount) (k : Nat) :
    (ctx.passed k).clockHand = ctx.behindHand k := by
  induction k with
  | zero => exact (index_zero hhand).symm
  | succ k ih =>
    calc (ctx.passed (k + 1)).clockHand
        = index ctx.frameCount (ctx.passed k).clockHand 1 := rfl
      _ = ctx.behindHand (k + 1) := by rw [ih, PraContext.behindHand, index_index]; rfl

/-- The frame under the hand is cleared, the others are as they were. -/
theorem passed_frames (hhand : ctx.clockHand < ctx.frameCount) (k i : Nat) :
    (ctx.passed (k + 1)).frames i =
      if i = ctx.behindHand k then { (ctx.passed k).frames i with accessed := 0 }
      else (ctx.passed k).frames i := by
  rw [← passed_hand hhand k]
  by_cases hi : i = (ctx.passed k).clockHand
  · subst hi
    rw [if_pos rfl]
    exact Function.update_self _ _ _
  · rw [if_neg hi]
    exact Function.update_of_ne hi _ _

/-- A frame the hand has not come to is as it was. -/
theorem passed_kept (hhand : ctx.clockHand < ctx.frameCount)
    (hi : ∀ j < k, i ≠ ctx.behindHand j) : (ctx.passed k).frames i = ctx.frames i := by
  induction k with
  | zero => rfl
  | succ k ih =>
    rw [passed_frames hhand, if_neg (hi k (Nat.lt_succ_self k))]
    exact ih fun j hj => hi j (Nat.lt_succ_of_lt hj)

/-- In one round the hand comes to each frame once. -/
theorem behindHand_ne (hj : j < ctx.frameCount) (hij : i < j) :
    ctx.behindHand j ≠ ctx.behindHand i := by
  intro heq
  have hsame : j = i := index_inj hj (Nat.lt_trans hij hj) heq
  exact Nat.ne_of_gt hij hsame

/-- Each frame is behind the hand. -/
theorem exists_behindHand (hhand : ctx.clockHand < ctx.frameCount) (hi : i < ctx.frameCount) :
    ∃ j < ctx.frameCount, ctx.behindHand j = i := by
  unfold PraContext.behindHand index
  rcases Nat.lt_or_ge i ctx.clockHand with hlt | hge
  · refine ⟨ctx.frameCount - ctx.clockHand + i, by omega, ?_⟩
    have hround : ctx.clockHand + (ctx.frameCount - ctx.clockHand + i) = i + ctx.frameCount := by
      omega
    rw [hround, Nat.add_mod_right, Nat.mod_eq_of_lt hi]
  · refine ⟨i - ctx.clockHand, by omega, ?_⟩
    rw [Nat.add_sub_cancel' hge, Nat.mod_eq_of_lt hi]

/-- A frame the hand has come to lost its bit and nothing else. -/
theorem passed_cleared (hhand : ctx.clockHand < ctx.frameCount) (hk : k ≤ ctx.frameCount)
    (hj : j < k) : (ctx.passed k).frames (ctx.behindHand j) =
      { ctx.frames (ctx.behindHand j) with accessed := 0 } := by
  induction k with
  | zero => exact absurd hj (Nat.not_lt_zero j)
  | succ k ih =>
    rw [passed_frames hhand]
    rcases Nat.lt_succ_iff_lt_or_eq.mp hj with hlt | rfl
    · rw [ih (Nat.le_of_succ_le hk) hlt, ite_self]
    · rw [if_pos rfl, passed_kept hhand fun m hm => behindHand_ne hk hm]

/-- **One pass of the loop.** A frame with its bit set is passed, the next one is the victim. -/
theorem clockSelect_succ (hcount : ctx.frameCount < 2 ^ 32) (hhand : ctx.clockHand < ctx.frameCount)
    (k rounds : Nat) :
    PraContext.clockSelect (rounds + 1) (ctx.passed k) =
      if ((ctx.passed k).frames (ctx.behindHand k)).accessed ≠ 0 then
        PraContext.clockSelect rounds (ctx.passed (k + 1))
      else
        some (ctx.behindHand k, { ctx.passed k with clockHand := ctx.behindHand (k + 1) }) := by
  have hnext : index ctx.frameCount (ctx.behindHand k) 1 = ctx.behindHand (k + 1) := index_index
  have hmove : wrap32 (ctx.behindHand k + 1) % (ctx.passed k).frameCount =
      ctx.behindHand (k + 1) := by
    have hlt : ctx.behindHand k < ctx.frameCount := index_lt (Nat.zero_lt_of_lt hhand)
    rw [passed_count, wrap32_of_lt (Nat.lt_of_le_of_lt hlt hcount)]
    exact hnext
  rw [PraContext.clockSelect]
  simp only [passed_hand hhand, hmove]
  rw [PraContext.passed]
  simp only [passed_hand hhand, hnext]
  rfl

/-- Frames with their bit set are passed. -/
theorem clockSelect_add (hcount : ctx.frameCount < 2 ^ 32) (hhand : ctx.clockHand < ctx.frameCount)
    (hk : k ≤ ctx.frameCount) (hset : ∀ j < k, (ctx.frames (ctx.behindHand j)).accessed ≠ 0) :
    PraContext.clockSelect (k + rounds) ctx = PraContext.clockSelect rounds (ctx.passed k) := by
  induction k generalizing rounds with
  | zero => rw [Nat.zero_add, PraContext.passed]
  | succ k ih =>
    have hsame : (ctx.passed k).frames (ctx.behindHand k) = ctx.frames (ctx.behindHand k) :=
      passed_kept hhand fun j hj => behindHand_ne hk hj
    rw [Nat.add_assoc, Nat.add_comm 1 rounds,
      ih (Nat.le_of_succ_le hk) fun j hj => hset j (Nat.lt_succ_of_lt hj),
      clockSelect_succ hcount hhand, hsame, if_pos (hset k (Nat.lt_succ_self k))]

/-- A frame behind `k` passed ones, with its bit clear by then, is the victim. -/
theorem secondChance_of_passed (hcount : ctx.frameCount < 2 ^ 32)
    (hhand : ctx.clockHand < ctx.frameCount) (hk : k ≤ ctx.frameCount)
    (hset : ∀ j < k, (ctx.frames (ctx.behindHand j)).accessed ≠ 0)
    (hclear : ((ctx.passed k).frames (ctx.behindHand k)).accessed = 0)
    (hstop : k < ctx.frameCount ∧ (ctx.frames (ctx.behindHand k)).accessed = 0 ∨
      k = ctx.frameCount ∧ ctx.behindHand k = ctx.clockHand ∧
        ∀ i < ctx.frameCount, (ctx.frames i).accessed ≠ 0) :
    ∃ victim after, SecondChance ctx k victim after ∧
      ∀ rounds, PraContext.clockSelect rounds ctx =
        if rounds ≤ k then none else some (victim, after) := by
  refine ⟨ctx.behindHand k, { ctx.passed k with clockHand := ctx.behindHand (k + 1) }, ?_, ?_⟩
  · exact
      { bounded := hk
        place := rfl
        passed := hset
        stopped := hstop
        cleared := fun j hj => passed_cleared hhand hk hj
        kept := fun i hi => passed_kept hhand hi
        hand := ⟨index_index.symm, index_lt (Nat.zero_lt_of_lt hhand)⟩
        rest := by rw [passed_rest] }
  · intro rounds
    split
    · rename_i hle
      have hpart := @clockSelect_add ctx rounds 0 hcount hhand
        (Nat.le_trans hle hk) fun j hj => hset j (Nat.lt_of_lt_of_le hj hle)
      exact hpart
    · rename_i hgt
      obtain ⟨d, rfl⟩ := Nat.exists_eq_add_of_lt (Nat.lt_of_not_le hgt)
      rw [Nat.add_assoc, clockSelect_add hcount hhand hk hset, clockSelect_succ hcount hhand,
        if_neg (not_not_intro hclear)]

/-- **The clock.** For every table with the hand inside it, one call inspects at most
`frameCount + 1` frames, as many as it needs and no fewer, and is a `SecondChance`. -/
theorem clock_gives_second_chance (ctx : PraContext) (hcount : ctx.frameCount < 2 ^ 32)
    (hhand : ctx.clockHand < ctx.frameCount) :
    ∃ chances victim after, SecondChance ctx chances victim after ∧
      ∀ rounds, PraContext.clockSelect rounds ctx =
        if rounds ≤ chances then none else some (victim, after) := by
  by_cases hall : ∀ j < ctx.frameCount, (ctx.frames (ctx.behindHand j)).accessed ≠ 0
  · have hround : ctx.behindHand ctx.frameCount = ctx.behindHand 0 := Nat.add_mod_right _ _
    have hstart : ctx.behindHand 0 = ctx.clockHand := index_zero hhand
    refine ⟨ctx.frameCount, secondChance_of_passed hcount hhand (Nat.le_refl _) hall ?_
      (Or.inr ⟨rfl, hround.trans hstart, ?_⟩)⟩
    · rw [hround, passed_cleared hhand (Nat.le_refl _) (Nat.zero_lt_of_lt hhand)]
    · intro i hi
      obtain ⟨j, hj, rfl⟩ := exists_behindHand hhand hi
      exact hall j hj
  · have hfound : ∃ j, j < ctx.frameCount ∧ (ctx.frames (ctx.behindHand j)).accessed = 0 := by
      simp only [not_forall, ne_eq, not_not] at hall
      obtain ⟨j, hj, hclear⟩ := hall
      exact ⟨j, hj, hclear⟩
    -- The victim is the first frame behind the hand with its bit clear.
    obtain ⟨hlt, hclear⟩ := Nat.find_spec hfound
    refine ⟨Nat.find hfound, secondChance_of_passed hcount hhand (Nat.le_of_lt hlt) ?_ ?_
      (Or.inl ⟨hlt, hclear⟩)⟩
    · intro j hj hzero
      exact Nat.find_min hfound hj ⟨Nat.lt_trans hj hlt, hzero⟩
    · rw [passed_kept hhand fun j hj => behindHand_ne hlt hj]
      exact hclear

/-- Three frames, all accessed, with the hand on the second one. -/
def threeFrames : PraContext where
  type := .clock
  frames i := { vaddr := i + 1, accessed := 1, dirty := 0, reference := 0, next := none }
  frameCount := 3
  clockHand := 1
  stats := { pageFaults := 0, pageIns := 0, pageOuts := 0, replacedPages := 0 }
  fifoHead := none

/-- The hand goes once round and takes the frame it started on. -/
theorem clock_three_frames :
    ∃ chances victim after, SecondChance threeFrames chances victim after ∧
      victim = 1 ∧ after.clockHand = 2 := by
  obtain ⟨chances, victim, after, hchance, -⟩ :=
    clock_gives_second_chance threeFrames (by decide) (by decide)
  have hvictim : victim = 1 := by
    rcases hchance.stopped with ⟨-, hclear⟩ | ⟨-, hhere, -⟩
    · exact absurd hclear Nat.one_ne_zero
    · exact hhere
  refine ⟨chances, victim, after, hchance, hvictim, ?_⟩
  rw [hchance.hand.1, hvictim]
  rfl

end Clock

/-! ### Allocations that fail -/

section Replaced

variable {ctx ctx' : PraContext} {m m' : PraMemory} {i : Nat} {swapOut : Bool} {page r : Option Nat}

/-- No policy counts anything. -/
theorem selectVictim_stats (hselect : ctx.selectVictim = some (i, ctx')) :
    ctx'.stats = ctx.stats := by
  have hclock : ∀ rounds (ctx : PraContext), ctx.clockSelect rounds = some (i, ctx') →
      ctx'.stats = ctx.stats := by
    intro rounds
    induction rounds with
    | zero => exact fun ctx h => nomatch h
    | succ rounds ih =>
      intro ctx h
      rw [PraContext.clockSelect] at h
      split at h
      · have hrest := ih _ h
        exact hrest
      · cases h
        rfl
  have hnfu : ∀ (l : List Nat) (state : (Option Nat × Nat) × PraContext),
      (l.foldl PraContext.nfuPass state).2.stats = state.2.stats := by
    intro l
    induction l with
    | nil => exact fun state => rfl
    | cons j l ih =>
      intro state
      refine (ih _).trans ?_
      unfold PraContext.nfuPass
      simp only
      split
      · rfl
      · rfl
  unfold PraContext.selectVictim at hselect
  split at hselect
  · cases hselect
    rfl
  · exact hclock _ _ hselect
  · obtain ⟨j, -, heq⟩ := Option.map_eq_some_iff.mp hselect
    cases heq
    rfl
  · obtain ⟨j, -, heq⟩ := Option.map_eq_some_iff.mp hselect
    cases heq
    exact hnfu _ _

/-- The state in which a replacement asks for its page: the victim of frame `i` is out. -/
def evicted (m : PraMemory) (ctx : PraContext) (i : Nat) : PraMemory :=
  { m with
    ctx := { ctx with
      stats := { ctx.stats with replacedPages := wrap32 (ctx.stats.replacedPages + 1) } }
    unmapped := (ctx.frames i).vaddr :: m.unmapped }

/-- The context in which a replacement chooses its victim. -/
def faulted (ctx : PraContext) : PraContext :=
  { ctx with stats := { ctx.stats with pageFaults := wrap32 (ctx.stats.pageFaults + 1) } }

theorem Linked.faulted (h : Linked ctx) : Linked (faulted ctx) :=
  ⟨h.nonempty, h.next, h.head, h.hand, h.clean⟩

/-- **A call with a free frame.** -/
theorem praAllocPage_of_free (hfree : HasFree m) (swapOut : Bool) (page : Option Nat) :
    ∃ i < m.ctx.frameCount, (m.ctx.frames i).vaddr = 0 ∧ m.ctx.findFrame 0 = some i ∧
      praAllocPage m swapOut page = some (installPage m i page) := by
  obtain ⟨j, hj, hvaddr⟩ := hfree
  obtain ⟨i, hfind⟩ := exists_findFrame hj hvaddr
  obtain ⟨hi, hzero⟩ := findFrame_eq_some hfind
  refine ⟨i, hi, hzero, hfind, ?_⟩
  rw [praAllocPage, hfind]

/-- **A call with a full table.** It takes a victim out, and then asks for a page. -/
theorem praAllocPage_of_full (h : Linked m.ctx) (hfull : ¬ HasFree m) (swapOut : Bool)
    (page : Option Nat) :
    praAllocPage m swapOut page =
      ((faulted m.ctx).selectVictim).map fun v => installPage (evicted m v.2 v.1) v.1 page := by
  have hfind : m.ctx.findFrame 0 = none :=
    findFrame_eq_none.mpr fun j hj hzero => hfull ⟨j, hj, hzero⟩
  rw [praAllocPage, hfind]
  cases hselect : (faulted m.ctx).selectVictim with
  | none =>
    rw [faulted] at hselect
    simp only [hselect, Option.map_none]
  | some v =>
    obtain ⟨i, ctx⟩ := v
    obtain ⟨-, -, hlinked⟩ := selectVictim_spec h.faulted hselect
    have hclean : ¬ (ctx.frames i).dirty ≠ 0 := not_not_intro (hlinked.clean i)
    rw [faulted] at hselect
    simp only [hselect, Option.map_some]
    rw [if_neg fun hdirty => hclean hdirty.1, if_neg hclean]
    rfl

/-- Every call keeps the indices of the table. -/
theorem linked_step (call : PraCall) (h : Linked m.ctx) (hstep : praStep m call = some m') :
    Linked m'.ctx := by
  cases call with
  | alloc swapOut page =>
    obtain ⟨-, r, hcall⟩ := praStep_alloc hstep
    obtain ⟨m₁, i, -, -, hlinked, -, -, hinstall, -⟩ := praAllocPage_cases h hcall
    obtain rfl : m' = (installPage m₁ i page).2 := congrArg Prod.snd hinstall
    exact hlinked.install
  | free addr =>
    cases hstep
    unfold praFreePage
    split
    · exact h
    · exact h.setFrame rfl rfl
  | access addr =>
    cases hstep
    unfold praAccessPage
    split
    · exact h
    · exact h.setFrame rfl (h.clean _)

/-- The frames, the mapped pages and the two counters are the same. -/
structure Untouched (m m' : PraMemory) : Prop where
  frames : m'.ctx.frames = m.ctx.frames ∧ m'.ctx.frameCount = m.ctx.frameCount
  mapped : ∀ p, p ∈ m'.unmapped ↔ p ∈ m.unmapped
  pageIns : m'.ctx.stats.pageIns = m.ctx.stats.pageIns
  replacedPages : m'.ctx.stats.replacedPages = m.ctx.stats.replacedPages

/-- A call of `pra_alloc_page` that returns `NULL` leaves everything untouched. -/
def FailsCleanly (m : PraMemory) : PraCall → Prop
  | .alloc swapOut page => ∀ m', praAllocPage m swapOut page = some (none, m') → Untouched m m'
  | .free _ | .access _ => True

/-- An allocation that `mm_alloc_pages` gives no page finds a free frame. -/
def FailsOnFree (m : PraMemory) : PraCall → Prop
  | .alloc _ page => page = none → HasFree m
  | .free _ | .access _ => True

/-- A call that gets a page returns it. -/
theorem installPage_fst (m : PraMemory) (i : Nat) (page : Option Nat) :
    (installPage m i page).1 = page := by
  cases page with
  | none => rfl
  | some p => rfl

/-- **One call.** A failure is clean exactly when a frame was free. -/
theorem failsCleanly_iff {call : PraCall} (h : Linked m.ctx) :
    FailsCleanly m call ↔ ∀ m', praStep m call = some m' → FailsOnFree m call := by
  cases call with
  | free addr => exact iff_of_true trivial fun _ _ => trivial
  | access addr => exact iff_of_true trivial fun _ _ => trivial
  | alloc swapOut page =>
    constructor
    · rintro hclean m' hstep rfl
      refine Classical.byContradiction fun hfull => ?_
      obtain ⟨-, r, hcall⟩ := praStep_alloc hstep
      have hnull := hcall
      rw [praAllocPage_of_full h hfull] at hnull
      obtain ⟨⟨i, ctx⟩, hselect, hinstall⟩ := Option.map_eq_some_iff.mp hnull
      cases hinstall
      -- The victim is counted before the page is asked for.
      have hcounted := (hclean _ hcall).replacedPages
      have hstats := selectVictim_stats hselect
      simp only [evicted, hstats, faulted] at hcounted
      exact (reference_changes _).1 hcounted
    · intro hfree m' hcall
      have hpage : page = none := by
        by_cases hf : HasFree m
        · obtain ⟨i, -, -, -, heq⟩ := praAllocPage_of_free hf swapOut page
          have hresult := Option.some.inj (hcall.symm.trans heq)
          exact (installPage_fst m i page).symm.trans (congrArg Prod.fst hresult).symm
        · rw [praAllocPage_of_full h hf] at hcall
          obtain ⟨⟨i, ctx⟩, -, hresult⟩ := Option.map_eq_some_iff.mp hcall
          exact (installPage_fst _ i page).symm.trans (congrArg Prod.fst hresult)
      subst hpage
      have hstep : praStep m (.alloc swapOut none) = some m' := by
        rw [praStep, if_pos fun p hp => absurd hp.symm (Option.some_ne_none p)]
        exact congrArg (Option.map Prod.snd) hcall
      obtain ⟨i, -, -, -, heq⟩ := praAllocPage_of_free (hfree m' hstep rfl) _ _
      obtain rfl : m' = m := congrArg Prod.snd (Option.some.inj (hcall.symm.trans heq))
      exact ⟨⟨rfl, rfl⟩, fun p => Iff.rfl, rfl, rfl⟩

/-- **Failed allocations.** For every replacement type and every run after `pra_init`. -/
theorem failed_alloc_iff (type : PraType) (calls : List PraCall) :
    Each praStep FailsCleanly (praStart type) calls ↔
      Meets praStep FailsOnFree (praStart type) calls :=
  each_iff_meets (I := fun m => Linked m.ctx)
    (fun _ call _ h _ hstep => linked_step call h hstep) (fun _ _ h => failsCleanly_iff h)
    (praInv_start type).linked calls

/-! A table filled from frame 0 on. -/

/-- The search stops at the first frame. -/
theorem findFrame_first {ctx : PraContext} {v i j : Nat} (h : ctx.findFrame v = some i)
    (hj : j < i) : (ctx.frames j).vaddr ≠ v := by
  obtain ⟨-, -, hbefore⟩ := List.find?_range_eq_some.mp h
  simpa using hbefore j hj

/-- After `pra_init`, `k` calls got the pages 1 to `k`. -/
structure Filled (type : PraType) (k : Nat) (m : PraMemory) : Prop where
  count : m.ctx.frameCount = 1024
  type : m.ctx.type = type
  vaddr : ∀ i, (m.ctx.frames i).vaddr = if i < k then i + 1 else 0
  reference : ∀ i, (m.ctx.frames i).reference = 0
  head : m.ctx.fifoHead = none
  fresh : ∀ p, k < p → m.obtained p = 0

/-- The calls that fill `n` frames behind the first `k`. -/
def fillCalls (k n : Nat) : List PraCall :=
  (List.range' k n).map fun i => .alloc true (some (i + 1))

theorem filled_start (type : PraType) : Filled type 0 (praStart type) :=
  { count := rfl, type := rfl, head := rfl
    vaddr := fun _ => rfl
    reference := fun _ => rfl
    fresh := fun _ _ => rfl }

/-- The next page goes to the next frame. -/
theorem filled_step {type : PraType} {k : Nat} (h : Filled type k m) (hk : k < 1024) :
    ∃ m', praStep m (.alloc true (some (k + 1))) = some m' ∧ Filled type (k + 1) m' := by
  have hzero : (m.ctx.frames k).vaddr = 0 := by
    rw [h.vaddr, if_neg (Nat.lt_irrefl k)]
  obtain ⟨i, -, hvaddr, hfind, hcall⟩ :=
    praAllocPage_of_free ⟨k, h.count ▸ hk, hzero⟩ true (some (k + 1))
  have hik : i = k := by
    have hge : k ≤ i := by
      rw [h.vaddr] at hvaddr
      split at hvaddr
      · cases hvaddr
      · omega
    refine Nat.le_antisymm (Nat.not_lt.mp fun hlt => ?_) hge
    exact findFrame_first hfind hlt hzero
  subst hik
  have hnew : ¬ Held m (i + 1) := by
    rw [Held, h.fresh _ (Nat.lt_succ_self i)]
    exact Nat.not_lt_zero _
  refine ⟨(installPage m i (some (i + 1))).2, ?_, ?_⟩
  · rw [praStep, if_pos, hcall]
    · rfl
    · rintro p ⟨⟩
      exact ⟨Nat.succ_ne_zero i, by omega, hnew⟩
  · refine ⟨h.count, h.type, ?_, ?_, h.head, ?_⟩
    · intro j
      by_cases hj : j = i
      · subst hj
        simp [installPage, PraContext.setFrame]
      · simp only [installPage, PraContext.setFrame, Function.update_of_ne hj, h.vaddr]
        congr 1
        exact propext (by omega)
    · intro j
      by_cases hj : j = i
      · subst hj
        simp [installPage, PraContext.setFrame]
      · simp [installPage, PraContext.setFrame, hj, h.reference]
    · intro p hp
      simp only [installPage, Function.update_of_ne (Nat.ne_of_gt hp)]
      exact h.fresh p (Nat.lt_of_succ_lt hp)

theorem filled_run {type : PraType} {k n : Nat} (h : Filled type k m) (hk : k + n ≤ 1024) :
    ∃ m', run praStep m (fillCalls k n) = some m' ∧ Filled type (k + n) m' := by
  induction n generalizing k m with
  | zero => exact ⟨m, rfl, h⟩
  | succ n ih =>
    obtain ⟨m₁, hstep, hfilled⟩ := filled_step h (by omega)
    have hassoc : k + 1 + n = k + (n + 1) := by omega
    obtain ⟨m', hrun, hfilled'⟩ := ih hfilled (hassoc ▸ hk)
    refine ⟨m', ?_, hassoc ▸ hfilled'⟩
    rw [fillCalls, List.range'_succ, List.map_cons]
    exact run_cons_eq_some.mpr ⟨m₁, hstep, hrun⟩

theorem Filled.full {type : PraType} (h : Filled type 1024 m) : ¬ HasFree m := by
  rintro ⟨i, hi, hzero⟩
  rw [h.count] at hi
  rw [h.vaddr, if_pos hi] at hzero
  cases hzero

/-- With the table filled by 1024 calls, a call that gets no page has taken the page of
the first frame out. -/
theorem failed_alloc_evicts :
    ¬ ∀ type calls, Each praStep FailsCleanly (praStart type) calls := by
  intro hall
  obtain ⟨m, hrun, hfilled⟩ := filled_run (filled_start .fifo) (Nat.le_refl (0 + 1024))
  have hclean := (hall .fifo (fillCalls 0 1024 ++ [.alloc true none])).at_append hrun
  have hlinked : Linked m.ctx :=
    run_invariant (I := fun m => Linked m.ctx) (fun _ call _ h hstep => linked_step call h hstep)
      (praInv_start .fifo).linked hrun
  have hcall := praAllocPage_of_full hlinked hfilled.full true none
  rw [PraContext.selectVictim] at hcall
  simp only [faulted, hfilled.type, Option.map_some] at hcall
  have hcounted := (hclean _ hcall).replacedPages
  exact (reference_changes _).1 hcounted

end Replaced

end ArmKernel.Mm

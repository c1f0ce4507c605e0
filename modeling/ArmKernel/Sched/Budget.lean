/-
The execution budget of a real-time task (`scheduler_rt_tick` of `src/scheduler_rt.c`).

A tick charges the current task and blocks it when its counter reaches `execution`. A release
does not set the counter back, so it counts every tick the task was ever charged.

A run follows beside the counter how many ticks the task was charged since its latest release
(`used`), and how many before it (`carried`). `budget_kept_iff` says in which runs no task is
blocked before it has used what it may: those in which a task whose budget is more than one tick
reaches it in its first period only. `blocked_iff` has the number: a task is blocked `carried`
ticks early.
-/
import ArmKernel.Sched.Deadlines

namespace ArmKernel.Sched

open ArmKernel.Support ArmKernel.Tasks

variable {n : Nat}

/-- `execution`, of a task with a real-time record. -/
def executionOf (task : Task n) : Nat :=
  match task.schedulerData with
  | .realtime params => params.execution
  | _ => 0

/-- `execution_time`, of a task with a real-time record. -/
def executionTimeOf (task : Task n) : Nat :=
  match task.schedulerData with
  | .realtime params => params.executionTime
  | _ => 0

/-- The tasks, the number of the latest tick, and for each task the ticks it was charged since
its latest release, and before it. -/
structure BudgetRun (n : Nat) where
  sys : TaskSys n
  clock : Nat
  used : Fin n → Nat
  carried : Fin n → Nat

/-- A tick, or what the kernel does between two ticks: another task becomes the current one, or
the state of a task changes. -/
inductive BudgetCall (n : Nat) where
  | dispatch (next : Option (Fin n))
  | setState (t : Fin n) (state : TaskState)
  | tick

/-- Before the first tick of a run, nothing is charged. -/
def BudgetRun.start (sys : TaskSys n) (clock : Nat) : BudgetRun n where
  sys := sys
  clock := clock
  used := fun _ => 0
  carried := fun _ => 0

/-- `timer_get_ticks()` at the next tick. -/
def BudgetRun.now (s : BudgetRun n) : Nat := wrap32 (s.clock + 1)

/-- The next tick releases the task, one of the list `l`. -/
def BudgetRun.releases (l : List (Fin n)) (s : BudgetRun n) (t : Fin n) : Prop :=
  t ∈ l ∧ isDue s.now (s.sys.taskList t) = true

instance (l : List (Fin n)) (s : BudgetRun n) (t : Fin n) : Decidable (s.releases l t) :=
  inferInstanceAs (Decidable (_ ∧ _))

/-- The ticks charged before the latest release, that of the next tick included. -/
def BudgetRun.carriedThen (l : List (Fin n)) (s : BudgetRun n) (t : Fin n) : Nat :=
  if s.releases l t then executionTimeOf (s.sys.taskList t) else s.carried t

/-- The ticks charged since that release, before the next tick. -/
def BudgetRun.usedThen (l : List (Fin n)) (s : BudgetRun n) (t : Fin n) : Nat :=
  if s.releases l t then 0 else s.used t

/-- One call. -/
def budgetStep (rt : Realtime n) (l : List (Fin n)) (s : BudgetRun n) :
    BudgetCall n → Option (BudgetRun n)
  | .dispatch next => some { s with sys := taskSchedule s.sys next }
  | .setState t state => some { s with sys := s.sys.setState t state }
  | .tick =>
    (schedulerRtTick rt s.sys s.now).map fun (_, sys, _) =>
      { sys
        clock := s.clock + 1
        used := fun t => s.usedThen l t + if s.sys.currentTask = some t then 1 else 0
        carried := s.carriedThen l }

/-- A tick blocks the current task only when it has used its `execution` ticks since its latest
release, this tick included. -/
def KeepsBudget (rt : Realtime n) (l : List (Fin n)) (s : BudgetRun n) : BudgetCall n → Prop
  | .tick => ∀ t sys missed, s.sys.currentTask = some t →
    schedulerRtTick rt s.sys s.now = some (true, sys, missed) →
    executionOf (s.sys.taskList t) ≤ s.usedThen l t + 1
  | _ => True

/-- The current task is in its first period (no tick was charged before its latest release, or so
many that the counter is about to wrap), has a budget of one tick, or does not reach its budget at
this tick. -/
def NothingCarried (l : List (Fin n)) (s : BudgetRun n) : BudgetCall n → Prop
  | .tick => ∀ t ∈ s.sys.currentTask, s.carriedThen l t = 0 ∨ s.carriedThen l t = 2 ^ 32 - 1 ∨
    executionOf (s.sys.taskList t) ≤ 1 ∨
    wrap32 (executionTimeOf (s.sys.taskList t) + 1) < executionOf (s.sys.taskList t)
  | _ => True

instance (l : List (Fin n)) (s : BudgetRun n) :
    (call : BudgetCall n) → Decidable (NothingCarried l s call)
  | .tick => inferInstanceAs (Decidable (∀ t ∈ s.sys.currentTask, _ ∨ _ ∨ _ ∨ _))
  | .dispatch _ | .setState _ _ => isTrue trivial

/-- The invariant: the counter of a task is what was charged to it, in 32 bits. -/
structure BudgetInv (rt : Realtime n) (l : List (Fin n)) (s : BudgetRun n) : Prop where
  list : RtList rt s.sys l
  counter : ∀ t params, (s.sys.taskList t).schedulerData = .realtime params →
    params.executionTime = wrap32 (s.carried t + s.used t)
  carried_fits : ∀ t, s.carried t < 2 ^ 32
  execution_fits : ∀ t params, (s.sys.taskList t).schedulerData = .realtime params →
    params.execution < 2 ^ 32

/-- The invariant of the runs that keep the budgets: a task that used ticks of a later period has
not reached its budget. -/
def Spare (s : BudgetRun n) : Prop :=
  ∀ t params, (s.sys.taskList t).schedulerData = .realtime params →
    s.carried t = 0 ∨ s.carried t = 2 ^ 32 - 1 ∨ params.execution ≤ 1 ∨ s.used t = 0 ∨
      s.carried t + s.used t < params.execution

/-! ### What a tick does -/

section Tick

variable {rt : Realtime n} {sys sys' : TaskSys n} {l : List (Fin n)} {now : Nat} {t u : Fin n}
  {params : RealtimeParams}

/-- The tasks after the release loop. -/
def Refreshed (sys : TaskSys n) (l : List (Fin n)) (now : Nat) (tasks : Fin n → Task n) : Prop :=
  ∀ t, (t ∈ l → tasks t = refresh now (sys.taskList t)) ∧ (t ∉ l → tasks t = sys.taskList t)

variable {tasks : Fin n → Task n} {params' : RealtimeParams}

/-- A release leaves the counter and the budget of a task as they are. -/
theorem Refreshed.data (h : Refreshed sys l now tasks)
    (hdata : (sys.taskList t).schedulerData = .realtime params) :
    ∃ params', (tasks t).schedulerData = .realtime params' ∧
      params'.execution = params.execution ∧ params'.executionTime = params.executionTime := by
  by_cases ht : t ∈ l
  · rw [(h t).1 ht, refresh_realtime hdata]
    by_cases hdue : params.nextRelease ≤ now
    · rw [if_pos hdue]
      exact ⟨_, rfl, rfl, rfl⟩
    · rw [if_neg hdue]
      exact ⟨_, rfl, rfl, rfl⟩
  · rw [(h t).2 ht]
    exact ⟨_, hdata, rfl, rfl⟩

/-- The loop gives no record to a task, so what is there afterwards was there before. -/
theorem Refreshed.data_before (h : Refreshed sys l now tasks)
    (hdata' : (tasks t).schedulerData = .realtime params') :
    ∃ params, (sys.taskList t).schedulerData = .realtime params ∧
      params'.execution = params.execution ∧ params'.executionTime = params.executionTime := by
  have hrecord : ∃ params, (sys.taskList t).schedulerData = .realtime params := by
    by_contra hnone
    have hplain : tasks t = sys.taskList t := by
      by_cases ht : t ∈ l
      · rw [(h t).1 ht]
        unfold refresh
        split
        · rename_i params hparams
          exact absurd ⟨params, hparams⟩ hnone
        · rfl
      · exact (h t).2 ht
    rw [hplain] at hdata'
    exact hnone ⟨params', hdata'⟩
  obtain ⟨params, hdata⟩ := hrecord
  obtain ⟨params₂, hdata₂, hkept⟩ := h.data hdata
  rw [hdata'] at hdata₂
  cases hdata₂
  exact ⟨params, hdata, hkept⟩

/-- A call that charges at most one task of those refreshed. -/
structure TickEffect (rt : Realtime n) (sys sys' : TaskSys n) (l : List (Fin n)) : Prop where
  list : RtList rt sys' l
  counter : ∀ u params', (sys'.taskList u).schedulerData = .realtime params' →
    ∃ params, (sys.taskList u).schedulerData = .realtime params ∧
      params'.execution = params.execution ∧ params'.executionTime =
        if sys.currentTask = some u then wrap32 (params.executionTime + 1) else params.executionTime

/-- Without a current task of the policy nothing is charged. -/
theorem Refreshed.uncharged (h : Refreshed sys l now sys'.taskList) (hlist : RtList rt sys' l)
    (hnone : ∀ u params, sys.currentTask = some u →
      (sys.taskList u).schedulerData ≠ .realtime params) : TickEffect rt sys sys' l := by
  refine ⟨hlist, ?_⟩
  intro u params' hdata'
  obtain ⟨params, hdata, hexecution, htime⟩ := h.data_before hdata'
  refine ⟨params, hdata, hexecution, ?_⟩
  rw [if_neg fun hcurrent => hnone u params hcurrent hdata]
  exact htime

/-- The current task of the policy is charged one tick. -/
theorem Refreshed.charged (h : Refreshed sys l now sys'.taskList) (hlist : RtList rt sys' l)
    (hcurrent : sys.currentTask = some t) (hdata : (sys'.taskList t).schedulerData = .realtime params)
    {f : Task n → Task n} (hnext : (f (sys'.taskList t)).next = (sys'.taskList t).next)
    {charged : RealtimeParams} (hcharged : (f (sys'.taskList t)).schedulerData = .realtime charged)
    (hsame : charged.execution = params.execution)
    (htime : charged.executionTime = wrap32 (params.executionTime + 1)) :
    TickEffect rt sys (sys'.modify t f) l := by
  refine ⟨hlist.modify hnext fun _ => ⟨charged, hcharged⟩, ?_⟩
  intro u params' hdata'
  rw [hcurrent]
  by_cases hut : u = t
  · subst hut
    rw [modify_self, hcharged] at hdata'
    cases hdata'
    obtain ⟨params₀, hdata₀, hexecution₀, htime₀⟩ := h.data_before hdata
    refine ⟨params₀, hdata₀, hsame.trans hexecution₀, ?_⟩
    rw [if_pos rfl, ← htime₀]
    exact htime
  · rw [modify_of_ne _ _ hut] at hdata'
    obtain ⟨params₀, hdata₀, hexecution₀, htime₀⟩ := h.data_before hdata'
    refine ⟨params₀, hdata₀, hexecution₀, ?_⟩
    rw [if_neg fun heq => hut (Option.some.inj heq).symm]
    exact htime₀

/-- The release loop at the beginning of a tick. -/
theorem RtList.releases (h : RtList rt sys l) (now : Nat) : ∃ sys₁,
    schedulerUpdateDeadlines rt sys now = some sys₁ ∧ RtList rt sys₁ l ∧
      sys₁.currentTask = sys.currentTask ∧ Refreshed sys l now sys₁.taskList := by
  refine ⟨_, h.updateDeadlines now, h.refreshed now, rfl, ?_⟩
  intro t
  exact ⟨fun ht => if_pos ht, fun ht => if_neg ht⟩

/-- **Effect of `scheduler_rt_tick`.** It charges the current task, if that has a real-time record,
and blocks it when the counter reaches its budget. -/
theorem RtList.rtTick (h : RtList rt sys l) {spent : Bool} {missed : Nat}
    (hrun : schedulerRtTick rt sys now = some (spent, sys', missed)) :
    TickEffect rt sys sys' l ∧
      ∀ t ∈ sys.currentTask, ∀ params, (sys.taskList t).schedulerData = .realtime params →
        spent = decide (params.execution ≤ wrap32 (params.executionTime + 1)) := by
  obtain ⟨sys₁, hupdate, hlist, hcurrent₁, hrefreshed⟩ := h.releases now
  simp only [schedulerRtTick, hupdate, Option.bind_some] at hrun
  cases hcurrent : sys.currentTask with
  | none =>
    rw [← hcurrent₁] at hcurrent
    simp only [hcurrent] at hrun
    cases hrun
    rw [hcurrent₁] at hcurrent
    refine ⟨hrefreshed.uncharged hlist ?_, nofun⟩
    intro u params hu
    cases hcurrent.symm.trans hu
  | some t =>
    rw [← hcurrent₁] at hcurrent
    simp only [hcurrent] at hrun
    rw [hcurrent₁] at hcurrent
    cases hdata₁ : (sys₁.taskList t).schedulerData with
    | null =>
      simp only [hdata₁] at hrun
      cases hrun
      have hplain : ∀ params, (sys.taskList t).schedulerData ≠ .realtime params := by
        intro params hdata
        obtain ⟨params₂, hdata₂, -⟩ := hrefreshed.data hdata
        cases hdata₁.symm.trans hdata₂
      refine ⟨hrefreshed.uncharged hlist ?_, ?_⟩
      · intro u params hu
        obtain rfl : t = u := Option.some.inj (hcurrent.symm.trans hu)
        exact hplain params
      · rintro _ ⟨⟩ params hdata
        exact absurd hdata (hplain params)
    | realtime params₁ =>
      simp only [hdata₁] at hrun
      cases hrun
      refine ⟨hrefreshed.charged hlist hcurrent hdata₁ rfl rfl rfl rfl, ?_⟩
      rintro _ ⟨⟩ params hdata
      obtain ⟨params₂, hdata₂, hexecution, htime⟩ := hrefreshed.data hdata
      cases hdata₁.symm.trans hdata₂
      rw [hexecution, htime]
    | mlfq params => simp only [hdata₁, reduceCtorEq] at hrun
    | fair e => simp only [hdata₁, reduceCtorEq] at hrun

/-- A tick of a task with a real-time record returns. -/
theorem RtList.rtTick_returns (h : RtList rt sys l) (hcurrent : sys.currentTask = some t)
    (hdata : (sys.taskList t).schedulerData = .realtime params) :
    ∃ spent sys' missed, schedulerRtTick rt sys now = some (spent, sys', missed) := by
  obtain ⟨sys₁, hupdate, -, hcurrent₁, hrefreshed⟩ := h.releases now
  obtain ⟨params₁, hdata₁, -, -⟩ := hrefreshed.data hdata
  rw [hcurrent] at hcurrent₁
  simp only [schedulerRtTick, hupdate, Option.bind_some, hcurrent₁, hdata₁]
  exact ⟨_, _, _, rfl⟩

end Tick

/-! ### Runs of ticks -/

variable {rt : Realtime n} {l : List (Fin n)} {s s' : BudgetRun n} {t : Fin n}
  {params : RealtimeParams}

/-- The counter of a task with a real-time record, taken apart at the release of the next tick. -/
theorem BudgetInv.counter_then (h : BudgetInv rt l s)
    (hdata : (s.sys.taskList t).schedulerData = .realtime params) :
    params.executionTime = wrap32 (s.carriedThen l t + s.usedThen l t) := by
  have hcounter := h.counter t params hdata
  have htime : executionTimeOf (s.sys.taskList t) = params.executionTime := by
    simp only [executionTimeOf, hdata]
  unfold BudgetRun.carriedThen BudgetRun.usedThen
  by_cases hreleases : s.releases l t
  · rw [if_pos hreleases, if_pos hreleases, htime, Nat.add_zero, hcounter, wrap32_wrap32]
  · rw [if_neg hreleases, if_neg hreleases]
    exact hcounter

theorem BudgetInv.carriedThen_lt (h : BudgetInv rt l s) (t : Fin n) :
    s.carriedThen l t < 2 ^ 32 := by
  unfold BudgetRun.carriedThen
  split
  · unfold executionTimeOf
    split
    · rename_i params hdata
      rw [h.counter t params hdata]
      exact wrap32_lt _
    · exact Nat.two_pow_pos 32
  · exact h.carried_fits t

/-- **When a tick blocks.** As long as the counter does not wrap, the current task is blocked by
the tick at which the ticks carried over and those used since make up its budget. -/
theorem BudgetInv.blocked_iff (h : BudgetInv rt l s) (hcurrent : s.sys.currentTask = some t)
    (hdata : (s.sys.taskList t).schedulerData = .realtime params) {spent : Bool} {sys : TaskSys n}
    {missed : Nat} (hrun : schedulerRtTick rt s.sys s.now = some (spent, sys, missed))
    (hwrap : s.carriedThen l t + s.usedThen l t + 1 < 2 ^ 32) :
    spent = true ↔ params.execution ≤ s.carriedThen l t + (s.usedThen l t + 1) := by
  obtain ⟨-, hspent⟩ := h.list.rtTick hrun
  rw [hspent t hcurrent params hdata, decide_eq_true_iff, h.counter_then hdata,
    wrap32_of_lt (Nat.lt_of_succ_lt hwrap), wrap32_of_lt hwrap, Nat.add_assoc]

/-- **Step lemma.** Every call keeps the counters. -/
theorem BudgetInv.step (h : BudgetInv rt l s) {call : BudgetCall n}
    (hstep : budgetStep rt l s call = some s') : BudgetInv rt l s' := by
  cases call with
  | dispatch next =>
    cases hstep
    have htasks : (taskSchedule s.sys next).taskList = s.sys.taskList := by rw [taskSchedule_eq]
    refine ⟨⟨?_, ?_⟩, ?_, h.carried_fits, ?_⟩
    · rw [htasks]
      exact h.list.chain
    · rw [htasks]
      exact h.list.data
    · rw [htasks]
      exact h.counter
    · rw [htasks]
      exact h.execution_fits
  | setState t state =>
    cases hstep
    refine ⟨h.list.setState t state, ?_, h.carried_fits, ?_⟩
    · intro u params hdata
      rw [setState_schedulerData] at hdata
      exact h.counter u params hdata
    · intro u params hdata
      rw [setState_schedulerData] at hdata
      exact h.execution_fits u params hdata
  | tick =>
    obtain ⟨⟨spent, sys, missed⟩, hrun, rfl⟩ := Option.map_eq_some_iff.mp hstep
    obtain ⟨heffect, -⟩ := h.list.rtTick hrun
    refine ⟨heffect.list, ?_, h.carriedThen_lt, ?_⟩
    · intro u params' hdata'
      obtain ⟨params, hdata, -, htime⟩ := heffect.counter u params' hdata'
      rw [htime, h.counter_then hdata]
      dsimp only
      by_cases hcurrent : s.sys.currentTask = some u
      · rw [if_pos hcurrent, if_pos hcurrent, ← Nat.add_assoc]
        exact Nat.mod_add_mod ..
      · rw [if_neg hcurrent, if_neg hcurrent]
        rfl
    · intro u params' hdata'
      obtain ⟨params, hdata, hexecution, -⟩ := heffect.counter u params' hdata'
      rw [hexecution]
      exact h.execution_fits u params hdata

/-- A task with another record, or with none, has no budget. -/
theorem executionOf_plain {task : Task n}
    (hplain : ∀ params, task.schedulerData ≠ .realtime params) : executionOf task = 0 := by
  unfold executionOf
  split
  · rename_i params hdata
    exact absurd hdata (hplain params)
  · rfl

/-- In a period whose counter began at 0 or wraps, a task is not blocked early. -/
theorem BudgetInv.kept_of_first (h : BudgetInv rt l s)
    (hdata : (s.sys.taskList t).schedulerData = .realtime params)
    (hfirst : s.carriedThen l t = 0 ∨ s.carriedThen l t = 2 ^ 32 - 1) :
    wrap32 (params.executionTime + 1) ≤ s.usedThen l t + 1 := by
  have hsum : wrap32 (params.executionTime + 1) =
      wrap32 (s.carriedThen l t + (s.usedThen l t + 1)) := by
    rw [h.counter_then hdata, ← Nat.add_assoc]
    exact Nat.mod_add_mod ..
  rw [hsum]
  rcases hfirst with hzero | hwraps
  · rw [hzero, Nat.zero_add]
    exact Nat.mod_le _ _
  · have hturn : s.carriedThen l t + (s.usedThen l t + 1) = s.usedThen l t + 2 ^ 32 := by omega
    rw [hturn, wrap32, Nat.add_mod_right]
    exact (Nat.mod_le _ _).trans (Nat.le_succ _)

/-- In a later period, a task that has spare ticks in its counter reaches its budget early or not
at this tick. -/
theorem Spare.early (hspare : Spare s) (hdata : (s.sys.taskList t).schedulerData = .realtime params)
    (hzero : s.carriedThen l t ≠ 0) (hwraps : s.carriedThen l t ≠ 2 ^ 32 - 1)
    (hmore : 1 < params.execution) : s.usedThen l t + 1 < params.execution := by
  unfold BudgetRun.carriedThen at hzero hwraps
  unfold BudgetRun.usedThen
  by_cases hreleases : s.releases l t
  · rw [if_pos hreleases]
    exact hmore
  · rw [if_neg hreleases] at hzero hwraps ⊢
    rcases hspare t params hdata with hcase | hcase | hcase | hcase | hcase
    · exact absurd hcase hzero
    · exact absurd hcase hwraps
    · exact absurd hmore (Nat.not_lt.mpr hcase)
    · rw [hcase]
      exact hmore
    · omega

/-- **A tick keeps the budget** exactly when nothing that matters was carried over. -/
theorem BudgetInv.keeps_iff (h : BudgetInv rt l s) (hspare : Spare s) (call : BudgetCall n) :
    KeepsBudget rt l s call ↔ NothingCarried l s call := by
  cases call with
  | dispatch next => exact Iff.rfl
  | setState t state => exact Iff.rfl
  | tick =>
    simp only [KeepsBudget, NothingCarried]
    constructor
    · intro hkeeps t hcurrent
      by_cases hreal : ∃ params, (s.sys.taskList t).schedulerData = .realtime params
      · obtain ⟨params, hdata⟩ := hreal
        obtain ⟨spent, sys, missed, hrun⟩ := @RtList.rtTick_returns _ _ _ _ s.now _ _ h.list
          hcurrent hdata
        have hspent := (h.list.rtTick hrun).2 t hcurrent params hdata
        have hkept := hkeeps t sys missed hcurrent
        simp only [executionTimeOf, executionOf, hdata] at hkept ⊢
        by_contra hnone
        simp only [not_or, Nat.not_lt, Nat.not_le] at hnone
        obtain ⟨hzero, hwraps, hmore, hreached⟩ := hnone
        -- The task is blocked here, and has not used its ticks.
        rw [hspent, decide_eq_true hreached] at hrun
        exact absurd (hkept hrun) (Nat.not_le.mpr (hspare.early hdata hzero hwraps hmore))
      · rw [executionOf_plain fun params hdata => hreal ⟨params, hdata⟩]
        exact .inr (.inr (.inl (Nat.zero_le 1)))
    · intro hnothing t sys missed hcurrent hrun
      by_cases hreal : ∃ params, (s.sys.taskList t).schedulerData = .realtime params
      · obtain ⟨params, hdata⟩ := hreal
        have hspent := (h.list.rtTick hrun).2 t hcurrent params hdata
        have hcase := hnothing t hcurrent
        simp only [executionTimeOf, executionOf, hdata] at hcase ⊢
        have hreached : params.execution ≤ wrap32 (params.executionTime + 1) :=
          of_decide_eq_true hspent.symm
        rcases hcase with hzero | hwraps | hone | hbelow
        · exact hreached.trans (h.kept_of_first hdata (.inl hzero))
        · exact hreached.trans (h.kept_of_first hdata (.inr hwraps))
        · exact hone.trans (Nat.le_add_left 1 _)
        · exact absurd hreached (Nat.not_le.mpr hbelow)
      · rw [executionOf_plain fun params hdata => hreal ⟨params, hdata⟩]
        exact Nat.zero_le _

/-- The current task of such a tick has spare ticks behind it. -/
theorem BudgetInv.spare_of_tick (h : BudgetInv rt l s) (hspare : Spare s)
    (hnothing : NothingCarried l s .tick) (hcurrent : s.sys.currentTask = some t)
    (hdata : (s.sys.taskList t).schedulerData = .realtime params) :
    s.carriedThen l t = 0 ∨ s.carriedThen l t = 2 ^ 32 - 1 ∨ params.execution ≤ 1 ∨
      s.carriedThen l t + (s.usedThen l t + 1) < params.execution := by
  have hcase := hnothing t hcurrent
  have hcounter := h.counter_then hdata
  have hfits := h.carriedThen_lt t
  have hexecution := h.execution_fits t params hdata
  simp only [executionTimeOf, executionOf, hdata] at hcase
  rcases hcase with hzero | hwraps | hone | hbelow
  · exact .inl hzero
  · exact .inr (.inl hwraps)
  · exact .inr (.inr (.inl hone))
  · by_contra hnone
    simp only [not_or, Nat.not_lt, Nat.not_le] at hnone
    obtain ⟨hzero, hwraps, hmore, hover⟩ := hnone
    -- Before this tick the counter was below the budget, so it does not wrap at this tick.
    have hbefore : s.carriedThen l t + s.usedThen l t + 1 < 2 ^ 32 := by
      unfold BudgetRun.carriedThen at hzero hwraps hfits ⊢
      unfold BudgetRun.usedThen
      by_cases hreleases : s.releases l t
      · rw [if_pos hreleases] at hwraps hfits ⊢
        rw [if_pos hreleases]
        omega
      · rw [if_neg hreleases] at hzero hwraps hfits ⊢
        rw [if_neg hreleases]
        rcases hspare t params hdata with hc | hc | hc | hc | hc <;> omega
    rw [hcounter, wrap32_of_lt (Nat.lt_of_succ_lt hbefore), wrap32_of_lt hbefore] at hbelow
    omega

/-- **Step lemma** of the runs that keep the budgets. -/
theorem BudgetInv.spare_step (h : BudgetInv rt l s) (hspare : Spare s) {call : BudgetCall n}
    (hnothing : NothingCarried l s call) (hstep : budgetStep rt l s call = some s') : Spare s' := by
  cases call with
  | dispatch next =>
    cases hstep
    have htasks : (taskSchedule s.sys next).taskList = s.sys.taskList := by rw [taskSchedule_eq]
    intro u params hdata
    rw [htasks] at hdata
    exact hspare u params hdata
  | setState t state =>
    cases hstep
    intro u params hdata
    rw [setState_schedulerData] at hdata
    exact hspare u params hdata
  | tick =>
    obtain ⟨⟨spent, sys, missed⟩, hrun, rfl⟩ := Option.map_eq_some_iff.mp hstep
    obtain ⟨heffect, -⟩ := h.list.rtTick hrun
    intro u params' hdata'
    obtain ⟨params, hdata, hexecution, -⟩ := heffect.counter u params' hdata'
    rw [hexecution]
    dsimp only
    by_cases hcurrent : s.sys.currentTask = some u
    · rw [if_pos hcurrent]
      rcases h.spare_of_tick hspare hnothing hcurrent hdata with hcase | hcase | hcase | hcase
      · exact .inl hcase
      · exact .inr (.inl hcase)
      · exact .inr (.inr (.inl hcase))
      · exact .inr (.inr (.inr (.inr hcase)))
    · rw [if_neg hcurrent, Nat.add_zero]
      unfold BudgetRun.carriedThen BudgetRun.usedThen
      by_cases hreleases : s.releases l u
      · rw [if_pos hreleases, if_pos hreleases]
        exact .inr (.inr (.inr (.inl rfl)))
      · rw [if_neg hreleases, if_neg hreleases]
        exact hspare u params hdata

/-- **The budget of a period.** For every list of real-time tasks whose counters are 0, and every
run of ticks: no tick blocks a task early exactly when every task with a budget of more than one
tick reaches it in its first period only. -/
theorem budget_kept_iff (rt : Realtime n) (sys : TaskSys n) (clock : Nat) (l : List (Fin n))
    (hlist : RtList rt sys l)
    (hfields : ∀ t params, (sys.taskList t).schedulerData = .realtime params →
      params.executionTime = 0 ∧ params.execution < 2 ^ 32)
    (calls : List (BudgetCall n)) :
    Each (budgetStep rt l) (KeepsBudget rt l) (BudgetRun.start sys clock) calls ↔
      Each (budgetStep rt l) (NothingCarried l) (BudgetRun.start sys clock) calls := by
  have hstart : BudgetInv rt l (BudgetRun.start sys clock) ∧ Spare (BudgetRun.start sys clock) := by
    refine ⟨⟨hlist, ?_, fun _ => Nat.two_pow_pos 32, ?_⟩, fun _ _ _ => .inl rfl⟩
    · exact fun t params hdata => (hfields t params hdata).1
    · exact fun t params hdata => (hfields t params hdata).2
  have preserved : ∀ (s : BudgetRun n) call s', BudgetInv rt l s ∧ Spare s →
      NothingCarried l s call → budgetStep rt l s call = some s' → BudgetInv rt l s' ∧ Spare s' := by
    rintro s call s' ⟨h, hspare⟩ hnothing hstep
    exact ⟨h.step hstep, h.spare_step hspare hnothing hstep⟩
  have same : ∀ (s : BudgetRun n) call, BudgetInv rt l s ∧ Spare s →
      (KeepsBudget rt l s call ↔ NothingCarried l s call) :=
    fun s call hinv => hinv.1.keeps_iff hinv.2 call
  constructor
  · apply each_of_each (I := fun s => BudgetInv rt l s ∧ Spare s) _ _ hstart
    · exact fun s call hinv => (same s call hinv).mp
    · exact fun s call s' hinv hkeeps => preserved s call s' hinv ((same s call hinv).mp hkeeps)
  · apply each_of_each (I := fun s => BudgetInv rt l s ∧ Spare s) _ preserved hstart
    exact fun s call hinv => (same s call hinv).mpr

/-- A task of period 5 that may run for 2 ticks, registered at tick 0. -/
def twoOfFive (t : Fin 2) : Realtime 2 × TaskSys 2 :=
  schedulerSetRealtimeParams { rtTasks := none, rtTaskCount := 0 } plainTasks (some t)
    (some { periodicParams 5 with execution := 2 }) true 0

theorem twoOfFive_list : RtList (twoOfFive 0).1 (twoOfFive 0).2 [0] := by
  have hempty : RtList { rtTasks := none, rtTaskCount := 0 } plainTasks [] :=
    ⟨rfl, fun _ ht => absurd ht List.not_mem_nil⟩
  exact hempty.register List.not_mem_nil _ _

theorem twoOfFive_fields : ∀ t params,
    ((twoOfFive 0).2.taskList t).schedulerData = .realtime params →
      params.executionTime = 0 ∧ params.execution < 2 ^ 32 := by
  intro t params hdata
  by_cases ht : t = 0
  · subst ht
    cases hdata
    exact ⟨rfl, by decide⟩
  · simp only [twoOfFive, schedulerSetRealtimeParams, not_true, if_false] at hdata
    rw [modify_of_ne _ _ ht] at hdata
    cases hdata

/-- The first period: the task runs for two ticks. -/
theorem budget_kept_iff_run :
    Each (budgetStep (twoOfFive 0).1 [0]) (NothingCarried [0]) (BudgetRun.start (twoOfFive 0).2 0)
        [.dispatch (some 0), .tick, .tick] ∧
      Each (budgetStep (twoOfFive 0).1 [0]) (KeepsBudget (twoOfFive 0).1 [0])
        (BudgetRun.start (twoOfFive 0).2 0) [.dispatch (some 0), .tick, .tick] :=
  ⟨by decide, (budget_kept_iff _ _ 0 [0] twoOfFive_list twoOfFive_fields _).mpr (by decide)⟩

/-- The task runs for two ticks of its first period, and is dispatched in its second one. -/
def secondPeriod (t : Fin 2) : List (BudgetCall 2) :=
  [.dispatch (some t), .tick, .tick, .dispatch none, .tick, .tick, .tick, .dispatch (some t)]

/-- **Blocked at its first tick.** In its second period the task may run for 2 ticks again, and is
blocked after one. -/
theorem second_period_cut_short :
    (∃ s, run (budgetStep (twoOfFive 0).1 [0]) (BudgetRun.start (twoOfFive 0).2 0)
        (secondPeriod 0) = some s ∧
      s.clock = 5 ∧ s.usedThen [0] 0 = 0 ∧ executionOf (s.sys.taskList 0) = 2 ∧
      (s.sys.taskList 0).state = .ready ∧
      ∃ sys missed, schedulerRtTick (twoOfFive 0).1 s.sys s.now = some (true, sys, missed)) ∧
    ¬ ∀ (rt : Realtime 2) (sys : TaskSys 2) (clock : Nat) (l : List (Fin 2)), RtList rt sys l →
      (∀ t params, (sys.taskList t).schedulerData = .realtime params →
        params.executionTime = 0 ∧ params.execution < 2 ^ 32) →
      ∀ calls, Each (budgetStep rt l) (KeepsBudget rt l) (BudgetRun.start sys clock) calls := by
  have hshort : ∃ s,
      run (budgetStep (twoOfFive 0).1 [0]) (BudgetRun.start (twoOfFive 0).2 0)
        (secondPeriod 0) = some s ∧
      s.clock = 5 ∧ s.usedThen [0] 0 = 0 ∧ executionOf (s.sys.taskList 0) = 2 ∧
      (s.sys.taskList 0).state = .ready ∧
      ∃ sys missed, schedulerRtTick (twoOfFive 0).1 s.sys s.now = some (true, sys, missed) :=
    ⟨_, rfl, rfl, rfl, rfl, rfl, _, _, rfl⟩
  refine ⟨hshort, ?_⟩
  intro hall
  obtain ⟨s, hrun, -, hused, hexecution, -, sys, missed, htick⟩ := hshort
  have heach := hall _ _ 0 [0] twoOfFive_list twoOfFive_fields (secondPeriod 0 ++ [.tick])
  have hcurrent : s.sys.currentTask = some 0 := by
    cases hrun
    rfl
  have hkept := heach.at_append hrun 0 sys missed hcurrent htick
  rw [hused, hexecution] at hkept
  exact absurd hkept (by decide)

end ArmKernel.Sched

/-
The list of the real-time tasks (`rt_tasks` of `src/scheduler_rt.c`).

Four loops follow `task->next` from `rt_tasks` to the null pointer: those of `edf_schedule`,
`rm_schedule`, `scheduler_check_schedulability` and `scheduler_update_deadlines`. On a list of
tasks with real-time records they all end (`RtList`).

`scheduler_set_realtime_params` puts its task at the head whether the task is in the list or
not. A task that is linked a second time points at what led to it: the list has become a
cycle, wherever in it the task stood. `rt_list_sound_iff` says that the list is in order exactly
as long as every task is registered once.
-/
import ArmKernel.Sched.Realtime
import ArmKernel.Support.Run

namespace ArmKernel.Sched

open ArmKernel.Support ArmKernel.Tasks

variable {n : Nat}

/-! ### The other loops -/

/-- The loop of `rm_schedule`: the ready task with the least period from `task` on. -/
def rmFrom (tasks : Fin n → Task n) :
    (rounds : Nat) → (task highest : Option (Fin n)) → (highestPriority : Nat) →
      Option (Option (Fin n))
  | _, none, highest, _ => some highest
  | 0, some _, _, _ => none
  | rounds + 1, some t, highest, highestPriority =>
    if (tasks t).state = .ready then
      match (tasks t).schedulerData with
      | .realtime params =>
        if params.period < highestPriority then
          rmFrom tasks rounds (tasks t).next (some t) params.period
        else rmFrom tasks rounds (tasks t).next highest highestPriority
      | _ => none
    else rmFrom tasks rounds (tasks t).next highest highestPriority

/-- `rm_schedule`. -/
def rmSchedule (rt : Realtime n) (sys : TaskSys n) : Option (Option (Fin n)) :=
  rmFrom sys.taskList n rt.rtTasks none uint32Max

/-- The `float` operations of `scheduler_check_schedulability`: `0.0f`, the addition of
`(float)execution / period`, `n * (powf(2.0f, 1.0f/n) - 1)`, and `<=`. -/
structure FloatOps (F : Type) where
  zero : F
  addRatio : F → Nat → Nat → F
  bound : Nat → F
  le : F → F → Bool

variable {F : Type}

/-- The loop of `scheduler_check_schedulability`. -/
def utilizationFrom (ops : FloatOps F) (tasks : Fin n → Task n) :
    (rounds : Nat) → (task : Option (Fin n)) → (totalUtilization : F) → Option F
  | _, none, totalUtilization => some totalUtilization
  | 0, some _, _ => none
  | rounds + 1, some t, totalUtilization =>
    match (tasks t).schedulerData with
    | .realtime params =>
      utilizationFrom ops tasks rounds (tasks t).next
        (ops.addRatio totalUtilization params.execution params.period)
    | _ => none

/-- `scheduler_check_schedulability`. -/
def schedulerCheckSchedulability (ops : FloatOps F) (rt : Realtime n) (sys : TaskSys n) :
    Option Bool :=
  (utilizationFrom ops sys.taskList n rt.rtTasks ops.zero).map fun total =>
    ops.le total (ops.bound rt.rtTaskCount)

/-! ### The loops on a list -/

/-- `rt_tasks` is the list `l`, and its tasks have real-time records. -/
structure RtList (rt : Realtime n) (sys : TaskSys n) (l : List (Fin n)) : Prop where
  chain : Chain (nextOf sys.taskList) rt.rtTasks l
  data : ∀ t ∈ l, ∃ params, (sys.taskList t).schedulerData = .realtime params

section Loops

variable {tasks : Fin n → Task n} {head : Option (Fin n)} {l : List (Fin n)} {rounds : Nat}

theorem rmFrom_ends (highest : Option (Fin n)) (p : Nat) (hchain : Chain (nextOf tasks) head l)
    (hdata : ∀ t ∈ l, ∃ params, (tasks t).schedulerData = .realtime params)
    (enough : l.length ≤ rounds) : ∃ next, rmFrom tasks rounds head highest p = some next := by
  induction l generalizing head rounds highest p with
  | nil =>
    obtain rfl := hchain
    refine ⟨highest, ?_⟩
    cases rounds <;> rfl
  | cons t l ih =>
    obtain ⟨rfl, hrest⟩ := hchain
    obtain ⟨rounds, rfl⟩ := Nat.exists_eq_add_one_of_ne_zero (Nat.ne_zero_of_lt enough)
    obtain ⟨params, hparams⟩ := hdata t List.mem_cons_self
    have hrun := fun highest p => ih highest p hrest
      (fun u hu => hdata u (List.mem_cons_of_mem _ hu)) (Nat.le_of_succ_le_succ enough)
    rw [rmFrom]
    by_cases hready : (tasks t).state = .ready
    · rw [if_pos hready]
      simp only [hparams]
      by_cases hless : params.period < p
      · rw [if_pos hless]
        exact hrun _ _
      · rw [if_neg hless]
        exact hrun _ _
    · rw [if_neg hready]
      exact hrun _ _

theorem utilizationFrom_ends (ops : FloatOps F) (total : F)
    (hchain : Chain (nextOf tasks) head l)
    (hdata : ∀ t ∈ l, ∃ params, (tasks t).schedulerData = .realtime params)
    (enough : l.length ≤ rounds) :
    ∃ total', utilizationFrom ops tasks rounds head total = some total' := by
  induction l generalizing head rounds total with
  | nil =>
    obtain rfl := hchain
    refine ⟨total, ?_⟩
    cases rounds <;> rfl
  | cons t l ih =>
    obtain ⟨rfl, hrest⟩ := hchain
    obtain ⟨rounds, rfl⟩ := Nat.exists_eq_add_one_of_ne_zero (Nat.ne_zero_of_lt enough)
    obtain ⟨params, hparams⟩ := hdata t List.mem_cons_self
    rw [utilizationFrom]
    simp only [hparams]
    exact ih _ hrest (fun u hu => hdata u (List.mem_cons_of_mem _ hu))
      (Nat.le_of_succ_le_succ enough)

theorem updateDeadlinesLoop_ends (now : Nat) (hchain : Chain (nextOf tasks) head l)
    (hdata : ∀ t ∈ l, ∃ params, (tasks t).schedulerData = .realtime params)
    (enough : l.length ≤ rounds) :
    ∃ tasks', updateDeadlinesLoop now rounds tasks head = some tasks' := by
  induction l generalizing tasks head rounds with
  | nil =>
    obtain rfl := hchain
    refine ⟨tasks, ?_⟩
    cases rounds <;> rfl
  | cons t l ih =>
    have hfresh : t ∉ l := (List.nodup_cons.mp hchain.nodup).1
    obtain ⟨rfl, hrest⟩ := hchain
    obtain ⟨rounds, rfl⟩ := Nat.exists_eq_add_one_of_ne_zero (Nat.ne_zero_of_lt enough)
    obtain ⟨params, hparams⟩ := hdata t List.mem_cons_self
    rw [updateDeadlinesLoop]
    simp only [hparams, Function.update_self, release_next]
    -- The rest of the list does not see the task that was written.
    have hsame : ∀ u ∈ l, Function.update tasks t (release now (tasks t) params) u = tasks u :=
      fun u hu => Function.update_of_ne (ne_of_mem_of_not_mem hu hfresh) _ _
    apply ih
    · exact hrest.congr fun u hu => congrArg Task.next (hsame u hu)
    · intro u hu
      rw [hsame u hu]
      exact hdata u (List.mem_cons_of_mem _ hu)
    · exact Nat.le_of_succ_le_succ enough

end Loops

variable {rt : Realtime n} {sys : TaskSys n} {l : List (Fin n)} {t : Fin n}

theorem RtList.length_le (h : RtList rt sys l) : l.length ≤ n := by
  have hlength := h.chain.length_le
  rwa [Fintype.card_fin] at hlength

/-- **Effect of `scheduler_update_deadlines`** on a list: it returns, and refreshes the tasks of
the list. -/
theorem RtList.updateDeadlines (h : RtList rt sys l) (now : Nat) :
    schedulerUpdateDeadlines rt sys now =
      some { sys with
        taskList := fun t => if t ∈ l then refresh now (sys.taskList t) else sys.taskList t } := by
  obtain ⟨tasks, hloop⟩ := updateDeadlinesLoop_ends now h.chain h.data h.length_le
  have hrun : schedulerUpdateDeadlines rt sys now = some { sys with taskList := tasks } := by
    rw [schedulerUpdateDeadlines, hloop, Option.map_some]
  obtain ⟨l', hchain, heffect⟩ := update_deadlines_spec hrun
  obtain rfl := hchain.unique h.chain
  rw [hrun, heffect]

/-- The tasks that are refreshed stay linked, and keep records. -/
theorem RtList.refreshed (h : RtList rt sys l) (now : Nat) :
    RtList rt { sys with
      taskList := fun t => if t ∈ l then refresh now (sys.taskList t) else sys.taskList t } l where
  chain := by
    apply h.chain.congr
    intro t ht
    simp only [nextOf, if_pos ht, refresh_next]
  data := by
    intro t ht
    obtain ⟨params, hparams⟩ := h.data t ht
    simp only [if_pos ht, refresh, hparams, release]
    by_cases hdue : params.nextRelease ≤ now
    · rw [if_pos hdue]
      exact ⟨_, rfl⟩
    · rw [if_neg hdue]
      exact ⟨params, hparams⟩

/-- Writing a task without moving its link or taking its record. -/
theorem RtList.modify (h : RtList rt sys l) {f : Task n → Task n}
    (hnext : (f (sys.taskList t)).next = (sys.taskList t).next)
    (hdata : t ∈ l → ∃ params, (f (sys.taskList t)).schedulerData = .realtime params) :
    RtList rt (sys.modify t f) l where
  chain := by
    apply h.chain.congr
    intro u hu
    by_cases hut : u = t
    · subst hut
      rw [nextOf, modify_self, hnext]
    · rw [nextOf, modify_of_ne _ _ hut]
  data := by
    intro u hu
    by_cases hut : u = t
    · subst hut
      rw [modify_self]
      exact hdata hu
    · rw [modify_of_ne _ _ hut]
      exact h.data u hu

/-- A task in front of the list. -/
theorem RtList.register (h : RtList rt sys l) (hfresh : t ∉ l) (params : RealtimeParams)
    (now : Nat) :
    RtList (schedulerSetRealtimeParams rt sys (some t) (some params) true now).1
      (schedulerSetRealtimeParams rt sys (some t) (some params) true now).2 (t :: l) := by
  simp only [schedulerSetRealtimeParams, not_true, if_false]
  constructor
  · refine ⟨rfl, ?_⟩
    simp only [nextOf, modify_self]
    apply h.chain.congr
    intro u hu
    exact congrArg Task.next (modify_of_ne _ _ (ne_of_mem_of_not_mem hu hfresh))
  · intro u hu
    rcases List.mem_cons.mp hu with rfl | hu
    · rw [modify_self]
      exact ⟨_, rfl⟩
    · rw [modify_of_ne _ _ (ne_of_mem_of_not_mem hu hfresh)]
      exact h.data u hu

/-- **A task linked twice.** When the task is in the list already, what is reached from the new
head is no list. -/
theorem RtList.register_again (h : RtList rt sys l) (hold : t ∈ l) (params : RealtimeParams)
    (now : Nat) (l' : List (Fin n)) :
    ¬ Chain
      (nextOf (schedulerSetRealtimeParams rt sys (some t) (some params) true now).2.taskList)
      (schedulerSetRealtimeParams rt sys (some t) (some params) true now).1.rtTasks l' := by
  simp only [schedulerSetRealtimeParams, not_true, if_false]
  intro hchain'
  obtain ⟨before, after, rfl⟩ := List.append_of_mem hold
  cases l' with
  | nil => cases hchain'
  | cons u rest =>
    obtain ⟨hu, hrest⟩ := hchain'
    obtain rfl := Option.some.inj hu
    simp only [nextOf, modify_self] at hrest
    -- The pointers of the tasks before it are as they were, so it is reached once more.
    have hbefore : ∀ u ∈ before, u ≠ t := by
      intro u hmem
      have hnodup := h.chain.nodup
      rw [List.nodup_append] at hnodup
      exact hnodup.2.2 u hmem t List.mem_cons_self
    have hreached : OnChain (nextOf (sys.modify t fun task => { task with
        schedulerData := .realtime { params with nextRelease := wrap32 (now + params.period) }
        next := rt.rtTasks }).taskList) rt.rtTasks t :=
      h.chain.onChain_prefix fun u hu => congrArg Task.next (modify_of_ne _ _ (hbefore u hu))
    have htwice : t ∈ rest := (Chain.onChain_iff hrest).mp hreached
    have hcycle : Chain (nextOf (sys.modify t fun task => { task with
        schedulerData := .realtime { params with nextRelease := wrap32 (now + params.period) }
        next := rt.rtTasks }).taskList) (some t) (t :: rest) := by
      refine ⟨rfl, ?_⟩
      rw [nextOf, modify_self]
      exact hrest
    exact (List.nodup_cons.mp hcycle.nodup).1 htwice

/-! ### Runs of registrations -/

/-- The tasks, and for each the record of its latest registration. -/
structure RtRun (n : Nat) where
  rt : Realtime n
  sys : TaskSys n
  latest : Fin n → Option RealtimeParams

/-- No task is registered. -/
def RtRun.start (sys : TaskSys n) : RtRun n where
  rt := { rtTasks := none, rtTaskCount := 0 }
  sys := sys
  latest := fun _ => none

/-- A call of `scheduler_set_realtime_params`, with the success of its `malloc`. -/
structure RtCall (n : Nat) where
  task : Option (Fin n)
  params : Option RealtimeParams
  malloc : Bool
  now : Nat

/-- The task the call registers, and its record; none when an argument is null or there is no
memory. -/
def RtCall.registers (c : RtCall n) : Option (Fin n × RealtimeParams) :=
  match c.task, c.params with
  | some t, some params =>
    if c.malloc then some (t, { params with nextRelease := wrap32 (c.now + params.period) })
    else none
  | _, _ => none

/-- One call. -/
def rtStep (s : RtRun n) (c : RtCall n) : Option (RtRun n) :=
  let (rt, sys) := schedulerSetRealtimeParams s.rt s.sys c.task c.params c.malloc c.now
  some { rt, sys
         latest := match c.registers with
           | some (t, params) => Function.update s.latest t (some params)
           | none => s.latest }

/-- The real-time list is in order: an acyclic list that has every registered task once, with
its latest record, and the length `rt_task_count`; and the loops over it end. -/
structure ListSound (s : RtRun n) : Prop where
  list : ∃ l, Chain (nextOf s.sys.taskList) s.rt.rtTasks l ∧ l.Nodup ∧
    (∀ t, t ∈ l ↔ (s.latest t).isSome) ∧ s.rt.rtTaskCount = l.length
  records : ∀ t params, s.latest t = some params →
    (s.sys.taskList t).schedulerData = .realtime params
  edf : ∃ next, edfSchedule s.rt s.sys = some next
  rm : ∃ next, rmSchedule s.rt s.sys = some next
  schedulability : ∀ (F : Type) (ops : FloatOps F), ∃ answer,
    schedulerCheckSchedulability ops s.rt s.sys = some answer
  deadlines : ∀ now, ∃ sys', schedulerUpdateDeadlines s.rt s.sys now = some sys'

/-- The call registers a task that is not registered, or none. -/
def RegistersOnce (s : RtRun n) (c : RtCall n) : Prop :=
  ∀ r ∈ c.registers, s.latest r.1 = none

instance (s : RtRun n) (c : RtCall n) : Decidable (RegistersOnce s c) :=
  inferInstanceAs (Decidable (∀ r ∈ c.registers, _))

/-- The invariant. -/
structure RtInv (s : RtRun n) (l : List (Fin n)) : Prop where
  list : RtList s.rt s.sys l
  members : ∀ t, t ∈ l ↔ (s.latest t).isSome
  records : ∀ t params, s.latest t = some params →
    (s.sys.taskList t).schedulerData = .realtime params
  count : s.rt.rtTaskCount = l.length

variable {s s' : RtRun n} {c : RtCall n}

theorem RtInv.sound (h : RtInv s l) : ListSound s where
  list := ⟨l, h.list.chain, h.list.chain.nodup, h.members, h.count⟩
  records := h.records
  edf := by
    obtain ⟨next, hrun, -⟩ := edfFrom_spec none uint32Max h.list.chain h.list.data h.list.length_le
    exact ⟨next, hrun⟩
  rm := rmFrom_ends none uint32Max h.list.chain h.list.data h.list.length_le
  schedulability := by
    intro F ops
    obtain ⟨total, hrun⟩ := utilizationFrom_ends ops ops.zero h.list.chain h.list.data
      h.list.length_le
    refine ⟨ops.le total (ops.bound s.rt.rtTaskCount), ?_⟩
    rw [schedulerCheckSchedulability, hrun, Option.map_some]
  deadlines := fun now => ⟨_, h.list.updateDeadlines now⟩

/-- A step registers a task with its record, or changes nothing. -/
theorem rtStep_cases (h : rtStep s c = some s') :
    (c.registers = none ∧ s' = s) ∨
      ∃ t params, c.registers = some (t, { params with nextRelease := wrap32 (c.now + params.period) }) ∧
        s' =
          { rt := (schedulerSetRealtimeParams s.rt s.sys (some t) (some params) true c.now).1
            sys := (schedulerSetRealtimeParams s.rt s.sys (some t) (some params) true c.now).2
            latest := Function.update s.latest t
              (some { params with nextRelease := wrap32 (c.now + params.period) }) } := by
  obtain ⟨task, params, malloc, now⟩ := c
  cases task with
  | none =>
    cases h
    exact .inl ⟨rfl, rfl⟩
  | some t =>
    cases params with
    | none =>
      cases h
      exact .inl ⟨rfl, rfl⟩
    | some params =>
      cases malloc with
      | false =>
        cases h
        exact .inl ⟨rfl, rfl⟩
      | true =>
        cases h
        exact .inr ⟨t, params, rfl, rfl⟩

/-- **Step lemma.** A first registration keeps the list. -/
theorem RtInv.step (hn : n < 2 ^ 32) (h : RtInv s l) (honce : RegistersOnce s c)
    (hstep : rtStep s c = some s') : ∃ l', RtInv s' l' := by
  rcases rtStep_cases hstep with ⟨-, rfl⟩ | ⟨t, params, hregisters, rfl⟩
  · exact ⟨l, h⟩
  · have hnew : s.latest t = none := honce _ hregisters
    have hfresh : t ∉ l := by
      intro hmem
      have hsome := (h.members t).mp hmem
      rw [hnew] at hsome
      cases hsome
    have hlist := h.list.register hfresh params c.now
    refine ⟨t :: l, hlist, ?_, ?_, ?_⟩
    · intro u
      rw [List.mem_cons, h.members u]
      by_cases hu : u = t
      · subst hu
        simp
      · simp [hu]
    · intro u p hu
      simp only [schedulerSetRealtimeParams, not_true, if_false] at hu ⊢
      by_cases hut : u = t
      · subst hut
        rw [Function.update_self] at hu
        rw [modify_self, ← Option.some.inj hu]
      · rw [Function.update_of_ne hut] at hu
        rw [modify_of_ne _ _ hut]
        exact h.records u p hu
    · have hlength := hlist.length_le
      simp only [schedulerSetRealtimeParams, not_true, if_false, h.count]
      exact wrap32_of_lt (lt_of_le_of_lt hlength hn)

/-- A second registration leaves no list behind. -/
theorem RtInv.leaves (h : RtInv s l) (hagain : ¬ RegistersOnce s c)
    (hstep : rtStep s c = some s') : ¬ ListSound s' := by
  intro hsound
  rcases rtStep_cases hstep with ⟨hregisters, -⟩ | ⟨t, params, hregisters, rfl⟩
  · apply hagain
    intro r hr
    rw [hregisters] at hr
    cases hr
  · have hold : t ∈ l := by
      rw [h.members t, Option.isSome_iff_ne_none]
      intro hnew
      apply hagain
      intro r hr
      rw [hregisters] at hr
      cases hr
      exact hnew
    obtain ⟨l', hchain, -⟩ := hsound.list
    exact h.list.register_again hold params c.now l' hchain

theorem RtRun.start_inv (sys : TaskSys n) : RtInv (RtRun.start sys) [] where
  list := ⟨rfl, fun _ ht => absurd ht List.not_mem_nil⟩
  members := by
    intro t
    simp [RtRun.start]
  records := by
    rintro t params ⟨⟩
  count := rfl

/-- **The real-time list.** For every task table and every sequence of registrations. -/
theorem rt_list_sound_iff (hn : n < 2 ^ 32) (sys : TaskSys n) (calls : List (RtCall n)) :
    Along rtStep ListSound (RtRun.start sys) calls ↔
      Meets rtStep RegistersOnce (RtRun.start sys) calls := by
  have hstart : ∃ l, RtInv (RtRun.start sys) l := ⟨[], RtRun.start_inv sys⟩
  apply along_iff_meets (I := fun s => ∃ l, RtInv s l) _ _ _ hstart
  · rintro s ⟨l, h⟩
    exact h.sound
  · rintro s c s' ⟨l, h⟩ honce hstep
    exact h.step hn honce hstep
  · rintro s c s' ⟨l, h⟩ hagain hstep
    exact h.leaves hagain hstep

/-- Two tasks without records. -/
def plainTasks : TaskSys 2 where
  taskList := fun _ => Task.zeroed 2
  currentTask := none
  idleTask := none
  taskCount := 2
  stackAllocs := []
  stackFrees := []

/-- A registration at tick 0. -/
def registration (t : Fin 2) (period : Nat) : RtCall 2 where
  task := some t
  params := some { period, deadline := period, execution := 1, nextRelease := 0, executionTime := 0 }
  malloc := true
  now := 0

theorem rt_list_sound_iff_two :
    let calls := [registration 0 10, registration 1 20]
    Meets rtStep RegistersOnce (RtRun.start plainTasks) calls ∧
      Along rtStep ListSound (RtRun.start plainTasks) calls :=
  ⟨by decide, (rt_list_sound_iff (by decide) plainTasks _).mpr (by decide)⟩

/-- **New parameters for a task of the list.** The head of the list, or the task behind it, is
registered again: `edf_schedule` goes round for ever. -/
theorem registered_again_loops :
    (∃ s, run rtStep (RtRun.start plainTasks) [registration 0 10, registration 0 20] = some s ∧
      edfSchedule s.rt s.sys = none) ∧
    (∃ s, run rtStep (RtRun.start plainTasks)
        [registration 0 10, registration 1 10, registration 0 20] = some s ∧
      edfSchedule s.rt s.sys = none) ∧
    ¬ ∀ (sys : TaskSys 2) (calls : List (RtCall 2)), Along rtStep ListSound (RtRun.start sys) calls := by
  have hhead : ∃ s, run rtStep (RtRun.start plainTasks) [registration 0 10, registration 0 20] =
      some s ∧ edfSchedule s.rt s.sys = none := ⟨_, rfl, rfl⟩
  refine ⟨hhead, ⟨_, rfl, rfl⟩, ?_⟩
  intro hall
  obtain ⟨s, hrun, hloops⟩ := hhead
  obtain ⟨next, hedf⟩ := ((hall plainTasks _).last hrun).edf
  rw [hloops] at hedf
  cases hedf

end ArmKernel.Sched

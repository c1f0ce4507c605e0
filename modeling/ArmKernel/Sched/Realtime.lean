/-
The real-time policy (`src/scheduler_rt.c`).

`rt_tasks` is a list threaded through `task->next`; the parameters of a task are
behind its `scheduler_data`. A loop over the list makes at most `n` rounds before
it has met a task twice, so `n` rounds decide whether it ends: `none` stands for
a loop that does not, and for a dereference of `scheduler_data` where no
real-time record is.

`update_deadlines_spec` is the one fact later modules use of the release loop:
on the tasks of the list it is `refresh`, on every other task it is the identity.
`edfFrom_spec` is the one they use of the selection.
-/
import ArmKernel.Support.Chain
import ArmKernel.Tasks.Table

namespace ArmKernel.Sched

open ArmKernel.Support ArmKernel.Tasks

variable {n : Nat}

/-- The static variables of `scheduler_rt.c`. -/
structure Realtime (n : Nat) where
  rtTasks : Option (Fin n)
  rtTaskCount : Nat

/-- The `next` pointers of a task table. -/
abbrev nextOf (tasks : Fin n → Task n) : Fin n → Option (Fin n) := fun t => (tasks t).next

/-- One round of the release loop, for a task whose parameters are `params`. -/
def release (now : Nat) (task : Task n) (params : RealtimeParams) : Task n :=
  if params.nextRelease ≤ now then
    { task with
      schedulerData := .realtime
        { params with
          nextRelease := wrap32 (params.nextRelease + params.period)
          deadline := wrap32 (now + params.period) }
      state := if task.state = .blocked then .ready else task.state }
  else task

/-- The loop of `scheduler_update_deadlines`. -/
def updateDeadlinesLoop (now : Nat) :
    Nat → (Fin n → Task n) → Option (Fin n) → Option (Fin n → Task n)
  | _, tasks, none => some tasks
  | 0, _, some _ => none
  | rounds + 1, tasks, some t =>
    match (tasks t).schedulerData with
    | .realtime params =>
      let tasks' := Function.update tasks t (release now (tasks t) params)
      updateDeadlinesLoop now rounds tasks' (tasks' t).next
    | _ => none

/-- `scheduler_update_deadlines`, `now` being `timer_get_ticks()`. -/
def schedulerUpdateDeadlines (rt : Realtime n) (sys : TaskSys n) (now : Nat) :
    Option (TaskSys n) :=
  (updateDeadlinesLoop now n sys.taskList rt.rtTasks).map fun tasks =>
    { sys with taskList := tasks }

/-- `UINT32_MAX`. -/
def uint32Max : Nat := 2 ^ 32 - 1

/-- The loop of `edf_schedule`: the earliest ready task from `task` on. -/
def edfFrom (tasks : Fin n → Task n) :
    (rounds : Nat) → (task earliest : Option (Fin n)) → (earliestDeadline : Nat) →
      Option (Option (Fin n))
  | _, none, earliest, _ => some earliest
  | 0, some _, _, _ => none
  | rounds + 1, some t, earliest, earliestDeadline =>
    if (tasks t).state = .ready then
      match (tasks t).schedulerData with
      | .realtime params =>
        if params.deadline < earliestDeadline then
          edfFrom tasks rounds (tasks t).next (some t) params.deadline
        else edfFrom tasks rounds (tasks t).next earliest earliestDeadline
      | _ => none
    else edfFrom tasks rounds (tasks t).next earliest earliestDeadline

/-- `edf_schedule`. -/
def edfSchedule (rt : Realtime n) (sys : TaskSys n) : Option (Option (Fin n)) :=
  edfFrom sys.taskList n rt.rtTasks none uint32Max

/-- `scheduler_set_realtime_params`; `malloc` is the success of the allocation. -/
def schedulerSetRealtimeParams (rt : Realtime n) (sys : TaskSys n) (task : Option (Fin n))
    (params : Option RealtimeParams) (malloc : Bool) (now : Nat) : Realtime n × TaskSys n :=
  match task, params with
  | some t, some params =>
    if ¬ malloc then (rt, sys)
    else
      ({ rtTasks := some t, rtTaskCount := wrap32 (rt.rtTaskCount + 1) },
        sys.modify t fun task =>
          { task with
            schedulerData := .realtime { params with nextRelease := wrap32 (now + params.period) }
            next := rt.rtTasks })
  | _, _ => (rt, sys)

/-- `scheduler_rt_tick`, with what it adds to `missed_deadlines`; the first component of the
result says whether it calls `scheduler_yield`. -/
def schedulerRtTick (rt : Realtime n) (sys : TaskSys n) (now : Nat) :
    Option (Bool × TaskSys n × Nat) :=
  (schedulerUpdateDeadlines rt sys now).bind fun sys =>
    match sys.currentTask with
    | none => some (false, sys, 0)
    | some t =>
      match (sys.taskList t).schedulerData with
      | .null => some (false, sys, 0)
      | .realtime params =>
        let params := { params with executionTime := wrap32 (params.executionTime + 1) }
        let spent := decide (params.execution ≤ params.executionTime)
        let sys := sys.modify t fun task =>
          { task with
            schedulerData := .realtime params
            state := if spent then .blocked else task.state }
        some (spent, sys, if params.deadline < now then 1 else 0)
      | _ => none

/-! ### What the release loop does -/

/-- The effect of the loop on one task of the list. -/
def refresh (now : Nat) (task : Task n) : Task n :=
  match task.schedulerData with
  | .realtime params => release now task params
  | _ => task

/-- The task is due: the loop would release it at `now`. -/
def Due (now : Nat) (task : Task n) : Prop :=
  ∃ params, task.schedulerData = .realtime params ∧ params.nextRelease ≤ now

@[simp] theorem release_next (now : Nat) (task : Task n) (params : RealtimeParams) :
    (release now task params).next = task.next := by
  unfold release; split <;> rfl

@[simp] theorem refresh_next (now : Nat) (task : Task n) :
    (refresh now task).next = task.next := by
  unfold refresh; split <;> simp

@[simp] theorem refresh_nextWait (now : Nat) (task : Task n) :
    (refresh now task).nextWait = task.nextWait := by
  unfold refresh release; split
  · split <;> rfl
  · rfl

/-- The loop makes a task ready exactly when it was ready, or blocked and due. -/
theorem refresh_state (now : Nat) (task : Task n) :
    (refresh now task).state = .ready ↔
      task.state = .ready ∨ task.state = .blocked ∧ Due now task := by
  unfold refresh
  split
  next params hdata =>
    have hdue : Due now task ↔ params.nextRelease ≤ now := by
      constructor
      · rintro ⟨p, hp, hle⟩
        rw [hdata] at hp
        cases hp
        exact hle
      · exact fun hle => ⟨params, hdata, hle⟩
    rw [hdue]
    unfold release
    by_cases hle : params.nextRelease ≤ now
    · by_cases hb : task.state = .blocked <;> simp [hle, hb]
    · simp [hle]
  next hdata =>
    have hdue : ¬ Due now task := fun ⟨p, hp, _⟩ => hdata p hp
    simp [hdue]

/-- The loop ends exactly on a chain of tasks, and changes these by `refresh`. -/
theorem updateDeadlinesLoop_spec {now rounds : Nat} {tasks tasks' : Fin n → Task n}
    {head : Option (Fin n)} (h : updateDeadlinesLoop now rounds tasks head = some tasks') :
    ∃ l, Chain (nextOf tasks) head l ∧
      ∀ t, tasks' t = if t ∈ l then refresh now (tasks t) else tasks t := by
  induction rounds generalizing tasks head with
  | zero =>
    cases head with
    | none => exact ⟨[], rfl, fun t => by simp_all [updateDeadlinesLoop]⟩
    | some t => simp [updateDeadlinesLoop] at h
  | succ rounds ih =>
    cases head with
    | none => exact ⟨[], rfl, fun t => by simp_all [updateDeadlinesLoop]⟩
    | some t =>
      simp only [updateDeadlinesLoop] at h
      split at h
      next params hdata =>
        obtain ⟨l, hchain, heffect⟩ := ih h
        have hnext : nextOf (Function.update tasks t (release now (tasks t) params)) =
            nextOf tasks := by
          funext u
          by_cases hu : u = t
          · subst hu; simp [nextOf]
          · simp [nextOf, hu]
        rw [hnext] at hchain
        simp only [Function.update_self, release_next] at hchain
        have hcons : Chain (nextOf tasks) (some t) (t :: l) := ⟨rfl, hchain⟩
        have htl : t ∉ l := (List.nodup_cons.mp hcons.nodup).1
        refine ⟨t :: l, hcons, ?_⟩
        intro u
        rw [heffect u]
        by_cases hu : u = t
        · subst hu
          simp [htl, refresh, hdata]
        · simp [hu]
      next => exact absurd h (by simp)

/-- **Effect of `scheduler_update_deadlines`.** When it returns, the real-time
list is a chain, its tasks are refreshed and nothing else has changed. -/
theorem update_deadlines_spec {rt : Realtime n} {sys sys' : TaskSys n} {now : Nat}
    (h : schedulerUpdateDeadlines rt sys now = some sys') :
    ∃ l, Chain (nextOf sys.taskList) rt.rtTasks l ∧
      sys' = { sys with
        taskList := fun t =>
          if t ∈ l then refresh now (sys.taskList t) else sys.taskList t } := by
  obtain ⟨tasks, hloop, rfl⟩ := Option.map_eq_some_iff.mp h
  obtain ⟨l, hchain, heffect⟩ := updateDeadlinesLoop_spec hloop
  exact ⟨l, hchain, by rw [← funext heffect]⟩

/-! ### What the selection finds -/

/-- The loop of `edf_schedule` prefers the task to one with the deadline `earliest`. -/
def Earlier (earliest : Nat) (task : Task n) : Prop :=
  task.state = .ready ∧
    ∃ params, task.schedulerData = .realtime params ∧ params.deadline < earliest

/-- On a chain of real-time tasks the loop ends. It keeps what it started with when no
task of the chain is preferred to it, and returns one that is otherwise. -/
theorem edfFrom_spec {tasks : Fin n → Task n} {rounds : Nat} {head : Option (Fin n)}
    {l : List (Fin n)} (earliest : Option (Fin n)) (d : Nat) (hchain : Chain (nextOf tasks) head l)
    (hdata : ∀ t ∈ l, ∃ params, (tasks t).schedulerData = .realtime params)
    (enough : l.length ≤ rounds) :
    ∃ next, edfFrom tasks rounds head earliest d = some next ∧
      (next = earliest ∧ (∀ t ∈ l, ¬ Earlier d (tasks t)) ∨
        ∃ t ∈ l, next = some t ∧ Earlier d (tasks t)) := by
  induction l generalizing head rounds earliest d with
  | nil =>
    obtain rfl := hchain
    refine ⟨earliest, ?_, .inl ⟨rfl, by simp⟩⟩
    cases rounds <;> rfl
  | cons t l ih =>
    obtain ⟨rfl, hrest⟩ := hchain
    obtain ⟨rounds, rfl⟩ := Nat.exists_eq_add_one_of_ne_zero (Nat.ne_zero_of_lt enough)
    obtain ⟨params, hparams⟩ := hdata t List.mem_cons_self
    have hdata' : ∀ u ∈ l, ∃ params, (tasks u).schedulerData = .realtime params :=
      fun u hu => hdata u (List.mem_cons_of_mem _ hu)
    have enough' : l.length ≤ rounds := Nat.le_of_succ_le_succ enough
    by_cases hearlier : Earlier d (tasks t)
    · obtain ⟨hready, p, hp, hlt⟩ := hearlier
      obtain ⟨next, hrun, hnext⟩ := ih (some t) p.deadline hrest hdata' enough'
      refine ⟨next, ?_, .inr ?_⟩
      · rw [edfFrom, if_pos hready]
        simp only [hp]
        rw [if_pos hlt]
        exact hrun
      · rcases hnext with ⟨rfl, -⟩ | ⟨u, hu, rfl, hready', q, hq, hlt'⟩
        · exact ⟨t, List.mem_cons_self, rfl, hready, p, hp, hlt⟩
        · exact ⟨u, List.mem_cons_of_mem _ hu, rfl, hready', q, hq, hlt'.trans hlt⟩
    · obtain ⟨next, hrun, hnext⟩ := ih earliest d hrest hdata' enough'
      refine ⟨next, ?_, ?_⟩
      · rw [edfFrom]
        by_cases hready : (tasks t).state = .ready
        · have hlate : ¬ params.deadline < d := fun hlt => hearlier ⟨hready, params, hparams, hlt⟩
          rw [if_pos hready]
          simp only [hparams]
          rw [if_neg hlate]
          exact hrun
        · rw [if_neg hready]
          exact hrun
      · rcases hnext with ⟨rfl, hnone⟩ | ⟨u, hu, heq, hfound⟩
        · exact .inl ⟨rfl, List.forall_mem_cons.mpr ⟨hearlier, hnone⟩⟩
        · exact .inr ⟨u, List.mem_cons_of_mem _ hu, heq, hfound⟩

end ArmKernel.Sched

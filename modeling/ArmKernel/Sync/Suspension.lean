/-
Suspension among the calls that wait and wake: `task_suspend` and `task_resume` of any task,
between calls on mutexes, semaphores and condition variables and passes of
`scheduler_update_deadlines`.

A wake-up writes `TASK_READY` over whatever state the task has, and `task_resume` does so
for every suspended task; neither asks whether the task was suspended or still waits. The
release loop asks: it makes blocked tasks ready only.

`suspendedFrom` keeps, as history, the state in which `task_suspend` found a task that was
not resumed since, and `waits` the tasks that blocked and were not woken since.
`suspension_kept_iff` says in which runs a suspended task stays suspended until it is
resumed, and then goes back to waiting if it still waits: those in which no wake-up takes a
suspended task from its queue, and no task is resumed that was suspended while it waited
and has not been woken. Nothing is assumed about the queues: a task that a resume made
ready in its line may stand in two of them.
-/
import ArmKernel.Support.Run
import ArmKernel.Sync.Condition
import ArmKernel.Sync.Mutex
import ArmKernel.Sync.Semaphore

namespace ArmKernel.Sync

open ArmKernel.Support ArmKernel.Tasks ArmKernel.Sched

/-- What a task waits for in a call. -/
inductive WaitPlace (M S C : Type) where
  | mutex (m : M)
  | semaphore (x : S)
  | condition (c : C) (m : M)
deriving DecidableEq

/-- The calls of a task. -/
inductive SyncCall (M S C : Type) where
  | mutexLock (m : M)
  | mutexUnlock (m : M)
  | semaphoreWait (x : S)
  | semaphorePost (x : S)
  | conditionWait (c : C) (m : M)
  | conditionSignal (c : C)
  | conditionBroadcast (c : C)
deriving DecidableEq

/-- The memory of all synchronisation objects. A condition variable is its queue. -/
structure SyncMemory (n : Nat) (M S C : Type) where
  kernel : Kernel n M
  sems : S → Semaphore n
  semContentions : Nat
  conds : C → Option (Fin n)
  condContentions : Nat

variable {n : Nat} {M S C : Type}

namespace SyncMemory

/-- The state of a task. -/
def state (mem : SyncMemory n M S C) (t : Fin n) : TaskState := (mem.kernel.sys.taskList t).state

/-- Write the task table. -/
def withSys (mem : SyncMemory n M S C) (sys : TaskSys n) : SyncMemory n M S C :=
  { mem with kernel := { mem.kernel with sys } }

/-- The scheduler makes `t` the current task. -/
def dispatch (mem : SyncMemory n M S C) (t : Fin n) : SyncMemory n M S C :=
  mem.withSys { mem.kernel.sys with currentTask := some t }

/-- What the semaphore calls work on. -/
def semKernel (mem : SyncMemory n M S C) : SemKernel n S :=
  ⟨mem.kernel.sys, mem.sems, mem.semContentions⟩

/-- What the semaphore calls wrote. -/
def withSem (mem : SyncMemory n M S C) (k : SemKernel n S) : SyncMemory n M S C :=
  { mem.withSys k.sys with sems := k.sems, semContentions := k.semContentions }

variable [DecidableEq M] [DecidableEq S] [DecidableEq C]

/-- One critical section of the current task, up to its `task_yield` if it blocks; the place is
what it blocks on. `condition_wait` goes on with `mutex_lock` when it is woken. -/
def perform (mem : SyncMemory n M S C) :
    SyncCall M S C → Option (SyncMemory n M S C × Option (WaitPlace M S C))
  | .mutexLock m =>
    (mutexLock mem.kernel (some m)).map fun (kernel, yields) =>
      ({ mem with kernel }, if yields then some (.mutex m) else none)
  | .mutexUnlock m => some ({ mem with kernel := mutexUnlock mem.kernel (some m) }, none)
  | .semaphoreWait x =>
    (semaphoreWait mem.semKernel (some x)).map fun (k, yields) =>
      (mem.withSem k, if yields then some (.semaphore x) else none)
  | .semaphorePost x =>
    (semaphorePost mem.semKernel (some x)).map fun k => (mem.withSem k, none)
  | .conditionWait c m =>
    (conditionWait mem.kernel.sys (mem.conds c)).map fun (sys, queue) =>
      ({ mem with
          kernel := mutexUnlock { mem.kernel with sys } (some m)
          conds := Function.update mem.conds c queue
          condContentions := wrap32 (mem.condContentions + 1) }, some (.condition c m))
  | .conditionSignal c =>
    let result := conditionSignal mem.kernel.sys (mem.conds c)
    some ({ mem.withSys result.1 with conds := Function.update mem.conds c result.2 }, none)
  | .conditionBroadcast c =>
    (conditionBroadcast mem.kernel.sys (mem.conds c)).map fun (sys, queue) =>
      ({ mem.withSys sys with conds := Function.update mem.conds c queue }, none)

/-- The tasks that a critical section of the current task takes from a queue and wakes: the
first in line, or all of it (`mem_taken_broadcast`). -/
def taken (mem : SyncMemory n M S C) : SyncCall M S C → List (Fin n)
  | .mutexUnlock m | .conditionWait _ m =>
    if (mem.kernel.mutexes m).owner = taskGetCurrent mem.kernel.sys then
      (mem.kernel.mutexes m).waitingTasks.toList
    else []
  | .semaphorePost x => (mem.sems x).waitingTasks.toList
  | .conditionSignal c => (mem.conds c).toList
  | .conditionBroadcast c => drain (n + 1) (nextWaitOf mem.kernel.sys.taskList) (mem.conds c)
  | .mutexLock _ | .semaphoreWait _ => []

end SyncMemory

/-! ### What a critical section does to the states -/

/-- The caller that was queued is blocked. -/
theorem addToWaitQueue_blocked {sys : TaskSys n} {t : Fin n} {head head' : Option (Fin n)}
    {tasks : Fin n → Task n}
    (h : addToWaitQueue (sys.setState t .blocked).taskList head t = some (tasks, head')) (u : Fin n) :
    (tasks u).state = if u = t then .blocked else (sys.taskList u).state := by
  rw [addToWaitQueue_state h, setState_state]

/-- A task taken off its queue and made ready. -/
theorem taken_ready (sys : TaskSys n) (w u : Fin n) :
    ((TaskSys.setState { sys with taskList := setNextWait sys.taskList w none } w .ready).taskList
      u).state = if some w = some u then .ready else (sys.taskList u).state := by
  rw [setState_state, setNextWait_state]
  simp only [Option.some.injEq, eq_comm]

theorem mutexLock_state [DecidableEq M] {k k' : Kernel n M} {m : M} {yields : Bool} {t : Fin n}
    (h : mutexLock k (some m) = some (k', yields)) (hcurrent : k.sys.currentTask = some t)
    (u : Fin n) : (k'.sys.taskList u).state =
      if u = t ∧ yields then .blocked else (k.sys.taskList u).state := by
  simp only [mutexLock, taskGetCurrent, hcurrent] at h
  split at h
  · cases h
    simp [Kernel.setMutex]
  · obtain ⟨⟨tasks, queue⟩, hadd, hresult⟩ := Option.map_eq_some_iff.mp h
    cases hresult
    simpa using addToWaitQueue_blocked hadd u

theorem mutexUnlock_state [DecidableEq M] (k : Kernel n M) (m : M) (u : Fin n) :
    ((mutexUnlock k (some m)).sys.taskList u).state =
      if (k.mutexes m).owner = taskGetCurrent k.sys ∧ (k.mutexes m).waitingTasks = some u then .ready
      else (k.sys.taskList u).state := by
  by_cases howner : (k.mutexes m).owner = taskGetCurrent k.sys
  · cases hqueue : (k.mutexes m).waitingTasks with
    | none => simp [mutexUnlock, howner, hqueue, removeFromWaitQueue]
    | some w =>
      simp only [mutexUnlock]
      rw [if_neg (not_not.mpr howner)]
      simp only [hqueue, removeFromWaitQueue, taskResume_setState_ready, howner, true_and]
      exact taken_ready k.sys w u
  · rw [mutexUnlock_of_not_owner howner, if_neg fun h => howner h.1]

theorem semaphoreWait_state [DecidableEq S] {k k' : SemKernel n S} {x : S} {yields : Bool}
    {t : Fin n} (h : semaphoreWait k (some x) = some (k', yields))
    (hcurrent : k.sys.currentTask = some t) (u : Fin n) : (k'.sys.taskList u).state =
      if u = t ∧ yields then .blocked else (k.sys.taskList u).state := by
  simp only [semaphoreWait, taskGetCurrent, hcurrent] at h
  split at h
  · cases h
    simp [SemKernel.setSem]
  · obtain ⟨⟨tasks, queue⟩, hadd, hresult⟩ := Option.map_eq_some_iff.mp h
    cases hresult
    simpa using addToWaitQueue_blocked hadd u

theorem semaphorePost_state [DecidableEq S] {k k' : SemKernel n S} {x : S}
    (h : semaphorePost k (some x) = some k') (u : Fin n) : (k'.sys.taskList u).state =
      if (k.sems x).waitingTasks = some u then .ready else (k.sys.taskList u).state := by
  simp only [semaphorePost] at h
  cases hqueue : (k.sems x).waitingTasks with
  | none =>
    simp only [hqueue, removeFromWaitQueue] at h
    obtain ⟨count, -, rfl⟩ := Option.map_eq_some_iff.mp h
    simp
  | some w =>
    simp only [hqueue, removeFromWaitQueue, taskResume_setState_ready] at h
    cases h
    exact taken_ready k.sys w u

theorem conditionWait_state {sys sys' : TaskSys n} {head head' : Option (Fin n)} {t : Fin n}
    (h : conditionWait sys head = some (sys', head')) (hcurrent : sys.currentTask = some t)
    (u : Fin n) : sys'.currentTask = some t ∧ (sys'.taskList u).state =
      if u = t then .blocked else (sys.taskList u).state := by
  simp only [conditionWait, taskGetCurrent, hcurrent] at h
  obtain ⟨⟨tasks, queue⟩, hadd, hresult⟩ := Option.map_eq_some_iff.mp h
  cases hresult
  exact ⟨hcurrent, addToWaitQueue_blocked hadd u⟩

theorem conditionSignal_state (sys : TaskSys n) (head : Option (Fin n)) (u : Fin n) :
    ((conditionSignal sys head).1.taskList u).state =
      if head = some u then .ready else (sys.taskList u).state := by
  cases head with
  | none => simp [conditionSignal, removeFromWaitQueue]
  | some w =>
    simp only [conditionSignal, removeFromWaitQueue, taskResume_setState_ready]
    exact taken_ready sys w u

namespace SyncMemory

variable {mem mem' : SyncMemory n M S C}

/-- A broadcast takes the tasks that stand in the queue. -/
theorem mem_taken_broadcast (c : C) (u : Fin n) :
    u ∈ mem.taken (.conditionBroadcast c) ↔ InLine mem.kernel.sys.taskList (mem.conds c) u := by
  apply mem_drain
  have hcard := card_links_le (nextWaitOf mem.kernel.sys.taskList)
  rw [Fintype.card_fin] at hcard
  exact Nat.lt_succ_of_le hcard

variable [DecidableEq M] [DecidableEq S] [DecidableEq C]

/-- **States after a critical section.** The tasks it takes are ready, whatever they were, the
caller is blocked if it waits, and no other state is written. -/
theorem perform_state {c : SyncCall M S C} {place : Option (WaitPlace M S C)} {t : Fin n}
    (h : mem.perform c = some (mem', place)) (hcurrent : mem.kernel.sys.currentTask = some t)
    (u : Fin n) : mem'.state u =
      if u ∈ mem.taken c then .ready
      else if u = t ∧ place.isSome then .blocked else mem.state u := by
  cases c with
  | mutexLock m =>
    obtain ⟨⟨kernel, yields⟩, hlock, hresult⟩ := Option.map_eq_some_iff.mp h
    cases hresult
    have hstate := mutexLock_state hlock hcurrent u
    cases yields <;> simpa [state, taken] using hstate
  | mutexUnlock m =>
    cases h
    simp only [state, mutexUnlock_state, taken]
    by_cases howner : (mem.kernel.mutexes m).owner = taskGetCurrent mem.kernel.sys <;> simp [howner]
  | semaphoreWait x =>
    obtain ⟨⟨k, yields⟩, hwait, hresult⟩ := Option.map_eq_some_iff.mp h
    cases hresult
    have hstate := semaphoreWait_state hwait hcurrent u
    cases yields <;> simpa [state, taken, withSem, withSys, semKernel] using hstate
  | semaphorePost x =>
    obtain ⟨k, hpost, hresult⟩ := Option.map_eq_some_iff.mp h
    cases hresult
    have hmem : u ∈ mem.taken (.semaphorePost x) ↔ (mem.sems x).waitingTasks = some u :=
      Option.mem_toList
    rw [if_congr hmem rfl rfl]
    simp only [Option.isSome_none, Bool.false_eq_true, and_false, if_false]
    exact semaphorePost_state hpost u
  | conditionWait c m =>
    obtain ⟨⟨sys, queue⟩, hwait, hresult⟩ := Option.map_eq_some_iff.mp h
    cases hresult
    obtain ⟨hcurrent', hstate⟩ := conditionWait_state hwait hcurrent u
    simp only [state, mutexUnlock_state, taken, hstate, taskGetCurrent, hcurrent, hcurrent']
    by_cases howner : (mem.kernel.mutexes m).owner = some t <;> simp [howner]
  | conditionSignal c =>
    cases h
    have hmem : u ∈ mem.taken (.conditionSignal c) ↔ mem.conds c = some u := Option.mem_toList
    rw [if_congr hmem rfl rfl]
    simp only [Option.isSome_none, Bool.false_eq_true, and_false, if_false]
    exact conditionSignal_state mem.kernel.sys (mem.conds c) u
  | conditionBroadcast c =>
    obtain ⟨⟨sys, queue⟩, hbroadcast, hresult⟩ := Option.map_eq_some_iff.mp h
    cases hresult
    have hstate := conditionBroadcast_state hbroadcast u
    simpa [state, taken, withSys] using hstate

end SyncMemory

/-- A call of a task, a woken task that goes on (`wake`), or a call on any task from anywhere.
`now` is the tick counter. -/
inductive SyncAction (n : Nat) (M S C : Type) where
  | call (t : Fin n) (c : SyncCall M S C)
  | wake (t : Fin n)
  | suspend (t : Option (Fin n))
  | resume (t : Option (Fin n))
  | updateDeadlines (now : Nat)
deriving DecidableEq

/-- The memory and the tasks that run on it. `pending` is what the call waits for that a task
sits in. -/
structure SyncSystem (n : Nat) (M S C : Type) where
  mem : SyncMemory n M S C
  pending : Fin n → Option (WaitPlace M S C)
  waits : Fin n → Bool
  suspendedFrom : Fin n → Option TaskState

namespace SyncSystem

/-- All objects as their `init` functions leave them, no call under way and no task
suspended by a call. -/
def start (mem : SyncMemory n M S C) (name : M → List UInt8) (initialCount : S → Int)
    (semName : S → List UInt8) : SyncSystem n M S C where
  mem :=
    { mem with
      kernel := { mem.kernel with mutexes := fun m => mutexInit n (name m) }
      sems := fun x => semaphoreInit n (initialCount x) (semName x)
      conds := fun _ => none }
  pending := fun _ => none
  waits := fun _ => false
  suspendedFrom := fun _ => none

/-- `t` is ready and outside every call that waits. -/
def CanCall (s : SyncSystem n M S C) (t : Fin n) : Prop :=
  s.mem.state t = .ready ∧ (s.pending t).isNone

instance (s : SyncSystem n M S C) (t : Fin n) : Decidable (s.CanCall t) :=
  inferInstanceAs (Decidable (_ ∧ _))

/-- A critical section of `t` is over: it blocked at `place` or went through, and woke the tasks
of `taken`. -/
def settle (s : SyncSystem n M S C) (t : Fin n) (mem : SyncMemory n M S C)
    (place : Option (WaitPlace M S C)) (taken : List (Fin n)) : SyncSystem n M S C :=
  { s with
    mem
    pending := Function.update s.pending t place
    waits := fun u => !taken.contains u && (if u = t then place.isSome else s.waits u) }

variable [DecidableEq M] [DecidableEq S] [DecidableEq C]

/-- `t` runs a critical section. -/
def critical (s : SyncSystem n M S C) (t : Fin n) (c : SyncCall M S C) :
    Option (SyncSystem n M S C) :=
  ((s.mem.dispatch t).perform c).map fun (mem, place) =>
    s.settle t mem place ((s.mem.dispatch t).taken c)

/-- One step. -/
def syncStep (s : SyncSystem n M S C) : SyncAction n M S C → Option (SyncSystem n M S C)
  | .call t c => if s.CanCall t then s.critical t c else none
  | .wake t =>
    if s.mem.state t = .ready then
      match s.pending t with
      | none => none
      | some (.condition _ m) => s.critical t (.mutexLock m)
      | some _ => some (s.settle t (s.mem.dispatch t) none [])
    else none
  | .suspend t =>
    some { s with
      mem := s.mem.withSys (taskSuspend s.mem.kernel.sys t).1
      suspendedFrom := fun u =>
        if t = some u ∧ s.mem.kernel.sys.idleTask ≠ some u then
          (s.suspendedFrom u).or (some (s.mem.state u))
        else s.suspendedFrom u }
  | .resume t =>
    some { s with
      mem := s.mem.withSys (taskResume s.mem.kernel.sys t)
      suspendedFrom := fun u => if t = some u then none else s.suspendedFrom u }
  | .updateDeadlines now =>
    (schedulerUpdateDeadlines s.mem.kernel.rt s.mem.kernel.sys now).map fun sys =>
      { s with mem := s.mem.withSys sys }

omit [DecidableEq M] [DecidableEq S] [DecidableEq C] in
/-- Every task that was suspended, and not resumed since, is suspended. -/
def Held (s : SyncSystem n M S C) : Prop :=
  ∀ t, s.suspendedFrom t ≠ none → s.mem.state t = .suspended

/-- `t` was suspended while it waited, and was not woken since. -/
def StillWaits (s : SyncSystem n M S C) (t : Fin n) : Prop :=
  s.suspendedFrom t = some .blocked ∧ s.waits t = true

/-- **Suspension is only undone by resume**: the step leaves suspended tasks suspended, and a
task that still waits is blocked again when it is resumed. -/
def KeepsSuspension (s : SyncSystem n M S C) (a : SyncAction n M S C) : Prop :=
  ∀ s', s.syncStep a = some s' →
    s'.Held ∧ ∀ t, a = .resume (some t) → s.StillWaits t → s'.mem.state t = .blocked

/-- The step wakes no suspended task, and resumes none that still waits. -/
def SparesSuspended (s : SyncSystem n M S C) : SyncAction n M S C → Prop
  | .call t c => ∀ w ∈ (s.mem.dispatch t).taken c, s.suspendedFrom w = none
  | .resume t => ∀ u, t = some u → ¬ s.StillWaits u
  | .wake _ | .suspend _ | .updateDeadlines _ => True

/-! ### What one step does -/

variable {s s' : SyncSystem n M S C} {t u : Fin n}

/-- A critical section keeps the suspended tasks suspended exactly when it takes none. -/
theorem held_of_critical (h : s.Held) (hready : s.mem.state t = .ready) {c : SyncCall M S C}
    (hstep : s.critical t c = some s') :
    s'.Held ↔ ∀ w ∈ (s.mem.dispatch t).taken c, s.suspendedFrom w = none := by
  obtain ⟨⟨mem, place⟩, hperform, rfl⟩ := Option.map_eq_some_iff.mp hstep
  have hstate := SyncMemory.perform_state hperform (t := t) rfl
  constructor
  · intro hheld w hw
    by_contra hsuspended
    have hafter : mem.state w = .suspended := hheld w hsuspended
    rw [hstate w, if_pos hw] at hafter
    cases hafter
  · intro hspares u hsuspended
    have hbefore : s.mem.state u = .suspended := h u hsuspended
    have hout : u ∉ (s.mem.dispatch t).taken c := fun hu => hsuspended (hspares u hu)
    -- The caller is ready, so it is no suspended task that blocks here.
    have hne : ¬ (u = t ∧ place.isSome = true) := by
      rintro ⟨rfl, -⟩
      cases hbefore.symm.trans hready
    change mem.state u = .suspended
    rw [hstate u, if_neg hout, if_neg hne]
    exact hbefore

theorem suspend_state (sys : TaskSys n) (t : Option (Fin n)) (u : Fin n) :
    ((taskSuspend sys t).1.taskList u).state =
      if t = some u ∧ sys.idleTask ≠ some u then .suspended else (sys.taskList u).state := by
  cases t with
  | none => simp [taskSuspend]
  | some v =>
    by_cases hidle : sys.idleTask = some v
    · have hnot : ¬ (some v = some u ∧ sys.idleTask ≠ some u) := by
        rintro ⟨hv, hne⟩
        exact hne (hidle.trans hv)
      simp only [taskSuspend, if_pos hidle, if_neg hnot]
    · simp only [taskSuspend, if_neg hidle, setState_state]
      by_cases hu : u = v
      · subst hu
        simp [hidle]
      · simp [hu, Ne.symm hu]

theorem resume_state (sys : TaskSys n) (t : Option (Fin n)) (u : Fin n) :
    ((taskResume sys t).taskList u).state =
      if t = some u ∧ (sys.taskList u).state = .suspended then .ready
      else (sys.taskList u).state := by
  cases t with
  | none => simp [taskResume]
  | some v =>
    simp only [taskResume, Option.some.injEq]
    by_cases hu : v = u
    · subst hu
      split
      · rename_i hsuspended
        rw [setState_state, if_pos rfl, if_pos ⟨rfl, hsuspended⟩]
      · rename_i hother
        rw [if_neg fun h => hother h.2]
    · split
      · rw [setState_state, if_neg (Ne.symm hu), if_neg fun h => hu h.1]
      · rw [if_neg fun h => hu h.1]

/-- The release loop leaves a suspended task suspended. -/
theorem updateDeadlines_suspended {rt : Realtime n} {sys sys' : TaskSys n} {now : Nat}
    (h : schedulerUpdateDeadlines rt sys now = some sys') (hu : (sys.taskList u).state = .suspended) :
    (sys'.taskList u).state = .suspended := by
  obtain ⟨l, -, rfl⟩ := update_deadlines_spec h
  dsimp only
  split
  · unfold refresh
    split
    · unfold release
      split
      · rw [hu]
        rfl
      · exact hu
    · exact hu
  · exact hu

/-- A step that wakes no suspended task keeps all of them suspended. -/
theorem Held.step (h : s.Held) {a : SyncAction n M S C} (hspares : s.SparesSuspended a)
    (hstep : s.syncStep a = some s') : s'.Held := by
  cases a with
  | call t c =>
    obtain ⟨hcall, hcritical⟩ := Option.ite_none_right_eq_some.mp hstep
    exact (held_of_critical h hcall.1 hcritical).mpr hspares
  | wake t =>
    obtain ⟨hready, hrest⟩ := Option.ite_none_right_eq_some.mp hstep
    split at hrest
    · cases hrest
    · -- `condition_wait` goes on with `mutex_lock`, which wakes nobody.
      exact (held_of_critical h hready hrest).mpr fun w hw => nomatch hw
    · cases hrest
      exact h
  | suspend t =>
    cases hstep
    intro u hu
    change ((taskSuspend s.mem.kernel.sys t).1.taskList u).state = .suspended
    rw [suspend_state]
    split
    · rfl
    · rename_i hother
      exact h u (by simpa [hother] using hu)
  | resume t =>
    cases hstep
    intro u hu
    have hne : t ≠ some u := fun e => hu (by simp [e])
    change ((taskResume s.mem.kernel.sys t).taskList u).state = .suspended
    rw [resume_state, if_neg fun h' => hne h'.1]
    exact h u (by simpa [hne] using hu)
  | updateDeadlines now =>
    obtain ⟨sys, hupdate, rfl⟩ := Option.map_eq_some_iff.mp hstep
    intro u hu
    exact updateDeadlines_suspended hupdate (h u hu)

/-- Every other step undoes a suspension, or lets a task run that still waits. -/
theorem Held.keeps_iff (h : s.Held) (a : SyncAction n M S C) :
    s.KeepsSuspension a ↔ ∀ s', s.syncStep a = some s' → s.SparesSuspended a := by
  constructor
  · intro hkeeps s' hstep
    obtain ⟨hheld, hwaits⟩ := hkeeps s' hstep
    cases a with
    | call t c =>
      obtain ⟨hcall, hcritical⟩ := Option.ite_none_right_eq_some.mp hstep
      exact (held_of_critical h hcall.1 hcritical).mp hheld
    | resume t =>
      rintro u rfl hstill
      have hsuspended : s.mem.state u = .suspended := h u (by rw [hstill.1]; exact nofun)
      have hblocked := hwaits u rfl hstill
      cases hstep
      -- `task_resume` made it ready.
      change ((taskResume s.mem.kernel.sys (some u)).taskList u).state = .blocked at hblocked
      rw [resume_state, if_pos ⟨rfl, hsuspended⟩] at hblocked
      cases hblocked
    | wake | suspend | updateDeadlines => trivial
  · intro hspares s' hstep
    refine ⟨h.step (hspares s' hstep) hstep, ?_⟩
    rintro t rfl hstill
    exact absurd hstill (hspares s' hstep t rfl)

omit [DecidableEq M] [DecidableEq S] [DecidableEq C] in
theorem start_held (mem : SyncMemory n M S C) (name : M → List UInt8) (initialCount : S → Int)
    (semName : S → List UInt8) : (start mem name initialCount semName).Held :=
  fun _ h => absurd rfl h

/-- A run whose steps all keep the suspended tasks suspended visits no other state. -/
theorem held_of_each (h : s.Held) {actions : List (SyncAction n M S C)}
    (hall : Each syncStep KeepsSuspension s actions)
    (hrun : run syncStep s actions = some s') : s'.Held := by
  induction actions generalizing s with
  | nil =>
    cases hrun
    exact h
  | cons a actions ih =>
    obtain ⟨s₁, hstep, hrest⟩ := run_cons_eq_some.mp hrun
    exact ih (hall.1 s₁ hstep).1 (hall.2 s₁ hstep) hrest

/-- **When suspension is only undone by resume.** In a run, every step keeps the suspended tasks
suspended and lets a resumed one wait again exactly when no wake-up of the run takes a
suspended task from its queue, and no task is resumed that was suspended while it waited and
was not woken since. -/
theorem suspension_kept_iff (mem : SyncMemory n M S C) (name : M → List UInt8)
    (initialCount : S → Int) (semName : S → List UInt8) (actions : List (SyncAction n M S C)) :
    Each syncStep KeepsSuspension (start mem name initialCount semName) actions ↔
      Meets syncStep SparesSuspended (start mem name initialCount semName) actions :=
  each_iff_meets (fun _ _ _ h hok hstep => h.step hok hstep) (fun _ a h => h.keeps_iff a)
    (start_held mem name initialCount semName) actions

/-- Two ready tasks, a mutex, a semaphore and a condition variable. -/
def twoTaskMemory : SyncMemory 2 Unit Unit Unit where
  kernel :=
    { sys := ⟨fun _ => Task.zeroed 2, none, none, 2, [], []⟩
      mutexes := fun _ => mutexInit 2 []
      stats := ⟨0⟩
      rt := ⟨none, 0⟩ }
  sems := fun _ => semaphoreInit 2 0 []
  semContentions := 0
  conds := fun _ => none
  condContentions := 0

/-- Task 1 waits for the mutex of task 0 and is suspended. The unlock of task 0 makes it ready
although nobody resumed it, and a resume before that makes it ready although it still waits. -/
theorem suspension_undone :
    ((run syncStep (start twoTaskMemory (fun _ => []) (fun _ => 0) fun _ => [])
        [.call 0 (.mutexLock ()), .call 1 (.mutexLock ()), .suspend (some 1),
          .call 0 (.mutexUnlock ())]).map fun s => (s.suspendedFrom 1, s.mem.state 1)) =
      some (some .blocked, .ready) ∧
    ((run syncStep (start twoTaskMemory (fun _ => []) (fun _ => 0) fun _ => [])
        [.call 0 (.mutexLock ()), .call 1 (.mutexLock ()), .suspend (some 1),
          .resume (some 1)]).map fun s => (s.waits 1, s.mem.state 1)) =
      some (true, .ready) ∧
    ¬ ∀ actions, Each syncStep KeepsSuspension
        (start twoTaskMemory (fun _ => []) (fun _ => 0) fun _ => []) actions := by
  have hends : (run syncStep (start twoTaskMemory (fun _ => []) (fun _ => 0) fun _ => [])
      [.call 0 (.mutexLock ()), .call 1 (.mutexLock ()), .suspend (some 1),
        .call 0 (.mutexUnlock ())]).map (fun s => (s.suspendedFrom 1, s.mem.state 1)) =
      some (some .blocked, .ready) := by decide
  refine ⟨hends, by decide, ?_⟩
  intro hall
  obtain ⟨s, hrun, hfacts⟩ := Option.map_eq_some_iff.mp hends
  obtain ⟨hsuspended, hready⟩ := Prod.mk.inj hfacts
  have hheld := held_of_each (start_held twoTaskMemory (fun _ => []) (fun _ => 0) fun _ => [])
    (hall _) hrun
  have hstate := hheld 1 (by rw [hsuspended]; exact nofun)
  cases hstate.symm.trans hready

end SyncSystem

end ArmKernel.Sync

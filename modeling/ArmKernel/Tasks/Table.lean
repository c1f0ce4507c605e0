/-
The task table (`include/task.h`, `src/task.c`).

Control blocks live in the static array `task_list`; a `task_t *` is an index of
it or the null pointer, hence `Option (Fin n)` with `n` for `MAX_TASKS`. What a
call needs from outside (the result of `malloc`, the task chosen by the
scheduler) is an argument.

`next_wait`, `scheduler_data`, `wake_time`, `context.sp` and the real-time
`execution_time` are members the sources use and the headers do not declare;
`next_wait`, `scheduler_data`, `context.sp` and `execution_time` are part of the
records here, next to the declared ones.

A function that ends in `task_yield` returns `true` in its second component: the
caller goes on only when the scheduler comes back to it.
-/
import ArmKernel.Support.Word
import Mathlib.Data.Fin.Basic
import Mathlib.Data.List.FinRange
import Mathlib.Logic.Function.Basic

namespace ArmKernel.Tasks

open ArmKernel.Support

/-- A machine word as a register or a stack slot holds it. -/
abbrev Word := BitVec 32

/-! ### Records -/

/-- `task_state_t`, in the order of its values. -/
inductive TaskState where
  | ready | running | blocked | suspended | terminated
deriving DecidableEq, Repr

/-- The value of an enumerator, as the byte `state` stores it. -/
def TaskState.code : TaskState → Nat
  | .ready => 0
  | .running => 1
  | .blocked => 2
  | .suspended => 3
  | .terminated => 4

/-- `task_context_t`. -/
structure TaskContext where
  r : Fin 13 → Word
  lr : Word
  pc : Word
  cpsr : Word
  sp : Word

/-- `mlfq_params_t`. -/
structure MlfqParams where
  currentQueue : Nat
  timeSlice : Nat
  boostTicks : Nat
deriving DecidableEq, Repr

/-- `realtime_params_t`. -/
structure RealtimeParams where
  period : Nat
  deadline : Nat
  execution : Nat
  nextRelease : Nat
  executionTime : Nat
deriving DecidableEq, Repr

/-- What `scheduler_data` points at: nothing, or the record one of the policies
allocated. A fair entity is also reached from the tree, so it is given by its
address. -/
inductive SchedulerData where
  | null
  | mlfq (params : MlfqParams)
  | realtime (params : RealtimeParams)
  | fair (entity : Nat)
deriving DecidableEq, Repr

/-- `task_t`. -/
structure Task (n : Nat) where
  context : TaskContext
  stack : Nat
  stackSize : Nat
  priority : Nat
  state : TaskState
  timeSlice : Nat
  ticksRemaining : Nat
  totalTicks : Nat
  name : List UInt8
  next : Option (Fin n)
  nextWait : Option (Fin n)
  schedulerData : SchedulerData

/-- A context of zero bytes. -/
def TaskContext.zeroed : TaskContext := ⟨fun _ => 0, 0, 0, 0, 0⟩

/-- A control block of zero bytes, as `memset` leaves it. The state byte 0 is
`TASK_READY`. -/
def Task.zeroed (n : Nat) : Task n where
  context := .zeroed
  stack := 0
  stackSize := 0
  priority := 0
  state := .ready
  timeSlice := 0
  ticksRemaining := 0
  totalTicks := 0
  name := []
  next := none
  nextWait := none
  schedulerData := .null

/-- The state of a zeroed block is the one whose value is zero. -/
theorem zeroed_state_code (n : Nat) : (Task.zeroed n).state.code = 0 := rfl

/-- The static variables of `task.c`. `stackAllocs` and `stackFrees` record the
stacks obtained from `malloc` and those handed to `free`. -/
structure TaskSys (n : Nat) where
  taskList : Fin n → Task n
  currentTask : Option (Fin n)
  idleTask : Option (Fin n)
  taskCount : Nat
  stackAllocs : List Nat
  stackFrees : List Nat

/-- `MAX_TASKS`. -/
def maxTasks : Nat := 32

/-- `IDLE_TASK_STACK_SIZE`. -/
def idleTaskStackSize : Nat := 1024

/-- `TASK_PRIORITY_IDLE`. -/
def taskPriorityIdle : Nat := 0

variable {n : Nat}

/-- Change one control block. -/
def TaskSys.modify (sys : TaskSys n) (t : Fin n) (f : Task n → Task n) : TaskSys n :=
  { sys with taskList := Function.update sys.taskList t (f (sys.taskList t)) }

/-- `task->state = state`. -/
def TaskSys.setState (sys : TaskSys n) (t : Fin n) (state : TaskState) : TaskSys n :=
  sys.modify t fun task => { task with state }

/-! ### The functions of `task.c` -/

/-- The first slot whose state is `TASK_TERMINATED`. -/
def freeSlot (tasks : Fin n → Task n) : Option (Fin n) :=
  (List.finRange n).find? fun i => decide ((tasks i).state = .terminated)

/-- The block `task_create` writes into its slot. -/
def newTask (n : Nat) (name : List UInt8) (entry taskExit : Word) (priority stackSize : Nat)
    (stack : Nat) : Task n :=
  { Task.zeroed n with
    name := name.take 31
    priority := priority % 256
    state := .ready
    stack := stack
    stackSize := stackSize
    timeSlice := 100
    ticksRemaining := 100
    totalTicks := 0
    context :=
      { TaskContext.zeroed with
        cpsr := 0x13
        pc := entry
        lr := taskExit
        sp := BitVec.ofNat 32 (stack + 4 * sub32 (stackSize / 4) 1) } }

/-- `task_create`; `malloc` is what the allocator returns for the stack. -/
def taskCreate (sys : TaskSys n) (name : List UInt8) (entry taskExit : Word)
    (priority stackSize : Nat) (malloc : Option Nat) : TaskSys n × Option (Fin n) :=
  if n ≤ sys.taskCount then (sys, none)
  else
    match freeSlot sys.taskList with
    | none => (sys, none)
    | some i =>
      match malloc with
      | none => (sys, none)
      | some stack =>
        ({ sys with
            taskList := Function.update sys.taskList i
              (newTask n name entry taskExit priority stackSize stack)
            taskCount := wrap32 (sys.taskCount + 1)
            stackAllocs := sys.stackAllocs ++ [stack] }, some i)

/-- How `task_init` ends: it returns, or it loops forever in the state given. -/
inductive InitOutcome (n : Nat) where
  | returned (sys : TaskSys n)
  | halted (sys : TaskSys n)

/-- `task_init`. -/
def taskInit (sys : TaskSys n) (idleEntry taskExit : Word) (malloc : Option Nat) :
    InitOutcome n :=
  let cleared : TaskSys n :=
    { sys with taskList := fun _ => Task.zeroed n, taskCount := 0, currentTask := none }
  -- "idle"
  match taskCreate cleared [105, 100, 108, 101] idleEntry taskExit taskPriorityIdle
      idleTaskStackSize malloc with
  | (sys', some idle) => .returned { sys' with idleTask := some idle }
  | (sys', none) => .halted { sys' with idleTask := none }

/-- `task_delete`. -/
def taskDelete (sys : TaskSys n) (task : Option (Fin n)) : TaskSys n × Bool :=
  match task with
  | none => (sys, false)
  | some t =>
    if sys.idleTask = some t then (sys, false)
    else
      let sys' := sys.setState t .terminated
      ({ sys' with
          stackFrees := sys.stackFrees ++ [(sys.taskList t).stack]
          taskCount := sub32 sys.taskCount 1 },
        decide (sys.currentTask = some t))

/-- `task_suspend`. -/
def taskSuspend (sys : TaskSys n) (task : Option (Fin n)) : TaskSys n × Bool :=
  match task with
  | none => (sys, false)
  | some t =>
    if sys.idleTask = some t then (sys, false)
    else (sys.setState t .suspended, decide (sys.currentTask = some t))

/-- `task_resume`. -/
def taskResume (sys : TaskSys n) (task : Option (Fin n)) : TaskSys n :=
  match task with
  | none => sys
  | some t => if (sys.taskList t).state = .suspended then sys.setState t .ready else sys

/-- `task_sleep`. -/
def taskSleep (sys : TaskSys n) (ms : Nat) : TaskSys n × Bool :=
  match sys.currentTask with
  | none => (sys, false)
  | some t => (sys.modify t fun task => { task with state := .blocked, ticksRemaining := ms }, true)

/-- `task_set_priority`; the priority is a byte. -/
def taskSetPriority (sys : TaskSys n) (task : Option (Fin n)) (priority : Nat) : TaskSys n :=
  match task with
  | none => sys
  | some t =>
    if sys.idleTask = some t then sys
    else sys.modify t fun task => { task with priority := priority % 256 }

/-- `task_get_current`. -/
def taskGetCurrent (sys : TaskSys n) : Option (Fin n) := sys.currentTask

/-- `task_schedule`, `next` being the task `scheduler_next_task` chose. -/
def taskSchedule (sys : TaskSys n) (next : Option (Fin n)) : TaskSys n :=
  if next ≠ sys.currentTask then { sys with currentTask := next } else sys

/-! ### What the updates leave alone -/

section Updates

variable (sys : TaskSys n) (t u : Fin n) (f : Task n → Task n) (st : TaskState)

/-- The task chosen is the current one, whichever was. -/
theorem taskSchedule_eq (next : Option (Fin n)) :
    taskSchedule sys next = { sys with currentTask := next } := by
  unfold taskSchedule
  split
  · rfl
  · rename_i hsame
    rw [not_not.mp hsame]

@[simp] theorem modify_self : (sys.modify t f).taskList t = f (sys.taskList t) := by
  simp [TaskSys.modify]

theorem modify_of_ne {t u : Fin n} (h : u ≠ t) : (sys.modify t f).taskList u = sys.taskList u := by
  simp [TaskSys.modify, h]

@[simp] theorem modify_currentTask : (sys.modify t f).currentTask = sys.currentTask := rfl
@[simp] theorem modify_idleTask : (sys.modify t f).idleTask = sys.idleTask := rfl
@[simp] theorem modify_taskCount : (sys.modify t f).taskCount = sys.taskCount := rfl

theorem setState_state : ((sys.setState t st).taskList u).state =
    if u = t then st else (sys.taskList u).state := by
  by_cases h : u = t
  · subst h; simp [TaskSys.setState]
  · simp [TaskSys.setState, modify_of_ne, h]

@[simp] theorem setState_nextWait :
    ((sys.setState t st).taskList u).nextWait = (sys.taskList u).nextWait := by
  by_cases h : u = t
  · subst h; simp [TaskSys.setState]
  · simp [TaskSys.setState, modify_of_ne, h]

@[simp] theorem setState_next :
    ((sys.setState t st).taskList u).next = (sys.taskList u).next := by
  by_cases h : u = t
  · subst h; simp [TaskSys.setState]
  · simp [TaskSys.setState, modify_of_ne, h]

@[simp] theorem setState_schedulerData :
    ((sys.setState t st).taskList u).schedulerData = (sys.taskList u).schedulerData := by
  by_cases h : u = t
  · subst h; simp [TaskSys.setState]
  · simp [TaskSys.setState, modify_of_ne, h]

@[simp] theorem setState_currentTask : (sys.setState t st).currentTask = sys.currentTask := rfl
@[simp] theorem setState_idleTask : (sys.setState t st).idleTask = sys.idleTask := rfl
@[simp] theorem setState_taskCount : (sys.setState t st).taskCount = sys.taskCount := rfl

/-- A wake-up makes the waiting task ready itself; the `task_resume` behind it finds
nothing to do. -/
theorem taskResume_setState_ready :
    taskResume (sys.setState t .ready) (some t) = sys.setState t .ready := by
  simp [taskResume, setState_state]

/-- `task_suspend` links no queue anew, and every state it changes is then
`TASK_SUSPENDED`. -/
theorem taskSuspend_spec (task : Option (Fin n)) :
    ((taskSuspend sys task).1.taskList t).nextWait = (sys.taskList t).nextWait ∧
      (((taskSuspend sys task).1.taskList t).state = (sys.taskList t).state ∨
        ((taskSuspend sys task).1.taskList t).state = .suspended) := by
  cases task with
  | none => exact ⟨rfl, .inl rfl⟩
  | some u =>
    simp only [taskSuspend]
    split
    · exact ⟨rfl, .inl rfl⟩
    · by_cases h : t = u <;> simp [setState_state, h]

/-- `task_delete` links no queue anew, and every state it changes is then
`TASK_TERMINATED`. -/
theorem taskDelete_spec (task : Option (Fin n)) :
    ((taskDelete sys task).1.taskList t).nextWait = (sys.taskList t).nextWait ∧
      (((taskDelete sys task).1.taskList t).state = (sys.taskList t).state ∨
        ((taskDelete sys task).1.taskList t).state = .terminated) := by
  cases task with
  | none => exact ⟨rfl, .inl rfl⟩
  | some u =>
    simp only [taskDelete]
    split
    · exact ⟨rfl, .inl rfl⟩
    · by_cases h : t = u <;> simp [setState_state, h]

end Updates

end ArmKernel.Tasks

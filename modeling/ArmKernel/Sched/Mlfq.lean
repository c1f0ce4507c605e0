/-
The multi-level feedback queue (`src/scheduler_mlfq.c`).

Eight queues are threaded through `task->next`; the level and the time slice of a
task are behind its `scheduler_data`. `none` stands for a loop that does not end (a
walk of more than `n` hops, a queue that does not run empty in `n` rounds), for a null
pointer that is dereferenced, for a level outside the array `queues`, and for a
`scheduler_data` that is read as `mlfq_params_t` and is none.

`Lines s lines` says that the queue of each level holds the tasks of its line, with
its tail and its count. One lemma for each function says what it does to the lines and
to the records of the tasks.
-/
import ArmKernel.Sched.Realtime

namespace ArmKernel.Sched

open ArmKernel.Support ArmKernel.Tasks

/-- `MLFQ_QUEUE_COUNT`. -/
def mlfqQueueCount : Nat := 8

/-- `mlfq_queue_t`. -/
structure MlfqQueue (n : Nat) where
  head : Option (Fin n)
  tail : Option (Fin n)
  timeQuantum : Nat
  taskCount : Nat

/-- The static variables of `scheduler_mlfq.c`. -/
structure Mlfq (n : Nat) where
  queues : Nat → MlfqQueue n
  boostPeriod : Nat
  boostCounter : Nat

/-- The queues and the tasks they link. -/
structure MlfqSys (n : Nat) where
  sys : TaskSys n
  mlfq : Mlfq n

variable {n : Nat}

/-- `task->next = p`. -/
def setNext (tasks : Fin n → Task n) (t : Fin n) (p : Option (Fin n)) : Fin n → Task n :=
  Function.update tasks t { tasks t with next := p }

namespace MlfqSys

/-- Write one queue. -/
def setQueue (s : MlfqSys n) (i : Nat) (queue : MlfqQueue n) : MlfqSys n :=
  { s with mlfq := { s.mlfq with queues := Function.update s.mlfq.queues i queue } }

/-- Write the task table. -/
def setTasks (s : MlfqSys n) (tasks : Fin n → Task n) : MlfqSys n :=
  { s with sys := { s.sys with taskList := tasks } }

/-- Write the record behind `scheduler_data`. -/
def setParams (s : MlfqSys n) (t : Fin n) (params : MlfqParams) : MlfqSys n :=
  { s with sys := s.sys.modify t fun task => { task with schedulerData := .mlfq params } }

/-- `scheduler_data`, read as `mlfq_params_t *`. -/
def params (s : MlfqSys n) (t : Fin n) : Option MlfqParams :=
  match (s.sys.taskList t).schedulerData with
  | .mlfq params => some params
  | _ => none

end MlfqSys

open MlfqSys

/-- `scheduler_mlfq_init`, for the `BASE_QUANTUM` of the build. -/
def schedulerMlfqInit (mlfq : Mlfq n) (baseQuantum : Nat) : Mlfq n :=
  { mlfq with
    queues := fun i =>
      if i < mlfqQueueCount then
        { head := none, tail := none, timeQuantum := wrap32 (2 ^ i * baseQuantum), taskCount := 0 }
      else mlfq.queues i }

/-- `mlfq_enqueue`. -/
def mlfqEnqueue (s : MlfqSys n) (queueIndex : Nat) (task : Option (Fin n)) : Option (MlfqSys n) :=
  match task with
  | none => some s
  | some t =>
    if mlfqQueueCount ≤ queueIndex then some s
    else
      let queue := s.mlfq.queues queueIndex
      let tasks := setNext s.sys.taskList t none
      match queue.head, queue.tail with
      | none, _ =>
        some ((s.setTasks tasks).setQueue queueIndex
          { queue with head := some t, tail := some t, taskCount := wrap32 (queue.taskCount + 1) })
      | some _, some last =>
        some ((s.setTasks (setNext tasks last (some t))).setQueue queueIndex
          { queue with tail := some t, taskCount := wrap32 (queue.taskCount + 1) })
      | some _, none => none

/-- `mlfq_dequeue`. -/
def mlfqDequeue (s : MlfqSys n) (queueIndex : Nat) : MlfqSys n × Option (Fin n) :=
  if mlfqQueueCount ≤ queueIndex then (s, none)
  else
    let queue := s.mlfq.queues queueIndex
    match queue.head with
    | none => (s, none)
    | some t =>
      let head := (s.sys.taskList t).next
      ((s.setTasks (setNext s.sys.taskList t none)).setQueue queueIndex
        { queue with
          head := head
          tail := if head = none then none else queue.tail
          taskCount := sub32 queue.taskCount 1 }, some t)

/-- `scheduler_mlfq_init_task`; `malloc` is the success of the allocation. -/
def schedulerMlfqInitTask (s : MlfqSys n) (t : Fin n) (malloc : Bool) : Option (MlfqSys n) :=
  if ¬ malloc then some s
  else
    mlfqEnqueue
      (s.setParams t
        { currentQueue := 0, timeSlice := (s.mlfq.queues 0).timeQuantum, boostTicks := 0 })
      0 (some t)

/-- The inner loop of `scheduler_mlfq_boost`. -/
def boostQueue (i : Nat) : (rounds : Nat) → MlfqSys n → Option (MlfqSys n)
  | rounds, s =>
    match (s.mlfq.queues i).head with
    | none => some s
    | some _ =>
      match rounds with
      | 0 => none
      | rounds + 1 =>
        match mlfqDequeue s i with
        | (_, none) => none
        | (s, some t) =>
          (s.params t).bind fun params =>
            (mlfqEnqueue
              (s.setParams t
                { params with currentQueue := 0, timeSlice := (s.mlfq.queues 0).timeQuantum })
              0 (some t)).bind (boostQueue i rounds)

/-- The levels a loop `for (i = a; i < MLFQ_QUEUE_COUNT; i++)` visits. -/
def levelsFrom (a : Nat) : List Nat := List.range' a (mlfqQueueCount - a)

/-- `scheduler_mlfq_boost`. -/
def schedulerMlfqBoost (s : MlfqSys n) : Option (MlfqSys n) :=
  ((levelsFrom 1).foldlM (fun s i => boostQueue i n s) s).map fun s =>
    { s with mlfq := { s.mlfq with boostCounter := 0 } }

/-- The middle of `scheduler_mlfq_update_queue`: take `c` out of its queue, `prev` being
the task before it. -/
def mlfqRemove (s : MlfqSys n) (queueIndex : Nat) (prev : Option (Fin n)) (c : Fin n) : MlfqSys n :=
  let queue := s.mlfq.queues queueIndex
  let after := (s.sys.taskList c).next
  let queue := { queue with
    head := if prev = none then after else queue.head
    tail := if queue.tail = some c then prev else queue.tail
    taskCount := sub32 queue.taskCount 1 }
  let tasks :=
    match prev with
    | some p => setNext s.sys.taskList p after
    | none => s.sys.taskList
  (s.setTasks tasks).setQueue queueIndex queue

/-- `scheduler_mlfq_update_queue`. -/
def schedulerMlfqUpdateQueue (s : MlfqSys n) (task : Option (Fin n)) : Option (MlfqSys n) :=
  match task with
  | none => some s
  | some t =>
    match (s.sys.taskList t).schedulerData with
    | .null => some s
    | .mlfq params =>
      if params.timeSlice = 0 then
        let nextQueue :=
          if mlfqQueueCount ≤ wrap32 (params.currentQueue + 1) then mlfqQueueCount - 1
          else wrap32 (params.currentQueue + 1)
        if mlfqQueueCount ≤ params.currentQueue then none
        else
          (walkTo (nextOf s.sys.taskList) t n none (s.mlfq.queues params.currentQueue).head).bind
            fun (prev, curr) =>
            let removed :=
              match curr with
              | none => s
              | some c => mlfqRemove s params.currentQueue prev c
            mlfqEnqueue
              (removed.setParams t
                { params with
                  currentQueue := nextQueue
                  timeSlice := (removed.mlfq.queues nextQueue).timeQuantum })
              nextQueue (some t)
      else some s
    | _ => none

/-- `scheduler_mlfq_tick`. -/
def schedulerMlfqTick (s : MlfqSys n) : Option (MlfqSys n) :=
  match taskGetCurrent s.sys with
  | none => some s
  | some t =>
    match (s.sys.taskList t).schedulerData with
    | .null => some s
    | .mlfq params =>
      let s :=
        if 0 < params.timeSlice then s.setParams t { params with timeSlice := params.timeSlice - 1 }
        else s
      let s := { s with
        mlfq := { s.mlfq with boostCounter := wrap32 (s.mlfq.boostCounter + 1) } }
      if s.mlfq.boostPeriod ≤ s.mlfq.boostCounter then schedulerMlfqBoost s else some s
    | _ => none

/-- The loops of `scheduler_mlfq_next` over the levels given. -/
def nextFrom (s : MlfqSys n) : List Nat → Option (Option (Fin n))
  | [] => some none
  | i :: levels =>
    (walkFind (nextOf s.sys.taskList) (fun t => (s.sys.taskList t).state = .ready) n
      (s.mlfq.queues i).head).bind fun found =>
        match found with
        | some t => some (some t)
        | none => nextFrom s levels

/-- `scheduler_mlfq_next`. -/
def schedulerMlfqNext (s : MlfqSys n) : Option (Option (Fin n)) := nextFrom s (levelsFrom 0)

end ArmKernel.Sched

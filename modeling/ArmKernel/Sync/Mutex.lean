/-
The mutex (`include/sync.h`, `src/mutex.c`).

A function runs with interrupts disabled from its first statement to its return
or to `task_yield`, so one call is one step. `mutex_lock` returns at once when it
takes the lock; otherwise it queues the caller and yields, and the call returns
when the scheduler comes back to the caller: nothing is checked again after
`task_yield`. The second component of `mutexLock` tells the two apart.

`none` stands for a call that faults (no current task where one is dereferenced)
or whose walk along the queue does not end.
-/
import ArmKernel.Sched.Realtime
import ArmKernel.Sync.WaitQueue

namespace ArmKernel.Sync

open ArmKernel.Support ArmKernel.Tasks ArmKernel.Sched

/-- `mutex_t`. -/
structure Mutex (n : Nat) where
  locked : Nat
  owner : Option (Fin n)
  waitingTasks : Option (Fin n)
  recursiveCount : Nat
  name : List UInt8

/-- `sync_stats_t`, as far as the mutex counts. -/
structure SyncStats where
  mutexContentions : Nat
deriving DecidableEq, Repr

/-- The memory the calls work on: the task table, the mutexes of the program, the
statistics and the list of the real-time policy. -/
structure Kernel (n : Nat) (M : Type) where
  sys : TaskSys n
  mutexes : M → Mutex n
  stats : SyncStats
  rt : Realtime n

variable {n : Nat} {M : Type} [DecidableEq M]

/-- Write one mutex. -/
def Kernel.setMutex (k : Kernel n M) (m : M) (mutex : Mutex n) : Kernel n M :=
  { k with mutexes := Function.update k.mutexes m mutex }

/-- `mutex_init`. -/
def mutexInit (n : Nat) (name : List UInt8) : Mutex n :=
  ⟨0, none, none, 0, name⟩

/-- `mutex_lock`. The flag is set when the call goes through `task_yield`. -/
def mutexLock (k : Kernel n M) (mutex : Option M) : Option (Kernel n M × Bool) :=
  match mutex with
  | none => some (k, false)
  | some m =>
    let current := taskGetCurrent k.sys
    if (k.mutexes m).locked = 0 then
      some (k.setMutex m { k.mutexes m with locked := 1, owner := current }, false)
    else
      match current with
      | none => none
      | some t =>
        let stats := { k.stats with mutexContentions := wrap32 (k.stats.mutexContentions + 1) }
        let sys := k.sys.setState t .blocked
        (addToWaitQueue sys.taskList (k.mutexes m).waitingTasks t).map fun (tasks, queue) =>
          ({ k.setMutex m { k.mutexes m with waitingTasks := queue } with
              sys := { sys with taskList := tasks }
              stats := stats }, true)

/-- `mutex_trylock`. -/
def mutexTrylock (k : Kernel n M) (mutex : Option M) : Kernel n M × Bool :=
  match mutex with
  | none => (k, false)
  | some m =>
    if (k.mutexes m).locked = 0 then
      (k.setMutex m { k.mutexes m with locked := 1, owner := taskGetCurrent k.sys }, true)
    else (k, false)

/-- `mutex_unlock`. -/
def mutexUnlock (k : Kernel n M) (mutex : Option M) : Kernel n M :=
  match mutex with
  | none => k
  | some m =>
    if (k.mutexes m).owner ≠ taskGetCurrent k.sys then k
    else
      match removeFromWaitQueue k.sys.taskList (k.mutexes m).waitingTasks with
      | (tasks, queue, some waiting) =>
        let sys := TaskSys.setState { k.sys with taskList := tasks } waiting .ready
        { k.setMutex m { k.mutexes m with waitingTasks := queue, owner := some waiting } with
            sys := taskResume sys (some waiting) }
      | (tasks, queue, none) =>
        { k.setMutex m { k.mutexes m with waitingTasks := queue, locked := 0, owner := none } with
            sys := { k.sys with taskList := tasks } }

/-- A task that is not the owner cannot unlock: the call changes nothing. -/
theorem mutexUnlock_of_not_owner {k : Kernel n M} {m : M}
    (h : (k.mutexes m).owner ≠ taskGetCurrent k.sys) : mutexUnlock k (some m) = k := by
  simp [mutexUnlock, h]

end ArmKernel.Sync

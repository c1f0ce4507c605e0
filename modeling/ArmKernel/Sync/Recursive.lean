/-
The recursive mutex (`recursive_mutex_lock` and `recursive_mutex_unlock` of `src/mutex.c`).

It is a `mutex_t` whose `recursive_count` says how often its owner has locked it. The two
functions are those of the plain mutex with a count beside them: `recursiveMutexLock_other` and
`recursiveMutexUnlock_last` say that a call which is not nested is the plain call
followed by a write of the count, and the nested calls write the count only.
-/
import ArmKernel.Sync.Mutex

namespace ArmKernel.Sync

open ArmKernel.Support ArmKernel.Tasks ArmKernel.Sched

variable {n : Nat} {M : Type} [DecidableEq M]

/-- `recursive_mutex_init`. -/
def recursiveMutexInit (n : Nat) (name : List UInt8) : Mutex n := mutexInit n name

/-- `recursive_mutex_lock`. The flag is set when the call goes through `task_yield`. -/
def recursiveMutexLock (k : Kernel n M) (mutex : Option M) : Option (Kernel n M × Bool) :=
  match mutex with
  | none => some (k, false)
  | some m =>
    let current := taskGetCurrent k.sys
    if (k.mutexes m).owner = current then
      some (k.setMutex m { k.mutexes m with
        recursiveCount := wrap32 ((k.mutexes m).recursiveCount + 1) }, false)
    else if (k.mutexes m).locked = 0 then
      some (k.setMutex m { k.mutexes m with
        locked := 1, owner := current, recursiveCount := 1 }, false)
    else
      match current with
      | none => none
      | some t =>
        let stats := { k.stats with mutexContentions := wrap32 (k.stats.mutexContentions + 1) }
        let sys := k.sys.setState t .blocked
        (addToWaitQueue sys.taskList (k.mutexes m).waitingTasks t).map fun (tasks, queue) =>
          ({ k.setMutex m { k.mutexes m with waitingTasks := queue } with
              sys := { sys with taskList := tasks }
              stats := stats }, true)

/-- `recursive_mutex_unlock`. -/
def recursiveMutexUnlock (k : Kernel n M) (mutex : Option M) : Kernel n M :=
  match mutex with
  | none => k
  | some m =>
    if (k.mutexes m).owner ≠ taskGetCurrent k.sys then k
    else
      let mutex := { k.mutexes m with recursiveCount := sub32 (k.mutexes m).recursiveCount 1 }
      if 0 < mutex.recursiveCount then k.setMutex m mutex
      else
        match removeFromWaitQueue k.sys.taskList mutex.waitingTasks with
        | (tasks, queue, some waiting) =>
          let sys := TaskSys.setState { k.sys with taskList := tasks } waiting .ready
          { k.setMutex m { mutex with
              waitingTasks := queue, owner := some waiting, recursiveCount := 1 } with
            sys := taskResume sys (some waiting) }
        | (tasks, queue, none) =>
          { k.setMutex m { mutex with
              waitingTasks := queue, locked := 0, owner := none, recursiveCount := 0 } with
            sys := { k.sys with taskList := tasks } }

/-- Write the count of a mutex. -/
def Kernel.setCount (k : Kernel n M) (m : M) (count : Nat) : Kernel n M :=
  k.setMutex m { k.mutexes m with recursiveCount := count }

section Calls

variable {k k' : Kernel n M} {m : M} {yields : Bool}

/-- A lock by the owner counts one more. -/
theorem recursiveMutexLock_owner (h : (k.mutexes m).owner = taskGetCurrent k.sys) :
    recursiveMutexLock k (some m) =
      some (k.setCount m (wrap32 ((k.mutexes m).recursiveCount + 1)), false) := by
  simp only [recursiveMutexLock, if_pos h, Kernel.setCount]

/-- A lock by another task is that of the plain mutex; if it takes the mutex, the count is 1. -/
theorem recursiveMutexLock_other (h : (k.mutexes m).owner ≠ taskGetCurrent k.sys) :
    recursiveMutexLock k (some m) =
      (mutexLock k (some m)).map fun (k', yields) =>
        (if yields then k' else k'.setCount m 1, yields) := by
  by_cases hfree : (k.mutexes m).locked = 0
  · simp [recursiveMutexLock, mutexLock, h, hfree, Kernel.setCount, Kernel.setMutex]
  · simp only [recursiveMutexLock, mutexLock, if_neg h, if_neg hfree]
    cases taskGetCurrent k.sys with
    | none => rfl
    | some t =>
      simp only [Option.map_map]
      rfl

/-- An unlock by another task changes nothing. -/
theorem recursiveMutexUnlock_other (h : (k.mutexes m).owner ≠ taskGetCurrent k.sys) :
    recursiveMutexUnlock k (some m) = k := by
  simp only [recursiveMutexUnlock, if_pos h]

/-- A nested unlock counts one less. -/
theorem recursiveMutexUnlock_nested (h : (k.mutexes m).owner = taskGetCurrent k.sys)
    (hcount : 0 < sub32 (k.mutexes m).recursiveCount 1) :
    recursiveMutexUnlock k (some m) =
      k.setCount m (sub32 (k.mutexes m).recursiveCount 1) := by
  simp only [recursiveMutexUnlock, if_neg (not_not.mpr h), if_pos hcount, Kernel.setCount]

/-- The outermost unlock is that of the plain mutex; the next owner starts with the count 1. -/
theorem recursiveMutexUnlock_last (h : (k.mutexes m).owner = taskGetCurrent k.sys)
    (hcount : sub32 (k.mutexes m).recursiveCount 1 = 0) :
    recursiveMutexUnlock k (some m) =
      (mutexUnlock k (some m)).setCount m
        ((mutexUnlock k (some m)).mutexes m).owner.isSome.toNat := by
  simp only [recursiveMutexUnlock, mutexUnlock, if_neg (not_not.mpr h), hcount,
    if_neg (Nat.lt_irrefl 0)]
  cases hqueue : (k.mutexes m).waitingTasks with
  | none => simp [removeFromWaitQueue, Kernel.setCount, Kernel.setMutex]
  | some w => simp [removeFromWaitQueue, Kernel.setCount, Kernel.setMutex]

end Calls

end ArmKernel.Sync

/-
The reader/writer lock (`src/rwlock.c`).

Each function here is one critical section under the internal mutex of the lock: a
whole call, or, for a call that waits on a condition variable, the part up to the
release of the mutex and later the part from the re-test on. Both parts run the same
test, so they are one function; the result `false` of `rwlockReadLock` and
`rwlockWriteLock` is a call that waits.

`none` is a walk along a queue that does not end, or a count that leaves the range of
`int32_t`, which C does not define.
-/
import ArmKernel.Sync.Condition
import Mathlib.Algebra.Order.Ring.Int

namespace ArmKernel.Sync

open ArmKernel.Support ArmKernel.Tasks

/-- `rwlock_t`, less the internal mutex and the name. A condition variable is its
queue. -/
structure RwLock (n : Nat) where
  readers : Option (Fin n)
  writers : Option (Fin n)
  readersCount : Int
  writerActive : Bool
  writerOwner : Option (Fin n)

variable {n : Nat}

/-- `rwlock_init`. -/
def rwlockInit (n : Nat) : RwLock n :=
  { readers := none, writers := none, readersCount := 0, writerActive := false,
    writerOwner := none }

/-- `rwlock_read_lock`, from a test of the loop on. -/
def rwlockReadLock (sys : TaskSys n) (rw : RwLock n) : Option (TaskSys n × RwLock n × Bool) :=
  if rw.writerActive then
    (conditionWait sys rw.readers).map fun (sys, readers) => (sys, { rw with readers }, false)
  else
    (int32 (rw.readersCount + 1)).map fun readersCount => (sys, { rw with readersCount }, true)

/-- `rwlock_read_trylock`; `free` is the result of `mutex_trylock`. -/
def rwlockReadTrylock (rw : RwLock n) (free : Bool) : Option (RwLock n × Bool) :=
  if ¬ free then some (rw, false)
  else if rw.writerActive then some (rw, false)
  else (int32 (rw.readersCount + 1)).map fun readersCount => ({ rw with readersCount }, true)

/-- `rwlock_read_unlock`. -/
def rwlockReadUnlock (sys : TaskSys n) (rw : RwLock n) : Option (TaskSys n × RwLock n) :=
  (int32 (rw.readersCount - 1)).map fun readersCount =>
    if readersCount = 0 then
      let (sys, writers) := conditionSignal sys rw.writers
      (sys, { rw with readersCount, writers })
    else (sys, { rw with readersCount })

/-- `rwlock_write_lock`, from a test of the loop on. -/
def rwlockWriteLock (sys : TaskSys n) (rw : RwLock n) : Option (TaskSys n × RwLock n × Bool) :=
  if 0 < rw.readersCount ∨ rw.writerActive then
    (conditionWait sys rw.writers).map fun (sys, writers) => (sys, { rw with writers }, false)
  else
    some (sys, { rw with writerActive := true, writerOwner := taskGetCurrent sys }, true)

/-- `rwlock_write_trylock`; `free` is the result of `mutex_trylock`. -/
def rwlockWriteTrylock (sys : TaskSys n) (rw : RwLock n) (free : Bool) : RwLock n × Bool :=
  if ¬ free then (rw, false)
  else if 0 < rw.readersCount ∨ rw.writerActive then (rw, false)
  else ({ rw with writerActive := true, writerOwner := taskGetCurrent sys }, true)

/-- `rwlock_write_unlock`. -/
def rwlockWriteUnlock (sys : TaskSys n) (rw : RwLock n) : Option (TaskSys n × RwLock n) :=
  if rw.writerOwner = taskGetCurrent sys then
    let (sys, writers) := conditionSignal sys rw.writers
    (conditionBroadcast sys rw.readers).map fun (sys, readers) =>
      (sys, { rw with writerActive := false, writerOwner := none, writers, readers })
  else some (sys, rw)

/-- A task that is not the writer cannot unlock: the call changes nothing. -/
theorem rwlockWriteUnlock_of_not_owner (sys : TaskSys n) {rw : RwLock n}
    (h : rw.writerOwner ≠ taskGetCurrent sys) : rwlockWriteUnlock sys rw = some (sys, rw) := by
  rw [rwlockWriteUnlock, if_neg h]

end ArmKernel.Sync

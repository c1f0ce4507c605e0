/-
The scheduler (`src/scheduler.c`).

One policy is current; `scheduler_tick`, `scheduler_next_task` and `scheduler_set_policy`
call its functions, whatever policy a task was registered with. For the round-robin and
the priority policy the switches have no case. `scheduler_rt_next`, which the sources call
and do not define, is `edf_schedule`.

`none` has the meaning it has in the policies: the call does not return, or reads a record
of another type.
-/
import ArmKernel.Sched.Fair
import ArmKernel.Sched.Mlfq
import ArmKernel.Sched.Realtime

namespace ArmKernel.Sched

open ArmKernel.Support ArmKernel.Tasks

/-- `scheduler_policy_t`. -/
inductive SchedulerPolicy where
  | roundRobin | priority | realtime | mlfq | fair
deriving DecidableEq, Repr

/-- `scheduler_state_t`. -/
inductive SchedulerState where
  | running | stopped
deriving DecidableEq, Repr

/-- `scheduler_stats_t`. -/
structure SchedulerStats where
  contextSwitches : Nat
  preemptions : Nat
  schedulerRuns : Nat
  missedDeadlines : Nat
deriving DecidableEq, Repr

/-- The tasks, the policies, and the static variables of `scheduler.c`. -/
structure Kernel (n : Nat) where
  sys : TaskSys n
  rt : Realtime n
  mlfq : Mlfq n
  fair : Fair n
  schedulerState : SchedulerState
  currentPolicy : SchedulerPolicy
  stats : SchedulerStats

variable {n : Nat}

namespace Kernel

/-- The part the multi-level feedback queue works on. -/
def mlfqSys (k : Kernel n) : MlfqSys n := ⟨k.sys, k.mlfq⟩

/-- The part the fair policy works on. -/
def fairSys (k : Kernel n) : FairSys n := ⟨k.sys, k.fair⟩

/-- Write back what the multi-level feedback queue worked on. -/
def setMlfqSys (k : Kernel n) (s : MlfqSys n) : Kernel n := { k with sys := s.sys, mlfq := s.mlfq }

/-- Write back what the fair policy worked on. -/
def setFairSys (k : Kernel n) (s : FairSys n) : Kernel n := { k with sys := s.sys, fair := s.fair }

end Kernel

/-- What `scheduler_set_policy` does for the policy it leaves, `current` being the current
task. -/
def leavePolicy (k : Kernel n) (now : Nat) (current : Fin n) : Option (Kernel n) :=
  match k.currentPolicy with
  | .mlfq => (schedulerMlfqUpdateQueue k.mlfqSys (some current)).map k.setMlfqSys
  | .fair => (schedulerUpdateVruntime k.fairSys now (some current)).map k.setFairSys
  | .realtime => (schedulerUpdateDeadlines k.rt k.sys now).map fun sys => { k with sys }
  | .roundRobin | .priority => some k

/-- `scheduler_set_policy`. -/
def schedulerSetPolicy (k : Kernel n) (now : Nat) (policy : SchedulerPolicy) : Option (Kernel n) :=
  if policy ≠ k.currentPolicy then
    let left : Option (Kernel n) :=
      match taskGetCurrent k.sys with
      | some current => leavePolicy k now current
      | none => some k
    left.map fun k => { k with currentPolicy := policy }
  else some k

/-- `scheduler_tick`. -/
def schedulerTick (k : Kernel n) (now : Nat) : Option (Kernel n) :=
  if k.schedulerState ≠ .running then some k
  else
    let k := { k with
      stats := { k.stats with schedulerRuns := wrap32 (k.stats.schedulerRuns + 1) } }
    match k.currentPolicy with
    | .mlfq => (schedulerMlfqTick k.mlfqSys).map k.setMlfqSys
    | .fair => (schedulerFairTick k.fairSys now).map fun (s, _) => k.setFairSys s
    | .realtime =>
      (schedulerRtTick k.rt k.sys now).map fun (_, sys, missed) =>
        { k with
          sys
          stats := { k.stats with missedDeadlines := wrap32 (k.stats.missedDeadlines + missed) } }
    | .roundRobin | .priority => some k

/-- The switch of `scheduler_next_task`. -/
def nextUnderPolicy (k : Kernel n) : Option (Option (Fin n)) :=
  match k.currentPolicy with
  | .mlfq => schedulerMlfqNext k.mlfqSys
  | .fair => schedulerPickNextFair k.fair
  | .realtime => edfSchedule k.rt k.sys
  | .roundRobin | .priority => some none

/-- `scheduler_next_task`. -/
def schedulerNextTask (k : Kernel n) : Option (Kernel n × Option (Fin n)) :=
  (nextUnderPolicy k).map fun next =>
    match next with
    | none => (k, none)
    | some t =>
      let preempts : Bool :=
        match taskGetCurrent k.sys with
        | some current => decide ((k.sys.taskList current).state = .running)
        | none => false
      ({ k with
        stats := { k.stats with
          contextSwitches := wrap32 (k.stats.contextSwitches + 1)
          preemptions := wrap32 (k.stats.preemptions + if preempts then 1 else 0) } }, some t)

/-- `task_schedule`, up to the context switch. -/
def schedule (k : Kernel n) : Option (Kernel n) :=
  (schedulerNextTask k).map fun (k, next) => { k with sys := taskSchedule k.sys next }

variable {k k' : Kernel n}

/-- The choice of the next task changes the statistics only. -/
theorem schedulerNextTask_spec {next : Option (Fin n)}
    (h : schedulerNextTask k = some (k', next)) :
    nextUnderPolicy k = some next ∧ ∃ stats, k' = { k with stats } := by
  obtain ⟨found, hfound, hresult⟩ := Option.map_eq_some_iff.mp h
  cases found with
  | none =>
    obtain ⟨rfl, rfl⟩ := Prod.mk.inj hresult
    exact ⟨hfound, k.stats, rfl⟩
  | some t =>
    obtain ⟨rfl, rfl⟩ := Prod.mk.inj hresult
    exact ⟨hfound, _, rfl⟩

/-- `task_schedule` makes the task chosen the current one. -/
theorem schedule_spec (h : schedule k = some k') :
    ∃ next stats, nextUnderPolicy k = some next ∧
      k' = { k with sys := { k.sys with currentTask := next }, stats } := by
  obtain ⟨⟨k₁, next⟩, hnext, rfl⟩ := Option.map_eq_some_iff.mp h
  obtain ⟨hfound, stats, rfl⟩ := schedulerNextTask_spec hnext
  refine ⟨next, stats, hfound, ?_⟩
  dsimp only
  rw [taskSchedule_eq]

end ArmKernel.Sched

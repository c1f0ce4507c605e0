/-
Condition variables (`src/condition.c`).

A condition variable is a queue of tasks, a head pointer of the same kind a mutex
has. `conditionWait` is `condition_wait` up to the point where the mutex is given up:
the current task blocks and stands last in line. What follows there, taking the mutex
back, belongs to the caller's next critical section. `conditionSignal` makes the first
task in line ready, `conditionBroadcast` all of them, in rounds; `none` is a walk or a
loop that does not end.

One lemma for each says what it does to the line, to the states and to the links of
all other queues.
-/
import ArmKernel.Sync.WaitQueue

namespace ArmKernel.Sync

open ArmKernel.Support ArmKernel.Tasks

variable {n : Nat}

/-- `condition_wait`, up to the release of the mutex. -/
def conditionWait (sys : TaskSys n) (waitingTasks : Option (Fin n)) :
    Option (TaskSys n × Option (Fin n)) :=
  match taskGetCurrent sys with
  | none => none
  | some current =>
    let sys := sys.setState current .blocked
    (addToWaitQueue sys.taskList waitingTasks current).map fun (tasks, queue) =>
      ({ sys with taskList := tasks }, queue)

/-- `condition_signal`. -/
def conditionSignal (sys : TaskSys n) (waitingTasks : Option (Fin n)) :
    TaskSys n × Option (Fin n) :=
  match removeFromWaitQueue sys.taskList waitingTasks with
  | (tasks, queue, some waiting) =>
    let sys := TaskSys.setState { sys with taskList := tasks } waiting .ready
    (taskResume sys (some waiting), queue)
  | (tasks, queue, none) => ({ sys with taskList := tasks }, queue)

/-- The loop of `condition_broadcast`. -/
def broadcastLoop : (fuel : Nat) → TaskSys n → Option (Fin n) → Option (TaskSys n × Option (Fin n))
  | fuel, sys, waitingTasks =>
    match removeFromWaitQueue sys.taskList waitingTasks with
    | (tasks, queue, none) => some ({ sys with taskList := tasks }, queue)
    | (tasks, queue, some waiting) =>
      match fuel with
      | 0 => none
      | fuel + 1 =>
        let sys := TaskSys.setState { sys with taskList := tasks } waiting .ready
        broadcastLoop fuel (taskResume sys (some waiting)) queue

/-- `condition_broadcast`. Each round but the last clears a link, so the loop has at most
`n + 1` rounds. -/
def conditionBroadcast (sys : TaskSys n) (waitingTasks : Option (Fin n)) :
    Option (TaskSys n × Option (Fin n)) :=
  broadcastLoop (n + 1) sys waitingTasks

section Specs

variable {sys : TaskSys n} {head : Option (Fin n)} {q : List (Fin n)} {t u : Fin n}

variable (sys) in
/-- **Wait.** The current task blocks and is last in line. -/
theorem conditionWait_spec (hq : Queued sys.taskList head q) (ht : t ∉ q)
    (hcurrent : sys.currentTask = some t) :
    ∃ sys' head', conditionWait sys head = some (sys', head') ∧
      Queued sys'.taskList head' (q ++ [t]) ∧
      (∀ u, (sys'.taskList u).state = if u = t then .blocked else (sys.taskList u).state) ∧
      ∀ u, u ≠ t → u ∉ q → (sys'.taskList u).nextWait = (sys.taskList u).nextWait := by
  have hqueued : Queued (sys.setState t .blocked).taskList head q :=
    hq.frame fun u _ => setState_nextWait sys t u .blocked
  obtain ⟨tasks, head', hadd, hq', hstate, hlinks⟩ := add_to_wait_queue_spec hqueued ht
  refine ⟨{ sys.setState t .blocked with taskList := tasks }, head', ?_, hq', ?_, ?_⟩
  · simp only [conditionWait, taskGetCurrent, hcurrent, hadd, Option.map_some]
  · intro u
    simp only [hstate, setState_state]
  · intro u hut huq
    simp only [hlinks u hut huq, setState_nextWait]

/-- A task that was made ready and taken off its queue. -/
theorem ready_spec {tasks : Fin n → Task n} {w : Fin n}
    (hstate : ∀ u, (tasks u).state = (sys.taskList u).state) :
    (∀ u, ((TaskSys.setState { sys with taskList := tasks } w .ready).taskList u).state =
      if u = w then .ready else (sys.taskList u).state) ∧
    ∀ u, ((TaskSys.setState { sys with taskList := tasks } w .ready).taskList u).nextWait =
      (tasks u).nextWait := by
  refine ⟨?_, fun u => setState_nextWait _ w u .ready⟩
  intro u
  rw [setState_state]
  simp only [hstate]

/-- **Signal.** The first in line is ready and leaves the line. -/
theorem conditionSignal_spec (hq : Queued sys.taskList head q) :
    ∃ sys' head', conditionSignal sys head = (sys', head') ∧ Queued sys'.taskList head' q.tail ∧
      (∀ u, (sys'.taskList u).state =
        if q.head? = some u then .ready else (sys.taskList u).state) ∧
      ∀ u, u ∉ q → (sys'.taskList u).nextWait = (sys.taskList u).nextWait := by
  rcases remove_from_wait_queue_spec hq with
    ⟨rfl, hremove⟩ | ⟨w, rest, tasks, head', rfl, hremove, hq', hstate, hlinks⟩
  · refine ⟨sys, none, ?_, rfl, fun u => by simp, fun u _ => rfl⟩
    simp only [conditionSignal, hremove]
  · obtain ⟨hstates, hnext⟩ := ready_spec (w := w) hstate
    refine ⟨_, head', ?_, hq'.frame fun u _ => hnext u, ?_, ?_⟩
    · simp only [conditionSignal, hremove, taskResume_setState_ready]
    · intro u
      rw [hstates u, List.head?_cons]
      simp only [Option.some.injEq, eq_comm]
    · intro u hu
      rw [hnext u, hlinks u fun e => hu (by simp [e])]

/-- The rounds of a broadcast, given fuel for the line. -/
theorem broadcastLoop_spec (fuel : Nat) (hq : Queued sys.taskList head q)
    (hfuel : q.length ≤ fuel) :
    ∃ sys', broadcastLoop fuel sys head = some (sys', none) ∧
      (∀ u, (sys'.taskList u).state = if u ∈ q then .ready else (sys.taskList u).state) ∧
      ∀ u, u ∉ q → (sys'.taskList u).nextWait = (sys.taskList u).nextWait := by
  induction q generalizing sys head fuel with
  | nil =>
    obtain rfl := hq.head_eq
    refine ⟨sys, ?_, fun u => by simp, fun u _ => rfl⟩
    rw [broadcastLoop]
    rfl
  | cons w rest ih =>
    rcases remove_from_wait_queue_spec hq with
      ⟨hnil, -⟩ | ⟨w', rest', tasks, head', hline, hremove, hq', hstate, hlinks⟩
    · cases hnil
    · obtain ⟨rfl, rfl⟩ := List.cons.inj hline
      obtain ⟨fuel, rfl⟩ : ∃ f, fuel = f + 1 :=
        ⟨fuel - 1, by simp only [List.length_cons] at hfuel; omega⟩
      obtain ⟨hstates, hnext⟩ := ready_spec (w := w) hstate
      obtain ⟨sys', hloop, hstates', hlinks'⟩ := ih fuel (hq'.frame fun u _ => hnext u)
        (by simpa using hfuel)
      refine ⟨sys', ?_, ?_, ?_⟩
      · rw [broadcastLoop]
        simp only [hremove, taskResume_setState_ready]
        exact hloop
      · intro u
        rw [hstates' u, hstates u]
        by_cases hmem : u ∈ rest
        · simp [hmem]
        · by_cases huw : u = w <;> simp [hmem, huw]
      · intro u hu
        rw [List.mem_cons, not_or] at hu
        rw [hlinks' u hu.2, hnext u, hlinks u hu.1]

/-- **Broadcast.** All tasks in line are ready, and the line is empty. -/
theorem conditionBroadcast_spec (hq : Queued sys.taskList head q) :
    ∃ sys', conditionBroadcast sys head = some (sys', none) ∧
      (∀ u, (sys'.taskList u).state = if u ∈ q then .ready else (sys.taskList u).state) ∧
      ∀ u, u ∉ q → (sys'.taskList u).nextWait = (sys.taskList u).nextWait := by
  apply broadcastLoop_spec (n + 1) hq
  have hlen := Chain.length_le hq
  rw [Fintype.card_fin] at hlen
  exact Nat.le_succ_of_le hlen

end Specs

/-! ### A broadcast on any queue

A task that was made ready while it stood in line may stand in two queues at once, or behind
itself. The loop takes off whom it meets there too. -/

section AnyQueue

variable {sys : TaskSys n} {head : Option (Fin n)} {fuel : Nat}

theorem nextWaitOf_setState (sys : TaskSys n) (t : Fin n) (state : TaskState) :
    nextWaitOf (sys.setState t state).taskList = nextWaitOf sys.taskList := by
  funext u
  exact setState_nextWait sys t u state

/-- One round. -/
theorem broadcastLoop_round (fuel : Nat) (sys : TaskSys n) (w : Fin n) :
    broadcastLoop (fuel + 1) sys (some w) = broadcastLoop fuel
      (TaskSys.setState { sys with taskList := setNextWait sys.taskList w none } w .ready)
      (nextWaitOf sys.taskList w) := by
  rw [broadcastLoop]
  simp only [removeFromWaitQueue, taskResume_setState_ready]

/-- The loop makes the tasks ready that it takes off, and writes no other state. -/
theorem broadcastLoop_state {sys' : TaskSys n} {head' : Option (Fin n)}
    (h : broadcastLoop fuel sys head = some (sys', head')) (u : Fin n) :
    (sys'.taskList u).state =
      if u ∈ drain fuel (nextWaitOf sys.taskList) head then .ready else (sys.taskList u).state := by
  induction fuel generalizing sys head with
  | zero =>
    cases head with
    | none =>
      cases h
      rfl
    | some w => cases h
  | succ fuel ih =>
    cases head with
    | none =>
      cases h
      rfl
    | some w =>
      rw [broadcastLoop_round] at h
      rw [ih h, nextWaitOf_setState, nextWaitOf_setNextWait, setState_state, drain]
      by_cases hu : u = w
      · subst hu
        simp
      · simp [hu, setNextWait_state]

/-- **Broadcast, on any queue.** The tasks in line are ready, and no other state is written. -/
theorem conditionBroadcast_state {sys' : TaskSys n} {head' : Option (Fin n)}
    (h : conditionBroadcast sys head = some (sys', head')) (u : Fin n) :
    (sys'.taskList u).state =
      if u ∈ drain (n + 1) (nextWaitOf sys.taskList) head then .ready
      else (sys.taskList u).state :=
  broadcastLoop_state h u

end AnyQueue

end ArmKernel.Sync

/-
Accounting of the task table: `task_count` against the slots in use.

`task_create` tests the capacity by the counter and looks for a free slot by
state. `Accounted` says that the two agree and that every stack obtained from
`malloc` was freed once or belongs to a slot in use.

* `create_accounted`, `delete_accounted`, `suspend_accounted`, … : one call keeps
  the accounts, provided `task_delete`, `task_suspend` and `task_sleep` are applied
  to a slot in use. `accounted_along` is the rule for whole runs.
* `taskInit_halts`: `task_init` clears the table to zero bytes, and the state byte 0
  is `TASK_READY`. All slots are then in use for the search and none for the
  counter, `task_create` finds no slot for the idle task, and `task_init` loops
  forever. So no run keeps the accounts (`no_run_accounts`).
-/
import ArmKernel.Support.Run
import ArmKernel.Tasks.Table
import Mathlib.Algebra.BigOperators.Group.Finset.Basic
import Mathlib.Data.Fintype.BigOperators

namespace ArmKernel.Tasks

open ArmKernel.Support

/-! ### Counting slots -/

section Slots

variable {n : Nat}

/-- The number of slots whose block satisfies `q`. -/
def slots (q : Task n → Bool) (tasks : Fin n → Task n) : Nat :=
  (Finset.univ.filter fun i => q (tasks i) = true).card

/-- The slot is in use: its state is not `TASK_TERMINATED`. -/
def inUse (task : Task n) : Bool := decide (task.state ≠ .terminated)

/-- The slot is in use and owns the stack at `p`. -/
def usesStack (p : Nat) (task : Task n) : Bool := inUse task && decide (task.stack = p)

/-- Writing one slot exchanges its contribution to the count. -/
theorem slots_update (q : Task n → Bool) (tasks : Fin n → Task n) (i : Fin n) (x : Task n) :
    slots q (Function.update tasks i x) + (q (tasks i)).toNat = slots q tasks + (q x).toNat := by
  have hsum : ∀ f : Fin n → Task n, slots q f =
      (q (f i)).toNat + ∑ j ∈ Finset.univ.erase i, (q (f j)).toNat := by
    intro f
    rw [slots, Finset.card_filter, ← Finset.add_sum_erase _ _ (Finset.mem_univ i)]
    congr 1
    · cases q (f i) <;> rfl
    · exact Finset.sum_congr rfl fun j _ => by cases q (f j) <;> rfl
  have hrest : ∑ j ∈ Finset.univ.erase i, (q (Function.update tasks i x j)).toNat =
      ∑ j ∈ Finset.univ.erase i, (q (tasks j)).toNat := by
    apply Finset.sum_congr rfl
    intro j hj
    rw [Function.update_of_ne (Finset.ne_of_mem_erase hj)]
  rw [hsum, hsum tasks, hrest, Function.update_self]
  omega

theorem slots_le (q : Task n → Bool) (tasks : Fin n → Task n) : slots q tasks ≤ n := by
  have := Finset.card_filter_le (Finset.univ : Finset (Fin n)) fun i => q (tasks i) = true
  simpa [slots] using this

/-- A slot that satisfies `q` is counted. -/
theorem slots_pos {q : Task n → Bool} {tasks : Fin n → Task n} {i : Fin n}
    (h : q (tasks i) = true) : 0 < slots q tasks :=
  Finset.card_pos.mpr ⟨i, by simp [h]⟩

/-- The search for a free slot fails exactly when all slots are in use. -/
theorem freeSlot_eq_none_iff {tasks : Fin n → Task n} :
    freeSlot tasks = none ↔ slots inUse tasks = n := by
  rw [freeSlot, List.find?_eq_none, slots]
  have hcard : (Finset.univ.filter fun i => inUse (tasks i) = true).card = n ↔
      ∀ i, inUse (tasks i) = true := by
    constructor
    · intro h i
      have huniv : Finset.univ ⊆ Finset.univ.filter fun i => inUse (tasks i) = true :=
        (Finset.eq_univ_of_card _ (by simpa using h)).ge
      exact (Finset.mem_filter.mp (huniv (Finset.mem_univ i))).2
    · intro h
      rw [Finset.filter_true_of_mem fun i _ => h i]
      simp
  rw [hcard]
  simp [inUse]

theorem freeSlot_terminated {tasks : Fin n → Task n} {i : Fin n} (h : freeSlot tasks = some i) :
    (tasks i).state = .terminated := by
  simpa using List.find?_some h

end Slots

/-! ### The accounts -/

/-- The counter is the number of slots in use, and each stack obtained so far was
freed once or is owned by a slot in use. -/
structure Accounted (sys : TaskSys maxTasks) : Prop where
  count : sys.taskCount = slots inUse sys.taskList
  owned : ∀ p, sys.stackAllocs.count p =
    sys.stackFrees.count p + slots (usesStack p) sys.taskList

/-- With a stack to give, `task_create` fails only when all slots are in use, and
returns a slot that was free. -/
def CreateServes (sys : TaskSys maxTasks) : Prop :=
  ∀ name entry taskExit priority stackSize stack,
    match taskCreate sys name entry taskExit priority stackSize (some stack) with
    | (_, none) => slots inUse sys.taskList = maxTasks
    | (_, some i) => (sys.taskList i).state = .terminated

variable {sys : TaskSys maxTasks}

theorem Accounted.createServes (h : Accounted sys) : CreateServes sys := by
  intro name entry taskExit priority stackSize stack
  have hle := slots_le inUse sys.taskList
  unfold taskCreate
  by_cases hfull : maxTasks ≤ sys.taskCount
  · rw [if_pos hfull]
    have := h.count
    show slots inUse sys.taskList = maxTasks
    omega
  · rw [if_neg hfull]
    cases hfree : freeSlot sys.taskList with
    | none => exact freeSlot_eq_none_iff.mp hfree
    | some i => exact freeSlot_terminated hfree

/-- The accounts after one slot was written: what the slot no longer counts for is
taken off, what it counts for now is added. -/
theorem Accounted.of_update {sys' : TaskSys maxTasks} {i : Fin maxTasks} {x : Task maxTasks}
    (h : Accounted sys) (htasks : sys'.taskList = Function.update sys.taskList i x)
    (hcount : sys'.taskCount + (inUse (sys.taskList i)).toNat =
      sys.taskCount + (inUse x).toNat)
    (howned : ∀ p, sys'.stackAllocs.count p + sys.stackFrees.count p +
        (usesStack p (sys.taskList i)).toNat =
      sys.stackAllocs.count p + sys'.stackFrees.count p + (usesStack p x).toNat) :
    Accounted sys' := by
  constructor
  · have := slots_update inUse sys.taskList i x
    have := h.count
    rw [htasks]
    omega
  · intro p
    have := slots_update (usesStack p) sys.taskList i x
    have := h.owned p
    have := howned p
    rw [htasks]
    omega

theorem count_append_singleton (l : List Nat) (x p : Nat) :
    (l ++ [x]).count p = l.count p + (decide (x = p)).toNat := by
  by_cases h : x = p <;> simp [h]

/-- `task_create` keeps the accounts. -/
theorem create_accounted (h : Accounted sys) (name : List UInt8) (entry taskExit : Word)
    (priority stackSize stack : Nat) :
    Accounted (taskCreate sys name entry taskExit priority stackSize (some stack)).1 := by
  unfold taskCreate
  by_cases hfull : maxTasks ≤ sys.taskCount
  · rw [if_pos hfull]
    exact h
  · rw [if_neg hfull]
    cases hfree : freeSlot sys.taskList with
    | none => exact h
    | some i =>
      have hold : inUse (sys.taskList i) = false := by
        simp [inUse, freeSlot_terminated hfree]
      have hsmall : sys.taskCount + 1 < 2 ^ 32 := by
        have : maxTasks = 32 := rfl
        omega
      refine h.of_update rfl ?_ ?_
      · show wrap32 (sys.taskCount + 1) + _ = sys.taskCount + 1
        rw [wrap32_of_lt hsmall, hold]
        rfl
      · intro p
        have hnew : usesStack p (newTask maxTasks name entry taskExit priority stackSize stack) =
            decide (stack = p) := rfl
        show (sys.stackAllocs ++ [stack]).count p + _ + _ = _
        rw [count_append_singleton, hnew, usesStack, hold]
        simp only [Bool.false_and, Bool.toNat_false]
        omega

/-- The call is applied to a slot in use (or to no slot). -/
def TargetInUse (sys : TaskSys maxTasks) (task : Option (Fin maxTasks)) : Prop :=
  ∀ t, task = some t → inUse (sys.taskList t) = true

/-- `task_delete` of a slot in use keeps the accounts. -/
theorem delete_accounted (h : Accounted sys) {task : Option (Fin maxTasks)}
    (htarget : TargetInUse sys task) : Accounted (taskDelete sys task).1 := by
  cases task with
  | none => exact h
  | some t =>
    have hold := htarget t rfl
    unfold taskDelete
    by_cases hidle : sys.idleTask = some t
    · simp only [if_pos hidle]
      exact h
    · simp only [if_neg hidle]
      have hpos := slots_pos hold
      have hcount := h.count
      have hle := slots_le inUse sys.taskList
      have hsmall : sys.taskCount < 2 ^ 32 := by
        have : maxTasks = 32 := rfl
        omega
      refine h.of_update (i := t) rfl ?_ ?_
      · show sub32 sys.taskCount 1 + _ = sys.taskCount + 0
        rw [sub32_of_le hsmall (by omega), hold]
        simp only [Bool.toNat_true]
        omega
      · intro p
        show _ + (sys.stackFrees.count p) + _ =
          _ + (sys.stackFrees ++ [(sys.taskList t).stack]).count p + 0
        rw [count_append_singleton, usesStack, hold, Bool.true_and]
        show sys.stackAllocs.count p + _ + _ = sys.stackAllocs.count p + _ + _
        omega

/-- A change of state among the states in use keeps the accounts. -/
theorem modify_accounted (h : Accounted sys) {t : Fin maxTasks} {f : Task maxTasks → Task maxTasks}
    (huse : inUse (f (sys.taskList t)) = inUse (sys.taskList t))
    (hstack : (f (sys.taskList t)).stack = (sys.taskList t).stack) :
    Accounted (sys.modify t f) := by
  refine h.of_update rfl ?_ ?_
  · show sys.taskCount + _ = sys.taskCount + _
    rw [huse]
  · intro p
    rw [usesStack, usesStack, huse, hstack]
    rfl

/-- `task_suspend` of a slot in use keeps the accounts. -/
theorem suspend_accounted (h : Accounted sys) {task : Option (Fin maxTasks)}
    (htarget : TargetInUse sys task) : Accounted (taskSuspend sys task).1 := by
  cases task with
  | none => exact h
  | some t =>
    unfold taskSuspend
    by_cases hidle : sys.idleTask = some t
    · simp only [if_pos hidle]
      exact h
    · simp only [if_neg hidle]
      refine modify_accounted h ?_ rfl
      rw [htarget t rfl]
      rfl

/-- `task_resume` keeps the accounts, whatever it is applied to. -/
theorem resume_accounted (h : Accounted sys) (task : Option (Fin maxTasks)) :
    Accounted (taskResume sys task) := by
  cases task with
  | none => exact h
  | some t =>
    unfold taskResume
    by_cases hsusp : (sys.taskList t).state = .suspended
    · simp only [if_pos hsusp]
      refine modify_accounted h ?_ rfl
      simp [inUse, hsusp]
    · simp only [if_neg hsusp]
      exact h

/-- `task_sleep` keeps the accounts when the current slot is in use. -/
theorem sleep_accounted (h : Accounted sys) (ms : Nat)
    (htarget : TargetInUse sys sys.currentTask) : Accounted (taskSleep sys ms).1 := by
  unfold taskSleep
  cases hcur : sys.currentTask with
  | none => exact h
  | some t =>
    show Accounted (sys.modify t fun task => { task with state := .blocked, ticksRemaining := ms })
    refine modify_accounted h ?_ rfl
    rw [htarget t hcur]
    rfl

theorem schedule_accounted (h : Accounted sys) (next : Option (Fin maxTasks)) :
    Accounted (taskSchedule sys next) := by
  rw [taskSchedule_eq]
  exact ⟨h.count, h.owned⟩

/-! ### Whole runs -/

/-- The calls on the task table, each with what it gets from outside: the stack
`malloc` found, the task the scheduler chose. -/
inductive TaskCall where
  | create (name : List UInt8) (entry taskExit : Word) (priority stackSize stack : Nat)
  | delete (task : Option (Fin maxTasks))
  | suspend (task : Option (Fin maxTasks))
  | resume (task : Option (Fin maxTasks))
  | sleep (ms : Nat)
  | schedule (next : Option (Fin maxTasks))

/-- One call. -/
def taskStep (sys : TaskSys maxTasks) : TaskCall → Option (TaskSys maxTasks)
  | .create name entry taskExit priority stackSize stack =>
    some (taskCreate sys name entry taskExit priority stackSize (some stack)).1
  | .delete task => some (taskDelete sys task).1
  | .suspend task => some (taskSuspend sys task).1
  | .resume task => some (taskResume sys task)
  | .sleep ms => some (taskSleep sys ms).1
  | .schedule next => some (taskSchedule sys next)

/-- The call does not delete, suspend or put to sleep a slot that is not in use. -/
def TargetsInUse (sys : TaskSys maxTasks) : TaskCall → Prop
  | .delete task | .suspend task => TargetInUse sys task
  | .sleep _ => TargetInUse sys sys.currentTask
  | .create .. | .resume _ | .schedule _ => True

/-- One call on slots in use keeps the accounts. -/
theorem Accounted.step {sys' : TaskSys maxTasks} (h : Accounted sys) {c : TaskCall}
    (hok : TargetsInUse sys c) (hstep : taskStep sys c = some sys') : Accounted sys' := by
  cases c with
  | create name entry taskExit priority stackSize stack =>
    exact Option.some.inj hstep ▸
      create_accounted h name entry taskExit priority stackSize stack
  | delete task => exact Option.some.inj hstep ▸ delete_accounted h hok
  | suspend task => exact Option.some.inj hstep ▸ suspend_accounted h hok
  | resume task => exact Option.some.inj hstep ▸ resume_accounted h task
  | sleep ms => exact Option.some.inj hstep ▸ sleep_accounted h ms hok
  | schedule next => exact Option.some.inj hstep ▸ schedule_accounted h next

/-- **The accounts of a run.** A table in order stays in order as long as no call
deletes, suspends or puts to sleep a slot that is not in use. -/
theorem accounted_along (h : Accounted sys) {calls : List TaskCall}
    (steps : Meets taskStep TargetsInUse sys calls) : Along taskStep Accounted sys calls :=
  along_of_meets (fun _ _ _ h hok hstep => h.step hok hstep) h steps

/-- The accounts are kept by a run that starts with `task_init`: in the state in
which it loops, or in every state from its return on. -/
def RunAccounts (sys : TaskSys maxTasks) (idleEntry taskExit : Word) (idleStack : Nat)
    (calls : List TaskCall) : Prop :=
  match taskInit sys idleEntry taskExit (some idleStack) with
  | .halted sys' => Accounted sys' ∧ CreateServes sys'
  | .returned sys' => Along taskStep (fun s => Accounted s ∧ CreateServes s) sys' calls

/-- The table of zero bytes has no free slot. -/
theorem freeSlot_zeroed : freeSlot (fun _ => Task.zeroed maxTasks) = none :=
  List.find?_eq_none.mpr fun _ _ => by simp [Task.zeroed]

/-- `task_init` never returns: `task_create` finds no slot for the idle task in the
cleared table. -/
theorem taskInit_halts (sys : TaskSys maxTasks) (idleEntry taskExit : Word)
    (malloc : Option Nat) :
    taskInit sys idleEntry taskExit malloc =
      .halted { sys with
        taskList := fun _ => Task.zeroed maxTasks
        taskCount := 0
        currentTask := none
        idleTask := none } := by
  have hroom : ¬ maxTasks ≤ 0 := by decide
  simp only [taskInit, taskCreate, if_neg hroom, freeSlot_zeroed]

/-- In the state `task_init` ends in, the counter is 0 and every slot is in use. -/
theorem zeroed_in_use : slots inUse (fun _ => Task.zeroed maxTasks) = maxTasks :=
  freeSlot_eq_none_iff.mp freeSlot_zeroed

/-- A table of zero bytes with the counter at 0 is not in order. -/
theorem zeroed_not_accounted (htasks : sys.taskList = fun _ => Task.zeroed maxTasks)
    (hzero : sys.taskCount = 0) : ¬ Accounted sys := by
  intro h
  have hcount := h.count
  rw [htasks, hzero, zeroed_in_use] at hcount
  exact absurd hcount (by decide)

/-- **No run keeps the accounts.** Whatever memory `task_init` starts from, it ends
in a loop with `task_count` 0 and 32 slots that are not `TASK_TERMINATED`. -/
theorem no_run_accounts (sys : TaskSys maxTasks) (idleEntry taskExit : Word) (idleStack : Nat)
    (calls : List TaskCall) : ¬ RunAccounts sys idleEntry taskExit idleStack calls := by
  unfold RunAccounts
  rw [taskInit_halts]
  rintro ⟨haccounted, -⟩
  exact zeroed_not_accounted rfl rfl haccounted

/-- The memory at reset: zero bytes, as the start-up code leaves `.bss`. -/
def resetTable : TaskSys maxTasks := ⟨fun _ => Task.zeroed maxTasks, none, none, 0, [], []⟩

/-- From reset, `task_init` loops with `task_create` having found no slot although
the counter is 0. -/
theorem reset_not_accounted :
    (∃ sys', taskInit resetTable 0 0 (some 0x70000000) = .halted sys' ∧
      sys'.taskCount = 0 ∧ slots inUse sys'.taskList = 32 ∧ sys'.idleTask = none) ∧
    ¬ ∀ sys idleEntry taskExit idleStack calls,
      RunAccounts sys idleEntry taskExit idleStack calls := by
  refine ⟨⟨_, taskInit_halts _ _ _ _, rfl, zeroed_in_use, rfl⟩, ?_⟩
  intro hall
  have hreset := hall resetTable 0 0 0x70000000 []
  unfold RunAccounts at hreset
  rw [taskInit_halts] at hreset
  exact zeroed_not_accounted rfl rfl hreset.1

end ArmKernel.Tasks

/-
The earliest deadline (`edf_schedule` of `src/scheduler_rt.c`).

The loop keeps the least deadline seen so far, and begins with `UINT32_MAX`. `edfFrom_eq_argmin`
says what it computes: the first ready task with the least 32-bit deadline, if that is below
`UINT32_MAX`.

Deadlines are absolute times reduced to 32 bits. A run follows the true time and the true
deadlines beside the records. `edf_earliest_iff` says when the task found is the one that is
due first: when the reduction to 32 bits moves no ready task before it, and its own deadline
is not reduced to `UINT32_MAX`. Deadlines on the two sides of a wrap of the tick counter are
compared the wrong way round.
-/
import ArmKernel.Sched.Releases
import Mathlib.Data.List.MinMax

namespace ArmKernel.Sched

open ArmKernel.Support ArmKernel.Tasks

variable {n : Nat}

/-- `deadline`, of a task with a real-time record. -/
def deadlineOf (task : Task n) : Nat :=
  match task.schedulerData with
  | .realtime params => params.deadline
  | _ => 0

/-- `period`, of a task with a real-time record. -/
def periodOf (task : Task n) : Nat :=
  match task.schedulerData with
  | .realtime params => params.period
  | _ => 0

/-! ### What the loop computes -/

section Loop

variable {tasks : Fin n → Task n} {head : Option (Fin n)} {l : List (Fin n)} {rounds : Nat}

/-- The ready tasks of a list, in its order. -/
def readyOf (tasks : Fin n → Task n) (l : List (Fin n)) : List (Fin n) :=
  l.filter fun t => (tasks t).state = .ready

/-- **The loop of `edf_schedule`.** It returns the first ready task with the least deadline if
that is below `d`, and what it started with otherwise. -/
theorem edfFrom_eq_argmin (earliest : Option (Fin n)) (d : Nat)
    (hchain : Chain (nextOf tasks) head l)
    (hdata : ∀ t ∈ l, ∃ params, (tasks t).schedulerData = .realtime params)
    (enough : l.length ≤ rounds) :
    edfFrom tasks rounds head earliest d =
      some ((((readyOf tasks l).argmin fun t => deadlineOf (tasks t)).filter
        fun t => deadlineOf (tasks t) < d).or earliest) := by
  induction l generalizing head rounds earliest d with
  | nil =>
    obtain rfl := hchain
    cases rounds <;> rfl
  | cons t l ih =>
    obtain ⟨rfl, hrest⟩ := hchain
    obtain ⟨rounds, rfl⟩ := Nat.exists_eq_add_one_of_ne_zero (Nat.ne_zero_of_lt enough)
    obtain ⟨params, hparams⟩ := hdata t List.mem_cons_self
    have hrun := fun earliest d => ih earliest d hrest
      (fun u hu => hdata u (List.mem_cons_of_mem _ hu)) (Nat.le_of_succ_le_succ enough)
    have hdeadline : deadlineOf (tasks t) = params.deadline := by simp only [deadlineOf, hparams]
    rw [edfFrom]
    by_cases hready : (tasks t).state = .ready
    · have hcons : readyOf tasks (t :: l) = t :: readyOf tasks l :=
        List.filter_cons_of_pos (by simpa using hready)
      rw [if_pos hready, hcons, List.argmin_cons]
      simp only [hparams]
      by_cases hearlier : params.deadline < d
      · -- The task is preferred to what was found before it.
        rw [if_pos hearlier, hrun]
        cases hmin : (readyOf tasks l).argmin fun t => deadlineOf (tasks t) with
        | none => simp [Option.filter_some, hdeadline, hearlier]
        | some c =>
          by_cases hc : deadlineOf (tasks c) < params.deadline
          · simp [Option.filter_some, hdeadline, hc, hc.trans hearlier]
          · simp [Option.filter_some, hdeadline, hc, hearlier]
      · -- It is not, and neither is a later one that is not before it.
        rw [if_neg hearlier, hrun]
        cases hmin : (readyOf tasks l).argmin fun t => deadlineOf (tasks t) with
        | none => simp [Option.filter_some, hdeadline, hearlier]
        | some c =>
          by_cases hc : deadlineOf (tasks c) < params.deadline
          · simp [Option.filter_some, hdeadline, hc]
          · have hlate : ¬ deadlineOf (tasks c) < d := by omega
            simp [Option.filter_some, hdeadline, hc, hearlier, hlate]
    · have hcons : readyOf tasks (t :: l) = readyOf tasks l :=
        List.filter_cons_of_neg (by simpa using hready)
      rw [if_neg hready, hcons]
      exact hrun _ _

end Loop

/-- **What `edf_schedule` returns** on a list. -/
theorem RtList.edfSchedule_eq {rt : Realtime n} {sys : TaskSys n} {l : List (Fin n)}
    (h : RtList rt sys l) :
    edfSchedule rt sys =
      some (((readyOf sys.taskList l).argmin fun t => deadlineOf (sys.taskList t)).filter
        fun t => deadlineOf (sys.taskList t) < uint32Max) := by
  rw [edfSchedule, edfFrom_eq_argmin none uint32Max h.chain h.data h.length_le, Option.or_none]

/-! ### Runs in true time -/

/-- The kernel, the true time, the true deadlines, and the tasks registered, the latest first. -/
structure EdfRun (n : Nat) where
  rt : Realtime n
  sys : TaskSys n
  clock : Nat
  due : Fin n → Nat
  listed : List (Fin n)

/-- A call: a registration with the deadline in true time, a change of a task's state elsewhere in
the kernel, or `scheduler_update_deadlines` some ticks later. -/
inductive EdfCall (n : Nat) where
  | register (t : Fin n) (params : RealtimeParams) (malloc : Bool) (due : Nat)
  | setState (t : Fin n) (state : TaskState)
  | update (elapsed : Nat)

/-- No task is registered at the time `clock`. -/
def EdfRun.start (sys : TaskSys n) (clock : Nat) : EdfRun n where
  rt := { rtTasks := none, rtTaskCount := 0 }
  sys := sys
  clock := clock
  due := fun _ => 0
  listed := []

/-- One call. The tick counter is the true time reduced to 32 bits. A task is registered once, and
the deadline it is given is the true one reduced to 32 bits. -/
def edfStep (s : EdfRun n) : EdfCall n → Option (EdfRun n)
  | .register t params malloc due =>
    if t ∉ s.listed ∧ wrap32 due = params.deadline then
      let (rt, sys) :=
        schedulerSetRealtimeParams s.rt s.sys (some t) (some params) malloc (wrap32 s.clock)
      some
        { s with
          rt, sys
          due := if malloc then Function.update s.due t due else s.due
          listed := if malloc then t :: s.listed else s.listed }
    else none
  | .setState t state => some { s with sys := s.sys.setState t state }
  | .update elapsed =>
    let clock := s.clock + elapsed
    (schedulerUpdateDeadlines s.rt s.sys (wrap32 clock)).map fun sys =>
      { s with
        sys, clock
        -- A task released now is due one period from now.
        due := fun t =>
          if t ∈ s.listed ∧ isDue (wrap32 clock) (s.sys.taskList t) then
            clock + periodOf (s.sys.taskList t)
          else s.due t }

/-- The ready tasks of the list, the one registered last first. -/
def EdfRun.ready (s : EdfRun n) : List (Fin n) := readyOf s.sys.taskList s.listed

/-- `edf_schedule` returns the ready task that is due first in true time, of several the one
registered last; and a null pointer only when no task of the list is ready. -/
def PicksEarliest (s : EdfRun n) : Prop :=
  ∃ next, edfSchedule s.rt s.sys = some next ∧ (next = none ↔ s.ready = []) ∧
    ∀ t ∈ next, t ∈ s.ready ∧ (∀ u ∈ s.ready, s.due t ≤ s.due u) ∧
      ∀ u ∈ s.ready, s.due u ≤ s.due t → s.ready.idxOf t ≤ s.ready.idxOf u

/-- The reduction to 32 bits keeps the first of the ready tasks: that task has a 32-bit deadline
below `UINT32_MAX`, no ready task has an earlier one, and none before it in the list an equal
one. -/
def WrapKeepsFirst (s : EdfRun n) : Prop :=
  ∀ t ∈ s.ready.argmin s.due, wrap32 (s.due t) < uint32Max ∧
    (∀ u ∈ s.ready, wrap32 (s.due t) ≤ wrap32 (s.due u)) ∧
    ∀ u ∈ s.ready, wrap32 (s.due u) ≤ wrap32 (s.due t) → s.ready.idxOf t ≤ s.ready.idxOf u

/-- The invariant: the list, and deadlines that are the true ones reduced to 32 bits. -/
structure EdfInv (s : EdfRun n) : Prop where
  list : RtList s.rt s.sys s.listed
  deadline : ∀ t ∈ s.listed, deadlineOf (s.sys.taskList t) = wrap32 (s.due t)

variable {s s' : EdfRun n}

theorem EdfInv.ready_deadline (h : EdfInv s) {t : Fin n} (ht : t ∈ s.ready) :
    deadlineOf (s.sys.taskList t) = wrap32 (s.due t) :=
  h.deadline t (List.mem_of_mem_filter ht)

/-- The first ready task by its record is the first one by its reduced deadline. -/
theorem EdfInv.argmin_iff (h : EdfInv s) {t : Fin n} :
    s.ready.argmin (fun t => deadlineOf (s.sys.taskList t)) = some t ↔
      t ∈ s.ready ∧ (∀ u ∈ s.ready, wrap32 (s.due t) ≤ wrap32 (s.due u)) ∧
        ∀ u ∈ s.ready, wrap32 (s.due u) ≤ wrap32 (s.due t) →
          s.ready.idxOf t ≤ s.ready.idxOf u := by
  rw [List.argmin_eq_some_iff]
  refine and_congr_right fun ht => and_congr ?_ ?_
  · refine forall₂_congr fun u hu => ?_
    rw [h.ready_deadline ht, h.ready_deadline hu]
  · refine forall₂_congr fun u hu => ?_
    rw [h.ready_deadline ht, h.ready_deadline hu]

/-- **The choice.** -/
theorem EdfInv.picks_iff (h : EdfInv s) : PicksEarliest s ↔ WrapKeepsFirst s := by
  have hedf := h.list.edfSchedule_eq
  change edfSchedule s.rt s.sys = some ((s.ready.argmin _).filter _) at hedf
  constructor
  · rintro ⟨next, hrun, hnull, hnext⟩ t ht
    have htready : t ∈ s.ready := List.argmin_mem ht
    cases next with
    | none =>
      rw [hnull.mp rfl] at htready
      cases htready
    | some t' =>
      -- The task returned is the first in true time, and the first by its 32-bit deadline.
      have hfirst : t' = t := by
        have htrue : t' ∈ s.ready.argmin s.due := List.mem_argmin_iff.mpr (hnext t' rfl)
        rw [Option.mem_unique htrue ht]
      subst hfirst
      rw [hrun, Option.some_inj] at hedf
      obtain ⟨hmin, hbelow⟩ := Option.filter_eq_some_iff.mp hedf.symm
      rw [h.ready_deadline htready] at hbelow
      exact ⟨of_decide_eq_true hbelow, (h.argmin_iff.mp hmin).2⟩
  · intro hkeeps
    refine ⟨_, hedf, ?_⟩
    cases hmin : s.ready.argmin s.due with
    | none =>
      have hempty : s.ready = [] := List.argmin_eq_none.mp hmin
      rw [hempty]
      refine ⟨by simp, ?_⟩
      rintro t ⟨⟩
    | some t =>
      obtain ⟨hbelow, hfirst⟩ := hkeeps t hmin
      have htready : t ∈ s.ready := List.argmin_mem hmin
      have hcode : s.ready.argmin (fun t => deadlineOf (s.sys.taskList t)) = some t :=
        h.argmin_iff.mpr ⟨htready, hfirst⟩
      have hfound : (some t).filter (fun t => decide (deadlineOf (s.sys.taskList t) < uint32Max)) =
          some t := by
        rw [Option.filter_eq_some_iff, h.ready_deadline htready]
        exact ⟨rfl, decide_eq_true hbelow⟩
      rw [hcode, hfound]
      refine ⟨⟨by simp, ?_⟩, ?_⟩
      · intro hempty
        rw [hempty] at htready
        cases htready
      · rintro _ ⟨⟩
        exact List.argmin_eq_some_iff.mp hmin

theorem setState_deadlineOf (sys : TaskSys n) (t u : Fin n) (state : TaskState) :
    deadlineOf ((sys.setState t state).taskList u) = deadlineOf (sys.taskList u) := by
  rw [deadlineOf, setState_schedulerData, deadlineOf]

/-- A change of states leaves the list alone. -/
theorem RtList.setState {rt : Realtime n} {sys : TaskSys n} {l : List (Fin n)}
    (h : RtList rt sys l) (t : Fin n) (state : TaskState) : RtList rt (sys.setState t state) l :=
  h.modify rfl (h.data t)

/-- **Step lemma.** Every call keeps the records at the true deadlines. -/
theorem EdfInv.step (h : EdfInv s) {call : EdfCall n} (hstep : edfStep s call = some s') :
    EdfInv s' := by
  cases call with
  | register t params malloc due =>
    simp only [edfStep] at hstep
    by_cases hfresh : t ∉ s.listed ∧ wrap32 due = params.deadline
    · rw [if_pos hfresh] at hstep
      cases malloc with
      | false =>
        cases hstep
        exact h
      | true =>
        cases hstep
        refine ⟨h.list.register hfresh.1 params _, ?_⟩
        intro u hu
        simp only [schedulerSetRealtimeParams, not_true, if_false, if_true] at hu ⊢
        by_cases hut : u = t
        · subst hut
          rw [modify_self, Function.update_self]
          exact hfresh.2.symm
        · rw [modify_of_ne _ _ hut, Function.update_of_ne hut]
          exact h.deadline u ((List.mem_cons.mp hu).resolve_left hut)
    · rw [if_neg hfresh] at hstep
      cases hstep
  | setState t state =>
    cases hstep
    refine ⟨h.list.setState t state, ?_⟩
    intro u hu
    rw [setState_deadlineOf]
    exact h.deadline u hu
  | update elapsed =>
    unfold edfStep at hstep
    simp only [h.list.updateDeadlines, Option.map_some, Option.some.injEq] at hstep
    subst hstep
    refine ⟨h.list.refreshed _, ?_⟩
    intro u hu
    obtain ⟨params, hdata⟩ := h.list.data u hu
    simp only [hu, if_true, true_and, isDue_realtime hdata, deadlineOf, refresh_realtime hdata,
      periodOf, hdata, decide_eq_true_eq]
    by_cases hdue : params.nextRelease ≤ wrap32 (s.clock + elapsed)
    · rw [if_pos hdue, if_pos hdue]
      exact Nat.mod_add_mod ..
    · rw [if_neg hdue, if_neg hdue]
      have hold := h.deadline u hu
      rwa [deadlineOf, hdata] at hold

theorem EdfRun.start_inv (sys : TaskSys n) (clock : Nat) : EdfInv (EdfRun.start sys clock) where
  list := ⟨rfl, fun _ ht => absurd ht List.not_mem_nil⟩
  deadline := fun _ ht => absurd ht List.not_mem_nil

/-- **The earliest deadline.** For every task table, every time of the start and every run. -/
theorem edf_earliest_iff (sys : TaskSys n) (clock : Nat) (calls : List (EdfCall n)) :
    Along edfStep (fun s => PicksEarliest s ↔ WrapKeepsFirst s) (EdfRun.start sys clock) calls := by
  have hinv : Along edfStep EdfInv (EdfRun.start sys clock) calls :=
    along_of_preserved (fun _ _ _ h hstep => h.step hstep) (EdfRun.start_inv sys clock) calls
  exact hinv.mono fun s h => h.picks_iff

/-- Between two wraps, and before the last tick of a turn, the reduction keeps the order. -/
theorem WrapKeepsFirst.of_turn {k : Nat}
    (h : ∀ u ∈ s.ready, k * 2 ^ 32 ≤ s.due u ∧ s.due u < k * 2 ^ 32 + uint32Max) :
    WrapKeepsFirst s := by
  have hreduced : ∀ u ∈ s.ready, wrap32 (s.due u) = s.due u - k * 2 ^ 32 := by
    intro u hu
    have hturn := h u hu
    have hmax : uint32Max = 2 ^ 32 - 1 := rfl
    unfold wrap32
    omega
  intro t ht
  obtain ⟨htready, hleast, hindex⟩ := List.mem_argmin_iff.mp ht
  have hturn := h t htready
  refine ⟨?_, ?_, ?_⟩
  · rw [hreduced t htready]
    omega
  · intro u hu
    rw [hreduced t htready, hreduced u hu]
    exact Nat.sub_le_sub_right (hleast u hu) _
  · intro u hu hle
    rw [hreduced t htready, hreduced u hu] at hle
    have hturn' := h u hu
    exact hindex u hu (by omega)

/-- The parameters of a task whose first deadline is one period away. -/
def periodicParams (period : Nat) : RealtimeParams :=
  { period, deadline := period, execution := 1, nextRelease := 0, executionTime := 0 }

/-- Two tasks are released 30 ticks before the wrap, for 20 and for 100 ticks. -/
def acrossTheWrap (t u : Fin 2) : List (EdfCall 2) :=
  [.register t (periodicParams 20) true 20, .register u (periodicParams 100) true 100,
    .update (2 ^ 32 - 30)]

/-- A task is released for 20 ticks, 21 ticks before the wrap. -/
def atTheLastTick (t : Fin 2) : List (EdfCall 2) :=
  [.register t (periodicParams 20) true 20, .update (2 ^ 32 - 21)]

/-- What `edf_schedule` returns after the calls, the ready tasks, and their true deadlines. -/
def edfAfter (calls : List (EdfCall 2)) : Option (Option (Option (Fin 2)) × List (Fin 2) × List Nat) :=
  (run edfStep (EdfRun.start plainTasks 0) calls).map fun s =>
    (edfSchedule s.rt s.sys, s.ready, s.ready.map s.due)

/-- **The wrong task, and none.** The deadline after the wrap is taken for the earlier one; a ready
task with the deadline `UINT32_MAX` is not found. -/
theorem edf_misses_earliest :
    edfAfter (acrossTheWrap 0 1) = some (some (some 1), [1, 0], [2 ^ 32 + 70, 2 ^ 32 - 10]) ∧
    edfAfter (atTheLastTick 0) = some (some none, [0], [2 ^ 32 - 1]) ∧
    ¬ ∀ (sys : TaskSys 2) (clock : Nat) (calls : List (EdfCall 2)),
      Along edfStep PicksEarliest (EdfRun.start sys clock) calls := by
  have hlast : edfAfter (atTheLastTick 0) = some (some none, [0], [2 ^ 32 - 1]) := by decide +kernel
  refine ⟨by decide +kernel, hlast, ?_⟩
  intro hall
  obtain ⟨s, hrun, hafter⟩ := Option.map_eq_some_iff.mp hlast
  simp only [Prod.mk.injEq] at hafter
  obtain ⟨hnull, hready, -⟩ := hafter
  obtain ⟨next, hedf, hempty, -⟩ := (hall plainTasks 0 (atTheLastTick 0)).last hrun
  rw [hnull, Option.some_inj] at hedf
  rw [hempty.mp hedf.symm] at hready
  cases hready

end ArmKernel.Sched

/-
Charging the current task (`scheduler_update_vruntime` of `src/scheduler_fair.c`).

The function charges the time from `exec_start` to now, and never moves `exec_start`. It is
called by `scheduler_fair_tick`, and by `scheduler_set_policy` when the fair policy is left.
`FairCall.perform_spec` says what each of these calls does to the entity of the current task.

An account follows one run of that task: `last` is the tick of the latest charge, and `owed`
what the charges were to add to the virtual runtime, each for the time since the one before it.
`runtime_accounted_iff` says when the entity agrees with its account: when every charge
but the last was made at the tick `exec_start` itself, so that there was nothing to charge.
-/
import ArmKernel.Sched.FairRuns
import ArmKernel.Sched.Scheduler

namespace ArmKernel.Sched

open ArmKernel.Support ArmKernel.Tasks

variable {n : Nat}

/-- A call while the current task runs: the two that may charge it, and
`scheduler_set_weight`. -/
inductive FairCall (n : Nat) where
  | fairTick (now : Nat)
  | setPolicy (now : Nat) (policy : SchedulerPolicy)
  | setWeight (task : Fin n) (weight : Nat)

/-- The call; `none` when it does not return. -/
def FairCall.perform (k : Kernel n) : FairCall n → Option (Kernel n)
  | .fairTick now => (schedulerFairTick k.fairSys now).map fun (s, _) => k.setFairSys s
  | .setPolicy now policy => schedulerSetPolicy k now policy
  | .setWeight task weight =>
    (schedulerSetWeight k.fairSys (some task) weight).map k.setFairSys

/-- The tick at which the call charges the current task, if it does. -/
def FairCall.charges (k : Kernel n) : FairCall n → Option Nat
  | .fairTick now => some now
  | .setPolicy now policy =>
    if policy ≠ k.currentPolicy ∧ k.currentPolicy = .fair then some now else none
  | .setWeight _ _ => none

/-- The current task is `t`, and `e` is its entity. -/
structure Charged (k : Kernel n) (t : Fin n) (e : Nat) : Prop where
  current : k.sys.currentTask = some t
  data : (k.sys.taskList t).schedulerData = .fair e

/-- The run of a task: the kernel, the tick of the latest charge, and what the charges were
to add to its virtual runtime. -/
structure Account (n : Nat) where
  kernel : Kernel n
  last : Nat
  owed : Nat

/-- The account of the entity `e` when its task begins to run. -/
def Account.opened (k : Kernel n) (e : Nat) : Account n :=
  { kernel := k, last := (k.fair.entity e).execStart, owed := 0 }

/-- One call. The tick counter has 32 bits, and does not run backwards. -/
def accountStep (e : Nat) (a : Account n) (call : FairCall n) : Option (Account n) :=
  match call.charges a.kernel with
  | none => (call.perform a.kernel).map fun kernel => { a with kernel }
  | some now =>
    if a.last ≤ now ∧ now < 2 ^ 32 then
      (call.perform a.kernel).map fun kernel =>
        { kernel
          last := now
          owed := a.owed + (now - a.last) * 1024 / (a.kernel.fair.entity e).weight }
    else none

/-- The entity `e`, with the virtual runtime `v` at the beginning, agrees with its account: it
was charged the time since `start`, and each part of it once at the weight of the moment. -/
def Accounted (e start v : Nat) (a : Account n) : Prop :=
  (a.kernel.fair.entity e).sumExecRuntime = a.last - start ∧
    (a.kernel.fair.entity e).vruntime = wrap64 (v + a.owed)

/-- A call that charges comes when the latest charge, if there was one, was made at `start`. -/
def ChargesOnce (start : Nat) (a : Account n) (call : FairCall n) : Prop :=
  (call.charges a.kernel).isSome → a.last = start

instance (start : Nat) (a : Account n) (call : FairCall n) : Decidable (ChargesOnce start a call) :=
  inferInstanceAs (Decidable (_ → _))

/-! ### What a call does to the entity of the current task -/

section Calls

variable {s s' : FairSys n} {k k' : Kernel n} {t : Fin n} {e now : Nat}

/-- **Effect of `scheduler_update_vruntime`.** -/
theorem schedulerUpdateVruntime_spec (hdata : (s.sys.taskList t).schedulerData = .fair e)
    (h : schedulerUpdateVruntime s now (some t) = some s') :
    (s.fair.entity e).weight ≠ 0 ∧ s' = { s with fair := s.fair.modify e (charged now) } := by
  simp only [schedulerUpdateVruntime, hdata] at h
  by_cases hweight : (s.fair.entity e).weight = 0
  · rw [if_pos hweight] at h
    cases h
  · rw [if_neg hweight] at h
    cases h
    exact ⟨hweight, rfl⟩

theorem modify_entity_self (fair : Fair n) (e : Nat) (f : SchedEntity n → SchedEntity n) :
    (fair.modify e f).entity e = f (fair.entity e) := Function.update_self ..

theorem modify_entity_of_ne (fair : Fair n) {e e' : Nat} (f : SchedEntity n → SchedEntity n)
    (h : e' ≠ e) : (fair.modify e f).entity e' = fair.entity e' := Function.update_of_ne h ..

/-- Enqueueing moves nodes of the tree, and leaves the entities alone. -/
theorem enqueueTaskFair_entity {task : Option (Fin n)} (h : enqueueTaskFair s task = some s') :
    s'.sys = s.sys ∧ s'.fair.entity = s.fair.entity := by
  unfold enqueueTaskFair at h
  cases task with
  | none =>
    cases h
    exact ⟨rfl, rfl⟩
  | some u =>
    cases hdata : (s.sys.taskList u).schedulerData with
    | null =>
      simp only [hdata] at h
      cases h
      exact ⟨rfl, rfl⟩
    | mlfq params => simp only [hdata, reduceCtorEq] at h
    | realtime params => simp only [hdata, reduceCtorEq] at h
    | fair f =>
      simp only [hdata] at h
      obtain ⟨fair, henqueue, rfl⟩ := Option.map_eq_some_iff.mp h
      obtain ⟨slot, -, hinsert⟩ := Option.bind_eq_some_iff.mp henqueue
      obtain ⟨tree, -, rfl⟩ := Option.map_eq_some_iff.mp hinsert
      exact ⟨rfl, rfl⟩

/-- **Effect of `scheduler_fair_tick`**, whether it preempts or not. -/
theorem schedulerFairTick_spec {yields : Bool} (hcurrent : s.sys.currentTask = some t)
    (hdata : (s.sys.taskList t).schedulerData = .fair e)
    (h : schedulerFairTick s now = some (s', yields)) :
    (s.fair.entity e).weight ≠ 0 ∧ s'.sys = s.sys ∧
      s'.fair.entity e = charged now (s.fair.entity e) := by
  simp only [schedulerFairTick, taskGetCurrent, hcurrent, hdata] at h
  obtain ⟨s₁, hupdate, h⟩ := Option.bind_eq_some_iff.mp h
  obtain ⟨least, -, h⟩ := Option.bind_eq_some_iff.mp h
  obtain ⟨hweight, rfl⟩ := schedulerUpdateVruntime_spec hdata hupdate
  have hentity := modify_entity_self s.fair e (charged now)
  split at h
  · obtain ⟨s₂, henqueue, hs₂⟩ := Option.map_eq_some_iff.mp h
    obtain ⟨rfl, -⟩ := Prod.mk.inj hs₂
    obtain ⟨hsys, hentities⟩ := enqueueTaskFair_entity henqueue
    exact ⟨hweight, hsys, (congrFun hentities e).trans hentity⟩
  · obtain ⟨rfl, -⟩ := Prod.mk.inj (Option.some.inj h)
    exact ⟨hweight, rfl, hentity⟩

/-- The release loop leaves a task alone that has no real-time record. -/
theorem schedulerUpdateDeadlines_fair {rt : Realtime n} {sys sys' : TaskSys n}
    (hdata : (sys.taskList t).schedulerData = .fair e)
    (h : schedulerUpdateDeadlines rt sys now = some sys') :
    sys'.currentTask = sys.currentTask ∧ (sys'.taskList t).schedulerData = .fair e := by
  obtain ⟨l, -, rfl⟩ := update_deadlines_spec h
  refine ⟨rfl, ?_⟩
  by_cases ht : t ∈ l
  · simp only [if_pos ht, refresh, hdata]
  · simp only [if_neg ht, hdata]

/-- What is promised of a call: it charges the entity as `scheduler_update_vruntime` does, or
writes nothing but its weight. -/
def Performs (k k' : Kernel n) (e : Nat) : Option Nat → Prop
  | some now => (k.fair.entity e).weight ≠ 0 ∧ k'.fair.entity e = charged now (k.fair.entity e)
  | none => ∃ weight, k'.fair.entity e = { k.fair.entity e with weight }

/-- Leaving a policy charges the current task when it is the fair one. -/
theorem leavePolicy_spec (h : Charged k t e) (hleave : leavePolicy k now t = some k') :
    Charged k' t e ∧ Performs k k' e (if k.currentPolicy = .fair then some now else none) := by
  unfold leavePolicy at hleave
  cases hpolicy : k.currentPolicy with
  | mlfq =>
    simp only [hpolicy, schedulerMlfqUpdateQueue, Kernel.mlfqSys, h.data, Option.map_none,
      reduceCtorEq] at hleave
  | fair =>
    simp only [hpolicy] at hleave
    obtain ⟨s, hupdate, rfl⟩ := Option.map_eq_some_iff.mp hleave
    obtain ⟨hweight, rfl⟩ := @schedulerUpdateVruntime_spec _ k.fairSys _ _ _ _ h.data hupdate
    exact ⟨⟨h.current, h.data⟩, hweight, modify_entity_self _ _ _⟩
  | realtime =>
    simp only [hpolicy] at hleave
    obtain ⟨sys, hupdate, rfl⟩ := Option.map_eq_some_iff.mp hleave
    obtain ⟨hcurrent, hdata⟩ := schedulerUpdateDeadlines_fair h.data hupdate
    exact ⟨⟨hcurrent.trans h.current, hdata⟩, _, rfl⟩
  | roundRobin =>
    simp only [hpolicy] at hleave
    cases hleave
    exact ⟨h, _, rfl⟩
  | priority =>
    simp only [hpolicy] at hleave
    cases hleave
    exact ⟨h, _, rfl⟩

/-- **Effect of a call.** -/
theorem FairCall.perform_spec {call : FairCall n} (h : Charged k t e)
    (hcall : call.perform k = some k') : Charged k' t e ∧ Performs k k' e (call.charges k) := by
  cases call with
  | fairTick now =>
    obtain ⟨⟨s, yields⟩, htick, rfl⟩ := Option.map_eq_some_iff.mp hcall
    obtain ⟨hweight, hsys, hentity⟩ := @schedulerFairTick_spec _ k.fairSys _ _ _ _ _ h.current
      h.data htick
    refine ⟨⟨?_, ?_⟩, hweight, hentity⟩
    · exact (congrArg TaskSys.currentTask hsys).trans h.current
    · exact (congrArg (fun sys => (sys.taskList t).schedulerData) hsys).trans h.data
  | setPolicy now policy =>
    simp only [FairCall.perform, schedulerSetPolicy] at hcall
    by_cases hother : policy ≠ k.currentPolicy
    · simp only [if_pos hother, taskGetCurrent, h.current] at hcall
      obtain ⟨k₁, hleave, rfl⟩ := Option.map_eq_some_iff.mp hcall
      obtain ⟨hcharged, hperforms⟩ := leavePolicy_spec h hleave
      refine ⟨⟨hcharged.current, hcharged.data⟩, ?_⟩
      simp only [FairCall.charges, hother, not_false_eq_true, true_and, ne_eq]
      exact hperforms
    · rw [if_neg hother] at hcall
      cases hcall
      simp only [FairCall.charges, hother, false_and, if_false]
      exact ⟨h, _, rfl⟩
  | setWeight task weight =>
    simp only [FairCall.perform] at hcall
    obtain ⟨s, hset, rfl⟩ := Option.map_eq_some_iff.mp hcall
    unfold schedulerSetWeight at hset
    cases hdata : (k.fairSys.sys.taskList task).schedulerData with
    | null =>
      simp only [hdata] at hset
      cases hset
      exact ⟨h, _, rfl⟩
    | mlfq params => simp only [hdata, reduceCtorEq] at hset
    | realtime params => simp only [hdata, reduceCtorEq] at hset
    | fair f =>
      simp only [hdata] at hset
      cases hset
      refine ⟨⟨h.current, h.data⟩, ?_⟩
      by_cases hf : e = f
      · subst hf
        exact ⟨weight, modify_entity_self k.fair e fun entity => { entity with weight }⟩
      · refine ⟨(k.fair.entity e).weight, ?_⟩
        exact modify_entity_of_ne k.fair (fun entity => { entity with weight }) hf

end Calls

/-! ### The account of a run -/

/-- Without a borrow, subtraction of words is subtraction of numbers. -/
theorem sub64_of_le {x y : Nat} (hx : x < 2 ^ 64) (hy : y ≤ x) : sub64 x y = x - y := by
  unfold sub64 wrap64
  omega

/-- What a charge writes when the tick counter has not passed 32 bits. -/
theorem charged_eq {entity : SchedEntity n} {now : Nat} (hstart : entity.execStart ≤ now)
    (hnow : now < 2 ^ 32) :
    (charged now entity).sumExecRuntime =
        wrap64 (entity.sumExecRuntime + (now - entity.execStart)) ∧
      (charged now entity).vruntime =
        wrap64 (entity.vruntime + (now - entity.execStart) * 1024 / entity.weight) := by
  have hdelta : sub64 now entity.execStart = now - entity.execStart :=
    sub64_of_le (hnow.trans (by decide)) hstart
  have hproduct : wrap64 ((now - entity.execStart) * 1024) = (now - entity.execStart) * 1024 := by
    apply wrap64_of_lt
    omega
  simp only [charged, vruntimeAt, hdelta, hproduct, and_self]

theorem wrap64_add_left (x y : Nat) : wrap64 (wrap64 x + y) = wrap64 (x + y) := Nat.mod_add_mod ..

/-- The invariant: the task runs, its entity began at `start` and agrees with its account. -/
structure AccountInv (t : Fin n) (e start v : Nat) (a : Account n) : Prop where
  runs : Charged a.kernel t e
  started : (a.kernel.fair.entity e).execStart = start
  passed : start ≤ a.last
  accounted : Accounted e start v a

variable {t : Fin n} {e start v : Nat} {a a' : Account n} {call : FairCall n}

/-- A step is a call. A call that charges comes at a later tick, and makes it the latest. -/
theorem accountStep_cases (h : accountStep e a call = some a') :
    call.perform a.kernel = some a'.kernel ∧
      (call.charges a.kernel = none ∧ a'.last = a.last ∧ a'.owed = a.owed ∨
        ∃ now, call.charges a.kernel = some now ∧ a.last ≤ now ∧ now < 2 ^ 32 ∧ a'.last = now ∧
          a'.owed = a.owed + (now - a.last) * 1024 / (a.kernel.fair.entity e).weight) := by
  unfold accountStep at h
  cases hcharges : call.charges a.kernel with
  | none =>
    simp only [hcharges] at h
    obtain ⟨kernel, hcall, rfl⟩ := Option.map_eq_some_iff.mp h
    exact ⟨hcall, .inl ⟨rfl, rfl, rfl⟩⟩
  | some now =>
    simp only [hcharges] at h
    by_cases htick : a.last ≤ now ∧ now < 2 ^ 32
    · rw [if_pos htick] at h
      obtain ⟨kernel, hcall, rfl⟩ := Option.map_eq_some_iff.mp h
      exact ⟨hcall, .inr ⟨now, rfl, htick.1, htick.2, rfl, rfl⟩⟩
    · rw [if_neg htick] at h
      cases h

/-- What a charge makes of an entity that agrees with its account: the time since `start` is
added to it, however much of it had been charged. -/
theorem AccountInv.sum_charged (h : AccountInv t e start v a) {now : Nat} (hlast : a.last ≤ now)
    (hnow : now < 2 ^ 32) :
    (charged now (a.kernel.fair.entity e)).sumExecRuntime =
      (a.last - start) + (now - start) := by
  have hstart : (a.kernel.fair.entity e).execStart ≤ now := by
    rw [h.started]
    exact h.passed.trans hlast
  rw [(charged_eq hstart hnow).1, h.started, h.accounted.1, wrap64_of_lt]
  omega

/-- **Step lemma.** A call that charges once keeps the entity in agreement. -/
theorem AccountInv.step (h : AccountInv t e start v a) (honce : ChargesOnce start a call)
    (hstep : accountStep e a call = some a') : AccountInv t e start v a' := by
  obtain ⟨hcall, hcases⟩ := accountStep_cases hstep
  obtain ⟨hcharged, hperforms⟩ := FairCall.perform_spec h.runs hcall
  rcases hcases with ⟨hcharges, hlast, howed⟩ | ⟨now, hcharges, hle, hnow, hlast, howed⟩
  · rw [hcharges] at hperforms
    obtain ⟨weight, hentity⟩ := hperforms
    refine ⟨hcharged, ?_, ?_, ?_⟩
    · rw [hentity]
      exact h.started
    · rw [hlast]
      exact h.passed
    · rw [Accounted, hentity, hlast, howed]
      exact h.accounted
  · rw [hcharges] at hperforms
    obtain ⟨-, hentity⟩ := hperforms
    have hfirst : a.last = start := honce (by rw [hcharges]; rfl)
    have hstart : (a.kernel.fair.entity e).execStart ≤ now := by
      rw [h.started]
      exact h.passed.trans hle
    refine ⟨hcharged, ?_, ?_, ?_, ?_⟩
    · rw [hentity]
      exact h.started
    · rw [hlast]
      exact h.passed.trans hle
    · rw [hentity, h.sum_charged hle hnow, hlast, hfirst, Nat.sub_self, Nat.zero_add]
    · rw [hentity, (charged_eq hstart hnow).2, howed, h.accounted.2, h.started, hfirst,
        wrap64_add_left, Nat.add_assoc]

/-- A second charge at a later tick adds the time before the first one again. -/
theorem AccountInv.leaves (h : AccountInv t e start v a) (hagain : ¬ ChargesOnce start a call)
    (hstep : accountStep e a call = some a') : ¬ Accounted e start v a' := by
  obtain ⟨hcall, hcases⟩ := accountStep_cases hstep
  obtain ⟨hcharged, hperforms⟩ := FairCall.perform_spec h.runs hcall
  unfold ChargesOnce at hagain
  rcases hcases with ⟨hcharges, hlast, howed⟩ | ⟨now, hcharges, hle, hnow, hlast, howed⟩
  · rw [hcharges] at hagain
    exact absurd (fun hsome => absurd hsome (by simp)) hagain
  · rw [hcharges] at hperforms hagain
    obtain ⟨-, hentity⟩ := hperforms
    have hpassed := h.passed
    have hlater : a.last ≠ start := fun heq => hagain fun _ => heq
    rintro ⟨hsum, -⟩
    rw [hentity, h.sum_charged hle hnow, hlast] at hsum
    omega

/-- **Runtime accounting.** For every kernel whose current task has an entity with nothing
charged to it, and every sequence of calls at ticks that do not run backwards. -/
theorem runtime_accounted_iff (k : Kernel n) (t : Fin n) (e : Nat)
    (hcurrent : k.sys.currentTask = some t) (hdata : (k.sys.taskList t).schedulerData = .fair e)
    (hsum : (k.fair.entity e).sumExecRuntime = 0)
    (hv : (k.fair.entity e).vruntime < 2 ^ 64) (calls : List (FairCall n)) :
    Along (accountStep e)
        (Accounted e (k.fair.entity e).execStart (k.fair.entity e).vruntime) (.opened k e) calls ↔
      Meets (accountStep e) (ChargesOnce (k.fair.entity e).execStart) (.opened k e) calls := by
  have hopened : AccountInv t e (k.fair.entity e).execStart (k.fair.entity e).vruntime
      (.opened k e) := by
    refine ⟨⟨hcurrent, hdata⟩, rfl, Nat.le_refl _, ?_, ?_⟩
    · rw [Account.opened, Nat.sub_self]
      exact hsum
    · exact (wrap64_of_lt hv).symm
  apply along_iff_meets _ _ _ hopened
  · exact fun a h => h.accounted
  · exact fun a call a' h honce hstep => h.step honce hstep
  · exact fun a call a' h hagain hstep => h.leaves hagain hstep

/-- A task of priority 0, hence of weight 1024, that runs from tick 0 on. -/
def runningTask : Kernel 2 :=
  let s := initSchedEntity fairTwoTasks.s (.last 1) true 1
  { sys := { s.sys with currentTask := some (.last 1) }
    rt := { rtTasks := none, rtTaskCount := 0 }
    mlfq :=
      { queues := fun _ => { head := none, tail := none, timeQuantum := 0, taskCount := 0 }
        boostPeriod := 0
        boostCounter := 0 }
    fair := s.fair
    schedulerState := .running
    currentPolicy := .fair
    stats := { contextSwitches := 0, preemptions := 0, schedulerRuns := 0, missedDeadlines := 0 } }

/-- A tick at `exec_start`, and the change to another policy at tick 5. -/
theorem runtime_accounted_iff_run :
    let calls : List (FairCall 2) := [.fairTick 0, .setPolicy 5 .roundRobin]
    Meets (accountStep 0) (ChargesOnce 0) (.opened runningTask 0) calls ∧
      Along (accountStep 0) (Accounted 0 0 0) (.opened runningTask 0) calls :=
  ⟨by decide, (runtime_accounted_iff runningTask (.last 1) 0 rfl rfl rfl (by decide) _).mpr
    (by decide)⟩

/-- **Two ticks are charged as three.** The first tick is charged again by the second one. -/
theorem ticks_charged_twice :
    (∃ a, run (accountStep 0) (.opened runningTask 0) [.fairTick 1, .fairTick 2] = some a ∧
      a.last = 2 ∧ a.owed = 2 ∧ (a.kernel.fair.entity 0).sumExecRuntime = 3 ∧
      (a.kernel.fair.entity 0).vruntime = 3) ∧
    ¬ ∀ (k : Kernel 2) (t : Fin 2) (e : Nat), k.sys.currentTask = some t →
      (k.sys.taskList t).schedulerData = .fair e → (k.fair.entity e).sumExecRuntime = 0 →
      (k.fair.entity e).vruntime < 2 ^ 64 → ∀ calls : List (FairCall 2),
      Along (accountStep e)
        (Accounted e (k.fair.entity e).execStart (k.fair.entity e).vruntime) (.opened k e) calls := by
  have htwice : ∃ a, run (accountStep 0) (.opened runningTask 0) [.fairTick 1, .fairTick 2] =
      some a ∧ a.last = 2 ∧ a.owed = 2 ∧ (a.kernel.fair.entity 0).sumExecRuntime = 3 ∧
      (a.kernel.fair.entity 0).vruntime = 3 := ⟨_, rfl, rfl, rfl, rfl, rfl⟩
  refine ⟨htwice, ?_⟩
  intro hall
  obtain ⟨a, hrun, hlast, -, hsum, -⟩ := htwice
  have haccounted := hall runningTask (.last 1) 0 rfl rfl rfl (by decide) [.fairTick 1, .fairTick 2]
  have hwrong := (haccounted.last hrun).1
  rw [hsum, hlast] at hwrong
  cases hwrong

end ArmKernel.Sched

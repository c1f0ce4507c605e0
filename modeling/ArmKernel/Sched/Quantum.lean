/-
The time quanta of the multi-level feedback queue.

A run starts anywhere the queues are in order. A step is a call of the scheduler while the
policy is the multi-level feedback queue, a task initialised, or a change of the current
task or of a task's state by the rest of the kernel.

The history of a run counts the ticks a task was charged for since it came to its level or
since the last boost. `QuantumLaw` is what the policy is to do: a task that has used up its
quantum is a level below with a full slice, and after a boost all tasks are in the first
queue with full slices. `scheduler_tick` never lowers a task's level and a boost leaves the
slices in the first queue as they are, so the law holds as long as `WithinQuantum` does
(`quantum_law_iff`).
-/
import ArmKernel.Sched.MlfqRuns
import ArmKernel.Sched.Scheduler

namespace ArmKernel.Sched

open ArmKernel.Support ArmKernel.Tasks

variable {n : Nat}

/-- The kernel, with the history of its ticks: how often each task was charged at its
level, the task that the last step brought to the end of its quantum with its level, and
whether the last step made a boost. -/
structure QuantumRun (n : Nat) where
  k : Kernel n
  served : Fin n → Nat
  expired : Option (Fin n × Nat)
  boosted : Bool

/-- A call of the scheduler, or a change by the rest of the kernel. -/
inductive QuantumAction (n : Nat) where
  | initTask (t : Fin n) (malloc : Bool)
  | boost
  | tick (now : Nat)
  | next
  | schedule
  | dispatch (current : Option (Fin n))
  | setState (t : Fin n) (state : TaskState)

/-- `queues[i].time_quantum`. -/
def Kernel.quantum (k : Kernel n) (i : Nat) : Nat := (k.mlfq.queues i).timeQuantum

/-- The task a tick charges, with its record. -/
def Kernel.chargedTask (k : Kernel n) : Option (Fin n × MlfqParams) :=
  k.sys.currentTask.bind fun t => (k.mlfqSys.params t).map fun params => (t, params)

/-- The next tick makes a boost. -/
def Kernel.BoostDue (k : Kernel n) : Prop := k.mlfq.boostPeriod ≤ wrap32 (k.mlfq.boostCounter + 1)

instance (k : Kernel n) : Decidable k.BoostDue :=
  inferInstanceAs (Decidable (_ ≤ _))

namespace QuantumRun

/-- A step that is no tick and no boost. -/
def quiet (r : QuantumRun n) (k : Kernel n) : QuantumRun n :=
  { r with k, expired := none, boosted := false }

/-- A boost. -/
def afterBoost (k : Kernel n) : QuantumRun n :=
  { k, served := fun _ => 0, expired := none, boosted := true }

/-- A tick that led to `k`. -/
def afterTick (r : QuantumRun n) (k : Kernel n) : QuantumRun n :=
  match r.k.chargedTask with
  | none => r.quiet k
  | some (t, params) =>
    if r.k.BoostDue then afterBoost k
    else
      { k
        served := Function.update r.served t (r.served t + 1)
        expired :=
          if r.served t + 1 = r.k.quantum params.currentQueue then some (t, params.currentQueue)
          else none
        boosted := false }

/-- One step. -/
def step (r : QuantumRun n) : QuantumAction n → Option (QuantumRun n)
  | .initTask t malloc =>
    if dataOf r.k.mlfqSys t = .null then
      (schedulerMlfqInitTask r.k.mlfqSys t malloc).map fun s =>
        { r.quiet (r.k.setMlfqSys s) with served := Function.update r.served t 0 }
    else none
  | .boost => (schedulerMlfqBoost r.k.mlfqSys).map fun s => afterBoost (r.k.setMlfqSys s)
  | .tick now => (schedulerTick r.k now).map r.afterTick
  | .next => (schedulerNextTask r.k).map fun (k, _) => r.quiet k
  | .schedule => (schedule r.k).map r.quiet
  | .dispatch current =>
    some (r.quiet { r.k with sys := { r.k.sys with currentTask := current } })
  | .setState t state => some (r.quiet { r.k with sys := r.k.sys.setState t state })

end QuantumRun

open QuantumRun

/-- The law of the quanta, after a step. -/
structure QuantumLaw (r : QuantumRun n) : Prop where
  /-- A quantum used up puts the task a level down, with that level's full quantum. -/
  demoted : ∀ t level, r.expired = some (t, level) → ∃ params,
    dataOf r.k.mlfqSys t = .mlfq params ∧ params.currentQueue = levelBelow level ∧
      params.timeSlice = r.k.quantum (levelBelow level)
  /-- A boost puts every task into the first queue, with its full quantum. -/
  reset : r.boosted = true → ∀ t params, dataOf r.k.mlfqSys t = .mlfq params →
    OnChain (nextOf r.k.sys.taskList) (r.k.mlfq.queues 0).head t ∧ params.currentQueue = 0 ∧
      params.timeSlice = r.k.quantum 0

/-- The tasks in the first queue have full slices. -/
def FullFirst (s : MlfqSys n) : Prop :=
  ∀ t params, dataOf s t = .mlfq params → params.currentQueue = 0 →
    params.timeSlice = (s.mlfq.queues 0).timeQuantum

/-- No quantum ends with the step, unless a boost comes with it; and when a boost comes,
the tasks in the first queue have full slices, the current one charged already. -/
def WithinQuantum (r : QuantumRun n) : QuantumAction n → Prop
  | .tick _ => ∀ t params, r.k.chargedTask = some (t, params) →
    (r.k.BoostDue → FullFirst (r.k.mlfqSys.charge t params)) ∧
      (¬ r.k.BoostDue → r.served t + 1 ≠ r.k.quantum params.currentQueue)
  | .boost => FullFirst r.k.mlfqSys
  | _ => True

/-- The scheduler runs the policy, the queues are in order, and no slice is longer than
the quantum of its level. -/
structure QuantumInv (k : Kernel n) (lines : Nat → List (Fin n)) : Prop where
  queues : MlfqInv k.mlfqSys lines
  slices : ∀ t params, dataOf k.mlfqSys t = .mlfq params →
    params.timeSlice ≤ k.quantum params.currentQueue
  policy : k.currentPolicy = .mlfq
  running : k.schedulerState = .running

variable {k k' : Kernel n} {r r' : QuantumRun n} {s s' : MlfqSys n} {lines : Nat → List (Fin n)}
  {t : Fin n} {params : MlfqParams}

theorem quiet_law (r : QuantumRun n) (k : Kernel n) : QuantumLaw (r.quiet k) where
  demoted := by simp [QuantumRun.quiet]
  reset := by simp [QuantumRun.quiet]

/-! ### The boost -/

theorem MlfqInv.mem_lower (h : MlfqInv s lines) (hdata : dataOf s t = .mlfq params) :
    t ∈ (levelsFrom 1).flatMap lines ↔ params.currentQueue ≠ 0 := by
  obtain ⟨hlt, hmem⟩ := h.managed t params hdata
  rw [List.mem_flatMap]
  constructor
  · rintro ⟨i, hi, hti⟩ hzero
    obtain ⟨hlow, hhigh⟩ := (mem_levelsFrom (by decide)).mp hi
    have hsame := h.shape.apart i hhigh _ hlt t hti hmem
    omega
  · intro hzero
    exact ⟨_, (mem_levelsFrom (by decide)).mpr ⟨Nat.pos_of_ne_zero hzero, hlt⟩, hmem⟩

/-- The records after a boost. -/
theorem boost_records (h : MlfqInv s lines)
    (hdata : ∀ t, dataOf s' t = if t ∈ (levelsFrom 1).flatMap lines then
      resetData (s.mlfq.queues 0).timeQuantum (dataOf s t) else dataOf s t)
    (ht : dataOf s' t = .mlfq params) :
    params.currentQueue = 0 ∧ (params.timeSlice = (s.mlfq.queues 0).timeQuantum ∨
      dataOf s t = .mlfq params) := by
  rw [hdata t] at ht
  rcases h.plain t with hnull | ⟨old, hold⟩
  · rw [hnull] at ht
    split at ht <;> cases ht
  · rw [hold] at ht
    split at ht
    · cases ht
      exact ⟨rfl, .inl rfl⟩
    · rename_i hnot
      cases ht
      have hzero := not_ne_iff.mp fun hne => hnot ((h.mem_lower hold).mpr hne)
      exact ⟨hzero, .inr hold⟩

/-- **A boost** resets the slices of the lower queues; it ends with full slices everywhere
exactly when those of the first queue were full. -/
theorem boost_spec (hn : n < 2 ^ 32) (hpolicy : k.currentPolicy = .mlfq)
    (hrunning : k.schedulerState = .running) (hs : MlfqInv s lines)
    (hslices : ∀ t params, dataOf s t = .mlfq params →
      params.timeSlice ≤ (s.mlfq.queues params.currentQueue).timeQuantum)
    (hrun : schedulerMlfqBoost s = some s') :
    QuantumInv (k.setMlfqSys s') (boosted lines) ∧
      (QuantumLaw (afterBoost (k.setMlfqSys s')) ↔ FullFirst s) := by
  obtain ⟨s'', hboost, hinv, -, hframed, hdata⟩ := hs.boost hn
  rw [hrun, Option.some_inj] at hboost
  subst hboost
  have hquanta : ∀ i, (k.setMlfqSys s').quantum i = (s.mlfq.queues i).timeQuantum := hframed.quanta
  refine ⟨⟨hinv, ?_, hpolicy, hrunning⟩, ?_, ?_⟩
  · intro t params ht
    rw [hquanta]
    obtain ⟨hzero, hslice | hold⟩ := boost_records hs hdata ht
    · rw [hzero, hslice]
    · exact hslices t params hold
  · intro hlaw t params ht hzero
    have hkept : dataOf s' t = .mlfq params := by
      rw [hdata t, if_neg, ht]
      exact fun hmem => (hs.mem_lower ht).mp hmem hzero
    have hfull := (hlaw.reset rfl t params hkept).2.2
    exact hfull.trans (hquanta 0)
  · intro hfull
    refine ⟨by simp [QuantumRun.afterBoost], fun _ t params ht => ?_⟩
    obtain ⟨hzero, hslice⟩ := boost_records hs hdata ht
    refine ⟨?_, hzero, ?_⟩
    · obtain ⟨hlt, hmem⟩ := hinv.managed t params ht
      rw [hzero] at hmem
      exact (hinv.shape.chain 0 (by decide)).mem_onChain hmem
    · refine Eq.trans ?_ (hquanta 0).symm
      rcases hslice with hslice | hold
      · exact hslice
      · exact hfull t params hold hzero

/-! ### The tick -/

theorem chargedTask_eq_some : k.chargedTask = some (t, params) ↔
    k.sys.currentTask = some t ∧ dataOf k.mlfqSys t = .mlfq params := by
  unfold Kernel.chargedTask
  rw [Option.bind_eq_some_iff]
  constructor
  · rintro ⟨u, hcurrent, hmap⟩
    obtain ⟨p, hp, heq⟩ := Option.map_eq_some_iff.mp hmap
    cases heq
    exact ⟨hcurrent, params_eq_some.mp hp⟩
  · rintro ⟨hcurrent, hdata⟩
    exact ⟨t, hcurrent, by rw [params_eq_some.mpr hdata]; rfl⟩

/-- A charge takes at most one tick off a slice. -/
theorem charge_slices (h : QuantumInv k lines) (hdata : dataOf k.mlfqSys t = .mlfq params) :
    ∀ u p, dataOf (k.mlfqSys.charge t params) u = .mlfq p →
      p.timeSlice ≤ ((k.mlfqSys.charge t params).mlfq.queues p.currentQueue).timeQuantum := by
  intro u p hp
  have hquanta : ∀ i, ((k.mlfqSys.charge t params).mlfq.queues i).timeQuantum = k.quantum i :=
    charge_framed.quanta
  rw [hquanta]
  rw [dataOf_charge hdata] at hp
  by_cases hut : u = t
  · subst hut
    rw [Function.update_self] at hp
    cases hp
    exact (Nat.sub_le _ _).trans (h.slices u params hdata)
  · rw [Function.update_of_ne hut] at hp
    exact h.slices u p hp

/-- The task charged stays at its level, with a slice that is not full. -/
theorem charge_not_full (h : QuantumInv k lines) (hdata : dataOf k.mlfqSys t = .mlfq params)
    (hquantum : 0 < k.quantum params.currentQueue) {p : MlfqParams}
    (hp : dataOf (k.mlfqSys.charge t params) t = .mlfq p) :
    p.currentQueue = params.currentQueue ∧ p.timeSlice < k.quantum params.currentQueue := by
  rw [dataOf_charge hdata, Function.update_self] at hp
  cases hp
  have hle := h.slices t params hdata
  exact ⟨rfl, by simp only; omega⟩

/-- Without a task to charge a tick does nothing. -/
theorem tick_uncharged (h : MlfqInv k.mlfqSys lines) (hcharged : k.chargedTask = none) :
    schedulerMlfqTick k.mlfqSys = some k.mlfqSys := by
  apply schedulerMlfqTick_idle
  intro t hcurrent
  rcases h.plain t with hnull | ⟨params, hdata⟩
  · exact hnull
  · rw [chargedTask_eq_some.mpr ⟨hcurrent, hdata⟩] at hcharged
    cases hcharged

/-- The tick, under the policy. -/
theorem schedulerTick_eq (h : QuantumInv k lines) (now : Nat) :
    ∃ stats, schedulerTick k now =
      (schedulerMlfqTick k.mlfqSys).map fun s => { k.setMlfqSys s with stats } := by
  obtain ⟨sys, rt, mlfq, fair, state, policy, stats⟩ := k
  obtain rfl : policy = .mlfq := h.policy
  obtain rfl : state = .running := h.running
  exact ⟨_, rfl⟩

/-- **The tick** keeps the invariant, and the law exactly within the quanta. -/
theorem tick_spec (hn : n < 2 ^ 32) {now : Nat} (h : QuantumInv r.k lines)
    (hstep : r.step (.tick now) = some r') :
    (∃ lines', QuantumInv r'.k lines') ∧ (QuantumLaw r' ↔ WithinQuantum r (.tick now)) := by
  obtain ⟨k', hk', rfl⟩ := Option.map_eq_some_iff.mp hstep
  obtain ⟨stats, heq⟩ := schedulerTick_eq h now
  rw [heq] at hk'
  obtain ⟨s, hs, rfl⟩ := Option.map_eq_some_iff.mp hk'
  cases hcharged : r.k.chargedTask with
  | none =>
    -- Nobody is charged, and nothing happens.
    rw [tick_uncharged h.queues hcharged, Option.some_inj] at hs
    subst hs
    refine ⟨⟨lines, ?_⟩, ?_⟩
    · rw [QuantumRun.afterTick, hcharged]
      exact ⟨h.queues, h.slices, h.policy, h.running⟩
    · rw [QuantumRun.afterTick, hcharged, WithinQuantum, hcharged]
      exact ⟨fun _ => by simp, fun _ => quiet_law _ _⟩
  | some pair =>
    obtain ⟨t, params⟩ := pair
    obtain ⟨hcurrent, hdata⟩ := chargedTask_eq_some.mp hcharged
    rw [schedulerMlfqTick_managed hcurrent hdata] at hs
    simp only [QuantumRun.afterTick, hcharged, WithinQuantum, Option.some.injEq, Prod.mk.injEq,
      and_imp]
    by_cases hdue : r.k.BoostDue
    · -- The tick ends in a boost.
      have hdue' : r.k.mlfqSys.mlfq.boostPeriod ≤ wrap32 (r.k.mlfqSys.mlfq.boostCounter + 1) := hdue
      rw [if_pos hdue'] at hs
      obtain ⟨hinv, hlaw⟩ := boost_spec hn h.policy h.running (h.queues.charge hdata)
        (charge_slices h hdata) hs
      rw [if_pos hdue]
      refine ⟨⟨_, hinv.queues, hinv.slices, hinv.policy, hinv.running⟩, ?_⟩
      constructor
      · rintro hlaw' _ _ rfl rfl
        exact ⟨fun _ => hlaw.mp ⟨hlaw'.demoted, hlaw'.reset⟩, fun hnot => absurd hdue hnot⟩
      · intro hwithin
        have hlaw' := hlaw.mpr ((hwithin t params rfl rfl).1 hdue)
        exact ⟨hlaw'.demoted, hlaw'.reset⟩
    · -- The tick ends with the charge.
      have hdue' : ¬ r.k.mlfqSys.mlfq.boostPeriod ≤ wrap32 (r.k.mlfqSys.mlfq.boostCounter + 1) := hdue
      rw [if_neg hdue', Option.some_inj] at hs
      subst hs
      rw [if_neg hdue]
      have hquanta : ∀ i, ((r.k.mlfqSys.charge t params).mlfq.queues i).timeQuantum = r.k.quantum i :=
        charge_framed.quanta
      refine ⟨⟨lines, h.queues.charge hdata, charge_slices h hdata, h.policy, h.running⟩, ?_⟩
      constructor
      · rintro hlaw _ _ rfl rfl
        refine ⟨fun hyes => absurd hyes hdue, fun _ hlast => ?_⟩
        -- The task has used its quantum up, and stays at its level.
        obtain ⟨p, hp, hlevel, hslice⟩ := hlaw.demoted t params.currentQueue (if_pos hlast)
        obtain ⟨hsame, hless⟩ := charge_not_full h hdata (hlast ▸ Nat.succ_pos _) hp
        have hfull : p.timeSlice = r.k.quantum params.currentQueue := by
          refine hslice.trans ((hquanta _).trans ?_)
          rw [← hlevel, hsame]
        omega
      · intro hwithin
        have hlast := (hwithin t params rfl rfl).2 hdue
        refine ⟨?_, by simp⟩
        intro u level hexpired
        rw [if_neg hlast] at hexpired
        cases hexpired

/-! ### Every step -/

/-- Steps that touch neither the queues nor the records. -/
theorem QuantumInv.same (h : QuantumInv k lines)
    (hnext : nextOf k'.sys.taskList = nextOf k.sys.taskList)
    (hdata : dataOf k'.mlfqSys = dataOf k.mlfqSys) (hmlfq : k'.mlfq = k.mlfq)
    (hpolicy : k'.currentPolicy = k.currentPolicy)
    (hstate : k'.schedulerState = k.schedulerState) : QuantumInv k' lines where
  queues := h.queues.same hnext hdata (congrArg Mlfq.queues hmlfq)
  slices := by
    unfold Kernel.quantum
    rw [hdata, hmlfq]
    exact h.slices
  policy := hpolicy.trans h.policy
  running := hstate.trans h.running

theorem QuantumInv.initTask (hn : n < 2 ^ 32) (h : QuantumInv k lines) (malloc : Bool)
    (hnull : dataOf k.mlfqSys t = .null) (hrun : schedulerMlfqInitTask k.mlfqSys t malloc = some s) :
    ∃ lines', QuantumInv (k.setMlfqSys s) lines' := by
  cases malloc with
  | false =>
    cases hrun
    exact ⟨lines, h⟩
  | true =>
    obtain ⟨s', lines', hrun', hinv, hframed, hdata⟩ := h.queues.initTask hn hnull
    rw [hrun, Option.some_inj] at hrun'
    subst hrun'
    have hquanta : ∀ i, (k.setMlfqSys s).quantum i = k.quantum i := hframed.quanta
    refine ⟨lines', hinv, ?_, h.policy, h.running⟩
    intro u params hu
    rw [hquanta]
    have hu' : dataOf s u = .mlfq params := hu
    rw [hdata] at hu'
    by_cases hut : u = t
    · subst hut
      rw [Function.update_self] at hu'
      cases hu'
      exact Nat.le_refl _
    · rw [Function.update_of_ne hut] at hu'
      exact h.slices u params hu'

/-- **Step lemma.** A step keeps the invariant, and the law exactly within the quanta. -/
theorem quantum_step (hn : n < 2 ^ 32) (h : QuantumInv r.k lines) {a : QuantumAction n}
    (hstep : r.step a = some r') :
    (∃ lines', QuantumInv r'.k lines') ∧ (QuantumLaw r' ↔ WithinQuantum r a) := by
  cases a with
  | initTask t malloc =>
    rw [QuantumRun.step] at hstep
    split at hstep
    · rename_i hnull
      obtain ⟨s, hs, rfl⟩ := Option.map_eq_some_iff.mp hstep
      refine ⟨h.initTask hn malloc hnull hs, fun _ => trivial, ?_⟩
      intro _
      exact ⟨by simp [QuantumRun.quiet], by simp [QuantumRun.quiet]⟩
    · cases hstep
  | boost =>
    obtain ⟨s, hs, rfl⟩ := Option.map_eq_some_iff.mp hstep
    obtain ⟨hinv, hlaw⟩ := boost_spec hn h.policy h.running h.queues h.slices hs
    exact ⟨⟨_, hinv⟩, hlaw⟩
  | tick now => exact tick_spec hn h hstep
  | next =>
    obtain ⟨⟨k, next⟩, hk, rfl⟩ := Option.map_eq_some_iff.mp hstep
    obtain ⟨-, stats, rfl⟩ := schedulerNextTask_spec hk
    exact ⟨⟨lines, h.same rfl rfl rfl rfl rfl⟩, fun _ => trivial, fun _ => quiet_law _ _⟩
  | schedule =>
    obtain ⟨k, hk, rfl⟩ := Option.map_eq_some_iff.mp hstep
    obtain ⟨next, stats, -, rfl⟩ := schedule_spec hk
    exact ⟨⟨lines, h.same rfl rfl rfl rfl rfl⟩, fun _ => trivial, fun _ => quiet_law _ _⟩
  | dispatch current =>
    cases hstep
    exact ⟨⟨lines, h.same rfl rfl rfl rfl rfl⟩, fun _ => trivial, fun _ => quiet_law _ _⟩
  | setState t state =>
    cases hstep
    refine ⟨⟨lines, h.same ?_ ?_ rfl rfl rfl⟩, fun _ => trivial, fun _ => quiet_law _ _⟩
    · funext u
      simp [nextOf, QuantumRun.quiet]
    · funext u
      simp [dataOf, Kernel.mlfqSys, QuantumRun.quiet]

/-- The start of a run. -/
def quantumStart (k : Kernel n) : QuantumRun n where
  k := k
  served := fun _ => 0
  expired := none
  boosted := false

/-- The kernel with the multi-level feedback queue just initialised meets the invariant. -/
theorem quantumInv_start (hpolicy : k.currentPolicy = .mlfq) (hrunning : k.schedulerState = .running)
    (baseQuantum : Nat) :
    QuantumInv (k.setMlfqSys (mlfqStart k.sys k.mlfq baseQuantum)) fun _ => [] where
  queues := mlfqStart_inv k.sys k.mlfq baseQuantum
  slices := fun t params h => by
    have hnull : dataOf (mlfqStart k.sys k.mlfq baseQuantum) t = .mlfq params := h
    cases hnull
  policy := hpolicy
  running := hrunning

/-- **The law of the quanta.** From any state with the queues in order, a run keeps the law
exactly when no tick ends a quantum without a boost, and every boost finds the slices of
the first queue full. -/
theorem quantum_law_iff (hn : n < 2 ^ 32) (h : QuantumInv k lines) (as : List (QuantumAction n)) :
    Along QuantumRun.step QuantumLaw (quantumStart k) as ↔
      Meets QuantumRun.step WithinQuantum (quantumStart k) as := by
  apply along_iff_meets (I := fun r => (∃ lines, QuantumInv r.k lines) ∧ QuantumLaw r)
  · exact fun _ hr => hr.2
  · rintro r a r' ⟨⟨lines, hinv⟩, -⟩ hwithin hstep
    obtain ⟨hinv', hlaw⟩ := quantum_step hn hinv hstep
    exact ⟨hinv', hlaw.mpr hwithin⟩
  · rintro r a r' ⟨⟨lines, hinv⟩, -⟩ hnot hstep hlaw'
    obtain ⟨-, hlaw⟩ := quantum_step hn hinv hstep
    exact hnot (hlaw.mp hlaw')
  · exact ⟨⟨lines, h⟩, by simp [quantumStart], by simp [quantumStart]⟩

/-- One task, a base quantum of one tick, and a boost every hundred ticks. -/
def quantumKernel : Kernel 1 :=
  let k : Kernel 1 :=
    { sys :=
        { taskList := fun _ => Task.zeroed 1
          currentTask := none
          idleTask := none
          taskCount := 1
          stackAllocs := []
          stackFrees := [] }
      rt := { rtTasks := none, rtTaskCount := 0 }
      mlfq :=
        { queues := fun _ => { head := none, tail := none, timeQuantum := 0, taskCount := 0 }
          boostPeriod := 100
          boostCounter := 0 }
      fair := .empty fun _ =>
        { vruntime := 0, weight := 0, minGranularity := 0, execStart := 0, sumExecRuntime := 0,
          task := .last 0 }
      schedulerState := .running
      currentPolicy := .mlfq
      stats :=
        { contextSwitches := 0, preemptions := 0, schedulerRuns := 0, missedDeadlines := 0 } }
  k.setMlfqSys (mlfqStart k.sys k.mlfq 1)

/-- The task is initialised, scheduled, and runs for a tick. -/
def oneTick : List (QuantumAction 1) := [.initTask (.last 0) true, .schedule, .tick 1]

theorem quantum_law_iff_run :
    Along QuantumRun.step QuantumLaw (quantumStart quantumKernel) oneTick ↔
      Meets QuantumRun.step WithinQuantum (quantumStart quantumKernel) oneTick :=
  quantum_law_iff (by decide) (quantumInv_start rfl rfl 1) oneTick

/-- A quantum of one tick is used up after one tick, and the task is still at level 0, with
no slice left. -/
theorem quantum_used_up_in_place :
    ¬ Along QuantumRun.step QuantumLaw (quantumStart quantumKernel) oneTick := by
  intro halong
  have hlaw := halong.last rfl
  obtain ⟨params, hdata, hlevel, -⟩ := hlaw.demoted (.last 0) 0 rfl
  cases hdata
  cases hlevel

end ArmKernel.Sched

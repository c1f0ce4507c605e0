/-
Runs of the multi-level feedback queue.

A step is a call of one of the functions of the policy, with whatever task is current
and with whatever `malloc` returns, or a change of a task's state by the rest of the
kernel. A task is initialised once.

`MlfqInv s lines` adds to the shape of the queues that a task stands in the line of the
level its record names, and that the tasks in line are those that were initialised.
`MlfqInv.step_total` is the step lemma: a call returns, and the invariant holds again.
-/
import ArmKernel.Sched.MlfqLines
import ArmKernel.Support.Run

namespace ArmKernel.Sched

open ArmKernel.Support ArmKernel.Tasks MlfqSys

variable {n : Nat}

/-- A call of the policy, or a change of state by the rest of the kernel. -/
inductive MlfqAction (n : Nat) where
  | initTask (t : Fin n) (malloc : Bool)
  | boost
  | updateQueue (task : Option (Fin n))
  | tick (current : Option (Fin n))
  | setState (t : Fin n) (state : TaskState)

/-- The scheduler made `current` the current task. -/
def MlfqSys.dispatch (s : MlfqSys n) (current : Option (Fin n)) : MlfqSys n :=
  { s with sys := { s.sys with currentTask := current } }

/-- A task of the policy: its initialisation succeeded. -/
def Managed (s : MlfqSys n) (t : Fin n) : Prop := ∃ params, dataOf s t = .mlfq params

/-- The queues as `scheduler_mlfq_init` leaves them, over tasks none of which has a
record. -/
def mlfqStart (sys : TaskSys n) (mlfq : Mlfq n) (baseQuantum : Nat) : MlfqSys n where
  sys := { sys with taskList := fun t => { sys.taskList t with schedulerData := .null } }
  mlfq := schedulerMlfqInit mlfq baseQuantum

/-- One step. -/
def mlfqStep (s : MlfqSys n) : MlfqAction n → Option (MlfqSys n)
  | .initTask t malloc =>
    if dataOf s t = .null then schedulerMlfqInitTask s t malloc else none
  | .boost => schedulerMlfqBoost s
  | .updateQueue task => schedulerMlfqUpdateQueue s task
  | .tick current => schedulerMlfqTick (s.dispatch current)
  | .setState t state => some { s with sys := s.sys.setState t state }

/-- The call may be made: a task is initialised once. -/
def MlfqAction.Allowed (s : MlfqSys n) : MlfqAction n → Prop
  | .initTask t _ => dataOf s t = .null
  | _ => True

/-! ### The invariant -/

/-- Each task of the policy stands in the line of its level, and nobody else stands in
line. -/
structure MlfqInv (s : MlfqSys n) (lines : Nat → List (Fin n)) : Prop where
  shape : Lines s lines
  level : ∀ i < mlfqQueueCount, ∀ t ∈ lines i,
    ∃ params, dataOf s t = .mlfq params ∧ params.currentQueue = i
  managed : ∀ t params, dataOf s t = .mlfq params →
    params.currentQueue < mlfqQueueCount ∧ t ∈ lines params.currentQueue
  plain : ∀ t, dataOf s t = .null ∨ Managed s t

variable {s s' : MlfqSys n} {lines : Nat → List (Fin n)} {t u : Fin n}

/-- A record written loses no task. -/
theorem managed_of_update {params : MlfqParams}
    (hdata : dataOf s' = Function.update (dataOf s) t (.mlfq params)) (hu : Managed s u) :
    Managed s' u := by
  unfold Managed
  rw [hdata]
  by_cases hut : u = t
  · subst hut
    exact ⟨params, Function.update_self _ _ _⟩
  · rw [Function.update_of_ne hut]
    exact hu

theorem mlfqStart_inv (sys : TaskSys n) (mlfq : Mlfq n) (baseQuantum : Nat) :
    MlfqInv (mlfqStart sys mlfq baseQuantum) (fun _ => []) where
  shape := by
    refine ⟨fun i hi => ?_, fun i hi => ?_, fun i hi => ?_, by simp⟩ <;>
      simp [mlfqStart, schedulerMlfqInit, hi]
  level := by simp
  managed := fun t params h => by simp [dataOf, mlfqStart] at h
  plain := fun _ => .inl rfl

/-- Calls that keep records and queues, and the links of the tasks of the policy. -/
theorem MlfqInv.congr (h : MlfqInv s lines)
    (hnext : ∀ t, Managed s t → nextOf s'.sys.taskList t = nextOf s.sys.taskList t)
    (hdata : dataOf s' = dataOf s) (hqueues : s'.mlfq.queues = s.mlfq.queues) :
    MlfqInv s' lines where
  shape := by
    refine ⟨?_, ?_, ?_, h.shape.apart⟩ <;> simp only [hqueues]
    · intro i hi
      apply (h.shape.chain i hi).congr
      intro t ht
      obtain ⟨params, hparams, -⟩ := h.level i hi t ht
      exact hnext t ⟨params, hparams⟩
    · exact h.shape.tail
    · exact h.shape.count
  level := by
    rw [hdata]
    exact h.level
  managed := by
    rw [hdata]
    exact h.managed
  plain := by
    unfold Managed
    rw [hdata]
    exact h.plain

/-- Calls that keep links, records and queues. -/
theorem MlfqInv.same (h : MlfqInv s lines) (hnext : nextOf s'.sys.taskList = nextOf s.sys.taskList)
    (hdata : dataOf s' = dataOf s) (hqueues : s'.mlfq.queues = s.mlfq.queues) : MlfqInv s' lines :=
  h.congr (fun t _ => congrFun hnext t) hdata hqueues

/-- A task with a new record stands in the line of the record's level, and only there. -/
theorem MlfqInv.relevel {lines' : Nat → List (Fin n)} {params : MlfqParams} (h : MlfqInv s lines)
    (hshape : Lines s' lines') (hlevel : params.currentQueue < mlfqQueueCount)
    (hdata : dataOf s' = Function.update (dataOf s) t (.mlfq params))
    (hmem : ∀ i < mlfqQueueCount, ∀ u,
      u ∈ lines' i ↔ u = t ∧ i = params.currentQueue ∨ u ≠ t ∧ u ∈ lines i) :
    MlfqInv s' lines' where
  shape := hshape
  level := by
    intro i hi u hu
    rw [hdata]
    rcases (hmem i hi u).mp hu with ⟨rfl, rfl⟩ | ⟨hut, hold⟩
    · exact ⟨params, Function.update_self _ _ _, rfl⟩
    · rw [Function.update_of_ne hut]
      exact h.level i hi u hold
  managed := by
    intro u p hp
    rw [hdata] at hp
    by_cases hut : u = t
    · subst hut
      rw [Function.update_self] at hp
      cases hp
      exact ⟨hlevel, (hmem _ hlevel u).mpr (.inl ⟨rfl, rfl⟩)⟩
    · rw [Function.update_of_ne hut] at hp
      obtain ⟨hlt, hold⟩ := h.managed u p hp
      exact ⟨hlt, (hmem _ hlt u).mpr (.inr ⟨hut, hold⟩)⟩
  plain := by
    intro u
    by_cases hut : u = t
    · subst hut
      exact .inr ⟨params, by rw [hdata, Function.update_self]⟩
    · rcases h.plain u with hnull | hmanaged
      · exact .inl (by rw [hdata, Function.update_of_ne hut, hnull])
      · exact .inr (managed_of_update hdata hmanaged)

/-- A task without a record stands in no line. -/
theorem MlfqInv.free (h : MlfqInv s lines) (hnull : dataOf s t = .null) :
    ∀ i < mlfqQueueCount, t ∉ lines i := by
  intro i hi hmem
  obtain ⟨p, hp, -⟩ := h.level i hi t hmem
  rw [hnull] at hp
  cases hp

/-- A record written with the level it had. -/
theorem MlfqInv.setParams (h : MlfqInv s lines) {params params' : MlfqParams}
    (hdata : dataOf s t = .mlfq params) (hlevel : params'.currentQueue = params.currentQueue) :
    MlfqInv (s.setParams t params') lines := by
  obtain ⟨hlt, hmem⟩ := h.managed t params hdata
  apply h.relevel (h.shape.setParams t params') (hlevel ▸ hlt) (dataOf_setParams params')
  intro i hi u
  rw [hlevel]
  by_cases hut : u = t
  · subst hut
    simp only [true_and, ne_eq, not_true, false_and, or_false]
    constructor
    · exact fun hui => h.shape.apart i hi _ hlt u hui hmem
    · exact fun hi' => hi' ▸ hmem
  · simp only [hut, false_and, false_or, ne_eq, not_false_eq_true, true_and]

/-- **Initialisation.** -/
theorem MlfqInv.initTask (hn : n < 2 ^ 32) (h : MlfqInv s lines) (hnull : dataOf s t = .null) :
    ∃ s' lines', schedulerMlfqInitTask s t true = some s' ∧ MlfqInv s' lines' ∧ Framed s s' ∧
      dataOf s' = Function.update (dataOf s) t (.mlfq
        { currentQueue := 0, timeSlice := (s.mlfq.queues 0).timeQuantum, boostTicks := 0 }) := by
  have hfree := h.free hnull
  obtain ⟨s', henqueue, hlines', hframed, hdata'⟩ :=
    mlfqEnqueue_spec hn
      (h.shape.setParams t
        { currentQueue := 0, timeSlice := (s.mlfq.queues 0).timeQuantum, boostTicks := 0 })
      (i := 0) (by decide) hfree
  rw [dataOf_setParams] at hdata'
  refine ⟨s', Function.update lines 0 (lines 0 ++ [t]), henqueue, ?_,
    (setParams_framed _).trans hframed, hdata'⟩
  apply h.relevel hlines' (Nat.succ_pos 7) hdata'
  intro i hi u
  have hnew : u ∈ lines i → u ≠ t := by
    rintro hold rfl
    exact hfree i hi hold
  by_cases hi0 : i = 0
  · subst hi0
    rw [Function.update_self, List.mem_append, List.mem_singleton]
    constructor
    · rintro (hold | rfl)
      · exact .inr ⟨hnew hold, hold⟩
      · exact .inl ⟨rfl, rfl⟩
    · rintro (⟨rfl, -⟩ | ⟨-, hold⟩)
      · exact .inr rfl
      · exact .inl hold
  · rw [Function.update_of_ne hi0]
    constructor
    · exact fun hold => .inr ⟨hnew hold, hold⟩
    · rintro (⟨-, h0⟩ | ⟨-, hold⟩)
      · exact absurd h0 hi0
      · exact hold

/-- **Boost.** -/
theorem MlfqInv.boost (hn : n < 2 ^ 32) (h : MlfqInv s lines) :
    ∃ s', schedulerMlfqBoost s = some s' ∧ MlfqInv s' (boosted lines) ∧ s'.mlfq.boostCounter = 0 ∧
      Framed { s with mlfq := { s.mlfq with boostCounter := 0 } } s' ∧
      ∀ t, dataOf s' t = if t ∈ (levelsFrom 1).flatMap lines then
        resetData (s.mlfq.queues 0).timeQuantum (dataOf s t) else dataOf s t := by
  obtain ⟨s', hboost, hlines', hcounter, hframed, hdata'⟩ :=
    schedulerMlfqBoost_spec hn h.shape fun i hi t ht => by
      obtain ⟨p, hp, -⟩ := h.level i hi t ht
      exact ⟨p, hp⟩
  have hmem0 : ∀ i < mlfqQueueCount, ∀ t ∈ lines i, t ∈ boosted lines 0 := by
    intro i hi t ht
    exact List.mem_flatMap.mpr ⟨i, (mem_levelsFrom (by decide)).mpr ⟨Nat.zero_le _, hi⟩, ht⟩
  refine ⟨s', hboost, ⟨hlines', ?_, ?_, ?_⟩, hcounter, hframed, hdata'⟩
  · intro i hi t ht
    unfold boosted at ht
    split at ht
    · rename_i hi0
      subst hi0
      obtain ⟨j, hj, htj⟩ := List.mem_flatMap.mp ht
      obtain ⟨-, hjlt⟩ := (mem_levelsFrom (by decide)).mp hj
      obtain ⟨p, hp, hpj⟩ := h.level j hjlt t htj
      rw [hdata' t, hp]
      split
      · exact ⟨_, rfl, rfl⟩
      · rename_i hnot
        refine ⟨p, rfl, ?_⟩
        by_contra hp0
        apply hnot
        rw [hpj] at hp0
        exact List.mem_flatMap.mpr
          ⟨j, (mem_levelsFrom (by decide)).mpr ⟨Nat.pos_of_ne_zero hp0, hjlt⟩, htj⟩
    · cases ht
  · intro t p hp
    rw [hdata' t] at hp
    rcases h.plain t with hnull | ⟨q, hq⟩
    · rw [hnull] at hp
      split at hp <;> cases hp
    · obtain ⟨hlt, hmem⟩ := h.managed t q hq
      have hp0 : p.currentQueue = 0 := by
        rw [hq] at hp
        split at hp
        · cases hp
          rfl
        · rename_i hnot
          cases hp
          by_contra hp0
          exact hnot (List.mem_flatMap.mpr ⟨p.currentQueue,
            (mem_levelsFrom (by decide)).mpr ⟨Nat.pos_of_ne_zero hp0, hlt⟩, hmem⟩)
      rw [hp0]
      exact ⟨by decide, hmem0 _ hlt t hmem⟩
  · intro t
    unfold Managed
    rw [hdata' t]
    rcases h.plain t with hnull | ⟨q, hq⟩
    · rw [hnull]
      exact .inl (by split <;> rfl)
    · rw [hq]
      refine .inr ?_
      split
      · exact ⟨_, rfl⟩
      · exact ⟨q, rfl⟩

/-- **Update of a task's queue.** -/
theorem MlfqInv.updateQueue (hn : n < 2 ^ 32) (h : MlfqInv s lines) (task : Option (Fin n)) :
    ∃ s' lines', schedulerMlfqUpdateQueue s task = some s' ∧ MlfqInv s' lines' ∧
      ∀ t, Managed s t → Managed s' t := by
  cases task with
  | none => exact ⟨s, lines, rfl, h, fun _ ht => ht⟩
  | some t =>
    rcases h.plain t with hnull | ⟨params, hdata⟩
    · refine ⟨s, lines, ?_, h, fun _ ht => ht⟩
      have hrecord : (s.sys.taskList t).schedulerData = .null := hnull
      rw [schedulerMlfqUpdateQueue]
      simp only [hrecord]
    · by_cases hslice : params.timeSlice = 0
      · obtain ⟨hlt, hmem⟩ := h.managed t params hdata
        obtain ⟨s', lines', hrun, hlines', hmem', -, hdata'⟩ :=
          schedulerMlfqUpdateQueue_spec hn h.shape hdata hlt hmem hslice
        have hbelow : levelBelow params.currentQueue < mlfqQueueCount := by
          unfold levelBelow mlfqQueueCount
          omega
        exact ⟨s', lines', hrun, h.relevel hlines' hbelow hdata' hmem', fun _ =>
          managed_of_update hdata'⟩
      · refine ⟨s, lines, ?_, h, fun _ ht => ht⟩
        have hrecord : (s.sys.taskList t).schedulerData = .mlfq params := hdata
        rw [schedulerMlfqUpdateQueue]
        simp only [hrecord]
        rw [if_neg hslice]

/-! ### The tick -/

/-- What a tick does before it looks at the boost: `t` is charged for it, and the boost
comes one tick nearer. -/
def MlfqSys.charge (s : MlfqSys n) (t : Fin n) (params : MlfqParams) : MlfqSys n :=
  let s :=
    if 0 < params.timeSlice then s.setParams t { params with timeSlice := params.timeSlice - 1 }
    else s
  { s with mlfq := { s.mlfq with boostCounter := wrap32 (s.mlfq.boostCounter + 1) } }

theorem dataOf_charge {params : MlfqParams} (hdata : dataOf s t = .mlfq params) :
    dataOf (s.charge t params) =
      Function.update (dataOf s) t (.mlfq { params with timeSlice := params.timeSlice - 1 }) := by
  unfold MlfqSys.charge
  by_cases hslice : 0 < params.timeSlice
  · rw [if_pos hslice]
    exact dataOf_setParams _
  · rw [if_neg hslice]
    have hzero : params.timeSlice = 0 := by omega
    have hsame : ({ params with timeSlice := params.timeSlice - 1 } : MlfqParams) = params := by
      rw [hzero]
      cases params
      simp_all
    rw [hsame, ← hdata, Function.update_eq_self]
    rfl

theorem charge_framed {params : MlfqParams} :
    Framed { s with mlfq := { s.mlfq with boostCounter := wrap32 (s.mlfq.boostCounter + 1) } }
      (s.charge t params) := by
  have hframed : Framed s
      (if 0 < params.timeSlice then s.setParams t { params with timeSlice := params.timeSlice - 1 }
        else s) := by
    split
    · exact setParams_framed _
    · exact Framed.refl s
  exact ⟨hframed.states, hframed.quanta, hframed.period,
    by rw [MlfqSys.charge, hframed.counter], hframed.current⟩

/-- A charged task stays where it stood. -/
theorem MlfqInv.charge (h : MlfqInv s lines) {params : MlfqParams}
    (hdata : dataOf s t = .mlfq params) : MlfqInv (s.charge t params) lines := by
  unfold MlfqSys.charge
  split
  · have hcharged : MlfqInv
        (s.setParams t { params with timeSlice := params.timeSlice - 1 }) lines :=
      h.setParams hdata rfl
    exact hcharged.same rfl rfl rfl
  · exact h.same rfl rfl rfl

/-- **Tick**, of a task of the policy: the charge, and the boost when it is due. -/
theorem schedulerMlfqTick_managed {params : MlfqParams} (hcurrent : s.sys.currentTask = some t)
    (hdata : dataOf s t = .mlfq params) :
    schedulerMlfqTick s =
      if s.mlfq.boostPeriod ≤ wrap32 (s.mlfq.boostCounter + 1) then
        schedulerMlfqBoost (s.charge t params)
      else some (s.charge t params) := by
  have hrecord : (s.sys.taskList t).schedulerData = .mlfq params := hdata
  have hperiod : (s.charge t params).mlfq.boostPeriod = s.mlfq.boostPeriod := charge_framed.period
  have hcounter : (s.charge t params).mlfq.boostCounter = wrap32 (s.mlfq.boostCounter + 1) :=
    charge_framed.counter
  rw [← hperiod, ← hcounter, schedulerMlfqTick, taskGetCurrent]
  simp only [hcurrent, hrecord]
  rfl

/-- A tick while no task of the policy is current changes nothing. -/
theorem schedulerMlfqTick_idle
    (hidle : ∀ t, s.sys.currentTask = some t → dataOf s t = .null) :
    schedulerMlfqTick s = some s := by
  rw [schedulerMlfqTick, taskGetCurrent]
  cases hcurrent : s.sys.currentTask with
  | none => rfl
  | some t =>
    have hrecord : (s.sys.taskList t).schedulerData = .null := hidle t hcurrent
    simp only [hrecord]

/-- A boost loses no task of the policy. -/
theorem managed_of_boost {quantum : Nat} {moved : List (Fin n)}
    (hdata : ∀ u, dataOf s' u = if u ∈ moved then resetData quantum (dataOf s u) else dataOf s u)
    (ht : Managed s t) : Managed s' t := by
  obtain ⟨params, hparams⟩ := ht
  unfold Managed
  rw [hdata t, hparams]
  split
  · exact ⟨_, rfl⟩
  · exact ⟨params, rfl⟩

theorem MlfqInv.tick (hn : n < 2 ^ 32) (h : MlfqInv s lines) :
    ∃ s' lines', schedulerMlfqTick s = some s' ∧ MlfqInv s' lines' ∧
      ∀ t, Managed s t → Managed s' t := by
  by_cases hidle : ∀ t, s.sys.currentTask = some t → dataOf s t = .null
  · exact ⟨s, lines, schedulerMlfqTick_idle hidle, h, fun _ ht => ht⟩
  · simp only [not_forall] at hidle
    obtain ⟨t, hcurrent, hnotnull⟩ := hidle
    obtain ⟨params, hdata⟩ := (h.plain t).resolve_left hnotnull
    have hcharged := h.charge hdata
    have hmanaged : ∀ u, Managed s u → Managed (s.charge t params) u :=
      fun _ => managed_of_update (dataOf_charge hdata)
    rw [schedulerMlfqTick_managed hcurrent hdata]
    split
    · obtain ⟨s', hboost, hinv, -, -, hdata'⟩ := hcharged.boost hn
      exact ⟨s', _, hboost, hinv, fun u hu => managed_of_boost hdata' (hmanaged u hu)⟩
    · exact ⟨_, lines, rfl, hcharged, hmanaged⟩

/-! ### Every step -/

/-- **Step lemma.** A call returns, the invariant holds again, and no task is lost. -/
theorem MlfqInv.step_total (hn : n < 2 ^ 32) (h : MlfqInv s lines) {a : MlfqAction n}
    (hallowed : a.Allowed s) :
    ∃ s' lines', mlfqStep s a = some s' ∧ MlfqInv s' lines' ∧ ∀ t, Managed s t → Managed s' t := by
  cases a with
  | initTask t malloc =>
    rw [MlfqAction.Allowed] at hallowed
    rw [mlfqStep, if_pos hallowed]
    cases malloc with
    | false => exact ⟨s, lines, rfl, h, fun _ ht => ht⟩
    | true =>
      obtain ⟨s', lines', hrun, hinv, -, hdata'⟩ := h.initTask hn hallowed
      exact ⟨s', lines', hrun, hinv, fun _ => managed_of_update hdata'⟩
  | boost =>
    obtain ⟨s', hboost, hinv, -, -, hdata'⟩ := h.boost hn
    exact ⟨s', _, hboost, hinv, fun _ ht => managed_of_boost hdata' ht⟩
  | updateQueue task => exact h.updateQueue hn task
  | tick current =>
    have hdispatched : MlfqInv (s.dispatch current) lines := h.same rfl rfl rfl
    exact hdispatched.tick hn
  | setState t state =>
    have hdata : dataOf { s with sys := s.sys.setState t state } = dataOf s := by
      funext u
      simp [dataOf]
    refine ⟨_, lines, rfl, h.same ?_ hdata rfl, ?_⟩
    · funext u
      simp [nextOf]
    · rintro u ⟨p, hp⟩
      exact ⟨p, by rw [hdata, hp]⟩

/-- A step is allowed when it is taken. -/
theorem allowed_of_step {a : MlfqAction n} (hstep : mlfqStep s a = some s') : a.Allowed s := by
  cases a with
  | initTask t malloc =>
    rw [mlfqStep] at hstep
    split at hstep
    · assumption
    · cases hstep
  | boost | updateQueue | tick | setState => trivial

/-! ### Selection -/

/-- The first hit of a search through the levels is the first of its line, and the lines
before it have none. -/
theorem find?_levels {p : Fin n → Bool} :
    ((levelsFrom 0).flatMap lines).find? p = some t ↔
      ∃ i < mlfqQueueCount, (lines i).find? p = some t ∧ ∀ j < i, (lines j).find? p = none := by
  have hsorted : (levelsFrom 0).Pairwise (· < ·) := List.pairwise_lt_range'
  have hmem : ∀ i, i ∈ levelsFrom 0 ↔ i < mlfqQueueCount := by
    intro i
    rw [mem_levelsFrom (Nat.zero_le _)]
    exact and_iff_right (Nat.zero_le i)
  rw [List.find?_flatMap, List.findSome?_eq_some_iff]
  constructor
  · rintro ⟨before, i, after, hlevels, hfound, hnone⟩
    rw [hlevels] at hsorted
    have hi : i ∈ levelsFrom 0 := by rw [hlevels]; simp
    refine ⟨i, (hmem i).mp hi, hfound, fun j hj => hnone j ?_⟩
    have hjmem : j ∈ before ++ i :: after := by
      rw [← hlevels]
      exact (hmem j).mpr (hj.trans ((hmem i).mp hi))
    have hafter := (List.pairwise_cons.mp (List.pairwise_append.mp hsorted).2.1).1
    rcases List.mem_append.mp hjmem with hb | ha
    · exact hb
    · rcases List.mem_cons.mp ha with rfl | ha
      · exact absurd hj (Nat.lt_irrefl _)
      · exact absurd (hafter j ha) (Nat.not_lt.mpr hj.le)
  · rintro ⟨i, hi, hfound, hnone⟩
    obtain ⟨before, after, hlevels⟩ := List.append_of_mem ((hmem i).mpr hi)
    refine ⟨before, i, after, hlevels, hfound, fun j hj => hnone j ?_⟩
    rw [hlevels] at hsorted
    exact (List.pairwise_append.mp hsorted).2.2 j hj i List.mem_cons_self

/-- A task is ready, as the search tests it. -/
def MlfqSys.isReady (s : MlfqSys n) (t : Fin n) : Bool := (s.sys.taskList t).state = .ready

/-- What the policy promises in a state. -/
structure RunQueues (s : MlfqSys n) (lines : Nat → List (Fin n)) : Prop where
  /-- The queues are the lines: acyclic, with their tails and their counts. -/
  shape : Lines s lines
  /-- No queue holds a task twice. -/
  once : ∀ i < mlfqQueueCount, (lines i).Nodup
  /-- A task of the policy is in the queue of its level. -/
  level : ∀ t params, dataOf s t = .mlfq params → params.currentQueue < mlfqQueueCount ∧
    ∀ i < mlfqQueueCount, t ∈ lines i ↔ i = params.currentQueue
  /-- Nobody else is in a queue. -/
  only : ∀ i < mlfqQueueCount, ∀ t ∈ lines i, Managed s t
  /-- A boost appends queues 1 to 7 in order behind queue 0. -/
  boost : ∃ s', schedulerMlfqBoost s = some s' ∧ Lines s' (boosted lines)
  /-- The next task is the first ready one of the lowest queue that has one. -/
  next : ∀ t, schedulerMlfqNext s = some (some t) ↔
    ∃ i < mlfqQueueCount, (lines i).find? s.isReady = some t ∧
      ∀ j < i, (lines j).find? s.isReady = none
  /-- There is no next task exactly when no task of the policy is ready. -/
  idle : schedulerMlfqNext s = some none ↔ ∀ t, Managed s t → (s.sys.taskList t).state ≠ .ready

theorem MlfqInv.runQueues (hn : n < 2 ^ 32) (h : MlfqInv s lines) : RunQueues s lines := by
  have hnext : schedulerMlfqNext s = some (((levelsFrom 0).flatMap lines).find? s.isReady) :=
    nextFrom_spec h.shape fun i hi => ((mem_levelsFrom (Nat.zero_le _)).mp hi).2
  refine ⟨h.shape, fun i hi => (h.shape.chain i hi).nodup, ?_, ?_, ?_, ?_, ?_⟩
  · intro t params hdata
    obtain ⟨hlt, hmem⟩ := h.managed t params hdata
    refine ⟨hlt, ?_⟩
    intro i hi
    constructor
    · exact fun hti => h.shape.apart i hi _ hlt t hti hmem
    · rintro rfl
      exact hmem
  · intro i hi t ht
    obtain ⟨params, hdata, -⟩ := h.level i hi t ht
    exact ⟨params, hdata⟩
  · obtain ⟨s', hboost, hinv, -⟩ := h.boost hn
    exact ⟨s', hboost, hinv.shape⟩
  · intro t
    rw [hnext, Option.some_inj]
    exact find?_levels
  · rw [hnext, Option.some_inj, List.find?_eq_none]
    constructor
    · rintro hnone t ⟨params, hdata⟩ hready
      obtain ⟨hlt, hmem⟩ := h.managed t params hdata
      apply hnone t
      · exact List.mem_flatMap.mpr
          ⟨_, (mem_levelsFrom (Nat.zero_le _)).mpr ⟨Nat.zero_le _, hlt⟩, hmem⟩
      · exact decide_eq_true hready
    · intro hnone t ht hready
      obtain ⟨i, hi, hti⟩ := List.mem_flatMap.mp ht
      obtain ⟨params, hdata, -⟩ :=
        h.level i ((mem_levelsFrom (Nat.zero_le _)).mp hi).2 t hti
      exact hnone t ⟨params, hdata⟩ (of_decide_eq_true hready)

/-- What holds in every state of a run: the queues are in order, every call that may be
made returns, and it loses no task. -/
def QueuesInOrder (s : MlfqSys n) : Prop :=
  (∃ lines, RunQueues s lines) ∧
    ∀ a : MlfqAction n, a.Allowed s → ∃ s', mlfqStep s a = some s' ∧
      (∀ t, Managed s t → Managed s' t) ∧ (∀ t, a = .initTask t true → Managed s' t)

theorem MlfqInv.inOrder (hn : n < 2 ^ 32) (h : MlfqInv s lines) : QueuesInOrder s := by
  refine ⟨⟨lines, h.runQueues hn⟩, ?_⟩
  intro a hallowed
  obtain ⟨s', lines', hstep, -, hkept⟩ := h.step_total hn hallowed
  refine ⟨s', hstep, hkept, ?_⟩
  rintro t rfl
  have hnull : dataOf s t = .null := hallowed
  obtain ⟨s'', -, hrun, -, -, hdata⟩ := h.initTask hn hnull
  rw [mlfqStep, if_pos hnull, hrun, Option.some_inj] at hstep
  subst hstep
  exact ⟨_, by rw [hdata, Function.update_self]⟩

/-- **The run-queue invariant.** From the initialised queues, in every state of every run
of the policy's functions, each task stands once in the queue of its level, the queues
have their shape, and the search finds the first ready task of the lowest queue. -/
theorem mlfq_queues_in_order (hn : n < 2 ^ 32) (sys : TaskSys n) (mlfq : Mlfq n)
    (baseQuantum : Nat) (as : List (MlfqAction n)) :
    Along mlfqStep QueuesInOrder (mlfqStart sys mlfq baseQuantum) as := by
  have halong : Along mlfqStep (fun s => ∃ lines, MlfqInv s lines)
      (mlfqStart sys mlfq baseQuantum) as := by
    apply along_of_preserved
    · rintro s a s' ⟨lines, h⟩ hstep
      obtain ⟨s'', lines', hstep', hinv, -⟩ := h.step_total hn (allowed_of_step hstep)
      rw [hstep] at hstep'
      cases hstep'
      exact ⟨lines', hinv⟩
    · exact ⟨_, mlfqStart_inv sys mlfq baseQuantum⟩
  exact halong.mono fun s ⟨_, h⟩ => h.inOrder hn

/-- Two tasks, and a base quantum of one tick. -/
def mlfqTwoTasks : MlfqSys 2 :=
  mlfqStart
    { taskList := fun _ => Task.zeroed 2
      currentTask := none
      idleTask := none
      taskCount := 2
      stackAllocs := []
      stackFrees := [] }
    { queues := fun _ => { head := none, tail := none, timeQuantum := 0, taskCount := 0 }
      boostPeriod := 100
      boostCounter := 0 }
    1

/-- Both tasks initialised, the first charged for a tick and demoted. -/
def mlfqDemotion : List (MlfqAction 2) :=
  let first : Fin 2 := ⟨0, Nat.zero_lt_two⟩
  [.initTask first true, .initTask (.last 1) true, .tick (some first), .updateQueue (some first)]

theorem mlfq_queues_in_order_run :
    (run mlfqStep mlfqTwoTasks mlfqDemotion).bind schedulerMlfqNext = some (some (.last 1)) ∧
      Along mlfqStep QueuesInOrder mlfqTwoTasks mlfqDemotion :=
  ⟨by decide, mlfq_queues_in_order (by decide) _ _ 1 mlfqDemotion⟩

end ArmKernel.Sched

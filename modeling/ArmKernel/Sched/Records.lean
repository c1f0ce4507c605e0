/-
The records behind `scheduler_data`, and which tasks a policy writes.

A policy links tasks through `task->next` and keeps a record for each behind
`task->scheduler_data`; both members are shared by the policies. `Within τ sys sys'` says
that a call touched only tasks with a record of type `τ` and tasks with none.
`MlfqClosed s` says that the multi-level feedback queue reaches only tasks with its own
records, whatever shape its queues are in; then its functions stay within them.
-/
import ArmKernel.Sched.MlfqRuns
import ArmKernel.Sched.Scheduler

namespace ArmKernel.Sched

open ArmKernel.Support ArmKernel.Tasks MlfqSys

variable {n : Nat}

/-- The types a record behind `scheduler_data` has. -/
inductive RecordType where
  | mlfq | realtime | fair
deriving DecidableEq, Repr

/-- The type of the record, if there is one. -/
def recordType : SchedulerData → Option RecordType
  | .null => none
  | .mlfq _ => some .mlfq
  | .realtime _ => some .realtime
  | .fair _ => some .fair

/-- The type of a task's record. -/
def typeOf (sys : TaskSys n) (t : Fin n) : Option RecordType :=
  recordType (sys.taskList t).schedulerData

/-- Only tasks with a record of the type, or with none, were touched. -/
structure Within (τ : RecordType) (sys sys' : TaskSys n) : Prop where
  foreign : ∀ t σ, typeOf sys t = some σ → σ ≠ τ →
    nextOf sys'.taskList t = nextOf sys.taskList t ∧ typeOf sys' t = some σ
  own : ∀ t, typeOf sys t = some τ → typeOf sys' t = some τ
  plain : ∀ t, typeOf sys t = none →
    (nextOf sys'.taskList t = nextOf sys.taskList t ∧ typeOf sys' t = none) ∨
      typeOf sys' t = some τ

variable {sys sys' sys'' : TaskSys n} {τ : RecordType} {t u : Fin n}

theorem Within.refl (τ : RecordType) (sys : TaskSys n) : Within τ sys sys :=
  ⟨fun _ _ h _ => ⟨rfl, h⟩, fun _ h => h, fun _ h => .inl ⟨rfl, h⟩⟩

theorem Within.trans (h : Within τ sys sys') (h' : Within τ sys' sys'') : Within τ sys sys'' where
  foreign := by
    intro t σ ht hσ
    obtain ⟨hnext, htype⟩ := h.foreign t σ ht hσ
    obtain ⟨hnext', htype'⟩ := h'.foreign t σ htype hσ
    exact ⟨hnext'.trans hnext, htype'⟩
  own := fun t ht => h'.own t (h.own t ht)
  plain := by
    intro t ht
    rcases h.plain t ht with ⟨hnext, hnone⟩ | hown
    · rcases h'.plain t hnone with ⟨hnext', hnone'⟩ | hown'
      · exact .inl ⟨hnext'.trans hnext, hnone'⟩
      · exact .inr hown'
    · exact .inr (h'.own t hown)

/-- Records of another type are those there were. -/
theorem Within.foreign_iff (h : Within τ sys sys') {σ : RecordType} (hσ : σ ≠ τ) :
    typeOf sys' t = some σ ↔ typeOf sys t = some σ := by
  constructor
  · intro ht'
    cases ht : typeOf sys t with
    | none =>
      rcases h.plain t ht with ⟨-, hnone⟩ | hown
      · rw [hnone] at ht'
        cases ht'
      · rw [hown] at ht'
        cases ht'
        exact absurd rfl hσ
    | some ρ =>
      by_cases hρ : ρ = τ
      · subst hρ
        rw [h.own t ht] at ht'
        cases ht'
        exact absurd rfl hσ
      · rw [(h.foreign t ρ ht hρ).2] at ht'
        exact ht'
  · exact fun ht => (h.foreign t σ ht hσ).2

/-- Types as they were, and links changed at tasks of the type only. -/
theorem within_of_links (htype : typeOf sys' = typeOf sys)
    (hnext : ∀ t, typeOf sys t ≠ some τ → nextOf sys'.taskList t = nextOf sys.taskList t) :
    Within τ sys sys' where
  foreign := by
    intro t σ ht hσ
    refine ⟨hnext t ?_, htype ▸ ht⟩
    rw [ht]
    exact fun heq => hσ (Option.some.inj heq)
  own := fun t ht => htype ▸ ht
  plain := by
    intro t ht
    refine .inl ⟨hnext t ?_, htype ▸ ht⟩
    rw [ht]
    exact Option.some_ne_none τ |>.symm

/-- Writing a record of the type into a task that had one, or none. -/
theorem within_modify {f : Task n → Task n}
    (hnew : recordType (f (sys.taskList t)).schedulerData = some τ)
    (hold : typeOf sys t = none ∨ typeOf sys t = some τ) : Within τ sys (sys.modify t f) := by
  have hself : typeOf (sys.modify t f) t = some τ := by
    rw [typeOf, modify_self]
    exact hnew
  have hothers : ∀ u, u ≠ t → (sys.modify t f).taskList u = sys.taskList u :=
    fun u hu => modify_of_ne _ _ hu
  refine ⟨?_, ?_, ?_⟩
  · intro u σ hu hσ
    have hut : u ≠ t := by
      rintro rfl
      rw [hu] at hold
      rcases hold with hnone | hown
      · cases hnone
      · cases hown
        exact hσ rfl
    exact ⟨congrArg Task.next (hothers u hut), by rw [typeOf, hothers u hut]; exact hu⟩
  · intro u hu
    by_cases hut : u = t
    · exact hut ▸ hself
    · rw [typeOf, hothers u hut]
      exact hu
  · intro u hu
    by_cases hut : u = t
    · exact .inr (hut ▸ hself)
    · refine .inl ⟨congrArg Task.next (hothers u hut), ?_⟩
      rw [typeOf, hothers u hut]
      exact hu

/-! ### The multi-level feedback queue -/

/-- The queues and the links of their tasks reach tasks with a record of the policy. -/
structure MlfqClosed (s : MlfqSys n) : Prop where
  head : ∀ i < mlfqQueueCount, ∀ t, (s.mlfq.queues i).head = some t → typeOf s.sys t = some .mlfq
  tail : ∀ i < mlfqQueueCount, ∀ t, (s.mlfq.queues i).tail = some t → typeOf s.sys t = some .mlfq
  next : ∀ t u, typeOf s.sys t = some .mlfq → nextOf s.sys.taskList t = some u →
    typeOf s.sys u = some .mlfq

/-- A call keeps the queues closed and stays within them. -/
def MlfqStays (s s' : MlfqSys n) : Prop := MlfqClosed s' ∧ Within .mlfq s.sys s'.sys

variable {s s' s'' : MlfqSys n} {i : Nat}

theorem MlfqStays.trans (h : MlfqStays s s') (h' : MlfqStays s' s'') : MlfqStays s s'' :=
  ⟨h'.1, h.2.trans h'.2⟩

theorem typeOf_setNext (tasks : Fin n → Task n) (p : Option (Fin n)) :
    recordType (setNext tasks t p u).schedulerData = recordType (tasks u).schedulerData := by
  rw [setNext_schedulerData]

/-- Writing links of tasks of the policy, and a queue. -/
theorem MlfqClosed.write (h : MlfqClosed s) {tasks : Fin n → Task n} {queue : MlfqQueue n}
    (htype : ∀ u, recordType (tasks u).schedulerData = typeOf s.sys u)
    (hforeign : ∀ u, typeOf s.sys u ≠ some .mlfq → (tasks u).next = (s.sys.taskList u).next)
    (hnext : ∀ u v, typeOf s.sys u = some .mlfq → (tasks u).next = some v →
      typeOf s.sys v = some .mlfq)
    (hhead : ∀ t, queue.head = some t → typeOf s.sys t = some .mlfq)
    (htail : ∀ t, queue.tail = some t → typeOf s.sys t = some .mlfq) :
    MlfqStays s ((s.setTasks tasks).setQueue i queue) := by
  have htype' : typeOf ((s.setTasks tasks).setQueue i queue).sys = typeOf s.sys := funext htype
  refine ⟨⟨?_, ?_, ?_⟩, within_of_links htype' hforeign⟩
  · intro j hj t ht
    rw [htype']
    rw [setQueue_queues] at ht
    split at ht
    · exact hhead t ht
    · exact h.head j hj t ht
  · intro j hj t ht
    rw [htype']
    rw [setQueue_queues] at ht
    split at ht
    · exact htail t ht
    · exact h.tail j hj t ht
  · intro u v hu huv
    rw [htype'] at hu ⊢
    exact hnext u v hu huv

/-- The links after one more was written. -/
theorem setNext_closed {tasks : Fin n → Task n} {S : Fin n → Prop} {p : Option (Fin n)}
    (hclosed : ∀ u v, S u → (tasks u).next = some v → S v) (hp : ∀ v, p = some v → S v) :
    ∀ u v, S u → (setNext tasks t p u).next = some v → S v := by
  intro u v hu huv
  by_cases hut : u = t
  · subst hut
    rw [setNext, Function.update_self] at huv
    exact hp v huv
  · rw [setNext, Function.update_of_ne hut] at huv
    exact hclosed u v hu huv

theorem setNext_of_ne {tasks : Fin n → Task n} {p : Option (Fin n)} (h : u ≠ t) :
    (setNext tasks t p u).next = (tasks u).next := by
  rw [setNext, Function.update_of_ne h]

theorem mlfqEnqueue_stays (h : MlfqClosed s) (ht : typeOf s.sys t = some .mlfq)
    (hrun : mlfqEnqueue s i (some t) = some s') : MlfqStays s s' := by
  have hne : ∀ u v, typeOf s.sys u ≠ some .mlfq → typeOf s.sys v = some .mlfq → u ≠ v := by
    rintro u v hu hv rfl
    exact hu hv
  have hcleared : ∀ u v, typeOf s.sys u = some .mlfq →
      (setNext s.sys.taskList t none u).next = some v → typeOf s.sys v = some .mlfq :=
    setNext_closed h.next (by simp)
  have hself : ∀ v, some t = some v → typeOf s.sys v = some .mlfq := by
    rintro v ⟨⟩
    exact ht
  rw [mlfqEnqueue] at hrun
  split at hrun
  · cases hrun
    exact ⟨h, Within.refl _ _⟩
  · rename_i hi
    rw [Nat.not_le] at hi
    dsimp only at hrun
    split at hrun
    · cases hrun
      apply h.write
      · exact fun u => typeOf_setNext _ _
      · exact fun u hu => setNext_of_ne (hne u t hu ht)
      · exact hcleared
      · exact hself
      · exact hself
    · rename_i first last hfirst hlast
      have hlasttype := h.tail i hi last hlast
      cases hrun
      apply h.write
      · exact fun u => (typeOf_setNext _ _).trans (typeOf_setNext _ _)
      · intro u hu
        rw [setNext_of_ne (hne u last hu hlasttype), setNext_of_ne (hne u t hu ht)]
      · exact setNext_closed hcleared hself
      · intro v hv
        exact h.head i hi v hv
      · exact hself
    · cases hrun

theorem mlfqDequeue_stays (h : MlfqClosed s) (hrun : mlfqDequeue s i = (s', some t)) :
    MlfqStays s s' ∧ typeOf s.sys t = some .mlfq := by
  rw [mlfqDequeue] at hrun
  split at hrun
  · cases hrun
  · rename_i hi
    rw [Nat.not_le] at hi
    dsimp only at hrun
    split at hrun
    · cases hrun
    · rename_i v hv
      have hvtype := h.head i hi v hv
      cases hrun
      refine ⟨?_, hvtype⟩
      apply h.write
      · exact fun u => typeOf_setNext _ _
      · rintro u hu
        apply setNext_of_ne
        rintro rfl
        exact hu hvtype
      · exact setNext_closed h.next (by simp)
      · exact fun w hw => h.next t w hvtype hw
      · intro w hw
        dsimp only at hw
        split at hw
        · cases hw
        · exact h.tail i hi w hw

/-- Writing the record of a task of the policy, or of one without a record. -/
theorem setParams_stays (h : MlfqClosed s) (params : MlfqParams)
    (ht : typeOf s.sys t = none ∨ typeOf s.sys t = some .mlfq)
    (hnext : typeOf s.sys t = none → nextOf s.sys.taskList t = none) :
    MlfqStays s (s.setParams t params) ∧ typeOf (s.setParams t params).sys t = some .mlfq := by
  have hwithin : Within .mlfq s.sys (s.setParams t params).sys :=
    within_modify (f := fun task => { task with schedulerData := .mlfq params }) rfl ht
  have hself : typeOf (s.setParams t params).sys t = some .mlfq := by
    rw [typeOf, MlfqSys.setParams, modify_self]
    rfl
  refine ⟨⟨⟨fun i hi u hu => hwithin.own u (h.head i hi u hu),
    fun i hi u hu => hwithin.own u (h.tail i hi u hu), ?_⟩, hwithin⟩, hself⟩
  intro u v hu huv
  rw [setParams_next] at huv
  by_cases hut : u = t
  · subst hut
    rcases ht with hnone | hown
    · rw [hnext hnone] at huv
      cases huv
    · exact hwithin.own v (h.next u v hown huv)
  · have hold : typeOf s.sys u = some .mlfq := by
      have hsame : (s.setParams t params).sys.taskList u = s.sys.taskList u :=
        Function.update_of_ne hut _ _
      rwa [typeOf, hsame] at hu
    exact hwithin.own v (h.next u v hold huv)

/-- A task with a new record goes to the end of a queue. -/
theorem requeue_stays {s₁ : MlfqSys n} {params : MlfqParams} (h : MlfqStays s s₁)
    (ht : typeOf s.sys t = some .mlfq)
    (hrun : mlfqEnqueue (s₁.setParams t params) i (some t) = some s') : MlfqStays s s' := by
  have ht₁ := h.2.own t ht
  obtain ⟨hstays, hself⟩ := setParams_stays h.1 params (.inr ht₁) (by rw [ht₁]; simp)
  exact (h.trans hstays).trans (mlfqEnqueue_stays hstays.1 hself hrun)

theorem boostQueue_stays {rounds : Nat} (h : MlfqClosed s) (hrun : boostQueue i rounds s = some s') :
    MlfqStays s s' := by
  induction rounds generalizing s with
  | zero =>
    unfold boostQueue at hrun
    split at hrun
    · cases hrun
      exact ⟨h, Within.refl _ _⟩
    · cases hrun
  | succ rounds ih =>
    unfold boostQueue at hrun
    split at hrun
    · cases hrun
      exact ⟨h, Within.refl _ _⟩
    · dsimp only at hrun
      split at hrun
      · cases hrun
      · rename_i s₁ t hdequeue
        obtain ⟨hstays₁, ht⟩ := mlfqDequeue_stays h hdequeue
        obtain ⟨params, -, hrest⟩ := Option.bind_eq_some_iff.mp hrun
        obtain ⟨s₂, henqueue, hloop⟩ := Option.bind_eq_some_iff.mp hrest
        have hstays₂ := requeue_stays hstays₁ ht henqueue
        exact hstays₂.trans (ih hstays₂.1 hloop)

theorem boostLevels_stays {levels : List Nat} (h : MlfqClosed s)
    (hrun : levels.foldlM (fun s i => boostQueue i n s) s = some s') : MlfqStays s s' := by
  induction levels generalizing s with
  | nil =>
    cases hrun
    exact ⟨h, Within.refl _ _⟩
  | cons i levels ih =>
    rw [List.foldlM_cons] at hrun
    obtain ⟨s₁, hqueue, hrest⟩ := Option.bind_eq_some_iff.mp hrun
    have hstays := boostQueue_stays h hqueue
    exact hstays.trans (ih hstays.1 hrest)

theorem schedulerMlfqBoost_stays (h : MlfqClosed s) (hrun : schedulerMlfqBoost s = some s') :
    MlfqStays s s' := by
  obtain ⟨s₁, hlevels, rfl⟩ := Option.map_eq_some_iff.mp hrun
  obtain ⟨hclosed, hwithin⟩ := boostLevels_stays h hlevels
  exact ⟨⟨hclosed.head, hclosed.tail, hclosed.next⟩, hwithin⟩

theorem mlfqRemove_stays (h : MlfqClosed s) (hi : i < mlfqQueueCount) {prev : Option (Fin n)}
    (ht : typeOf s.sys t = some .mlfq) (hprev : ∀ p, prev = some p → typeOf s.sys p = some .mlfq) :
    MlfqStays s (mlfqRemove s i prev t) := by
  have hafter : ∀ v, (s.sys.taskList t).next = some v → typeOf s.sys v = some .mlfq :=
    fun v hv => h.next t v ht hv
  unfold mlfqRemove
  apply h.write
  · intro u
    cases prev with
    | none => rfl
    | some p => exact typeOf_setNext _ _
  · intro u hu
    cases prev with
    | none => rfl
    | some p =>
      apply setNext_of_ne
      rintro rfl
      exact hu (hprev u rfl)
  · intro u v hu huv
    cases prev with
    | none => exact h.next u v hu huv
    | some p => exact setNext_closed h.next hafter u v hu huv
  · intro v hv
    dsimp only at hv
    split at hv
    · exact hafter v hv
    · exact h.head i hi v hv
  · intro v hv
    dsimp only at hv
    split at hv
    · exact hprev v hv
    · exact h.tail i hi v hv

theorem schedulerMlfqUpdateQueue_stays (h : MlfqClosed s)
    (hrun : schedulerMlfqUpdateQueue s (some t) = some s') : MlfqStays s s' := by
  rw [schedulerMlfqUpdateQueue] at hrun
  dsimp only at hrun
  split at hrun
  · cases hrun
    exact ⟨h, Within.refl _ _⟩
  · rename_i params hdata
    have ht : typeOf s.sys t = some .mlfq := by
      rw [typeOf, hdata]
      rfl
    split at hrun
    · split at hrun
      · cases hrun
      · rename_i hlevel
        rw [Nat.not_le] at hlevel
        obtain ⟨⟨prev, curr⟩, hwalk, hrest⟩ := Option.bind_eq_some_iff.mp hrun
        obtain ⟨hprev, hcurr⟩ :=
          walkTo_closed hwalk (h.head _ hlevel) (S := fun u => typeOf s.sys u = some .mlfq) (by simp)
            h.next
        cases curr with
        | none => exact requeue_stays ⟨h, Within.refl _ _⟩ ht hrest
        | some c => exact requeue_stays (mlfqRemove_stays h hlevel (hcurr c rfl) hprev) ht hrest
    · cases hrun
      exact ⟨h, Within.refl _ _⟩
  · cases hrun

theorem schedulerMlfqInitTask_stays (h : MlfqClosed s) {malloc : Bool}
    (ht : malloc = true → typeOf s.sys t = none ∨ typeOf s.sys t = some .mlfq)
    (hnext : typeOf s.sys t = none → nextOf s.sys.taskList t = none)
    (hrun : schedulerMlfqInitTask s t malloc = some s') : MlfqStays s s' := by
  cases malloc with
  | false =>
    cases hrun
    exact ⟨h, Within.refl _ _⟩
  | true =>
    rw [schedulerMlfqInitTask, if_neg (by simp)] at hrun
    obtain ⟨hstays, hself⟩ := setParams_stays h
      { currentQueue := 0, timeSlice := (s.mlfq.queues 0).timeQuantum, boostTicks := 0 } (ht rfl) hnext
    exact hstays.trans (mlfqEnqueue_stays hstays.1 hself hrun)

/-- The charge of a tick writes a record of the policy. -/
theorem charge_stays (h : MlfqClosed s) (params : MlfqParams) (ht : typeOf s.sys t = some .mlfq) :
    MlfqStays s (s.charge t params) := by
  have hcharged : MlfqStays s
      (if 0 < params.timeSlice then s.setParams t { params with timeSlice := params.timeSlice - 1 }
        else s) := by
    split
    · exact (setParams_stays h _ (.inr ht) (by rw [ht]; simp)).1
    · exact ⟨h, Within.refl _ _⟩
  obtain ⟨hclosed, hwithin⟩ := hcharged
  exact ⟨⟨hclosed.head, hclosed.tail, hclosed.next⟩, hwithin⟩

theorem schedulerMlfqTick_stays (h : MlfqClosed s) (hrun : schedulerMlfqTick s = some s') :
    MlfqStays s s' := by
  cases hcurrent : s.sys.currentTask with
  | none =>
    rw [schedulerMlfqTick, taskGetCurrent, hcurrent] at hrun
    cases hrun
    exact ⟨h, Within.refl _ _⟩
  | some t =>
    cases hdata : dataOf s t with
    | null =>
      rw [schedulerMlfqTick_idle (by
        rintro u hu
        rw [hcurrent] at hu
        cases hu
        exact hdata)] at hrun
      cases hrun
      exact ⟨h, Within.refl _ _⟩
    | mlfq params =>
      have ht : typeOf s.sys t = some .mlfq := by
        have hrecord : (s.sys.taskList t).schedulerData = .mlfq params := hdata
        rw [typeOf, hrecord]
        rfl
      rw [schedulerMlfqTick_managed hcurrent hdata] at hrun
      have hstays := charge_stays h params ht
      split at hrun
      · exact hstays.trans (schedulerMlfqBoost_stays hstays.1 hrun)
      · cases hrun
        exact hstays
    | realtime params =>
      have hrecord : (s.sys.taskList t).schedulerData = .realtime params := hdata
      rw [schedulerMlfqTick, taskGetCurrent, hcurrent] at hrun
      simp only [hrecord] at hrun
      cases hrun
    | fair e =>
      have hrecord : (s.sys.taskList t).schedulerData = .fair e := hdata
      rw [schedulerMlfqTick, taskGetCurrent, hcurrent] at hrun
      simp only [hrecord] at hrun
      cases hrun

end ArmKernel.Sched

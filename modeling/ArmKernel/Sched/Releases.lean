/-
The releases of periodic tasks (`scheduler_update_deadlines` of `src/scheduler_rt.c`).

A call at `now` moves `next_release` one period on, from where it stood, and sets the deadline
one period on from `now`. The two agree only when the call comes at the release time itself.
A call that comes a whole period late leaves `next_release` in the past besides.

`releases_on_schedule_iff` says that the releases keep to their schedule exactly as long as no
call finds a release time that has passed. `refresh_realtime` is the effect on one record.
-/
import ArmKernel.Sched.RtList

namespace ArmKernel.Sched

open ArmKernel.Support ArmKernel.Tasks

variable {n : Nat}

/-- The record of a task that is released at `now`. -/
def released (now : Nat) (params : RealtimeParams) : RealtimeParams :=
  { params with
    nextRelease := wrap32 (params.nextRelease + params.period)
    deadline := wrap32 (now + params.period) }

/-- The effect of the release loop on a record. -/
theorem refresh_realtime {now : Nat} {task : Task n} {params : RealtimeParams}
    (hdata : task.schedulerData = .realtime params) :
    (refresh now task).schedulerData =
      .realtime (if params.nextRelease ≤ now then released now params else params) := by
  simp only [refresh, hdata, release]
  by_cases hdue : params.nextRelease ≤ now
  · rw [if_pos hdue, if_pos hdue]
    rfl
  · rw [if_neg hdue, if_neg hdue]
    exact hdata

/-- `next_release`, of a task with a real-time record. -/
def nextReleaseOf (task : Task n) : Nat :=
  match task.schedulerData with
  | .realtime params => params.nextRelease
  | _ => 0

/-- The release loop at `now` releases the task. -/
def isDue (now : Nat) (task : Task n) : Bool :=
  match task.schedulerData with
  | .realtime params => decide (params.nextRelease ≤ now)
  | _ => false

/-- The tasks, the tick of the latest call if there was one, and which tasks were released. -/
structure Timeline (n : Nat) where
  sys : TaskSys n
  now : Option Nat
  wasReleased : Fin n → Bool

/-- Before the first call. -/
def Timeline.start (sys : TaskSys n) : Timeline n where
  sys := sys
  now := none
  wasReleased := fun _ => false

/-- One call at tick `t`. The tick counter does not run backwards, and does not wrap. -/
def releaseStep (rt : Realtime n) (s : Timeline n) (t : Nat) : Option (Timeline n) :=
  if (∀ t₀ ∈ s.now, t₀ ≤ t) ∧ t < 2 ^ 32 then
    (schedulerUpdateDeadlines rt s.sys t).map fun sys =>
      { sys
        now := some t
        wasReleased := fun u => s.wasReleased u || isDue t (s.sys.taskList u) }
  else none

/-- The tasks of the list keep to the schedule that began at `base`: after a call the next
release lies ahead, a whole number of periods from the first one; and once a task was
released, it is also the deadline. -/
def OnSchedule (l : List (Fin n)) (base : Fin n → Nat) (s : Timeline n) : Prop :=
  ∀ u ∈ l, ∃ params, (s.sys.taskList u).schedulerData = .realtime params ∧
    (∀ t ∈ s.now, t < params.nextRelease) ∧
    params.nextRelease % params.period = base u % params.period ∧
    (s.wasReleased u = true → params.deadline = params.nextRelease)

/-- A call at `t` releases the task at its release time, and a period later is a tick. -/
def PunctualFor (t : Nat) (task : Task n) : Prop :=
  match task.schedulerData with
  | .realtime params =>
    params.nextRelease ≤ t → params.nextRelease = t ∧ t + params.period < 2 ^ 32
  | _ => True

/-- A call is punctual for every task of the list. -/
def Punctual (l : List (Fin n)) (s : Timeline n) (t : Nat) : Prop :=
  ∀ u ∈ l, PunctualFor t (s.sys.taskList u)

instance (t : Nat) (task : Task n) : Decidable (PunctualFor t task) := by
  unfold PunctualFor
  split <;> infer_instance

instance (l : List (Fin n)) (s : Timeline n) (t : Nat) : Decidable (Punctual l s t) :=
  inferInstanceAs (Decidable (∀ u ∈ l, _))

/-- The values of the members of a periodic task; they have 32 bits. -/
structure Periodic (params : RealtimeParams) : Prop where
  positive : 0 < params.period
  period_lt : params.period < 2 ^ 32
  release_lt : params.nextRelease < 2 ^ 32

instance (params : RealtimeParams) : Decidable (Periodic params) :=
  decidable_of_iff (0 < params.period ∧ params.period < 2 ^ 32 ∧ params.nextRelease < 2 ^ 32)
    ⟨fun ⟨h₁, h₂, h₃⟩ => ⟨h₁, h₂, h₃⟩, fun ⟨h₁, h₂, h₃⟩ => ⟨h₁, h₂, h₃⟩⟩

/-- The invariant: a list of periodic tasks that keep to their schedule. -/
structure TimelineInv (rt : Realtime n) (l : List (Fin n)) (base : Fin n → Nat) (s : Timeline n) :
    Prop where
  list : RtList rt s.sys l
  periodic : ∀ u ∈ l, ∀ params, (s.sys.taskList u).schedulerData = .realtime params →
    Periodic params
  onSchedule : OnSchedule l base s

variable {rt : Realtime n} {l : List (Fin n)} {base : Fin n → Nat} {s s' : Timeline n} {t : Nat}
  {u : Fin n} {params : RealtimeParams}

/-- **Effect of a call** on a list: it returns, and refreshes the tasks of the list. -/
theorem releaseStep_spec (hlist : RtList rt s.sys l) (hstep : releaseStep rt s t = some s') :
    ((∀ t₀ ∈ s.now, t₀ ≤ t) ∧ t < 2 ^ 32) ∧ RtList rt s'.sys l ∧ s'.now = some t ∧
      (∀ u ∈ l, s'.sys.taskList u = refresh t (s.sys.taskList u)) ∧
      ∀ u, s'.wasReleased u = (s.wasReleased u || isDue t (s.sys.taskList u)) := by
  unfold releaseStep at hstep
  by_cases htick : (∀ t₀ ∈ s.now, t₀ ≤ t) ∧ t < 2 ^ 32
  · rw [if_pos htick, hlist.updateDeadlines, Option.map_some] at hstep
    cases hstep
    exact ⟨htick, hlist.refreshed t, rfl, fun u hu => if_pos hu, fun u => rfl⟩
  · rw [if_neg htick] at hstep
    cases hstep

theorem isDue_realtime {task : Task n} (hdata : task.schedulerData = .realtime params) :
    isDue t task = decide (params.nextRelease ≤ t) := by
  simp only [isDue, hdata]

theorem punctualFor_realtime {task : Task n} (hdata : task.schedulerData = .realtime params) :
    PunctualFor t task ↔
      (params.nextRelease ≤ t → params.nextRelease = t ∧ t + params.period < 2 ^ 32) := by
  simp only [PunctualFor, hdata]

theorem Periodic.released (h : Periodic params) : Periodic (released t params) :=
  ⟨h.positive, h.period_lt, wrap32_lt _⟩

/-- A punctual release. -/
theorem released_punctual (hperiodic : Periodic params) (hdue : params.nextRelease = t)
    (hnext : t + params.period < 2 ^ 32) :
    t < (released t params).nextRelease ∧
      (released t params).nextRelease % params.period = params.nextRelease % params.period ∧
      (released t params).deadline = (released t params).nextRelease := by
  have hrelease : (released t params).nextRelease = t + params.period := by
    rw [released, hdue]
    exact wrap32_of_lt hnext
  refine ⟨?_, ?_, ?_⟩
  · rw [hrelease]
    exact Nat.lt_add_of_pos_right hperiodic.positive
  · rw [hrelease, hdue, Nat.add_mod_right]
  · rw [released, hdue]

/-- A release that puts the next one ahead, and at the deadline, is punctual. -/
theorem punctual_of_released (hperiodic : Periodic params) (ht : t < 2 ^ 32)
    (hahead : t < (released t params).nextRelease)
    (hdeadline : (released t params).deadline = (released t params).nextRelease) :
    params.nextRelease = t ∧ t + params.period < 2 ^ 32 := by
  have hrelease := hperiodic.release_lt
  have hperiod := hperiodic.period_lt
  simp only [released, wrap32] at hahead hdeadline
  omega

/-- **Step lemma.** A punctual call keeps the tasks on their schedule. -/
theorem TimelineInv.step (h : TimelineInv rt l base s) (hpunctual : Punctual l s t)
    (hstep : releaseStep rt s t = some s') : TimelineInv rt l base s' := by
  obtain ⟨htick, hlist, hnow, heffect, hreleased⟩ := releaseStep_spec h.list hstep
  refine ⟨hlist, ?_, ?_⟩
  · intro u hu params' hparams'
    obtain ⟨params, hdata⟩ := h.list.data u hu
    have hperiodic := h.periodic u hu params hdata
    rw [heffect u hu, refresh_realtime hdata] at hparams'
    cases hparams'
    by_cases hdue : params.nextRelease ≤ t
    · rw [if_pos hdue]
      exact hperiodic.released
    · rw [if_neg hdue]
      exact hperiodic
  · intro u hu
    obtain ⟨params, hdata, -, hbase, hdeadline⟩ := h.onSchedule u hu
    have hperiodic := h.periodic u hu params hdata
    rw [heffect u hu, refresh_realtime hdata, hnow, hreleased, isDue_realtime hdata]
    refine ⟨_, rfl, ?_⟩
    by_cases hdue : params.nextRelease ≤ t
    · rw [if_pos hdue]
      obtain ⟨hat, hnext⟩ := (punctualFor_realtime hdata).mp (hpunctual u hu) hdue
      obtain ⟨hahead, hcongruent, heq⟩ := released_punctual hperiodic hat hnext
      refine ⟨?_, hcongruent.trans hbase, fun _ => heq⟩
      rintro _ ⟨⟩
      exact hahead
    · rw [if_neg hdue]
      refine ⟨?_, hbase, ?_⟩
      · rintro _ ⟨⟩
        exact Nat.not_le.mp hdue
      · intro hwas
        apply hdeadline
        rwa [decide_eq_false hdue, Bool.or_false] at hwas

/-- A call that is late for some task leaves the schedule. -/
theorem TimelineInv.leaves (h : TimelineInv rt l base s) (hlate : ¬ Punctual l s t)
    (hstep : releaseStep rt s t = some s') : ¬ OnSchedule l base s' := by
  obtain ⟨htick, hlist, hnow, heffect, hreleased⟩ := releaseStep_spec h.list hstep
  intro hon
  apply hlate
  intro u hu
  obtain ⟨params, hdata⟩ := h.list.data u hu
  rw [punctualFor_realtime hdata]
  intro hdue
  obtain ⟨params', hdata', hahead, -, hdeadline⟩ := hon u hu
  rw [heffect u hu, refresh_realtime hdata, if_pos hdue] at hdata'
  cases hdata'
  have hwas : s'.wasReleased u = true := by
    rw [hreleased, isDue_realtime hdata, decide_eq_true hdue, Bool.or_true]
  exact punctual_of_released (h.periodic u hu params hdata) htick.2 (hahead t hnow) (hdeadline hwas)

/-- **Periodic releases.** For every list of periodic tasks and every sequence of calls. -/
theorem releases_on_schedule_iff (rt : Realtime n) (sys : TaskSys n) (l : List (Fin n))
    (hlist : RtList rt sys l)
    (hperiodic : ∀ u ∈ l, ∀ params, (sys.taskList u).schedulerData = .realtime params →
      Periodic params)
    (ticks : List Nat) :
    Along (releaseStep rt) (OnSchedule l fun u => nextReleaseOf (sys.taskList u))
        (Timeline.start sys) ticks ↔
      Meets (releaseStep rt) (Punctual l) (Timeline.start sys) ticks := by
  have hstart : TimelineInv rt l (fun u => nextReleaseOf (sys.taskList u)) (Timeline.start sys) := by
    refine ⟨hlist, hperiodic, ?_⟩
    intro u hu
    obtain ⟨params, hdata⟩ := hlist.data u hu
    refine ⟨params, hdata, ?_, ?_, ?_⟩
    · rintro t ⟨⟩
    · simp only [nextReleaseOf, hdata]
    · rintro ⟨⟩
  apply along_iff_meets _ _ _ hstart
  · exact fun s h => h.onSchedule
  · exact fun s t s' h hpunctual hstep => h.step hpunctual hstep
  · exact fun s t s' h hlate hstep => h.leaves hlate hstep

/-- A task of period 10 and one of period 15, registered at tick 0. -/
def twoPeriodic (t u : Fin 2) : Realtime 2 × TaskSys 2 :=
  let params (period : Nat) : RealtimeParams :=
    { period, deadline := period, execution := 2, nextRelease := 0, executionTime := 0 }
  let first := schedulerSetRealtimeParams { rtTasks := none, rtTaskCount := 0 } plainTasks (some t)
    (some (params 10)) true 0
  schedulerSetRealtimeParams first.1 first.2 (some u) (some (params 15)) true 0

theorem twoPeriodic_list : RtList (twoPeriodic 0 1).1 (twoPeriodic 0 1).2 [1, 0] := by
  have hempty : RtList { rtTasks := none, rtTaskCount := 0 } plainTasks [] :=
    ⟨rfl, fun _ ht => absurd ht List.not_mem_nil⟩
  exact (hempty.register List.not_mem_nil _ _).register (by decide) _ _

theorem twoPeriodic_periodic : ∀ u ∈ [1, 0], ∀ params,
    ((twoPeriodic 0 1).2.taskList u).schedulerData = .realtime params → Periodic params := by
  intro u hu params hdata
  rcases List.mem_pair.mp hu with rfl | rfl
  · cases hdata
    decide
  · cases hdata
    decide

/-- A call at every release. -/
theorem releases_on_schedule_iff_run :
    Meets (releaseStep (twoPeriodic 0 1).1) (Punctual [1, 0]) (Timeline.start (twoPeriodic 0 1).2)
        [10, 15, 17, 20, 30] ∧
      Along (releaseStep (twoPeriodic 0 1).1)
        (OnSchedule [1, 0] fun u => nextReleaseOf ((twoPeriodic 0 1).2.taskList u))
        (Timeline.start (twoPeriodic 0 1).2) [10, 15, 17, 20, 30] :=
  ⟨by decide, (releases_on_schedule_iff _ _ [1, 0] twoPeriodic_list twoPeriodic_periodic _).mpr
    (by decide)⟩

/-- **Late calls.** A call at tick 12 sets the deadline 22 of a task whose next release is 20; a
call at tick 25 leaves that release in the past. -/
theorem late_call_drifts :
    (∃ s params,
      run (releaseStep (twoPeriodic 0 1).1) (Timeline.start (twoPeriodic 0 1).2) [12] = some s ∧
      (s.sys.taskList 0).schedulerData = .realtime params ∧ s.wasReleased 0 = true ∧
      params.nextRelease = 20 ∧ params.deadline = 22) ∧
    (∃ s params,
      run (releaseStep (twoPeriodic 0 1).1) (Timeline.start (twoPeriodic 0 1).2) [25] = some s ∧
      (s.sys.taskList 0).schedulerData = .realtime params ∧ params.nextRelease = 20) ∧
    ¬ ∀ (rt : Realtime 2) (sys : TaskSys 2) (l : List (Fin 2)), RtList rt sys l →
      (∀ u ∈ l, ∀ params, (sys.taskList u).schedulerData = .realtime params → Periodic params) →
      ∀ ticks, Along (releaseStep rt) (OnSchedule l fun u => nextReleaseOf (sys.taskList u))
        (Timeline.start sys) ticks := by
  have hlate : ∃ s params,
      run (releaseStep (twoPeriodic 0 1).1) (Timeline.start (twoPeriodic 0 1).2) [25] = some s ∧
      (s.sys.taskList 0).schedulerData = .realtime params ∧ params.nextRelease = 20 ∧
      s.now = some 25 := ⟨_, _, rfl, rfl, rfl, rfl⟩
  obtain ⟨s, params, hrun, hdata, hnext, hnow⟩ := hlate
  refine ⟨⟨_, _, rfl, rfl, rfl, rfl, rfl⟩, ⟨s, params, hrun, hdata, hnext⟩, ?_⟩
  intro hall
  have halong := hall _ _ [1, 0] twoPeriodic_list twoPeriodic_periodic [25]
  obtain ⟨params', hdata', hahead, -⟩ := halong.last hrun 0 (by decide)
  rw [hdata] at hdata'
  cases hdata'
  have hpast : 25 < 20 := by
    rw [← hnext]
    exact hahead 25 hnow
  exact absurd hpast (by decide)

end ArmKernel.Sched

/-
The timer among the synchronisation calls: `timer_irq_handler` of `src/timer.c`, `task_sleep` of
`src/task.c` and `condition_timedwait` of `src/condition.c`, next to the calls, suspensions and
resumes of `SyncSystem`.

Both functions leave a time behind that nobody reads: `task_sleep` writes `ticks_remaining`,
`condition_timedwait` writes `wake_time`, and no function of the kernel compares either with the
tick counter. Under each policy a tick moves records and links, blocks a task or releases a
real-time one, and makes nothing else ready (`schedulerTick_wakes`).

So a task that sleeps is not ready again unless it is resumed (`sleep_never_ends`), and
`condition_timedwait` returns only to a task that a signal or a broadcast took from the line,
whatever it returns then (`timedwait_needs_signal`).

`now` is what `timer_get_ticks` returns, which the sources declare and do not define; here it
is any value at any time.
-/
import ArmKernel.Sched.Policies
import ArmKernel.Sync.WaitLines

namespace ArmKernel.Sync

open ArmKernel.Support ArmKernel.Tasks ArmKernel.Sched

variable {n : Nat} {M S C : Type}

/-! ### What a tick does to the tasks -/

/-- No state and no link of a wait queue changes. -/
structure Quiet (sys sys' : TaskSys n) : Prop where
  nextWait : ∀ u, (sys'.taskList u).nextWait = (sys.taskList u).nextWait
  states : ∀ u, (sys'.taskList u).state = (sys.taskList u).state

namespace Quiet

theorem refl (sys : TaskSys n) : Quiet sys sys := ⟨fun _ => rfl, fun _ => rfl⟩

theorem trans {sys sys' sys'' : TaskSys n} (h : Quiet sys sys') (h' : Quiet sys' sys'') :
    Quiet sys sys'' where
  nextWait u := (h'.nextWait u).trans (h.nextWait u)
  states u := (h'.states u).trans (h.states u)

/-- One control block was written, as the queues and the records of the policies are. -/
theorem modify (sys : TaskSys n) (t : Fin n) (f : Task n → Task n)
    (hwait : (f (sys.taskList t)).nextWait = (sys.taskList t).nextWait)
    (hstate : (f (sys.taskList t)).state = (sys.taskList t).state) :
    Quiet sys (sys.modify t f) := by
  constructor <;> intro u <;> by_cases hu : u = t
  · subst hu
    rw [modify_self, hwait]
  · rw [modify_of_ne _ _ hu]
  · subst hu
    rw [modify_self, hstate]
  · rw [modify_of_ne _ _ hu]

theorem setParams (s : MlfqSys n) (t : Fin n) (params : MlfqParams) :
    Quiet s.sys (s.setParams t params).sys :=
  modify s.sys t (fun task => { task with schedulerData := .mlfq params }) rfl rfl

theorem setNext (sys : TaskSys n) (t : Fin n) (p : Option (Fin n)) :
    Quiet sys { sys with taskList := Sched.setNext sys.taskList t p } :=
  modify sys t (fun task => { task with next := p }) rfl rfl

theorem enqueue {s s' : MlfqSys n} {i : Nat} {task : Option (Fin n)}
    (h : mlfqEnqueue s i task = some s') : Quiet s.sys s'.sys := by
  unfold mlfqEnqueue at h
  split at h
  · cases h
    exact refl _
  · rename_i t
    split at h
    · cases h
      exact refl _
    · dsimp only at h
      split at h
      · cases h
        exact setNext s.sys t none
      · cases h
        exact (setNext s.sys t none).trans (setNext _ _ (some t))
      · cases h

theorem dequeue (s : MlfqSys n) (i : Nat) : Quiet s.sys (mlfqDequeue s i).1.sys := by
  unfold mlfqDequeue
  split
  · exact refl _
  · dsimp only
    split
    · exact refl _
    · exact setNext s.sys _ none

theorem boostQueue {s s' : MlfqSys n} {i rounds : Nat} (h : Sched.boostQueue i rounds s = some s') :
    Quiet s.sys s'.sys := by
  induction rounds generalizing s with
  | zero =>
    unfold Sched.boostQueue at h
    split at h
    · cases h
      exact refl _
    · cases h
  | succ rounds ih =>
    unfold Sched.boostQueue at h
    split at h
    · cases h
      exact refl _
    · have hdequeue := dequeue s i
      dsimp only at h
      split at h
      · cases h
      · rename_i s₁ t hs₁
        rw [hs₁] at hdequeue
        obtain ⟨params, -, hrest⟩ := Option.bind_eq_some_iff.mp h
        obtain ⟨s₂, henqueue, hloop⟩ := Option.bind_eq_some_iff.mp hrest
        exact ((hdequeue.trans (setParams s₁ t _)).trans (enqueue henqueue)).trans (ih hloop)

theorem levels {s s' : MlfqSys n} {is : List Nat}
    (h : is.foldlM (fun s i => Sched.boostQueue i n s) s = some s') : Quiet s.sys s'.sys := by
  induction is generalizing s with
  | nil =>
    cases h
    exact refl _
  | cons i is ih =>
    rw [List.foldlM_cons] at h
    obtain ⟨s₁, hqueue, hrest⟩ := Option.bind_eq_some_iff.mp h
    exact (boostQueue hqueue).trans (ih hrest)

theorem boost {s s' : MlfqSys n} (h : schedulerMlfqBoost s = some s') : Quiet s.sys s'.sys := by
  obtain ⟨s₁, hlevels, rfl⟩ := Option.map_eq_some_iff.mp h
  exact (levels hlevels : Quiet s.sys s₁.sys)

/-- The end of a tick: the counter, and the boost when it is due. -/
theorem beat {s s' : MlfqSys n} {counter period : Nat}
    (h : (if period ≤ counter then
        schedulerMlfqBoost { s with mlfq := { s.mlfq with boostCounter := counter } }
      else some { s with mlfq := { s.mlfq with boostCounter := counter } }) = some s') :
    Quiet s.sys s'.sys := by
  split at h
  · have hboost := boost h
    exact hboost
  · cases h
    exact refl _

theorem mlfqTick {s s' : MlfqSys n} (h : schedulerMlfqTick s = some s') : Quiet s.sys s'.sys := by
  unfold schedulerMlfqTick at h
  split at h
  · cases h
    exact refl _
  · rename_i t hcurrent
    split at h
    · cases h
      exact refl _
    · rename_i params hdata
      by_cases hslice : 0 < params.timeSlice
      · simp only [hslice, if_true] at h
        exact (setParams s t _).trans (beat h)
      · simp only [hslice, if_false] at h
        exact beat h
    · cases h

theorem remove (s : MlfqSys n) (i : Nat) (prev : Option (Fin n)) (c : Fin n) :
    Quiet s.sys (mlfqRemove s i prev c).sys := by
  cases prev with
  | none => exact refl _
  | some p => exact setNext s.sys p _

theorem updateQueue {s s' : MlfqSys n} {task : Option (Fin n)}
    (h : schedulerMlfqUpdateQueue s task = some s') : Quiet s.sys s'.sys := by
  unfold schedulerMlfqUpdateQueue at h
  split at h
  · cases h
    exact refl _
  · rename_i t
    split at h
    · cases h
      exact refl _
    · rename_i params hdata
      split at h
      · dsimp only at h
        split at h
        · cases h
        · rename_i hlevel
          obtain ⟨⟨prev, curr⟩, -, henqueue⟩ := Option.bind_eq_some_iff.mp h
          cases curr with
          | none => exact (setParams s t _).trans (enqueue henqueue)
          | some c => exact ((remove s _ prev c).trans (setParams _ t _)).trans (enqueue henqueue)
      · cases h
        exact refl _
    · cases h

end Quiet

/-- No link of a wait queue changes, and a task that is ready now was ready, or is one of
`released`. -/
structure Wakes (released : Fin n → Prop) (sys sys' : TaskSys n) : Prop where
  nextWait : ∀ u, (sys'.taskList u).nextWait = (sys.taskList u).nextWait
  ready : ∀ u, (sys'.taskList u).state = .ready → (sys.taskList u).state = .ready ∨ released u

theorem Quiet.wakes {sys sys' : TaskSys n} (h : Quiet sys sys') (released : Fin n → Prop) :
    Wakes released sys sys' :=
  ⟨h.nextWait, fun u hu => .inl ((h.states u).symm.trans hu)⟩

theorem updateDeadlines_wakes {rt : Realtime n} {sys sys' : TaskSys n} {now : Nat}
    (h : schedulerUpdateDeadlines rt sys now = some sys') :
    Wakes (ReleasedAt rt sys now) sys sys' where
  nextWait u := (updateDeadlines_ready h u).1
  ready u := (updateDeadlines_ready h u).2.mp

/-- The tick of the real-time policy may block the current task besides. -/
theorem rtTick_wakes {rt : Realtime n} {sys sys' : TaskSys n} {now missed : Nat} {yields : Bool}
    (h : schedulerRtTick rt sys now = some (yields, sys', missed)) :
    Wakes (ReleasedAt rt sys now) sys sys' := by
  obtain ⟨sys₁, hdeadlines, hrest⟩ := Option.bind_eq_some_iff.mp h
  have hwakes := updateDeadlines_wakes hdeadlines
  dsimp only at hrest
  split at hrest
  · cases hrest
    exact hwakes
  · rename_i t hcurrent
    split at hrest
    · cases hrest
      exact hwakes
    · rename_i params hdata
      cases hrest
      constructor <;> intro u <;> by_cases hu : u = t
      · subst hu
        rw [modify_self]
        exact hwakes.nextWait u
      · rw [modify_of_ne _ _ hu]
        exact hwakes.nextWait u
      · subst hu
        rw [modify_self]
        intro hready
        refine hwakes.ready u ?_
        by_cases hspent : params.execution ≤ wrap32 (params.executionTime + 1)
        · simp [hspent] at hready
        · simpa [hspent] using hready
      · rw [modify_of_ne _ _ hu]
        exact hwakes.ready u
    · cases hrest

/-- The tasks that a tick or a change of policy releases: those of the release loop, under the
real-time policy. -/
def ReleasedUnder (k : Sched.Kernel n) (now : Nat) (u : Fin n) : Prop :=
  k.currentPolicy = .realtime ∧ ReleasedAt k.rt k.sys now u

/-- **A tick**, under any policy. -/
theorem schedulerTick_wakes {k k' : Sched.Kernel n} {now : Nat}
    (h : schedulerTick k now = some k') :
    k'.rt = k.rt ∧ Wakes (ReleasedUnder k now) k.sys k'.sys := by
  unfold schedulerTick at h
  split at h
  · cases h
    exact ⟨rfl, (Quiet.refl _).wakes _⟩
  · dsimp only at h
    split at h
    · obtain ⟨s, htick, rfl⟩ := Option.map_eq_some_iff.mp h
      exact ⟨rfl, (Quiet.mlfqTick htick).wakes _⟩
    · obtain ⟨⟨s, yields⟩, htick, rfl⟩ := Option.map_eq_some_iff.mp h
      have hsys : s.sys = k.sys := schedulerFairTick_sys htick
      refine ⟨rfl, ?_⟩
      rw [show (Sched.Kernel.setFairSys _ s).sys = k.sys from hsys]
      exact (Quiet.refl _).wakes _
    · rename_i hpolicy
      obtain ⟨⟨yields, sys, missed⟩, htick, rfl⟩ := Option.map_eq_some_iff.mp h
      have hwakes := rtTick_wakes htick
      exact ⟨rfl, hwakes.nextWait, fun u hu => (hwakes.ready u hu).imp_right (⟨hpolicy, ·⟩)⟩
    · cases h
      exact ⟨rfl, (Quiet.refl _).wakes _⟩
    · cases h
      exact ⟨rfl, (Quiet.refl _).wakes _⟩

/-- **A change of policy.** -/
theorem schedulerSetPolicy_wakes {k k' : Sched.Kernel n} {now : Nat} {policy : SchedulerPolicy}
    (h : schedulerSetPolicy k now policy = some k') :
    k'.rt = k.rt ∧ Wakes (ReleasedUnder k now) k.sys k'.sys := by
  unfold schedulerSetPolicy at h
  split at h
  · dsimp only at h
    obtain ⟨left, hleft, rfl⟩ := Option.map_eq_some_iff.mp h
    split at hleft
    · unfold leavePolicy at hleft
      split at hleft
      · obtain ⟨s, hupdate, rfl⟩ := Option.map_eq_some_iff.mp hleft
        exact ⟨rfl, (Quiet.updateQueue hupdate).wakes _⟩
      · obtain ⟨s, hupdate, rfl⟩ := Option.map_eq_some_iff.mp hleft
        have hsys : s.sys = k.sys := schedulerUpdateVruntime_sys hupdate
        refine ⟨rfl, ?_⟩
        rw [show (Sched.Kernel.setFairSys k s).sys = k.sys from hsys]
        exact (Quiet.refl _).wakes _
      · rename_i hpolicy
        obtain ⟨sys, hupdate, rfl⟩ := Option.map_eq_some_iff.mp hleft
        have hwakes := updateDeadlines_wakes hupdate
        exact ⟨rfl, hwakes.nextWait, fun u hu => (hwakes.ready u hu).imp_right (⟨hpolicy, ·⟩)⟩
      · cases hleft
        exact ⟨rfl, (Quiet.refl _).wakes _⟩
      · cases hleft
        exact ⟨rfl, (Quiet.refl _).wakes _⟩
    · cases hleft
      exact ⟨rfl, (Quiet.refl _).wakes _⟩
  · cases h
    exact ⟨rfl, (Quiet.refl _).wakes _⟩

/-! ### The system -/

/-- A `condition_timedwait` that a task sits in. -/
structure TimedWait (M C : Type) where
  cond : C
  mutex : M
  startTime : Nat
  timeout : Nat

/-- The synchronisation objects, the scheduler and the tick counter. `timed` is the
`condition_timedwait` that a task sits in, `result` what its latest one returned, and `signalled`
has the tasks that were taken from a line by a signal or a broadcast since they called it. -/
structure ClockSystem (n : Nat) (M S C : Type) where
  sync : SyncSystem n M S C
  mlfq : Mlfq n
  fair : Fair n
  schedulerState : SchedulerState
  currentPolicy : SchedulerPolicy
  stats : SchedulerStats
  systemTicks : Nat
  timed : Fin n → Option (TimedWait M C)
  result : Fin n → Option Bool
  signalled : Fin n → Bool

/-- A step of the synchronisation calls, `task_sleep`, the beginning and the end of
`condition_timedwait`, an interrupt of the timer, or a change of policy. -/
inductive ClockAction (n : Nat) (M S C : Type) where
  | sync (a : SyncAction n M S C)
  | sleep (t : Fin n) (ms : Nat)
  | timedWait (t : Fin n) (c : C) (m : M) (timeout now : Nat)
  | timedReturn (t : Fin n) (now : Nat)
  | timerIrq (now : Nat)
  | setPolicy (policy : SchedulerPolicy) (now : Nat)

/-- The task that makes the call. -/
def SyncAction.caller : SyncAction n M S C → Option (Fin n)
  | .call t _ => some t
  | .wake _ | .suspend _ | .resume _ | .updateDeadlines _ => none

/-- The tasks that a signal or a broadcast takes from its line. -/
def SyncSystem.signals (s : SyncSystem n M S C) : SyncAction n M S C → List (Fin n)
  | .call t (.conditionSignal c) => (s.mem.dispatch t).taken (.conditionSignal c)
  | .call t (.conditionBroadcast c) => (s.mem.dispatch t).taken (.conditionBroadcast c)
  | _ => []

namespace ClockSystem

/-- What the scheduler works on. -/
def kernel (s : ClockSystem n M S C) : Sched.Kernel n where
  sys := s.sync.mem.kernel.sys
  rt := s.sync.mem.kernel.rt
  mlfq := s.mlfq
  fair := s.fair
  schedulerState := s.schedulerState
  currentPolicy := s.currentPolicy
  stats := s.stats

/-- What the scheduler wrote. -/
def withKernel (s : ClockSystem n M S C) (k : Sched.Kernel n) : ClockSystem n M S C :=
  { s with
    sync := { s.sync with
      mem := { s.sync.mem with kernel := { s.sync.mem.kernel with sys := k.sys, rt := k.rt } } }
    mlfq := k.mlfq
    fair := k.fair
    schedulerState := k.schedulerState
    currentPolicy := k.currentPolicy
    stats := k.stats }

/-- All objects as their `init` functions leave them, under any policy. -/
def start (s : ClockSystem n M S C) (name : M → List UInt8) (initialCount : S → Int)
    (semName : S → List UInt8) : ClockSystem n M S C :=
  { s with
    sync := SyncSystem.start s.sync.mem name initialCount semName
    timed := fun _ => none
    result := fun _ => none
    signalled := fun _ => false }

/-- `condition_timedwait` is over: whether it reports that it was in time. -/
def inTime (w : TimedWait M C) (now : Nat) : Bool := decide (sub32 now w.startTime < w.timeout)

/-- `t` is ready, and in no call. -/
def Free (s : ClockSystem n M S C) (t : Fin n) : Prop := s.sync.CanCall t ∧ (s.timed t).isNone

instance (s : ClockSystem n M S C) (t : Fin n) : Decidable (s.Free t) :=
  inferInstanceAs (Decidable (_ ∧ _))

variable [DecidableEq M] [DecidableEq S] [DecidableEq C]

/-- One step. A timed wait blocks as `condition_wait` does; it returns when its task is ready
again and has the mutex. -/
def clockStep (s : ClockSystem n M S C) : ClockAction n M S C → Option (ClockSystem n M S C)
  | .sync a =>
    if a.caller.all fun t => (s.timed t).isNone then
      (s.sync.syncStep a).map fun sync =>
        { s with sync, signalled := fun u => s.signalled u || (s.sync.signals a).contains u }
    else none
  | .sleep t ms =>
    if s.Free t then
      some { s with sync := { s.sync with
        mem := s.sync.mem.withSys (taskSleep (s.sync.mem.dispatch t).kernel.sys ms).1 } }
    else none
  | .timedWait t c m timeout now =>
    if s.Free t then
      (s.sync.critical t (.conditionWait c m)).map fun sync =>
        { s with
          sync
          timed := Function.update s.timed t (some ⟨c, m, now, timeout⟩)
          signalled := Function.update s.signalled t false }
    else none
  | .timedReturn t now =>
    if s.sync.CanCall t then
      (s.timed t).map fun w =>
        { s with
          timed := Function.update s.timed t none
          result := Function.update s.result t (some (inTime w now)) }
    else none
  | .timerIrq now =>
    let s := { s with systemTicks := wrap32 (s.systemTicks + 1) }
    (schedulerTick s.kernel now).map s.withKernel
  | .setPolicy policy now => (schedulerSetPolicy s.kernel now policy).map s.withKernel

omit [DecidableEq M] [DecidableEq S] [DecidableEq C] in
/-- The step makes no task ready that waits, but by taking it from its line. -/
def SparesLines (s : ClockSystem n M S C) : ClockAction n M S C → Prop
  | .sync a => s.sync.SparesLines a
  | .timerIrq now | .setPolicy _ now =>
    ∀ u, s.sync.waits u = true → ¬ ReleasedUnder s.kernel now u
  | .sleep .. | .timedWait .. | .timedReturn .. => True

omit [DecidableEq M] [DecidableEq S] [DecidableEq C] in
/-- The step resumes `t`, or releases it as a real-time task. -/
def Frees (s : ClockSystem n M S C) (t : Fin n) : ClockAction n M S C → Prop
  | .sync (.resume u) => u = some t ∧ s.sync.mem.state t = .suspended
  | .sync (.updateDeadlines now) =>
    ReleasedAt s.sync.mem.kernel.rt s.sync.mem.kernel.sys now t
  | .timerIrq now | .setPolicy _ now => ReleasedUnder s.kernel now t
  | .sync (.call ..) | .sync (.wake _) | .sync (.suspend _) => False
  | .sleep .. | .timedWait .. | .timedReturn .. => False

/-- The lines are in order, and a task in a timed wait that nobody signalled stands in the line of
its condition variable. -/
structure ClockInv (s : ClockSystem n M S C) : Prop where
  lines : s.sync.InLines
  timedWaits : ∀ t w, s.timed t = some w → s.signalled t = false →
    s.sync.waits t = true ∧ s.sync.pending t = some (.condition w.cond w.mutex)

/-! ### What one step keeps -/

variable {s s' : ClockSystem n M S C} {t : Fin n}

omit [DecidableEq M] [DecidableEq S] [DecidableEq C] in
/-- The scheduler keeps the lines if it releases no waiting task. -/
theorem ClockInv.withKernel (h : s.ClockInv) {k : Sched.Kernel n} {released : Fin n → Prop}
    (hwakes : Wakes released s.sync.mem.kernel.sys k.sys)
    (hok : ∀ u, s.sync.waits u = true → ¬ released u) : (s.withKernel k).ClockInv := by
  obtain ⟨line, hsound⟩ := h.lines
  refine ⟨⟨line, hsound.relabel ?_ rfl rfl fun u hu hready => ?_⟩, h.timedWaits⟩
  · exact hsound.queues.congr (fun q => by cases q <;> rfl) hwakes.nextWait
  · exact (hwakes.ready u hready).resolve_right (hok u hu)

omit [DecidableEq M] [DecidableEq S] [DecidableEq C] in
/-- A call that takes a task from the line of a condition variable is a signal or a broadcast. -/
theorem mem_signals {s : SyncSystem n M S C} {c : SyncCall M S C} {q : C} {u : Fin n}
    (hu : u ∈ (s.mem.dispatch t).taken c) (hserves : c.serves = some (.condition q)) :
    u ∈ s.signals (.call t c) := by
  cases c with
  | conditionSignal c | conditionBroadcast c => exact hu
  | mutexLock | semaphoreWait | mutexUnlock | conditionWait | semaphorePost => cases hserves

omit [DecidableEq M] [DecidableEq S] [DecidableEq C] in
/-- `task_sleep` links no queue anew, and makes no task ready. -/
theorem taskSleep_spec (sys : TaskSys n) (ms : Nat) (u : Fin n) :
    ((taskSleep sys ms).1.taskList u).nextWait = (sys.taskList u).nextWait ∧
      ((taskSleep sys ms).1.taskList u).state =
        if sys.currentTask = some u then .blocked else (sys.taskList u).state := by
  cases hcurrent : sys.currentTask with
  | none => simp [taskSleep, hcurrent]
  | some t =>
    simp only [taskSleep, hcurrent, Option.some.injEq]
    by_cases hu : u = t
    · subst hu
      simp
    · simp [modify_of_ne, hu, Ne.symm hu]

/-- **One step** keeps the invariant if it makes no waiting task ready behind the back of its
line. -/
theorem ClockInv.step (h : s.ClockInv) {a : ClockAction n M S C} (hok : s.SparesLines a)
    (hstep : s.clockStep a = some s') : s'.ClockInv := by
  obtain ⟨line, hsound⟩ := h.lines
  cases a with
  | sync a =>
    obtain ⟨-, hrest⟩ := Option.ite_none_right_eq_some.mp hstep
    obtain ⟨sync, hsync, rfl⟩ := Option.map_eq_some_iff.mp hrest
    refine ⟨hsound.step hok hsync, fun t w htimed hsignalled => ?_⟩
    obtain ⟨hbefore, hnow⟩ := Bool.or_eq_false_iff.mp hsignalled
    obtain ⟨hwaits, hpending⟩ := h.timedWaits t w htimed hbefore
    rcases hsound.waits_step hsync hwaits with ⟨hwaits', hpending'⟩ | ⟨u, c, rfl, htaken, hserves⟩
    · exact ⟨hwaits', hpending'.trans hpending⟩
    · -- Nothing else takes a task from the line of a condition variable.
      rw [hpending] at hserves
      have hmem := mem_signals htaken hserves
      simp [hmem] at hnow
  | sleep t ms =>
    obtain ⟨hfree, hrest⟩ := Option.ite_none_right_eq_some.mp hstep
    cases hrest
    refine ⟨⟨line, hsound.relabel ?_ rfl rfl fun u _ hready => ?_⟩, h.timedWaits⟩
    · exact hsound.queues.congr (fun q => by cases q <;> rfl) fun u => (taskSleep_spec _ ms u).1
    · have hstate := (taskSleep_spec (s.sync.mem.dispatch t).kernel.sys ms u).2
      change ((taskSleep (s.sync.mem.dispatch t).kernel.sys ms).1.taskList u).state = .ready
        at hready
      rw [hstate] at hready
      split at hready
      · cases hready
      · exact hready
  | timedWait t c m timeout now =>
    obtain ⟨hfree, hrest⟩ := Option.ite_none_right_eq_some.mp hstep
    obtain ⟨sync, hcritical, rfl⟩ := Option.map_eq_some_iff.mp hrest
    have hready : s.sync.mem.state t = .ready := hfree.1.1
    have hsync : s.sync.syncStep (.call t (.conditionWait c m)) = some sync := by
      rw [SyncSystem.syncStep, if_pos hfree.1, hcritical]
    refine ⟨hsound.critical hready hcritical, fun u w htimed hsignalled => ?_⟩
    by_cases hu : u = t
    · subst hu
      obtain rfl : (⟨c, m, now, timeout⟩ : TimedWait M C) = w := by simpa using htimed
      obtain ⟨⟨mem, place⟩, hperform, rfl⟩ := Option.map_eq_some_iff.mp hcritical
      obtain ⟨⟨sys, queue⟩, -, hresult⟩ := Option.map_eq_some_iff.mp hperform
      cases hresult
      have htaken := hsound.not_taken hready (.conditionWait c m)
      simp [SyncSystem.settle, htaken]
    · dsimp only at htimed hsignalled
      rw [Function.update_of_ne hu] at htimed hsignalled
      obtain ⟨hwaits, hpending⟩ := h.timedWaits u w htimed hsignalled
      rcases hsound.waits_step hsync hwaits with ⟨hwaits', hpending'⟩ | ⟨v, c', hcall, -, hserves⟩
      · exact ⟨hwaits', hpending'.trans hpending⟩
      · cases hcall
        rw [hpending] at hserves
        cases hserves
  | timedReturn t now =>
    obtain ⟨hcall, hrest⟩ := Option.ite_none_right_eq_some.mp hstep
    obtain ⟨w, hw, rfl⟩ := Option.map_eq_some_iff.mp hrest
    refine ⟨h.lines, fun u w' htimed hsignalled => ?_⟩
    by_cases hu : u = t
    · subst hu
      simp at htimed
    · exact h.timedWaits u w' (by simpa [hu] using htimed) hsignalled
  | timerIrq now =>
    obtain ⟨k, htick, rfl⟩ := Option.map_eq_some_iff.mp hstep
    have hinv : ClockInv { s with systemTicks := wrap32 (s.systemTicks + 1) } :=
      ⟨h.lines, h.timedWaits⟩
    exact hinv.withKernel (schedulerTick_wakes htick).2 hok
  | setPolicy policy now =>
    obtain ⟨k, hpolicy, rfl⟩ := Option.map_eq_some_iff.mp hstep
    exact h.withKernel (schedulerSetPolicy_wakes hpolicy).2 hok

/-- A task is not ready, and in no line. -/
def Asleep (s : ClockSystem n M S C) (t : Fin n) : Prop :=
  s.sync.mem.state t ≠ .ready ∧ s.sync.waits t = false

/-- A step of the synchronisation calls wakes no task that stands in no line, but to resume or to
release it. -/
theorem asleep_sync {s s' : SyncSystem n M S C} {line : WaitQueue M S C → List (Fin n)}
    (h : s.Sound line) {a : SyncAction n M S C} (hasleep : s.mem.state t ≠ .ready)
    (hwaits : s.waits t = false)
    (hresume : a = .resume (some t) → s.mem.state t ≠ .suspended)
    (hrelease : ∀ now, a = .updateDeadlines now →
      ¬ ReleasedAt s.mem.kernel.rt s.mem.kernel.sys now t)
    (hstep : s.syncStep a = some s') : s'.mem.state t ≠ .ready ∧ s'.waits t = false := by
  have busy {u} (hready : s.mem.state u = .ready) : t ≠ u := by
    rintro rfl
    exact hasleep hready
  -- A critical section of another task takes `t` from no line.
  have critical {u c} (hready : s.mem.state u = .ready) (hcritical : s.critical u c = some s') :
      s'.mem.state t ≠ .ready ∧ s'.waits t = false := by
    obtain ⟨⟨mem, place⟩, hperform, rfl⟩ := Option.map_eq_some_iff.mp hcritical
    have htaken : t ∉ (s.mem.dispatch u).taken c := by
      intro ht
      have hdispatch : (s.mem.dispatch u).Queues line :=
        h.queues.congr (fun q => by cases q <;> rfl) fun u => rfl
      obtain ⟨q, -, hline⟩ := hdispatch.mem_of_taken ht
      exact Bool.false_ne_true (hwaits.symm.trans ((h.waiting q t).mp hline).1)
    have hstate := SyncMemory.perform_state hperform rfl t
    constructor
    · change mem.state t ≠ .ready
      rw [hstate, if_neg htaken, if_neg fun hu => busy hready hu.1]
      exact hasleep
    · simp [SyncSystem.settle, busy hready, hwaits]
  cases a with
  | call u c =>
    obtain ⟨hcall, hcritical⟩ := Option.ite_none_right_eq_some.mp hstep
    exact critical hcall.1 hcritical
  | wake u =>
    obtain ⟨hready, hrest⟩ := Option.ite_none_right_eq_some.mp hstep
    split at hrest
    · cases hrest
    · exact critical hready hrest
    · cases hrest
      exact ⟨hasleep, by simp [SyncSystem.settle, busy hready, hwaits]⟩
  | suspend u =>
    cases hstep
    refine ⟨fun hready => ?_, hwaits⟩
    rcases (taskSuspend_spec s.mem.kernel.sys t u).2 with hsame | hsuspended
    · exact hasleep (hsame.symm.trans hready)
    · cases hsuspended.symm.trans hready
  | resume u =>
    cases hstep
    refine ⟨fun hready => ?_, hwaits⟩
    change ((taskResume s.mem.kernel.sys u).taskList t).state = .ready at hready
    rw [SyncSystem.resume_state] at hready
    split at hready
    · rename_i hresumed
      exact hresume (by rw [hresumed.1]) hresumed.2
    · exact hasleep hready
  | updateDeadlines now =>
    obtain ⟨sys, hupdate, rfl⟩ := Option.map_eq_some_iff.mp hstep
    refine ⟨fun hready => ?_, hwaits⟩
    rcases (updateDeadlines_ready hupdate t).2.mp hready with hbefore | hreleased
    · exact hasleep hbefore
    · exact hrelease now rfl hreleased

omit [DecidableEq M] [DecidableEq S] [DecidableEq C] in
theorem asleep_withKernel {k : Sched.Kernel n} {released : Fin n → Prop} (h : s.Asleep t)
    (hwakes : Wakes released s.sync.mem.kernel.sys k.sys) (hfree : ¬ released t) :
    (s.withKernel k).Asleep t :=
  ⟨fun hready => (hwakes.ready t hready).elim h.1 hfree, h.2⟩

/-- **One step** wakes no task that sleeps, but to resume or to release it. -/
theorem Asleep.step (h : s.Asleep t) (hinv : s.ClockInv) {a : ClockAction n M S C}
    (hfree : ¬ s.Frees t a) (hstep : s.clockStep a = some s') : s'.Asleep t := by
  obtain ⟨line, hsound⟩ := hinv.lines
  cases a with
  | sync a =>
    obtain ⟨-, hrest⟩ := Option.ite_none_right_eq_some.mp hstep
    obtain ⟨sync, hsync, rfl⟩ := Option.map_eq_some_iff.mp hrest
    refine asleep_sync hsound h.1 h.2 ?_ ?_ hsync
    · rintro rfl hsuspended
      exact hfree ⟨rfl, hsuspended⟩
    · rintro now rfl hreleased
      exact hfree hreleased
  | sleep u ms =>
    obtain ⟨-, hrest⟩ := Option.ite_none_right_eq_some.mp hstep
    cases hrest
    refine ⟨fun hready => ?_, h.2⟩
    have hstate := (taskSleep_spec (s.sync.mem.dispatch u).kernel.sys ms t).2
    change ((taskSleep (s.sync.mem.dispatch u).kernel.sys ms).1.taskList t).state = .ready at hready
    rw [hstate] at hready
    split at hready
    · cases hready
    · exact h.1 hready
  | timedWait u c m timeout now =>
    obtain ⟨hfreeu, hrest⟩ := Option.ite_none_right_eq_some.mp hstep
    obtain ⟨sync, hcritical, rfl⟩ := Option.map_eq_some_iff.mp hrest
    have hsync : s.sync.syncStep (.call u (.conditionWait c m)) = some sync := by
      rw [SyncSystem.syncStep, if_pos hfreeu.1, hcritical]
    exact asleep_sync (a := .call u (.conditionWait c m)) hsound h.1 h.2
      (fun hcall => nomatch hcall) (fun _ hcall => nomatch hcall) hsync
  | timedReturn u now =>
    obtain ⟨-, hrest⟩ := Option.ite_none_right_eq_some.mp hstep
    obtain ⟨w, -, rfl⟩ := Option.map_eq_some_iff.mp hrest
    exact h
  | timerIrq now =>
    obtain ⟨k, htick, rfl⟩ := Option.map_eq_some_iff.mp hstep
    have hsame : Asleep { s with systemTicks := wrap32 (s.systemTicks + 1) } t := h
    exact asleep_withKernel hsame (schedulerTick_wakes htick).2 hfree
  | setPolicy policy now =>
    obtain ⟨k, hpolicy, rfl⟩ := Option.map_eq_some_iff.mp hstep
    exact asleep_withKernel h (schedulerSetPolicy_wakes hpolicy).2 hfree

/-! ### Runs -/

omit [DecidableEq M] [DecidableEq S] [DecidableEq C] in
theorem start_clockInv (s : ClockSystem n M S C) (name : M → List UInt8) (initialCount : S → Int)
    (semName : S → List UInt8) : (s.start name initialCount semName).ClockInv :=
  ⟨SyncSystem.start_inLines s.sync.mem name initialCount semName, fun _ _ h => nomatch h⟩

/-- **A sleep never ends by itself.** After `task_sleep`, whatever its argument, through any calls
and any number of timer interrupts under any policy, the task is not ready before it is resumed or
released as a real-time task. -/
theorem sleep_never_ends (s₀ : ClockSystem n M S C) (name : M → List UInt8)
    (initialCount : S → Int) (semName : S → List UInt8) (ms : Nat)
    (before after : List (ClockAction n M S C)) {s₁ s₂ s₃ : ClockSystem n M S C}
    (hbefore : run clockStep (s₀.start name initialCount semName) before = some s₁)
    (hspares : Meets clockStep SparesLines (s₀.start name initialCount semName) before)
    (hsleep : s₁.clockStep (.sleep t ms) = some s₂)
    (hafter : run clockStep s₂ after = some s₃)
    (hfree : Meets clockStep (fun s a => s.SparesLines a ∧ ¬ s.Frees t a) s₂ after) :
    s₃.sync.mem.state t ≠ .ready := by
  have hinv : s₁.ClockInv :=
    (along_of_meets (fun _ _ _ h hok hstep => h.step hok hstep)
      (start_clockInv s₀ name initialCount semName) hspares).last hbefore
  have hinv' : s₂.ClockInv := hinv.step (a := .sleep t ms) trivial hsleep
  have hasleep : s₂.Asleep t := by
    obtain ⟨hready, hrest⟩ := Option.ite_none_right_eq_some.mp hsleep
    cases hrest
    obtain ⟨line, hsound⟩ := hinv.lines
    constructor
    · change ((taskSleep (s₁.sync.mem.dispatch t).kernel.sys ms).1.taskList t).state ≠ .ready
      have hcurrent : (s₁.sync.mem.dispatch t).kernel.sys.currentTask = some t := rfl
      rw [(taskSleep_spec _ ms t).2, if_pos hcurrent]
      exact nofun
    · exact Bool.eq_false_of_not_eq_true fun hwaits => (hsound.stopped t hwaits).1 hready.1.1
  have hkept : Along clockStep (fun s => s.ClockInv ∧ s.Asleep t) s₂ after :=
    along_of_meets
      (fun _ _ _ h hok hstep => ⟨h.1.step hok.1 hstep, h.2.step h.1 hok.2 hstep⟩)
      ⟨hinv', hasleep⟩ hfree
  exact (hkept.last hafter).2.1

/-- Two ready tasks under the feedback policy, whose queues are empty. -/
def twoTaskClock : ClockSystem 2 Unit Unit Unit where
  sync := ⟨SyncSystem.twoTaskMemory, fun _ => none, fun _ => false, fun _ => none⟩
  mlfq := ⟨fun _ => ⟨none, none, 0, 0⟩, 100, 0⟩
  fair := ⟨⟨fun _ => ⟨none, none, none, .red⟩, none⟩, fun _ => ⟨0, 0, 0, 0, 0, Fin.last 1⟩, 0⟩
  schedulerState := .running
  currentPolicy := .mlfq
  stats := ⟨0, 0, 0, 0⟩
  systemTicks := 0
  timed := fun _ => none
  result := fun _ => none
  signalled := fun _ => false

/-- Task 0 sleeps for 3 ms; a second later, when task 1 runs on, it is not ready. -/
theorem sleep_never_ends_second :
    ∃ s₂ s₃, clockStep (twoTaskClock.start (fun _ => []) (fun _ => 0) fun _ => []) (.sleep 0 3) =
        some s₂ ∧
      run clockStep s₂ [.timerIrq 1000, .sync (.call 1 (.mutexLock ()))] = some s₃ ∧
      s₃.sync.mem.state 0 ≠ .ready := by
  have hends : ((clockStep (twoTaskClock.start (fun _ => []) (fun _ => 0) fun _ => [])
      (.sleep 0 3)).bind fun s =>
        run clockStep s [.timerIrq 1000, .sync (.call 1 (.mutexLock ()))]).isSome = true := by
    decide
  obtain ⟨s₃, hrun⟩ := Option.isSome_iff_exists.mp hends
  obtain ⟨s₂, hsleep, hafter⟩ := Option.bind_eq_some_iff.mp hrun
  have hpolicy : s₂.kernel.currentPolicy = .mlfq := by
    have hstep := congrArg (Option.map ClockSystem.currentPolicy) hsleep
    exact (Option.some.inj hstep).symm
  have hnone : ∀ u, ¬ ReleasedUnder s₂.kernel 1000 u := fun u hu => nomatch hpolicy.symm.trans hu.1
  refine ⟨s₂, s₃, hsleep, hafter, sleep_never_ends twoTaskClock (fun _ => []) (fun _ => 0)
    (fun _ => []) 3 [] _ rfl trivial hsleep hafter ?_⟩
  exact fun s _ => ⟨⟨fun u _ => hnone u, hnone 0⟩, fun _ _ => ⟨⟨trivial, id⟩, trivial⟩⟩

/-- **A timed wait needs a signal.** `condition_timedwait` returns only to a task that a signal or
a broadcast took from the line since it called, and then reports whether it was in time. -/
theorem timedwait_needs_signal (s₀ : ClockSystem n M S C) (name : M → List UInt8)
    (initialCount : S → Int) (semName : S → List UInt8) (now : Nat)
    {actions : List (ClockAction n M S C)} {s₁ s₂ : ClockSystem n M S C}
    (hrun : run clockStep (s₀.start name initialCount semName) actions = some s₁)
    (hspares : Meets clockStep SparesLines (s₀.start name initialCount semName) actions)
    (hreturn : s₁.clockStep (.timedReturn t now) = some s₂) :
    s₁.signalled t = true ∧ ∃ w, s₁.timed t = some w ∧ s₂.result t = some (inTime w now) := by
  have hinv : s₁.ClockInv :=
    (along_of_meets (fun _ _ _ h hok hstep => h.step hok hstep)
      (start_clockInv s₀ name initialCount semName) hspares).last hrun
  obtain ⟨hcall, hrest⟩ := Option.ite_none_right_eq_some.mp hreturn
  obtain ⟨w, hw, rfl⟩ := Option.map_eq_some_iff.mp hrest
  refine ⟨?_, w, hw, by simp⟩
  by_contra hnot
  obtain ⟨hwaits, hpending⟩ := hinv.timedWaits t w hw (Bool.eq_false_of_not_eq_true hnot)
  have hnone := hcall.2
  rw [hpending] at hnone
  cases hnone

/-- Task 0 waits for 10 ticks from tick 5 and is signalled; it returns at tick 20, too late. -/
theorem timedwait_needs_signal_late :
    ∃ s₁ s₂, run clockStep (twoTaskClock.start (fun _ => []) (fun _ => 0) fun _ => [])
        [.sync (.call 0 (.mutexLock ())), .timedWait 0 () () 10 5,
          .sync (.call 1 (.conditionSignal ())), .sync (.wake 0)] = some s₁ ∧
      s₁.clockStep (.timedReturn 0 20) = some s₂ ∧
      s₁.signalled 0 = true ∧ ∃ w, s₁.timed 0 = some w ∧ s₂.result 0 = some (inTime w 20) := by
  have hends : ((run clockStep (twoTaskClock.start (fun _ => []) (fun _ => 0) fun _ => [])
      [.sync (.call 0 (.mutexLock ())), .timedWait 0 () () 10 5,
        .sync (.call 1 (.conditionSignal ())), .sync (.wake 0)]).bind fun s =>
        s.clockStep (.timedReturn 0 20)).isSome = true := by decide
  obtain ⟨s₂, hall⟩ := Option.isSome_iff_exists.mp hends
  obtain ⟨s₁, hrun, hreturn⟩ := Option.bind_eq_some_iff.mp hall
  refine ⟨s₁, s₂, hrun, hreturn, timedwait_needs_signal twoTaskClock (fun _ => []) (fun _ => 0)
    (fun _ => []) 20 hrun ?_ hreturn⟩
  exact fun _ _ => ⟨trivial, fun _ _ => ⟨trivial, fun _ _ => ⟨trivial, fun _ _ =>
    ⟨trivial, trivial⟩⟩⟩⟩

end ClockSystem

end ArmKernel.Sync

/-
The mutex under task control: `task_suspend`, `task_resume`, `task_delete` and
`scheduler_update_deadlines` between the calls on the mutexes.

`mutex_lock` takes "I am running again" for "I own the mutex". That holds as long
as a waiting task becomes ready by the hand-off only; `task_resume` makes any
suspended task ready and the release loop any blocked one, whatever they wait for.

`exclusive_iff_waiters_spared` says exactly when mutual exclusion survives: the
runs that keep it are those in which no control call makes a task ready while it
stands in the queue of a mutex. `resume_breaks_exclusion` is a run that does not.
-/
import ArmKernel.Sync.HandOff

namespace ArmKernel.Sync

open ArmKernel.Support ArmKernel.Tasks ArmKernel.Sched

/-- The calls of other modules that write `task->state`, from a task or from an
interrupt, on any task. `now` is the tick counter. -/
inductive Control (n : Nat) where
  | suspend (t : Option (Fin n))
  | resume (t : Option (Fin n))
  | delete (t : Option (Fin n))
  | updateDeadlines (now : Nat)
deriving DecidableEq

/-- A step of the system: a mutex call or a control call. -/
inductive Action (n : Nat) (M : Type) where
  | call (c : Call (Fin n) M)
  | control (c : Control n)

namespace System

variable {n : Nat} {M : Type}

/-- The task table after a control call; `none` when the release loop does not end
or meets a task without real-time parameters. -/
def controlSys (k : Kernel n M) : Control n → Option (TaskSys n)
  | .suspend t => some (taskSuspend k.sys t).1
  | .resume t => some (taskResume k.sys t)
  | .delete t => some (taskDelete k.sys t).1
  | .updateDeadlines now => schedulerUpdateDeadlines k.rt k.sys now

/-- One control call. -/
def controlStep (s : System n M) (c : Control n) : Option (System n M) :=
  (controlSys s.kernel c).map fun sys => { s with kernel := { s.kernel with sys } }

/-- One step of the system. -/
def step [DecidableEq M] (s : System n M) : Action n M → Option (System n M)
  | .call c => s.callStep c
  | .control c => s.controlStep c

/-- `t` stands in the `waiting_tasks` list of some mutex. -/
def Waiting (s : System n M) (t : Fin n) : Prop :=
  ∃ m, InLine s.kernel.sys.taskList (s.mutex m).waitingTasks t

/-- The control call makes `t` ready: it resumes the suspended `t`, or it releases
the blocked `t` of the real-time list. -/
def MakesReady (s : System n M) : Control n → Fin n → Prop
  | .resume u, t => u = some t ∧ (s.task t).state = .suspended
  | .updateDeadlines now, t =>
    OnChain (nextOf s.kernel.sys.taskList) s.kernel.rt.rtTasks t ∧
      (s.task t).state = .blocked ∧ Due now (s.task t)
  | .suspend _, _ | .delete _, _ => False

/-- The step makes no waiting task ready. -/
def SparesWaiters (s : System n M) : Action n M → Prop
  | .call _ => True
  | .control c => ∀ t, s.MakesReady c t → ¬ s.Waiting t

/-- Mutual exclusion: the scheduler comes back to a `mutex_lock` call only for the
owner, two tasks are never both inside, and no waiting task is ready. -/
structure Exclusive (s : System n M) : Prop where
  returns_to_owner : ∀ t m, s.pending t = some m → (s.task t).state = .ready →
    (s.mutex m).owner = some t
  one_inside : ∀ m t u, s.holds m t = true → s.holds m u = true → t = u
  waiting_not_ready : ∀ t, s.Waiting t → (s.task t).state ≠ .ready

/-- The memory represents a lock system in order. -/
def Ordered (s : System n M) : Prop := ∃ line, s.Represents line ∧ (s.spec line).Inv

variable {s s' : System n M}

theorem Represents.waiting_iff {line : M → List (Fin n)} (h : s.Represents line) (t : Fin n) :
    s.Waiting t ↔ ∃ m, t ∈ line m :=
  exists_congr fun m => (h.queued m).inLine_iff

theorem Ordered.exclusive (h : s.Ordered) : s.Exclusive := by
  obtain ⟨line, hrep, hinv⟩ := h
  refine ⟨fun t m => hinv.returns_to_owner, fun m t u => hinv.exclusive, ?_⟩
  intro t hw
  obtain ⟨m, hmem⟩ := (hrep.waiting_iff t).mp hw
  exact hinv.waiting m t hmem

/-- A control call changes states only, and makes ready the tasks it should. -/
theorem controlSys_spec {k : Kernel n M} {c : Control n} {sys : TaskSys n}
    (h : controlSys k c = some sys) (s : System n M) (hs : s.kernel = k) (t : Fin n) :
    (sys.taskList t).nextWait = (s.task t).nextWait ∧
      ((sys.taskList t).state = .ready → (s.task t).state = .ready ∨ s.MakesReady c t) ∧
      (s.MakesReady c t → (sys.taskList t).state = .ready) := by
  subst hs
  cases c with
  | suspend u =>
    cases Option.some.inj h
    obtain ⟨hlink, hstate | hstate⟩ := taskSuspend_spec s.kernel.sys t u
    · exact ⟨hlink, fun hready => .inl (hstate ▸ hready), False.elim⟩
    · exact ⟨hlink, fun hready => (by simp [hstate] at hready), False.elim⟩
  | delete u =>
    cases Option.some.inj h
    obtain ⟨hlink, hstate | hstate⟩ := taskDelete_spec s.kernel.sys t u
    · exact ⟨hlink, fun hready => .inl (hstate ▸ hready), False.elim⟩
    · exact ⟨hlink, fun hready => (by simp [hstate] at hready), False.elim⟩
  | resume u =>
    cases Option.some.inj h
    cases u with
    | none => simp [taskResume, task, MakesReady]
    | some u =>
      simp only [taskResume, MakesReady, Option.some.injEq]
      by_cases hsusp : (s.kernel.sys.taskList u).state = .suspended
      · by_cases hu : u = t
        · subst hu; simp [hsusp, setState_state, task]
        · simp [hsusp, setState_state, task, hu, Ne.symm hu]
      · simp only [if_neg hsusp]
        refine ⟨rfl, .inl, ?_⟩
        rintro ⟨rfl, h'⟩
        exact absurd h' hsusp
  | updateDeadlines now =>
    obtain ⟨l, hchain, rfl⟩ := update_deadlines_spec h
    by_cases hl : t ∈ l
    · have hon := hchain.onChain_iff.mpr hl
      simp only [hl, if_true, refresh_nextWait, true_and, refresh_state, MakesReady, task, hon]
      exact ⟨id, .inr⟩
    · have hon : ¬ OnChain (nextOf s.kernel.sys.taskList) s.kernel.rt.rtTasks t :=
        fun hon => hl (hchain.onChain_iff.mp hon)
      simp [hl, MakesReady, task, hon]

/-- A control call leaves the queues alone. -/
theorem controlStep_represents {line : M → List (Fin n)} (hrep : s.Represents line)
    {c : Control n} (h : s.controlStep c = some s') :
    s'.Represents line ∧
      s'.spec line = (s.spec line).withState fun t => (s'.task t).state := by
  obtain ⟨sys, hsys, rfl⟩ := Option.map_eq_some_iff.mp h
  refine ⟨⟨?_, hrep.locked⟩, rfl⟩
  intro m
  exact hrep.queued_of m fun t _ => (controlSys_spec hsys s rfl t).1

theorem waiting_of_controlStep {c : Control n} (hord : s.Ordered)
    (h : s.controlStep c = some s') (t : Fin n) : s'.Waiting t ↔ s.Waiting t := by
  obtain ⟨line, hrep, -⟩ := hord
  rw [hrep.waiting_iff, (controlStep_represents hrep h).1.waiting_iff]

variable [DecidableEq M]

/-- A step that spares the waiting tasks keeps the order. -/
theorem Ordered.step (h : s.Ordered) {a : Action n M} (hok : s.SparesWaiters a)
    (hstep : s.step a = some s') : s'.Ordered := by
  obtain ⟨line, hrep, hinv⟩ := id h
  cases a with
  | call c =>
    obtain ⟨line', hrep', hmove⟩ := callStep_refines hrep hinv hstep
    exact ⟨line', hrep', hinv.step hmove⟩
  | control c =>
    obtain ⟨hrep', hspec⟩ := controlStep_represents hrep hstep
    refine ⟨line, hrep', ?_⟩
    rw [hspec, hinv.withState]
    intro m t hmem hready
    obtain ⟨sys, hsys, rfl⟩ := Option.map_eq_some_iff.mp hstep
    rcases (controlSys_spec hsys s rfl t).2.1 hready with hbefore | hmade
    · exact hinv.waiting m t hmem hbefore
    · exact hok t hmade ((hrep.waiting_iff t).mpr ⟨m, hmem⟩)

/-- A step that makes a waiting task ready leaves mutual exclusion. -/
theorem Ordered.broken (h : s.Ordered) {a : Action n M} (hbad : ¬ s.SparesWaiters a)
    (hstep : s.step a = some s') : ¬ s'.Exclusive := by
  intro hex
  cases a with
  | call c => exact hbad trivial
  | control c =>
    apply hbad
    intro t hmade hwait
    have hwait' : s'.Waiting t := (waiting_of_controlStep h hstep t).mpr hwait
    obtain ⟨sys, hsys, rfl⟩ := Option.map_eq_some_iff.mp hstep
    exact hex.waiting_not_ready t hwait' ((controlSys_spec hsys s rfl t).2.2 hmade)

omit [DecidableEq M] in
theorem start_ordered (k : Kernel n M) (name : M → List UInt8) : (start k name).Ordered :=
  ⟨_, start_represents k name, start_inv k name⟩

/-- **When mutual exclusion survives task control.** A run of mutex calls and
control calls keeps mutual exclusion in every state exactly when none of its
control calls makes a task ready while it stands in the queue of a mutex. -/
theorem exclusive_iff_waiters_spared (k : Kernel n M) (name : M → List UInt8)
    (actions : List (Action n M)) :
    Along step Exclusive (start k name) actions ↔
      Meets step SparesWaiters (start k name) actions :=
  along_iff_meets (fun _ h => h.exclusive) (fun _ _ _ h hok hstep => h.step hok hstep)
    (fun _ _ _ h hbad hstep => h.broken hbad hstep) (start_ordered k name) actions

/-- Task 1 waits for the mutex of task 0 and is suspended and resumed: its
`mutex_lock` returns, and both tasks are inside. -/
theorem resume_breaks_exclusion :
    (∃ s, run step (start twoTasks fun _ => [])
        [.call (.lock 0 ()), .call (.lock 1 ()), .control (.suspend (some 1)),
          .control (.resume (some 1)), .call (.wake 1)] = some s ∧
      s.holds () 0 = true ∧ s.holds () 1 = true) ∧
    ¬ ∀ actions, Along step Exclusive (start twoTasks fun _ => []) actions := by
  have hends : (run step (start twoTasks fun _ => [])
      [.call (.lock 0 ()), .call (.lock 1 ()), .control (.suspend (some 1)),
        .control (.resume (some 1)), .call (.wake 1)]).map
        (fun s => (s.holds () 0, s.holds () 1)) = some (true, true) := by decide
  obtain ⟨s, hrun, hfacts⟩ := Option.map_eq_some_iff.mp hends
  obtain ⟨h0, h1⟩ := Prod.mk.inj hfacts
  refine ⟨⟨s, hrun, h0, h1⟩, ?_⟩
  intro hall
  have hex : s.Exclusive := (hall _).last hrun
  exact absurd (hex.one_inside () 0 1 h0 h1) (by decide)

end System

end ArmKernel.Sync

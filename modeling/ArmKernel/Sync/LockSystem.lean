/-
Tasks calling the mutex functions, in any order.

`System` is the kernel memory together with what the tasks are doing: the
`mutex_lock` call a task sits in, and, as history, who holds a mutex and in which
order tasks blocked and were granted one. `callStep` lets one task make one call:
the scheduler picks a task that is `TASK_READY` and makes it current, so every
list of calls is one interleaving. A task that blocked in `mutex_lock` goes on by
`wake`, when the scheduler comes back to it; that is where the call returns.

`callStep_refines` shows that each call is a move of `LockSpec`, the pointer queue
of a mutex playing the line of its lock. `callStep_of_enabled` shows that a call that
may be made does not fault and does not loop.
-/
import ArmKernel.Sync.LockSpec
import ArmKernel.Sync.Mutex

namespace ArmKernel.Sync

open ArmKernel.Support ArmKernel.Tasks

variable {n : Nat} {M : Type}

/-- The kernel and the tasks that run on it. -/
structure System (n : Nat) (M : Type) where
  kernel : Kernel n M
  pending : Fin n → Option M
  holds : M → Fin n → Bool
  blockedOrder : M → List (Fin n)
  grantedOrder : M → List (Fin n)

namespace System

/-- The control block of a task. -/
def task (s : System n M) (t : Fin n) : Task n := s.kernel.sys.taskList t

/-- A mutex. -/
def mutex (s : System n M) (m : M) : Mutex n := s.kernel.mutexes m

/-- The scheduler makes `t` the current task. -/
def dispatch (s : System n M) (t : Fin n) : Kernel n M :=
  { s.kernel with sys := { s.kernel.sys with currentTask := some t } }

/-- `t` is ready and outside every `mutex_lock` call. -/
def CanCall (s : System n M) (t : Fin n) : Prop :=
  (s.task t).state = .ready ∧ s.pending t = none

instance (s : System n M) (t : Fin n) : Decidable (s.CanCall t) := by
  unfold CanCall
  cases s.pending t <;> infer_instance

/-- All mutexes as `mutex_init` leaves them, no call under way. -/
def start (k : Kernel n M) (name : M → List UInt8) : System n M where
  kernel := { k with mutexes := fun m => mutexInit n (name m) }
  pending := fun _ => none
  holds := fun _ _ => false
  blockedOrder := fun _ => []
  grantedOrder := fun _ => []

/-- The lock system the memory represents, given the lines behind the queues. -/
def spec (s : System n M) (line : M → List (Fin n)) : LockSpec (Fin n) M where
  state := fun t => (s.task t).state
  owner := fun m => (s.mutex m).owner
  line := line
  pending := s.pending
  holds := s.holds
  blockedOrder := s.blockedOrder
  grantedOrder := s.grantedOrder

/-- The queue of each mutex holds its line, and `locked` says whether there is an
owner. -/
structure Represents (s : System n M) (line : M → List (Fin n)) : Prop where
  queued : ∀ m, Queued s.kernel.sys.taskList (s.mutex m).waitingTasks (line m)
  locked : ∀ m, (s.mutex m).locked = (s.mutex m).owner.isSome.toNat

variable {s s' : System n M} {line : M → List (Fin n)}

theorem Represents.locked_eq_zero_iff (h : s.Represents line) (m : M) :
    (s.mutex m).locked = 0 ↔ (s.mutex m).owner = none := by
  rw [h.locked m]
  cases (s.mutex m).owner <;> simp

/-- The queue of a mutex survives every update that keeps the links of its line. -/
theorem Represents.queued_of (h : s.Represents line) {tasks : Fin n → Task n} (m : M)
    (agree : ∀ t ∈ line m, (tasks t).nextWait = (s.task t).nextWait) :
    Queued tasks (s.mutex m).waitingTasks (line m) :=
  (h.queued m).frame agree

/-- Distinct mutexes have disjoint lines: a task waits in one call at a time. -/
theorem line_disjoint (hinv : (s.spec line).Inv) {m m' : M} {t : Fin n} (ht : t ∈ line m)
    (ht' : t ∈ line m') : m = m' :=
  Option.some.inj ((hinv.calling m t ht).symm.trans (hinv.calling m' t ht'))

/-! ### The start -/

theorem start_represents (k : Kernel n M) (name : M → List UInt8) :
    (start k name).Represents fun _ => [] where
  queued := fun _ => rfl
  locked := fun _ => rfl

theorem start_inv (k : Kernel n M) (name : M → List UInt8) :
    ((start k name).spec fun _ => []).Inv where
  nodup := fun _ => List.nodup_nil
  calling := fun _ _ h => nomatch h
  waiting := fun _ _ h => nomatch h
  granted := fun _ _ h => nomatch h
  holder := fun _ _ h => nomatch h
  free := fun _ _ => rfl
  order := fun _ => rfl

variable [DecidableEq M]

/-- One call by one task. -/
def callStep (s : System n M) : Call (Fin n) M → Option (System n M)
  | .lock t m =>
    if s.CanCall t then
      (mutexLock (s.dispatch t) (some m)).map fun (k, yields) =>
        if yields then
          { s with
            kernel := k
            pending := Function.update s.pending t (some m)
            blockedOrder := Function.update s.blockedOrder m (s.blockedOrder m ++ [t]) }
        else
          { s with
            kernel := k
            holds := Function.update s.holds m (Function.update (s.holds m) t true) }
    else none
  | .trylock t m =>
    if s.CanCall t then
      match mutexTrylock (s.dispatch t) (some m) with
      | (k, true) =>
        some { s with
          kernel := k
          holds := Function.update s.holds m (Function.update (s.holds m) t true) }
      | (k, false) => some { s with kernel := k }
    else none
  | .unlock t m =>
    if s.CanCall t then
      let k := mutexUnlock (s.dispatch t) (some m)
      if (s.mutex m).owner = some t then
        some { s with
          kernel := k
          holds := Function.update s.holds m (Function.update (s.holds m) t false)
          grantedOrder :=
            match (s.mutex m).waitingTasks with
            | some w => Function.update s.grantedOrder m (s.grantedOrder m ++ [w])
            | none => s.grantedOrder }
      else some { s with kernel := k }
    else none
  | .wake t =>
    if (s.task t).state = .ready then
      (s.pending t).map fun m =>
        { s with
          kernel := s.dispatch t
          pending := Function.update s.pending t none
          holds := Function.update s.holds m (Function.update (s.holds m) t true) }
    else none

/-! ### Each call is a move of the locks -/

section Refinement

variable {t : Fin n} {m : M}

/-- A call that rewrites the mutex `m` and the line behind it, and keeps the links
of the tasks in the other lines. -/
theorem Represents.update {s₁ : System n M} {x : Mutex n} {q : List (Fin n)}
    (hrep : s.Represents line)
    (hmutexes : s₁.kernel.mutexes = Function.update s.kernel.mutexes m x)
    (hqueued : Queued s₁.kernel.sys.taskList x.waitingTasks q)
    (hlocked : x.locked = x.owner.isSome.toNat)
    (hothers : ∀ m', m' ≠ m → ∀ u ∈ line m', (s₁.task u).nextWait = (s.task u).nextWait) :
    s₁.Represents (Function.update line m q) := by
  constructor
  · intro m'
    by_cases hm : m' = m
    · subst hm
      simpa [mutex, hmutexes] using hqueued
    · have : Queued s₁.kernel.sys.taskList (s.mutex m').waitingTasks (line m') :=
      hrep.queued_of m' (hothers m' hm)
      simpa [mutex, hmutexes, hm] using this
  · intro m'
    by_cases hm : m' = m
    · subst hm
      simpa [mutex, hmutexes] using hlocked
    · simpa [mutex, hmutexes, hm] using hrep.locked m'

/-- The owners after one mutex was rewritten. -/
theorem owner_update {s₁ : System n M} {x : Mutex n}
    (hmutexes : s₁.kernel.mutexes = Function.update s.kernel.mutexes m x) :
    (fun m' => (s₁.mutex m').owner) =
      Function.update (fun m' => (s.mutex m').owner) m x.owner := by
  funext m'
  by_cases hm : m' = m
  · subst hm; simp [mutex, hmutexes]
  · simp [mutex, hmutexes, hm]

/-- Taking a free mutex. -/
theorem acquire_represents (hrep : s.Represents line) :
    let s₁ : System n M :=
      { s with
        kernel := (s.dispatch t).setMutex m { s.mutex m with locked := 1, owner := some t }
        holds := Function.update s.holds m (Function.update (s.holds m) t true) }
    s₁.Represents line ∧ s₁.spec line = (s.spec line).acquire t m := by
  intro s₁
  have hmutexes : s₁.kernel.mutexes = Function.update s.kernel.mutexes m
      { s.mutex m with locked := 1, owner := some t } := rfl
  constructor
  · have := hrep.update (q := line m) hmutexes (hrep.queued m) (by simp) fun _ _ _ _ => rfl
    simpa using this
  · simp only [spec, LockSpec.acquire, LockSpec.setHolds, owner_update hmutexes]
    rfl

/-- `mutex_lock` on a free mutex takes it; on a taken one the caller blocks and
stands in line. -/
theorem lock_refines (hrep : s.Represents line) (hinv : (s.spec line).Inv)
    (hcall : s.CanCall t) : ∃ s₁ line₁, s.callStep (.lock t m) = some s₁ ∧
      s₁.Represents line₁ ∧ LockSpec.Step (s.spec line) (.lock t m) (s₁.spec line₁) := by
  have hlockedIff := hrep.locked_eq_zero_iff m
  by_cases hfree : (s.mutex m).owner = none
  · obtain ⟨hrep₁, hspec⟩ := acquire_represents (t := t) (m := m) hrep
    have hlocked : ((s.dispatch t).mutexes m).locked = 0 := hlockedIff.mpr hfree
    refine ⟨_, line, ?_, hrep₁, ?_⟩
    · simp only [callStep, if_pos hcall, mutexLock, if_pos hlocked, Option.map_some]
      rfl
    · rw [hspec]
      exact .lockFree hcall hfree
  · have hlocked : ¬ ((s.dispatch t).mutexes m).locked = 0 := fun h0 => hfree (hlockedIff.mp h0)
    have hmem : ∀ m', t ∉ line m' := hinv.not_mem_line hcall
    have hqueued : Queued ((s.dispatch t).sys.setState t .blocked).taskList
        (s.mutex m).waitingTasks (line m) :=
      hrep.queued_of m fun u _ => by simp [dispatch, task]
    obtain ⟨tasks, head, hadd, hq, hstate, hlinks⟩ := add_to_wait_queue_spec hqueued (hmem m)
    have hadd' : addToWaitQueue ((s.dispatch t).sys.setState t .blocked).taskList
        ((s.dispatch t).mutexes m).waitingTasks t = some (tasks, head) := hadd
    let s₁ : System n M :=
      { s with
        kernel :=
          { (s.dispatch t).setMutex m { s.mutex m with waitingTasks := head } with
            sys := { (s.dispatch t).sys.setState t .blocked with taskList := tasks }
            stats :=
              { s.kernel.stats with
                mutexContentions := wrap32 (s.kernel.stats.mutexContentions + 1) } }
        pending := Function.update s.pending t (some m)
        blockedOrder := Function.update s.blockedOrder m (s.blockedOrder m ++ [t]) }
    have hmutexes : s₁.kernel.mutexes = Function.update s.kernel.mutexes m
        { s.mutex m with waitingTasks := head } := rfl
    refine ⟨s₁, Function.update line m (line m ++ [t]), ?_, ?_, ?_⟩
    · simp only [callStep, if_pos hcall, mutexLock, if_neg hlocked]
      change (Option.map _ (Option.map _ (addToWaitQueue _ _ _))) = _
      rw [hadd']
      rfl
    · refine hrep.update hmutexes hq (hrep.locked m) fun m' hm u hu => ?_
      -- A task in another line is neither the caller nor in the line of `m`.
      have hut : u ≠ t := fun e => hmem m' (e ▸ hu)
      have hul : u ∉ line m := fun hu' => hm (line_disjoint hinv hu hu')
      have := hlinks u hut hul
      simpa [s₁, task, dispatch] using this
    · have hstates : (fun u => (s₁.task u).state) =
          Function.update (fun u => (s.task u).state) t .blocked := by
        funext u
        have := hstate u
        rw [setState_state] at this
        by_cases hu : u = t
        · subst hu; simpa [s₁, task] using this
        · simpa [s₁, task, dispatch, hu] using this
      have hspec : s₁.spec (Function.update line m (line m ++ [t])) =
          (s.spec line).enqueue t m := by
        simp only [spec, LockSpec.enqueue, hstates, owner_update hmutexes]
        congr 1
        exact Function.update_eq_self m _
      rw [hspec]
      exact .lockTaken hcall hfree

/-- `mutex_trylock` takes a free mutex and leaves a taken one alone. -/
theorem trylock_refines (hrep : s.Represents line) (hcall : s.CanCall t) :
    ∃ s₁ line₁, s.callStep (.trylock t m) = some s₁ ∧
      s₁.Represents line₁ ∧ LockSpec.Step (s.spec line) (.trylock t m) (s₁.spec line₁) := by
  have hlockedIff := hrep.locked_eq_zero_iff m
  by_cases hfree : (s.mutex m).owner = none
  · obtain ⟨hrep₁, hspec⟩ := acquire_represents (t := t) (m := m) hrep
    have hlocked : ((s.dispatch t).mutexes m).locked = 0 := hlockedIff.mpr hfree
    refine ⟨_, line, ?_, hrep₁, ?_⟩
    · simp only [callStep, if_pos hcall, mutexTrylock, if_pos hlocked]
      rfl
    · rw [hspec]
      exact .tryFree hcall hfree
  · have hlocked : ¬ ((s.dispatch t).mutexes m).locked = 0 := fun h0 => hfree (hlockedIff.mp h0)
    refine ⟨{ s with kernel := s.dispatch t }, line, ?_, ⟨hrep.queued, hrep.locked⟩, ?_⟩
    · simp only [callStep, if_pos hcall, mutexTrylock, if_neg hlocked]
    · exact .tryTaken hcall hfree

/-- The owner gives the mutex up when nobody waits. -/
theorem release_refines (hrep : s.Represents line) (hcall : s.CanCall t)
    (howner : (s.mutex m).owner = some t) (hline : line m = [])
    (hremove : removeFromWaitQueue (s.dispatch t).sys.taskList
      ((s.dispatch t).mutexes m).waitingTasks = (s.kernel.sys.taskList, none, none)) :
    ∃ s₁ line₁, s.callStep (.unlock t m) = some s₁ ∧ s₁.Represents line₁ ∧
      LockSpec.Step (s.spec line) (.unlock t m) (s₁.spec line₁) := by
  have hcur : ¬ ((s.dispatch t).mutexes m).owner ≠ taskGetCurrent (s.dispatch t).sys :=
    not_not.mpr howner
  have hwaiting : (s.mutex m).waitingTasks = none := by
    rw [(hrep.queued m).head_eq, hline, List.head?_nil]
  let s₁ : System n M :=
    { s with
      kernel :=
        { (s.dispatch t).setMutex m
            { s.mutex m with waitingTasks := none, locked := 0, owner := none } with
          sys := { (s.dispatch t).sys with taskList := s.kernel.sys.taskList } }
      holds := Function.update s.holds m (Function.update (s.holds m) t false) }
  have hmutexes : s₁.kernel.mutexes = Function.update s.kernel.mutexes m
      { s.mutex m with waitingTasks := none, locked := 0, owner := none } := rfl
  refine ⟨s₁, line, ?_, ?_, ?_⟩
  · simp only [callStep, if_pos hcall, if_pos howner, mutexUnlock, if_neg hcur, hremove,
      hwaiting]
    rfl
  · have := hrep.update (q := line m) hmutexes (by rw [hline]; rfl) (by simp) fun _ _ _ _ => rfl
    simpa using this
  · have hspec : s₁.spec line = (s.spec line).release t m := by
      simp only [spec, LockSpec.release, LockSpec.setHolds, owner_update hmutexes]
      rfl
    rw [hspec]
    exact .unlockLast hcall howner hline

/-- The owner hands the mutex to the first in line. -/
theorem handOff_refines (hrep : s.Represents line) (hinv : (s.spec line).Inv)
    (hcall : s.CanCall t) (howner : (s.mutex m).owner = some t) {w : Fin n} {rest : List (Fin n)}
    {tasks : Fin n → Task n} {head : Option (Fin n)} (hline : line m = w :: rest)
    (hremove : removeFromWaitQueue (s.dispatch t).sys.taskList
      ((s.dispatch t).mutexes m).waitingTasks = (tasks, head, some w))
    (hq : Queued tasks head rest) (hstate : ∀ u, (tasks u).state = (s.task u).state)
    (hlinks : ∀ u, u ≠ w → (tasks u).nextWait = (s.task u).nextWait) :
    ∃ s₁ line₁, s.callStep (.unlock t m) = some s₁ ∧ s₁.Represents line₁ ∧
      LockSpec.Step (s.spec line) (.unlock t m) (s₁.spec line₁) := by
  have hcur : ¬ ((s.dispatch t).mutexes m).owner ≠ taskGetCurrent (s.dispatch t).sys :=
    not_not.mpr howner
  have hwaiting : (s.mutex m).waitingTasks = some w := by
    rw [(hrep.queued m).head_eq, hline, List.head?_cons]
  let sys₁ : TaskSys n := TaskSys.setState { (s.dispatch t).sys with taskList := tasks } w .ready
  let s₁ : System n M :=
    { s with
      kernel :=
        { (s.dispatch t).setMutex m { s.mutex m with waitingTasks := head, owner := some w } with
          sys := sys₁ }
      holds := Function.update s.holds m (Function.update (s.holds m) t false)
      grantedOrder := Function.update s.grantedOrder m (s.grantedOrder m ++ [w]) }
  have hmutexes : s₁.kernel.mutexes = Function.update s.kernel.mutexes m
      { s.mutex m with waitingTasks := head, owner := some w } := rfl
  have hnw : ∀ u, (s₁.task u).nextWait = (tasks u).nextWait := fun u => by
    simp [s₁, sys₁, task]
  refine ⟨s₁, Function.update line m rest, ?_, ?_, ?_⟩
  · simp only [callStep, if_pos hcall, if_pos howner, mutexUnlock, if_neg hcur, hremove,
      hwaiting, taskResume_setState_ready]
    rfl
  · refine hrep.update hmutexes (hq.frame fun u _ => hnw u) ?_ ?_
    · have := hrep.locked m
      simpa [howner] using this
    · intro m' hm u hu
      -- The task that leaves the line of `m` stands in no other.
      have huw : u ≠ w := by
        rintro rfl
        exact hm (line_disjoint hinv hu (by simp [hline]))
      rw [hnw u]
      exact hlinks u huw
  · have hstates : (fun u => (s₁.task u).state) =
        Function.update (fun u => (s.task u).state) w .ready := by
      funext u
      have := hstate u
      by_cases hu : u = w
      · subst hu; simp [s₁, sys₁, task, setState_state]
      · simpa [s₁, sys₁, task, setState_state, hu] using this
    have hspec : s₁.spec (Function.update line m rest) = (s.spec line).handOff t m w rest := by
      simp only [spec, LockSpec.handOff, LockSpec.setHolds, hstates, owner_update hmutexes]
      rfl
    rw [hspec]
    exact .unlockNext hcall howner hline

/-- `mutex_unlock` by the owner hands the mutex to the first in line, or gives it
up when nobody waits; by anyone else it does nothing. -/
theorem unlock_refines (hrep : s.Represents line) (hinv : (s.spec line).Inv)
    (hcall : s.CanCall t) : ∃ s₁ line₁, s.callStep (.unlock t m) = some s₁ ∧
      s₁.Represents line₁ ∧ LockSpec.Step (s.spec line) (.unlock t m) (s₁.spec line₁) := by
  by_cases howner : (s.mutex m).owner = some t
  · rcases remove_from_wait_queue_spec (hrep.queued m) with
      ⟨hline, hremove⟩ | ⟨w, rest, tasks, head, hline, hremove, hq, hstate, hlinks⟩
    · exact release_refines hrep hcall howner hline hremove
    · exact handOff_refines hrep hinv hcall howner hline hremove hq hstate hlinks
  · have hcur : ((s.dispatch t).mutexes m).owner ≠ taskGetCurrent (s.dispatch t).sys := howner
    refine ⟨{ s with kernel := s.dispatch t }, line, ?_, ⟨hrep.queued, hrep.locked⟩, ?_⟩
    · simp only [callStep, if_pos hcall, if_neg howner, mutexUnlock_of_not_owner hcur]
    · exact .unlockOther hcall howner

/-- The scheduler comes back to a task in `mutex_lock`: the call returns. -/
theorem wake_refines (hrep : s.Represents line) (hready : (s.task t).state = .ready)
    (hp : s.pending t = some m) : ∃ s₁ line₁, s.callStep (.wake t) = some s₁ ∧
      s₁.Represents line₁ ∧ LockSpec.Step (s.spec line) (.wake t) (s₁.spec line₁) := by
  refine ⟨{ s with
      kernel := s.dispatch t
      pending := Function.update s.pending t none
      holds := Function.update s.holds m (Function.update (s.holds m) t true) }, line, ?_,
    ⟨hrep.queued, hrep.locked⟩, .wake hready hp⟩
  simp [callStep, hready, hp]

/-- The calls a task may make now: a ready task outside `mutex_lock` may make any
call, a ready task inside one returns from it. -/
def Enabled (s : System n M) : Call (Fin n) M → Prop
  | .lock t _ | .trylock t _ | .unlock t _ => s.CanCall t
  | .wake t => (s.task t).state = .ready ∧ s.pending t ≠ none

/-- A call that may be made returns or yields: it does not fault, and its walk along
the queue ends. -/
theorem callStep_of_enabled (hrep : s.Represents line) (hinv : (s.spec line).Inv)
    {c : Call (Fin n) M} (henabled : s.Enabled c) : ∃ s₁ line₁, s.callStep c = some s₁ ∧
      s₁.Represents line₁ ∧ LockSpec.Step (s.spec line) c (s₁.spec line₁) := by
  cases c with
  | lock t m => exact lock_refines hrep hinv henabled
  | trylock t m => exact trylock_refines hrep henabled
  | unlock t m => exact unlock_refines hrep hinv henabled
  | wake t =>
    obtain ⟨hready, hp⟩ := henabled
    obtain ⟨m, hm⟩ := Option.ne_none_iff_exists'.mp hp
    exact wake_refines hrep hready hm

theorem enabled_of_callStep {c : Call (Fin n) M} (h : s.callStep c = some s') : s.Enabled c := by
  cases c with
  | lock t m | trylock t m | unlock t m =>
    show s.CanCall t
    exact (Option.ite_none_right_eq_some.mp h).1
  | wake t =>
    refine ⟨(Option.ite_none_right_eq_some.mp h).1, ?_⟩
    intro hp
    simp [callStep, hp] at h

/-- **Each call is a move of the locks.** -/
theorem callStep_refines (hrep : s.Represents line) (hinv : (s.spec line).Inv)
    {c : Call (Fin n) M} (h : s.callStep c = some s') :
    ∃ line', s'.Represents line' ∧ LockSpec.Step (s.spec line) c (s'.spec line') := by
  obtain ⟨s₁, line₁, hs₁, hrep₁, hstep⟩ := callStep_of_enabled hrep hinv (enabled_of_callStep h)
  obtain rfl : s₁ = s' := Option.some.inj (hs₁.symm.trans h)
  exact ⟨line₁, hrep₁, hstep⟩

end Refinement

end System

end ArmKernel.Sync

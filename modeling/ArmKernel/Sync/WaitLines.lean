/-
The queues of all mutexes, semaphores and condition variables at once.

All queues are linked through one field of the tasks, `next_wait`. `SyncMemory.Queues` says that
they do not meet: each is a chain, and no task stands in two. A critical section of a task that
stands in none adds the task at the end of one line or takes the tasks that it wakes, and leaves
the other lines alone (`perform_queues`).

`SyncSystem.Sound` ties the lines to the calls: the tasks in a line are those that wait in a call
on its object, and none of them is ready. Every step keeps it that makes no waiting task ready
behind the back of its line (`Sound.step`): a task that was suspended while it waits is not
resumed, and a real-time task that waits is not released.
-/
import ArmKernel.Sync.Suspension

namespace ArmKernel.Sync

open ArmKernel.Support ArmKernel.Tasks ArmKernel.Sched

variable {n : Nat} {M S C : Type}

/-- A queue of waiting tasks. -/
inductive WaitQueue (M S C : Type) where
  | mutex (m : M)
  | semaphore (x : S)
  | condition (c : C)
deriving DecidableEq

/-- The queue of a place. -/
def WaitPlace.queue : WaitPlace M S C → WaitQueue M S C
  | .mutex m => .mutex m
  | .semaphore x => .semaphore x
  | .condition c _ => .condition c

/-- The queue that a call takes tasks from. -/
def SyncCall.serves : SyncCall M S C → Option (WaitQueue M S C)
  | .mutexUnlock m | .conditionWait _ m => some (.mutex m)
  | .semaphorePost x => some (.semaphore x)
  | .conditionSignal c | .conditionBroadcast c => some (.condition c)
  | .mutexLock _ | .semaphoreWait _ => none

namespace SyncMemory

/-- The head pointer of a queue. -/
def head (mem : SyncMemory n M S C) : WaitQueue M S C → Option (Fin n)
  | .mutex m => (mem.kernel.mutexes m).waitingTasks
  | .semaphore x => (mem.sems x).waitingTasks
  | .condition c => mem.conds c

/-- **The queues are the lines**, and no task stands in two. -/
structure Queues (mem : SyncMemory n M S C) (line : WaitQueue M S C → List (Fin n)) : Prop where
  queued : ∀ q, Queued mem.kernel.sys.taskList (mem.head q) (line q)
  apart : ∀ q q' t, t ∈ line q → t ∈ line q' → q = q'

section Lines

variable [DecidableEq M] [DecidableEq S] [DecidableEq C] {mem mem' : SyncMemory n M S C}
  {line : WaitQueue M S C → List (Fin n)} {p q : WaitQueue M S C} {t u : Fin n}
  {l : List (Fin n)} {head' : Option (Fin n)} {tasks : Fin n → Task n}

omit [DecidableEq M] [DecidableEq S] [DecidableEq C] in
/-- Nothing but the head pointers and the `next_wait` fields counts. -/
theorem Queues.congr (h : mem.Queues line) (hhead : ∀ q, mem'.head q = mem.head q)
    (hnext : ∀ u, (mem'.kernel.sys.taskList u).nextWait = (mem.kernel.sys.taskList u).nextWait) :
    mem'.Queues line where
  queued q := by
    rw [hhead]
    exact (h.queued q).frame fun u _ => hnext u
  apart := h.apart

/-- One queue is another line now, made of its tasks and of tasks that stood in none. -/
theorem Queues.update (h : mem.Queues line)
    (hhead : ∀ q, mem'.head q = if q = p then head' else mem.head q)
    (hqueued : Queued mem'.kernel.sys.taskList head' l)
    (hfrom : ∀ u ∈ l, u ∈ line p ∨ ∀ q, u ∉ line q)
    (hnext : ∀ u, u ∉ l → u ∉ line p →
      (mem'.kernel.sys.taskList u).nextWait = (mem.kernel.sys.taskList u).nextWait) :
    mem'.Queues (Function.update line p l) := by
  have hother : ∀ q, q ≠ p → ∀ u ∈ line q, u ∉ line p ∧ u ∉ l := by
    intro q hq u hu
    have hp : u ∉ line p := fun hp => hq (h.apart q p u hu hp)
    exact ⟨hp, fun hl => (hfrom u hl).elim hp fun hnone => hnone q hu⟩
  constructor
  · intro q
    rw [hhead]
    by_cases hq : q = p
    · subst hq
      rwa [if_pos rfl, Function.update_self]
    · rw [if_neg hq, Function.update_of_ne hq]
      refine (h.queued q).frame fun u hu => ?_
      obtain ⟨hp, hl⟩ := hother q hq u hu
      exact hnext u hl hp
  · intro q q' u hu hu'
    by_cases hq : q = p <;> by_cases hq' : q' = p
    · exact hq.trans hq'.symm
    · subst hq
      rw [Function.update_self] at hu
      rw [Function.update_of_ne hq'] at hu'
      exact absurd hu (hother q' hq' u hu').2
    · subst hq'
      rw [Function.update_self] at hu'
      rw [Function.update_of_ne hq] at hu
      exact absurd hu' (hother q hq u hu).2
    · rw [Function.update_of_ne hq] at hu
      rw [Function.update_of_ne hq'] at hu'
      exact h.apart q q' u hu hu'

/-- The current task blocks at the end of a line. -/
theorem Queues.push (h : mem.Queues line) (p : WaitQueue M S C) (ht : ∀ q, t ∉ line q)
    (hadd : addToWaitQueue (mem.kernel.sys.setState t .blocked).taskList (mem.head p) t =
      some (tasks, head'))
    (hhead : ∀ q, mem'.head q = if q = p then head' else mem.head q)
    (htasks : mem'.kernel.sys.taskList = tasks) :
    mem'.Queues (Function.update line p (line p ++ [t])) := by
  have hqueued : Queued (mem.kernel.sys.setState t .blocked).taskList (mem.head p) (line p) :=
    (h.queued p).frame fun u _ => setState_nextWait mem.kernel.sys t u .blocked
  obtain ⟨tasks₁, head₁, hadd₁, hline, -, hlinks⟩ := add_to_wait_queue_spec hqueued (ht p)
  cases hadd.symm.trans hadd₁
  refine h.update hhead (htasks ▸ hline) (fun u hu => ?_) fun u hl hp => ?_
  · rcases List.mem_append.mp hu with hu | hu
    · exact .inl hu
    · rw [List.mem_singleton] at hu
      exact .inr (hu ▸ ht)
  · have hut : u ≠ t := fun heq => hl (by simp [heq])
    rw [htasks, hlinks u hut hp, setState_nextWait]

theorem mem_push :
    u ∈ Function.update line p (line p ++ [t]) q ↔ u ∈ line q ∨ u = t ∧ q = p := by
  by_cases hq : q = p
  · subst hq
    simp
  · simp [hq]

/-- The first in line leaves. -/
theorem Queues.pop (h : mem.Queues line) (p : WaitQueue M S C)
    (hhead : ∀ q, mem'.head q = if q = p then
      (removeFromWaitQueue mem.kernel.sys.taskList (mem.head p)).2.1 else mem.head q)
    (hnext : ∀ u, (mem'.kernel.sys.taskList u).nextWait =
      ((removeFromWaitQueue mem.kernel.sys.taskList (mem.head p)).1 u).nextWait) :
    mem'.Queues (Function.update line p (line p).tail) := by
  rcases remove_from_wait_queue_spec (h.queued p) with
    ⟨hnil, hremove⟩ | ⟨w, rest, tasks, head', hline, hremove, hq', -, hlinks⟩
  · rw [hremove] at hhead hnext
    refine h.update hhead ?_ ?_ fun u _ _ => hnext u
    · rw [hnil]
      rfl
    · rw [hnil]
      exact fun u hu => absurd hu List.not_mem_nil
  · rw [hremove] at hhead hnext
    rw [hline]
    refine h.update hhead (hq'.frame fun u _ => hnext u) (fun u hu => ?_) fun u _ hp => ?_
    · rw [hline]
      exact .inl (List.mem_cons_of_mem w hu)
    · rw [hnext, hlinks u fun heq => hp (by rw [hline, heq]; exact List.mem_cons_self)]

theorem Queues.mem_pop (h : mem.Queues line) :
    u ∈ Function.update line p (line p).tail q ↔ u ∈ line q ∧ u ∉ (mem.head p).toList := by
  have hhead := (h.queued p).head_eq
  have hnodup := (h.queued p).nodup
  rw [hhead]
  by_cases hq : q = p
  · subst hq
    rw [Function.update_self]
    cases hline : line q with
    | nil => simp
    | cons w rest =>
      rw [hline] at hnodup
      have hw := (List.nodup_cons.mp hnodup).1
      simp only [List.tail_cons, List.mem_cons, List.head?_cons, Option.mem_toList]
      constructor
      · exact fun hu => ⟨.inr hu, fun heq => hw (Option.some.inj heq ▸ hu)⟩
      · rintro ⟨rfl | hu, hne⟩
        · exact absurd rfl hne
        · exact hu
  · rw [Function.update_of_ne hq]
    refine (and_iff_left_of_imp fun hu hmem => ?_).symm
    refine hq (h.apart q p u hu ?_)
    exact List.mem_of_mem_head? (Option.mem_toList.mp hmem)

/-- A broadcast empties a line. -/
theorem Queues.clear (h : mem.Queues line)
    (hhead : ∀ q, mem'.head q = if q = p then none else mem.head q)
    (hnext : ∀ u, u ∉ line p →
      (mem'.kernel.sys.taskList u).nextWait = (mem.kernel.sys.taskList u).nextWait) :
    mem'.Queues (Function.update line p []) :=
  h.update hhead rfl (fun _ hu => absurd hu List.not_mem_nil) fun u _ hp => hnext u hp

theorem Queues.mem_clear (h : mem.Queues line) :
    u ∈ Function.update line p [] q ↔ u ∈ line q ∧ u ∉ line p := by
  by_cases hq : q = p
  · subst hq
    simp
  · rw [Function.update_of_ne hq]
    exact (and_iff_left_of_imp fun hu hp => hq (h.apart q p u hu hp)).symm

omit [DecidableEq M] [DecidableEq S] [DecidableEq C] in
/-- The tasks that a critical section takes stand in the line it serves. -/
theorem Queues.mem_of_taken (h : mem.Queues line) {c : SyncCall M S C} (hu : u ∈ mem.taken c) :
    ∃ q, c.serves = some q ∧ u ∈ line q := by
  have first : ∀ q, u ∈ (mem.head q).toList → u ∈ line q := fun q hu => by
    rw [(h.queued q).head_eq] at hu
    exact List.mem_of_mem_head? (Option.mem_toList.mp hu)
  cases c with
  | mutexUnlock m | conditionWait _ m =>
    simp only [taken] at hu
    split at hu
    · exact ⟨.mutex m, rfl, first (.mutex m) hu⟩
    · exact absurd hu List.not_mem_nil
  | semaphorePost x => exact ⟨.semaphore x, rfl, first (.semaphore x) hu⟩
  | conditionSignal c => exact ⟨.condition c, rfl, first (.condition c) hu⟩
  | conditionBroadcast c =>
    exact ⟨.condition c, rfl,
      (h.queued (.condition c)).inLine_iff.mp ((mem_taken_broadcast c u).mp hu)⟩
  | mutexLock _ | semaphoreWait _ => exact absurd hu List.not_mem_nil

/-- A mutex was written. -/
theorem head_mutex (mem : SyncMemory n M S C) (kernel : Kernel n M) (m : M) (mutex : Mutex n)
    (hm : kernel.mutexes = Function.update mem.kernel.mutexes m mutex) (q : WaitQueue M S C) :
    head { mem with kernel } q = if q = .mutex m then mutex.waitingTasks else mem.head q := by
  cases q with
  | mutex m' => by_cases h : m' = m <;> simp [head, hm, h]
  | semaphore | condition => simp [head]

/-- A semaphore was written. -/
theorem head_semaphore (mem : SyncMemory n M S C) (k : SemKernel n S) (x : S) (sem : Semaphore n)
    (hx : k.sems = Function.update mem.sems x sem) (q : WaitQueue M S C) :
    (mem.withSem k).head q = if q = .semaphore x then sem.waitingTasks else mem.head q := by
  cases q with
  | semaphore x' => by_cases h : x' = x <;> simp [head, withSem, hx, h]
  | mutex | condition => simp [head, withSem, withSys]

/-- A condition variable was written. -/
theorem head_condition (mem : SyncMemory n M S C) (sys : TaskSys n) (contentions : Nat) (c : C)
    (queue : Option (Fin n)) (q : WaitQueue M S C) :
    head { mem.withSys sys with
        conds := Function.update mem.conds c queue, condContentions := contentions } q =
      if q = .condition c then queue else mem.head q := by
  cases q with
  | condition c' => by_cases h : c' = c <;> simp [head, h]
  | mutex | semaphore => simp [head, withSys]

/-- Who stands where after a critical section of `t` that takes `taken` and blocks at `place`. -/
def Moved (line line' : WaitQueue M S C → List (Fin n)) (taken : List (Fin n)) (t : Fin n)
    (place : Option (WaitPlace M S C)) : Prop :=
  ∀ q u, u ∈ line' q ↔ u ∈ line q ∧ u ∉ taken ∨ u = t ∧ place.map WaitPlace.queue = some q

omit [DecidableEq M] [DecidableEq S] [DecidableEq C] in
/-- A call that does not block. -/
theorem moved_none {line' : WaitQueue M S C → List (Fin n)} {taken : List (Fin n)}
    (h : ∀ q u, u ∈ line' q ↔ u ∈ line q ∧ u ∉ taken) : Moved line line' taken t none := by
  intro q u
  rw [h]
  simp

omit [DecidableEq M] [DecidableEq S] [DecidableEq C] in
theorem moved_refl : Moved line line [] t none :=
  moved_none fun q u => by simp

/-- A call that blocks and takes nobody. -/
theorem moved_push (place : WaitPlace M S C) :
    Moved line (Function.update line place.queue (line place.queue ++ [t])) [] t (some place) := by
  intro q u
  rw [mem_push, Option.map_some, Option.some.injEq, eq_comm (a := q)]
  simp only [List.not_mem_nil, not_false_eq_true, and_true]

/-- **Lock.** The caller stands last in line unless it has the mutex. -/
theorem mutexLock_queues (h : mem.Queues line) {m : M} {kernel : Kernel n M} {yields : Bool}
    (hcurrent : mem.kernel.sys.currentTask = some t) (ht : ∀ q, t ∉ line q)
    (hlock : mutexLock mem.kernel (some m) = some (kernel, yields)) :
    ∃ line', SyncMemory.Queues { mem with kernel } line' ∧
      Moved line line' [] t (if yields then some (.mutex m) else none) := by
  simp only [mutexLock, taskGetCurrent, hcurrent] at hlock
  split at hlock
  · cases hlock
    refine ⟨line, h.congr (fun q => ?_) fun u => rfl, moved_refl⟩
    rw [head_mutex mem _ m _ rfl]
    split
    · subst q
      rfl
    · rfl
  · obtain ⟨⟨tasks, queue⟩, hadd, hresult⟩ := Option.map_eq_some_iff.mp hlock
    cases hresult
    refine ⟨_, h.push (.mutex m) ht hadd (fun q => ?_) rfl, moved_push (.mutex m)⟩
    rw [head_mutex mem _ m _ rfl]

/-- **Unlock.** The owner takes the first in line; anybody else changes nothing. -/
theorem mutexUnlock_queues (h : mem.Queues line) (m : M) :
    ∃ line', SyncMemory.Queues { mem with kernel := mutexUnlock mem.kernel (some m) } line' ∧
      ∀ q u, u ∈ line' q ↔ u ∈ line q ∧ u ∉ mem.taken (.mutexUnlock m) := by
  by_cases howner : (mem.kernel.mutexes m).owner = taskGetCurrent mem.kernel.sys
  · refine ⟨Function.update line (.mutex m) (line (.mutex m)).tail, h.pop (.mutex m) ?_ ?_,
      fun q u => ?_⟩
    · intro q
      simp only [mutexUnlock, ne_eq, howner, not_true_eq_false, if_false]
      cases hqueue : (mem.kernel.mutexes m).waitingTasks <;>
        rw [head_mutex mem _ m _ rfl] <;> simp only [head, hqueue, removeFromWaitQueue]
    · intro u
      simp only [mutexUnlock, ne_eq, howner, not_true_eq_false, if_false, head]
      cases hqueue : (mem.kernel.mutexes m).waitingTasks with
      | none => rfl
      | some w =>
        simp only [removeFromWaitQueue, taskResume_setState_ready]
        rw [setState_nextWait]
    · simp only [taken, howner, if_true]
      exact h.mem_pop
  · refine ⟨line, h.congr (fun q => ?_) (fun u => ?_), fun q u => ?_⟩
    · rw [mutexUnlock_of_not_owner howner]
    · rw [mutexUnlock_of_not_owner howner]
    · simp [taken, howner]

/-- **Wait.** The caller stands last in line unless it has its unit. -/
theorem semaphoreWait_queues (h : mem.Queues line) {x : S} {k : SemKernel n S} {yields : Bool}
    (hcurrent : mem.kernel.sys.currentTask = some t) (ht : ∀ q, t ∉ line q)
    (hwait : semaphoreWait mem.semKernel (some x) = some (k, yields)) :
    ∃ line', (mem.withSem k).Queues line' ∧
      Moved line line' [] t (if yields then some (.semaphore x) else none) := by
  simp only [semaphoreWait, taskGetCurrent, semKernel, hcurrent] at hwait
  split at hwait
  · cases hwait
    refine ⟨line, h.congr (fun q => ?_) fun u => rfl, moved_refl⟩
    rw [head_semaphore mem _ x _ rfl]
    split
    · subst q
      rfl
    · rfl
  · obtain ⟨⟨tasks, queue⟩, hadd, hresult⟩ := Option.map_eq_some_iff.mp hwait
    cases hresult
    refine ⟨_, h.push (.semaphore x) ht hadd (fun q => ?_) rfl, moved_push (.semaphore x)⟩
    rw [head_semaphore mem _ x _ rfl]

/-- **Post.** The first in line leaves. -/
theorem semaphorePost_queues (h : mem.Queues line) {x : S} {k : SemKernel n S}
    (hpost : semaphorePost mem.semKernel (some x) = some k) :
    (mem.withSem k).Queues
      (Function.update line (.semaphore x) (line (.semaphore x)).tail) := by
  simp only [semaphorePost, semKernel] at hpost
  cases hqueue : (mem.sems x).waitingTasks with
  | none =>
    simp only [hqueue, removeFromWaitQueue] at hpost
    obtain ⟨count, -, rfl⟩ := Option.map_eq_some_iff.mp hpost
    refine h.pop (.semaphore x) (fun q => ?_) fun u => ?_
    · rw [head_semaphore mem _ x _ rfl]
      simp only [head, hqueue, removeFromWaitQueue]
    · simp only [head, hqueue]
      rfl
  | some w =>
    simp only [hqueue, removeFromWaitQueue, taskResume_setState_ready] at hpost
    cases hpost
    refine h.pop (.semaphore x) (fun q => ?_) fun u => ?_
    · rw [head_semaphore mem _ x _ rfl]
      simp only [head, hqueue, removeFromWaitQueue]
    · simp only [head, hqueue, removeFromWaitQueue]
      exact setState_nextWait _ w u .ready

/-- **Wait on a condition.** The caller stands last in line. -/
theorem conditionWait_queues (h : mem.Queues line) {c : C} {sys : TaskSys n}
    {queue : Option (Fin n)} (contentions : Nat) (hcurrent : mem.kernel.sys.currentTask = some t)
    (ht : ∀ q, t ∉ line q)
    (hwait : conditionWait mem.kernel.sys (mem.conds c) = some (sys, queue)) :
    SyncMemory.Queues
      { mem.withSys sys with
        conds := Function.update mem.conds c queue, condContentions := contentions }
      (Function.update line (.condition c) (line (.condition c) ++ [t])) := by
  simp only [conditionWait, taskGetCurrent, hcurrent] at hwait
  obtain ⟨⟨tasks, queue⟩, hadd, hresult⟩ := Option.map_eq_some_iff.mp hwait
  cases hresult
  exact h.push (.condition c) ht hadd (head_condition mem _ contentions c queue) rfl

/-- **Signal.** The first in line leaves. -/
theorem conditionSignal_queues (h : mem.Queues line) (c : C) :
    SyncMemory.Queues
      { mem.withSys (conditionSignal mem.kernel.sys (mem.conds c)).1 with
        conds := Function.update mem.conds c (conditionSignal mem.kernel.sys (mem.conds c)).2 }
      (Function.update line (.condition c) (line (.condition c)).tail) := by
  refine h.pop (.condition c) (fun q => ?_) fun u => ?_
  · refine (head_condition mem _ mem.condContentions c _ q).trans ?_
    cases hqueue : mem.conds c <;> simp only [head, hqueue, conditionSignal, removeFromWaitQueue]
  · cases hqueue : mem.conds c with
    | none =>
      simp only [head, hqueue]
      rfl
    | some w =>
      simp only [head, hqueue, conditionSignal, removeFromWaitQueue, taskResume_setState_ready]
      exact setState_nextWait _ w u .ready

/-- **Broadcast.** Nobody is left in line. -/
theorem conditionBroadcast_queues (h : mem.Queues line) {c : C} {sys : TaskSys n}
    {queue : Option (Fin n)}
    (hbroadcast : conditionBroadcast mem.kernel.sys (mem.conds c) = some (sys, queue)) :
    SyncMemory.Queues
      { mem.withSys sys with conds := Function.update mem.conds c queue }
      (Function.update line (.condition c) []) := by
  obtain ⟨sys', hends, -, hlinks⟩ := conditionBroadcast_spec (h.queued (.condition c))
  cases hbroadcast.symm.trans hends
  exact h.clear (head_condition mem _ mem.condContentions c none) hlinks

/-- **A critical section and the lines.** The tasks it takes leave their line, the caller stands at
the end of the line it blocks in, and nothing else moves. -/
theorem perform_queues (h : mem.Queues line) {c : SyncCall M S C}
    {place : Option (WaitPlace M S C)} (hcurrent : mem.kernel.sys.currentTask = some t)
    (ht : ∀ q, t ∉ line q) (hperform : mem.perform c = some (mem', place)) :
    ∃ line', mem'.Queues line' ∧ Moved line line' (mem.taken c) t place := by
  cases c with
  | mutexLock m =>
    obtain ⟨⟨kernel, yields⟩, hlock, hresult⟩ := Option.map_eq_some_iff.mp hperform
    cases hresult
    exact mutexLock_queues h hcurrent ht hlock
  | mutexUnlock m =>
    cases hperform
    obtain ⟨line', hqueues, hmem⟩ := mutexUnlock_queues h m
    exact ⟨line', hqueues, moved_none hmem⟩
  | semaphoreWait x =>
    obtain ⟨⟨k, yields⟩, hwait, hresult⟩ := Option.map_eq_some_iff.mp hperform
    cases hresult
    exact semaphoreWait_queues h hcurrent ht hwait
  | semaphorePost x =>
    obtain ⟨k, hpost, hresult⟩ := Option.map_eq_some_iff.mp hperform
    cases hresult
    exact ⟨_, semaphorePost_queues h hpost, moved_none fun q u => h.mem_pop⟩
  | conditionWait c m =>
    obtain ⟨⟨sys, queue⟩, hwait, hresult⟩ := Option.map_eq_some_iff.mp hperform
    cases hresult
    have hqueued := conditionWait_queues h (wrap32 (mem.condContentions + 1)) hcurrent ht hwait
    obtain ⟨line', hqueues, hmem⟩ := mutexUnlock_queues hqueued m
    refine ⟨line', hqueues, fun q u => ?_⟩
    -- The mutex is given up after the caller is in line, by the same task.
    have htaken : SyncMemory.taken
        { mem.withSys sys with
          conds := Function.update mem.conds c queue
          condContentions := wrap32 (mem.condContentions + 1) } (.mutexUnlock m) =
        mem.taken (.conditionWait c m) := by
      have hcurrent' := (conditionWait_state hwait hcurrent t).1
      simp only [taken, withSys, taskGetCurrent, hcurrent, hcurrent']
    have hfresh : t ∉ mem.taken (.conditionWait c m) := fun htaken =>
      (h.mem_of_taken htaken).elim fun q hq => ht q hq.2
    rw [hmem, mem_push, htaken, Option.map_some, Option.some.injEq, eq_comm (a := q)]
    constructor
    · rintro ⟨hu | hu, hnot⟩
      · exact .inl ⟨hu, hnot⟩
      · exact .inr hu
    · rintro (⟨hu, hnot⟩ | ⟨rfl, hq⟩)
      · exact ⟨.inl hu, hnot⟩
      · exact ⟨.inr ⟨rfl, hq⟩, hfresh⟩
  | conditionSignal c =>
    cases hperform
    exact ⟨_, conditionSignal_queues h c, moved_none fun q u => h.mem_pop⟩
  | conditionBroadcast c =>
    obtain ⟨⟨sys, queue⟩, hbroadcast, hresult⟩ := Option.map_eq_some_iff.mp hperform
    cases hresult
    refine ⟨_, conditionBroadcast_queues h hbroadcast, moved_none fun q u => ?_⟩
    rw [h.mem_clear, mem_taken_broadcast, ← (h.queued (.condition c)).inLine_iff]
    rfl

end Lines

end SyncMemory

/-- The release loop at `now` makes `u` ready. -/
def ReleasedAt (rt : Realtime n) (sys : TaskSys n) (now : Nat) (u : Fin n) : Prop :=
  OnChain (nextOf sys.taskList) rt.rtTasks u ∧ (sys.taskList u).state = .blocked ∧
    Due now (sys.taskList u)

/-- The release loop links no queue anew, and makes ready the tasks it releases. -/
theorem updateDeadlines_ready {rt : Realtime n} {sys sys' : TaskSys n} {now : Nat}
    (h : schedulerUpdateDeadlines rt sys now = some sys') (u : Fin n) :
    (sys'.taskList u).nextWait = (sys.taskList u).nextWait ∧
      ((sys'.taskList u).state = .ready ↔
        (sys.taskList u).state = .ready ∨ ReleasedAt rt sys now u) := by
  obtain ⟨l, hchain, rfl⟩ := update_deadlines_spec h
  have hon := hchain.onChain_iff (x := u)
  by_cases hl : u ∈ l
  · simp only [hl, if_true, refresh_nextWait, refresh_state, ReleasedAt, hon.mpr hl, true_and]
  · simp only [hl, if_false, true_and]
    exact (or_iff_left fun hrel : ReleasedAt rt sys now u => hl (hon.mp hrel.1)).symm

/-- `task_resume` links no queue anew. -/
theorem taskResume_nextWait (sys : TaskSys n) (task : Option (Fin n)) (u : Fin n) :
    ((taskResume sys task).taskList u).nextWait = (sys.taskList u).nextWait := by
  cases task with
  | none => rfl
  | some t =>
    simp only [taskResume]
    split
    · exact setState_nextWait sys t u .ready
    · rfl

namespace SyncSystem

variable {s s' : SyncSystem n M S C} {line line' : WaitQueue M S C → List (Fin n)} {t u : Fin n}

/-- **The lines are the calls that wait**: the tasks in a line wait in a call on its object, every
task that waits is in the line of its call, and none of them is ready. -/
structure Sound (s : SyncSystem n M S C) (line : WaitQueue M S C → List (Fin n)) : Prop where
  queues : s.mem.Queues line
  waiting : ∀ q t, t ∈ line q ↔ s.waits t = true ∧ (s.pending t).map WaitPlace.queue = some q
  stopped : ∀ t, s.waits t = true → s.mem.state t ≠ .ready ∧ (s.pending t).isSome = true

/-- Some lines say how the memory is linked. -/
def InLines (s : SyncSystem n M S C) : Prop := ∃ line, s.Sound line

/-- The step makes no task ready that waits, but by taking it from its line. -/
def SparesLines (s : SyncSystem n M S C) : SyncAction n M S C → Prop
  | .resume t => ∀ u, t = some u → s.waits u = true → s.mem.state u ≠ .suspended
  | .updateDeadlines now =>
    ∀ u, s.waits u = true → ¬ ReleasedAt s.mem.kernel.rt s.mem.kernel.sys now u
  | .call _ _ | .wake _ | .suspend _ => True

/-- A ready task is in no line. -/
theorem Sound.not_in_line (h : s.Sound line) (hready : s.mem.state t = .ready)
    (q : WaitQueue M S C) : t ∉ line q :=
  fun ht => (h.stopped t ((h.waiting q t).mp ht).1).1 hready

/-- Nothing counts but the links, the heads, and which tasks are ready. -/
theorem Sound.relabel (h : s.Sound line) (hqueues : s'.mem.Queues line)
    (hpending : s'.pending = s.pending) (hwaits : s'.waits = s.waits)
    (hready : ∀ t, s.waits t = true → s'.mem.state t = .ready → s.mem.state t = .ready) :
    s'.Sound line where
  queues := hqueues
  waiting q t := by rw [hpending, hwaits, h.waiting q t]
  stopped t ht := by
    rw [hwaits] at ht
    rw [hpending]
    exact ⟨fun hr => (h.stopped t ht).1 (hready t ht hr), (h.stopped t ht).2⟩

/-- A critical section of a ready task. -/
theorem Sound.settle (h : s.Sound line) {mem : SyncMemory n M S C}
    {place : Option (WaitPlace M S C)} {taken : List (Fin n)} (hready : s.mem.state t = .ready)
    (hqueues : mem.Queues line') (hmoved : SyncMemory.Moved line line' taken t place)
    (htaken : t ∉ taken)
    (hstate : ∀ u, mem.state u = if u ∈ taken then .ready
      else if u = t ∧ place.isSome then .blocked else s.mem.state u) :
    (s.settle t mem place taken).Sound line' := by
  have hwaits : ∀ u, (s.settle t mem place taken).waits u = true ↔
      u ∉ taken ∧ if u = t then place.isSome = true else s.waits u = true := by
    intro u
    simp only [SyncSystem.settle, Bool.and_eq_true, Bool.not_eq_true', List.contains_eq_mem,
      decide_eq_false_iff_not]
    split <;> rfl
  constructor
  · exact hqueues
  · intro q u
    rw [hmoved q u, hwaits u]
    by_cases hu : u = t
    · subst hu
      have hout : u ∉ line q := h.not_in_line hready q
      simp only [SyncSystem.settle, Function.update_self, hout, false_and, false_or, true_and,
        htaken, not_false_eq_true, if_true]
      refine (and_iff_right_of_imp fun hq => ?_).symm
      exact Option.isSome_of_mem (Option.map_eq_some_iff.mp hq).choose_spec.1
    · simp only [SyncSystem.settle, Function.update_of_ne hu, h.waiting q u, hu, false_and,
        or_false, if_false]
      constructor
      · exact fun ⟨⟨hw, hq⟩, hnot⟩ => ⟨⟨hnot, hw⟩, hq⟩
      · exact fun ⟨⟨hnot, hw⟩, hq⟩ => ⟨⟨hw, hq⟩, hnot⟩
  · intro u hu
    obtain ⟨hnot, hw⟩ := (hwaits u).mp hu
    change mem.state u ≠ .ready ∧ _
    rw [hstate u, if_neg hnot]
    by_cases hut : u = t
    · subst hut
      rw [if_pos rfl] at hw
      rw [if_pos ⟨rfl, hw⟩]
      refine ⟨nofun, ?_⟩
      simpa [SyncSystem.settle] using hw
    · rw [if_neg hut] at hw
      rw [if_neg fun hu => hut hu.1]
      simpa [SyncSystem.settle, hut] using h.stopped u hw

/-- A critical section of a ready task does not take the task itself. -/
theorem Sound.not_taken (h : s.Sound line) (hready : s.mem.state t = .ready)
    (c : SyncCall M S C) : t ∉ (s.mem.dispatch t).taken c := by
  intro ht
  have hdispatch : (s.mem.dispatch t).Queues line :=
    h.queues.congr (fun q => by cases q <;> rfl) fun u => rfl
  obtain ⟨q, -, hline⟩ := hdispatch.mem_of_taken ht
  exact h.not_in_line hready q hline

variable [DecidableEq M] [DecidableEq S] [DecidableEq C]

/-- A ready task runs a critical section. -/
theorem Sound.critical (h : s.Sound line) (hready : s.mem.state t = .ready)
    {c : SyncCall M S C} (hstep : s.critical t c = some s') : s'.InLines := by
  obtain ⟨⟨mem, place⟩, hperform, rfl⟩ := Option.map_eq_some_iff.mp hstep
  have hdispatch : (s.mem.dispatch t).Queues line := h.queues.congr (fun q => by cases q <;> rfl)
    fun u => rfl
  obtain ⟨line', hqueues, hmoved⟩ :=
    SyncMemory.perform_queues hdispatch rfl (h.not_in_line hready) hperform
  exact ⟨line', h.settle hready hqueues hmoved (h.not_taken hready c)
    (SyncMemory.perform_state hperform rfl)⟩

/-- **One step.** It keeps the lines if it makes no waiting task ready behind their back. -/
theorem Sound.step (h : s.Sound line) {a : SyncAction n M S C} (hok : s.SparesLines a)
    (hstep : s.syncStep a = some s') : s'.InLines := by
  cases a with
  | call t c =>
    obtain ⟨hcall, hcritical⟩ := Option.ite_none_right_eq_some.mp hstep
    exact h.critical hcall.1 hcritical
  | wake t =>
    obtain ⟨hready, hrest⟩ := Option.ite_none_right_eq_some.mp hstep
    split at hrest
    · cases hrest
    · exact h.critical hready hrest
    · cases hrest
      refine ⟨line, h.settle hready (h.queues.congr (fun q => by cases q <;> rfl) fun u => rfl)
        SyncMemory.moved_refl List.not_mem_nil fun u => ?_⟩
      simp [SyncMemory.state, SyncMemory.dispatch, SyncMemory.withSys]
  | suspend t =>
    cases hstep
    refine ⟨line, h.relabel (h.queues.congr (fun q => by cases q <;> rfl) fun u => ?_) rfl rfl
      fun u _ hu => ?_⟩
    · exact (taskSuspend_spec s.mem.kernel.sys u t).1
    · rcases (taskSuspend_spec s.mem.kernel.sys u t).2 with hsame | hsuspended
      · exact hsame.symm.trans hu
      · cases hsuspended.symm.trans hu
  | resume t =>
    cases hstep
    refine ⟨line, h.relabel (h.queues.congr (fun q => by cases q <;> rfl) fun u => ?_) rfl rfl
      fun u hw hu => ?_⟩
    · exact taskResume_nextWait s.mem.kernel.sys t u
    · change ((taskResume s.mem.kernel.sys t).taskList u).state = .ready at hu
      rw [resume_state] at hu
      split at hu
      · rename_i hresumed
        exact absurd hresumed.2 (hok u hresumed.1 hw)
      · exact hu
  | updateDeadlines now =>
    obtain ⟨sys, hupdate, rfl⟩ := Option.map_eq_some_iff.mp hstep
    refine ⟨line, h.relabel (h.queues.congr (fun q => by cases q <;> rfl) fun u => ?_) rfl rfl
      fun u hw hu => ?_⟩
    · exact (updateDeadlines_ready hupdate u).1
    · exact ((updateDeadlines_ready hupdate u).2.mp hu).resolve_right (hok u hw)

/-- **A waiting task** waits on in its call, or a call took it from the line. -/
theorem Sound.waits_step (h : s.Sound line) {a : SyncAction n M S C}
    (hstep : s.syncStep a = some s') (hu : s.waits u = true) :
    s'.waits u = true ∧ s'.pending u = s.pending u ∨
      ∃ t c, a = .call t c ∧ u ∈ (s.mem.dispatch t).taken c ∧
        c.serves = (s.pending u).map WaitPlace.queue := by
  have busy {t} (hready : s.mem.state t = .ready) : u ≠ t := by
    rintro rfl
    exact (h.stopped u hu).1 hready
  cases a with
  | call t c =>
    obtain ⟨hcall, hcritical⟩ := Option.ite_none_right_eq_some.mp hstep
    obtain ⟨⟨mem, place⟩, hperform, rfl⟩ := Option.map_eq_some_iff.mp hcritical
    by_cases htaken : u ∈ (s.mem.dispatch t).taken c
    · have hdispatch : (s.mem.dispatch t).Queues line :=
        h.queues.congr (fun q => by cases q <;> rfl) fun u => rfl
      obtain ⟨q, hserves, hline⟩ := hdispatch.mem_of_taken htaken
      exact .inr ⟨t, c, rfl, htaken, hserves.trans ((h.waiting q u).mp hline).2.symm⟩
    · left
      simp [SyncSystem.settle, busy hcall.1, htaken, hu]
  | wake t =>
    obtain ⟨hready, hrest⟩ := Option.ite_none_right_eq_some.mp hstep
    left
    split at hrest
    · cases hrest
    · obtain ⟨⟨mem, place⟩, hperform, rfl⟩ := Option.map_eq_some_iff.mp hrest
      simp [SyncSystem.settle, busy hready, SyncMemory.taken, hu]
    · cases hrest
      simp [SyncSystem.settle, busy hready, hu]
  | suspend | resume =>
    cases hstep
    exact .inl ⟨hu, rfl⟩
  | updateDeadlines now =>
    obtain ⟨sys, -, rfl⟩ := Option.map_eq_some_iff.mp hstep
    exact .inl ⟨hu, rfl⟩

/-- Any other step makes a task ready that stands in a line. -/
theorem not_inLines_of_step {a : SyncAction n M S C} (hbad : ¬ s.SparesLines a)
    (hstep : s.syncStep a = some s') : ¬ s'.InLines := by
  rintro ⟨line', h'⟩
  cases a with
  | call | wake | suspend => exact hbad trivial
  | resume t =>
    cases hstep
    refine hbad fun u ht hw hsuspended => (h'.stopped u hw).1 ?_
    change ((taskResume s.mem.kernel.sys t).taskList u).state = .ready
    rw [resume_state, if_pos ⟨ht, hsuspended⟩]
  | updateDeadlines now =>
    obtain ⟨sys, hupdate, rfl⟩ := Option.map_eq_some_iff.mp hstep
    refine hbad fun u hw hrel => (h'.stopped u hw).1 ?_
    exact (updateDeadlines_ready hupdate u).2.mpr (.inr hrel)

omit [DecidableEq M] [DecidableEq S] [DecidableEq C] in
/-- All queues are empty at the start. -/
theorem start_inLines (mem : SyncMemory n M S C) (name : M → List UInt8) (initialCount : S → Int)
    (semName : S → List UInt8) : (start mem name initialCount semName).InLines := by
  refine ⟨fun _ => [], ⟨fun q => ?_, fun _ _ _ h => absurd h List.not_mem_nil⟩, ?_, ?_⟩
  · cases q <;> rfl
  · intro q t
    simp [start]
  · intro t ht
    cases ht

/-- **When all queues stay lines.** In a run of calls on any number of mutexes, semaphores and
condition variables, of suspensions and resumes and passes of the release loop, the queues are
lines that do not meet and hold the waiting tasks, none of them ready, in every state exactly when
no step resumes a task that was suspended in its line, or releases one that waits. -/
theorem lines_kept_iff (mem : SyncMemory n M S C) (name : M → List UInt8)
    (initialCount : S → Int) (semName : S → List UInt8) (actions : List (SyncAction n M S C)) :
    Along syncStep InLines (start mem name initialCount semName) actions ↔
      Meets syncStep SparesLines (start mem name initialCount semName) actions :=
  along_iff_meets (fun _ h => h) (fun _ _ _ ⟨_, h⟩ hok hstep => h.step hok hstep)
    (fun _ _ _ _ hbad hstep => not_inLines_of_step hbad hstep)
    (start_inLines mem name initialCount semName) actions

end SyncSystem

end ArmKernel.Sync

/-
The wait queue of the synchronisation objects (`add_to_wait_queue` and
`remove_from_wait_queue` of `src/mutex.c`; the semaphores and the condition
variables call the same two functions).

A queue is a head pointer; the tasks are linked through `task->next_wait`.
`Queued tasks head q` says that the queue holds exactly the tasks of `q`, first
in line first. `add_to_wait_queue_spec` appends a task that is not in line,
`remove_from_wait_queue_spec` takes the first one, and `Queued.frame` keeps the
other queues of the system through either.
-/
import ArmKernel.Support.Chain
import ArmKernel.Tasks.Table

namespace ArmKernel.Sync

open ArmKernel.Support ArmKernel.Tasks

variable {n : Nat} {tasks tasks' : Fin n → Task n} {head : Option (Fin n)} {t : Fin n}
  {q : List (Fin n)}

/-- The `next_wait` pointers of a task table. -/
abbrev nextWaitOf (tasks : Fin n → Task n) : Fin n → Option (Fin n) := fun t => (tasks t).nextWait

/-- `task->next_wait = p`. -/
def setNextWait (tasks : Fin n → Task n) (t : Fin n) (p : Option (Fin n)) : Fin n → Task n :=
  Function.update tasks t { tasks t with nextWait := p }

/-- `add_to_wait_queue`. A walk of more than `n` hops never ends; it is `none`. -/
def addToWaitQueue (tasks : Fin n → Task n) (queue : Option (Fin n)) (task : Fin n) :
    Option ((Fin n → Task n) × Option (Fin n)) :=
  let tasks := setNextWait tasks task none
  match queue with
  | none => some (tasks, some task)
  | some current =>
    (walkLast (nextWaitOf tasks) n current).map fun last =>
      (setNextWait tasks last (some task), queue)

/-- `remove_from_wait_queue`: the table, the queue and the task taken off. -/
def removeFromWaitQueue (tasks : Fin n → Task n) (queue : Option (Fin n)) :
    (Fin n → Task n) × Option (Fin n) × Option (Fin n) :=
  match queue with
  | none => (tasks, none, none)
  | some task => (setNextWait tasks task none, (tasks task).nextWait, some task)

/-- The queue at `head` holds the tasks of `q`, in line in this order. -/
def Queued (tasks : Fin n → Task n) (head : Option (Fin n)) (q : List (Fin n)) : Prop :=
  Chain (nextWaitOf tasks) head q

/-- `t` stands in the queue at `head`. -/
def InLine (tasks : Fin n → Task n) (head : Option (Fin n)) (t : Fin n) : Prop :=
  OnChain (nextWaitOf tasks) head t

theorem Queued.inLine_iff (h : Queued tasks head q) : InLine tasks head t ↔ t ∈ q :=
  Chain.onChain_iff h

theorem Queued.head_eq (h : Queued tasks head q) : head = q.head? := Chain.head_eq h

theorem Queued.nodup (h : Queued tasks head q) : q.Nodup := Chain.nodup h

@[simp] theorem nextWaitOf_setNextWait (tasks : Fin n → Task n) (t : Fin n) (p : Option (Fin n)) :
    nextWaitOf (setNextWait tasks t p) = Function.update (nextWaitOf tasks) t p := by
  funext u
  by_cases h : u = t
  · subst h; simp [nextWaitOf, setNextWait]
  · simp [nextWaitOf, setNextWait, h]

@[simp] theorem setNextWait_state (tasks : Fin n → Task n) (t u : Fin n) (p : Option (Fin n)) :
    (setNextWait tasks t p u).state = (tasks u).state := by
  by_cases h : u = t
  · subst h; simp [setNextWait]
  · simp [setNextWait, h]

/-- `add_to_wait_queue` writes no state, whatever the queue looks like. -/
theorem addToWaitQueue_state {head' : Option (Fin n)}
    (h : addToWaitQueue tasks head t = some (tasks', head')) (u : Fin n) :
    (tasks' u).state = (tasks u).state := by
  cases head with
  | none =>
    cases h
    exact setNextWait_state tasks t u none
  | some first =>
    obtain ⟨last, -, hresult⟩ := Option.map_eq_some_iff.mp h
    cases hresult
    rw [setNextWait_state, setNextWait_state]

/-- A queue reads only the `next_wait` of the tasks in line. -/
theorem Queued.frame (h : Queued tasks head q)
    (agree : ∀ t ∈ q, (tasks' t).nextWait = (tasks t).nextWait) : Queued tasks' head q :=
  Chain.congr h agree

/-- The queue holds at most all tasks, so its last one is found. -/
theorem Queued.walkLast_eq {first last : Fin n} (h : Queued tasks (some first) (q ++ [last])) :
    walkLast (nextWaitOf tasks) n first = some last := by
  apply Chain.walkLast_eq h
  have hlen := Chain.length_le h
  simp only [List.length_append, List.length_singleton, Fintype.card_fin] at hlen
  omega

/-- **`add_to_wait_queue` appends.** For a task that is not in line the walk ends,
the task becomes the last one, and only `next_wait` of the task and of the old
last one change. -/
theorem add_to_wait_queue_spec (h : Queued tasks head q) (ht : t ∉ q) :
    ∃ tasks' head', addToWaitQueue tasks head t = some (tasks', head') ∧
      Queued tasks' head' (q ++ [t]) ∧
      (∀ u, (tasks' u).state = (tasks u).state) ∧
      ∀ u, u ≠ t → u ∉ q → (tasks' u).nextWait = (tasks u).nextWait := by
  have hcleared : Queued (setNextWait tasks t none) head q := by
    unfold Queued
    rw [nextWaitOf_setNextWait]
    exact Chain.update h ht none
  have hfree : nextWaitOf (setNextWait tasks t none) t = none := by simp [nextWaitOf, setNextWait]
  cases q using List.reverseRecOn with
  | nil =>
    obtain rfl := h.head_eq
    refine ⟨_, _, rfl, ⟨rfl, hfree⟩, fun u => by simp, fun u hu _ => ?_⟩
    simp [setNextWait, hu]
  | append_singleton q last _ =>
    cases head with
    | none => cases q <;> simp [Queued] at h
    | some first =>
      have hwalk := hcleared.walkLast_eq
      refine ⟨setNextWait (setNextWait tasks t none) last (some t), some first, ?_, ?_, ?_, ?_⟩
      · simp only [addToWaitQueue, hwalk, Option.map_some]
      · have := Chain.append_fresh hcleared ht hfree
        rw [← nextWaitOf_setNextWait] at this
        exact this
      · intro u
        simp
      · intro u hut huq
        have hul : u ≠ last := fun e => huq (by simp [e])
        simp [setNextWait, hut, hul]

/-- **`remove_from_wait_queue` takes the first.** On an empty queue it changes
nothing; otherwise the first task leaves and its `next_wait` is cleared. -/
theorem remove_from_wait_queue_spec (h : Queued tasks head q) :
    (q = [] ∧ removeFromWaitQueue tasks head = (tasks, none, none)) ∨
      ∃ w rest tasks' head', q = w :: rest ∧
        removeFromWaitQueue tasks head = (tasks', head', some w) ∧
        Queued tasks' head' rest ∧
        (∀ u, (tasks' u).state = (tasks u).state) ∧
        ∀ u, u ≠ w → (tasks' u).nextWait = (tasks u).nextWait := by
  cases q with
  | nil =>
    obtain rfl := h.head_eq
    exact .inl ⟨rfl, rfl⟩
  | cons w rest =>
    obtain ⟨rfl, hrest⟩ := h
    have hall : Chain (nextWaitOf tasks) (some w) (w :: rest) := ⟨rfl, hrest⟩
    have hw : w ∉ rest := (List.nodup_cons.mp hall.nodup).1
    refine .inr ⟨w, rest, setNextWait tasks w none, (tasks w).nextWait, rfl, rfl, ?_, ?_, ?_⟩
    · unfold Queued
      rw [nextWaitOf_setNextWait]
      exact Chain.update hrest hw none
    · intro u
      simp
    · intro u hu
      simp [setNextWait, hu]

end ArmKernel.Sync

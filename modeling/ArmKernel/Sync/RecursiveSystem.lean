/-
Balance of the recursive mutex, for every interleaving of `recursive_mutex_lock` and
`recursive_mutex_unlock` (`src/mutex.c`).

Beside the system of the plain mutexes, `locks` and `unlocks` keep, as history, how often a
task was given a mutex (its lock call returned at once, or the mutex was handed to it) and
how often it unlocked it as the owner. `recStep_cases` lists what a call can do: a nested call
writes the count only, and every other call is one of the plain mutex and a write of the
count. So the queue is that of the plain mutex, and `Balanced` says what the count is.
-/
import ArmKernel.Sync.HandOff
import ArmKernel.Sync.Recursive

namespace ArmKernel.Sync

open ArmKernel.Support ArmKernel.Tasks

variable {n : Nat} {M : Type} [DecidableEq M]

/-- The mutexes and the tasks that run, with how often each task locked and unlocked. -/
structure RecursiveSystem (n : Nat) (M : Type) where
  sys : System n M
  locks : M → Fin n → Nat
  unlocks : M → Fin n → Nat

/-- One more for the task `t` on the mutex `m`. -/
def bump (count : M → Fin n → Nat) (m : M) (t : Fin n) : M → Fin n → Nat :=
  Function.update count m (Function.update (count m) t (count m t + 1))

theorem bump_eq (count : M → Fin n → Nat) (m m' : M) (t u : Fin n) :
    bump count m t m' u = if m' = m ∧ u = t then count m t + 1 else count m' u := by
  unfold bump
  by_cases hm : m' = m
  · subst hm
    by_cases hu : u = t
    · subst hu
      simp
    · simp [hu]
  · simp [hm]

namespace RecursiveSystem

omit [DecidableEq M] in
/-- All mutexes as `recursive_mutex_init` leaves them, no call under way. -/
def start (k : Kernel n M) (name : M → List UInt8) : RecursiveSystem n M where
  sys := System.start { k with mutexes := fun m => recursiveMutexInit n (name m) } name
  locks := fun _ _ => 0
  unlocks := fun _ _ => 0

/-- One call by one task. The recursive mutex has no `trylock`. -/
def recStep (s : RecursiveSystem n M) : Call (Fin n) M → Option (RecursiveSystem n M)
  | .lock t m =>
    if s.sys.CanCall t then
      (recursiveMutexLock (s.sys.dispatch t) (some m)).map fun (k, yields) =>
        if yields then
          { s with
            sys :=
              { s.sys with
                kernel := k
                pending := Function.update s.sys.pending t (some m)
                blockedOrder := Function.update s.sys.blockedOrder m (s.sys.blockedOrder m ++ [t]) } }
        else
          { s with
            sys :=
              { s.sys with
                kernel := k
                holds := Function.update s.sys.holds m (Function.update (s.sys.holds m) t true) }
            locks := bump s.locks m t }
    else none
  | .trylock _ _ => none
  | .unlock t m =>
    if s.sys.CanCall t then
      let k := recursiveMutexUnlock (s.sys.dispatch t) (some m)
      if (s.sys.mutex m).owner = some t then
        if (k.mutexes m).owner = some t then
          some { s with sys := { s.sys with kernel := k }, unlocks := bump s.unlocks m t }
        else
          some
            { sys :=
                { s.sys with
                  kernel := k
                  holds := Function.update s.sys.holds m (Function.update (s.sys.holds m) t false)
                  grantedOrder :=
                    match (k.mutexes m).owner with
                    | some w => Function.update s.sys.grantedOrder m (s.sys.grantedOrder m ++ [w])
                    | none => s.sys.grantedOrder }
              locks :=
                match (k.mutexes m).owner with
                | some w => bump s.locks m w
                | none => s.locks
              unlocks := bump s.unlocks m t }
      else some { s with sys := { s.sys with kernel := k } }
    else none
  | .wake t => (s.sys.callStep (.wake t)).map fun sys => { s with sys }

/-- How deep the task is inside the mutex. -/
def depth (s : RecursiveSystem n M) (m : M) (t : Fin n) : Nat := s.locks m t - s.unlocks m t

/-- No task nests 2^32 locks. -/
def NestsBelow (s : RecursiveSystem n M) : Call (Fin n) M → Prop
  | .lock t m => s.depth m t + 1 < 2 ^ 32
  | _ => True

instance (s : RecursiveSystem n M) : (c : Call (Fin n) M) → Decidable (s.NestsBelow c)
  | .lock t m => inferInstanceAs (Decidable (s.depth m t + 1 < 2 ^ 32))
  | .trylock _ _ | .unlock _ _ | .wake _ => isTrue trivial

/-- The count of a mutex is what its owner locked and did not unlock yet; the other tasks
have unlocked as often as they locked. -/
structure Balanced (s : RecursiveSystem n M) (m : M) : Prop where
  owner : ∀ t, (s.sys.mutex m).owner = some t →
    (s.sys.mutex m).recursiveCount + s.unlocks m t = s.locks m t
  free : (s.sys.mutex m).owner = none → (s.sys.mutex m).recursiveCount = 0
  others : ∀ t, (s.sys.mutex m).owner ≠ some t → s.locks m t = s.unlocks m t

end RecursiveSystem

/-! ### Writing the count -/

namespace System

variable {s s' : System n M} {m m' : M} {t : Fin n} {count : Nat} {line : M → List (Fin n)}

/-- The system with another count in the mutex `m`. -/
def withCount (s : System n M) (m : M) (count : Nat) : System n M :=
  { s with kernel := s.kernel.setCount m count }

/-- The mutexes after the count of `m` was written. -/
theorem withCount_mutex :
    (s.withCount m count).mutex m' =
      if m' = m then { s.mutex m with recursiveCount := count } else s.mutex m' := by
  unfold withCount mutex Kernel.setCount Kernel.setMutex
  by_cases hm : m' = m
  · subst hm
    simp
  · simp [hm]

@[simp] theorem withCount_owner : ((s.withCount m count).mutex m').owner = (s.mutex m').owner := by
  rw [withCount_mutex]
  split
  · rename_i hm
    rw [hm]
  · rfl

@[simp] theorem withCount_locked : ((s.withCount m count).mutex m').locked = (s.mutex m').locked := by
  rw [withCount_mutex]
  split
  · rename_i hm
    rw [hm]
  · rfl

@[simp] theorem withCount_waiting :
    ((s.withCount m count).mutex m').waitingTasks = (s.mutex m').waitingTasks := by
  rw [withCount_mutex]
  split
  · rename_i hm
    rw [hm]
  · rfl

theorem withCount_count :
    ((s.withCount m count).mutex m').recursiveCount =
      if m' = m then count else (s.mutex m').recursiveCount := by
  rw [withCount_mutex]
  split <;> rfl

/-- The count is no part of the lock system. -/
theorem withCount_spec : (s.withCount m count).spec line = s.spec line := by
  simp only [spec, withCount_owner]
  rfl

theorem Represents.withCount (h : s.Represents line) : (s.withCount m count).Represents line where
  queued m' := by
    rw [withCount_waiting]
    exact h.queued m'
  locked m' := by
    rw [withCount_locked, withCount_owner]
    exact h.locked m'

/-- Writing the count keeps the invariant of the plain mutexes. -/
theorem Sound.withCount (h : s.Sound) : (s.withCount m count).Sound := by
  obtain ⟨line, hrep, hinv, hstrict⟩ := h
  refine ⟨line, hrep.withCount, ?_, ?_⟩
  · rw [withCount_spec]
    exact hinv
  · rw [withCount_spec]
    exact hstrict

/-- The task `t` runs, inside the mutex `m`. -/
def entered (s : System n M) (t : Fin n) (m : M) : System n M :=
  { s with
    kernel := s.dispatch t
    holds := Function.update s.holds m (Function.update (s.holds m) t true) }

omit [DecidableEq M] in
/-- Running another task keeps the invariant. -/
theorem Sound.dispatch (h : s.Sound) : { s with kernel := s.dispatch t }.Sound := by
  obtain ⟨line, hrep, hinv, hstrict⟩ := h
  exact ⟨line, ⟨hrep.queued, hrep.locked⟩, hinv, hstrict⟩

/-- So does marking the owner as inside. -/
theorem Sound.entered (h : s.Sound) (howner : (s.mutex m).owner = some t) :
    (s.entered t m).Sound := by
  obtain ⟨line, hrep, hinv, hstrict⟩ := h
  refine ⟨line, ⟨hrep.queued, hrep.locked⟩, { hinv with holder := ?_ },
    hstrict.blocked, hstrict.ownerOut⟩
  intro m' u hu
  have hset : (s.spec line).setHolds m t true m' u = true := hu
  rw [LockSpec.setHolds_eq] at hset
  split at hset
  · rename_i hthis
    obtain ⟨rfl, rfl⟩ := hthis
    exact howner
  · exact hinv.holder m' u hset

/-! ### What a call of the plain mutex does to owners and counts -/

/-- `mutex_lock` and `mutex_unlock` do not write the count. -/
theorem mutexLock_count {k k' : Kernel n M} {yields : Bool}
    (h : mutexLock k (some m) = some (k', yields)) (m' : M) :
    (k'.mutexes m').recursiveCount = (k.mutexes m').recursiveCount := by
  have hset : ∀ x : Mutex n, x.recursiveCount = (k.mutexes m).recursiveCount →
      ((k.setMutex m x).mutexes m').recursiveCount = (k.mutexes m').recursiveCount := by
    intro x hx
    by_cases hm : m' = m
    · subst hm
      simpa [Kernel.setMutex] using hx
    · simp [Kernel.setMutex, hm]
  simp only [mutexLock] at h
  split at h
  · cases h
    exact hset _ rfl
  · split at h
    · cases h
    · obtain ⟨⟨tasks, queue⟩, -, hresult⟩ := Option.map_eq_some_iff.mp h
      cases hresult
      exact hset _ rfl

theorem callStep_lock_count (hstep : s.callStep (.lock t m) = some s') (m' : M) :
    (s'.mutex m').recursiveCount = (s.mutex m').recursiveCount := by
  simp only [callStep] at hstep
  split at hstep
  · obtain ⟨⟨k, yields⟩, hlock, hresult⟩ := Option.map_eq_some_iff.mp hstep
    have hcount := mutexLock_count hlock m'
    cases yields <;> cases hresult <;> exact hcount
  · cases hstep

theorem callStep_unlock_count (hstep : s.callStep (.unlock t m) = some s') (hm : m' ≠ m) :
    (s'.mutex m').recursiveCount = (s.mutex m').recursiveCount := by
  have hunlock : ((mutexUnlock (s.dispatch t) (some m)).mutexes m') = s.kernel.mutexes m' := by
    simp only [mutexUnlock]
    split
    · rfl
    · split <;> simp [Kernel.setMutex, hm, System.dispatch]
  simp only [callStep] at hstep
  split at hstep
  · split at hstep <;> cases hstep <;> exact congrArg Mutex.recursiveCount hunlock
  · cases hstep

/-- A lock by a task that is not the owner: it takes a free mutex, and blocks on a taken one. -/
theorem Sound.lock_owner (h : s.Sound) (hstep : s.callStep (.lock t m) = some s') :
    ((s.mutex m).owner = none ∧ s'.pending t = none ∧
        ∀ m', (s'.mutex m').owner = if m' = m then some t else (s.mutex m').owner) ∨
      ((s.mutex m).owner ≠ none ∧ s'.pending t = some m ∧
        ∀ m', (s'.mutex m').owner = (s.mutex m').owner) := by
  obtain ⟨line, hrep, hinv, -⟩ := h
  obtain ⟨line', -, hmove⟩ := callStep_refines hrep hinv hstep
  have howner : ∀ m', (s'.mutex m').owner = (s'.spec line').owner m' := fun _ => rfl
  have hpending : s'.pending t = (s'.spec line').pending t := rfl
  simp only [howner, hpending]
  generalize s'.spec line' = b at hmove
  cases hmove with
  | lockFree hcall hfree =>
    refine .inl ⟨hfree, hcall.2, ?_⟩
    intro m'
    by_cases hm : m' = m
    · subst hm
      simp [LockSpec.acquire]
    · simp [LockSpec.acquire, hm, spec]
  | lockTaken hcall htaken =>
    exact .inr ⟨htaken, by simp [LockSpec.enqueue], fun _ => rfl⟩

/-- The owner that unlocks gives the mutex to the first in line, who is another task. -/
theorem Sound.unlock_owner (h : s.Sound) (howner : (s.mutex m).owner = some t)
    (hstep : s.callStep (.unlock t m) = some s') :
    ∃ q, s.QueueSound m q ∧ q.head? = (s.mutex m).waitingTasks ∧
      (∀ m', (s'.mutex m').owner = if m' = m then q.head? else (s.mutex m').owner) := by
  obtain ⟨q, hq⟩ := h.queueSound m
  obtain ⟨line, hrep, hinv, -⟩ := h
  obtain ⟨line', -, hmove⟩ := callStep_refines hrep hinv hstep
  have hline : line m = q := Chain.unique (hrep.queued m) hq.queued
  have hhead : q.head? = (s.mutex m).waitingTasks := hq.queued.head_eq.symm
  refine ⟨q, hq, hhead, ?_⟩
  intro m'
  have howner' : (s'.mutex m').owner = (s'.spec line').owner m' := rfl
  rw [howner']
  generalize s'.spec line' = b at hmove
  cases hmove with
  | unlockOther hcall hother => exact absurd howner hother
  | unlockLast hcall _ hempty =>
    have hnil : q = [] := hline.symm.trans hempty
    by_cases hm : m' = m
    · subst hm
      simp [LockSpec.release, hnil]
    · simp [LockSpec.release, hm, spec]
  | @unlockNext _ _ w rest hcall _ hnext =>
    have hcons : q = w :: rest := hline.symm.trans hnext
    by_cases hm : m' = m
    · subst hm
      simp [LockSpec.handOff, hcons]
    · simp [LockSpec.handOff, hm, spec]

end System

/-! ### What a call of the recursive mutex does -/

/-- The mutex has its next owner once the last unlock of its owner is done. -/
theorem mutexUnlock_owner {k : Kernel n M} {m : M} (h : (k.mutexes m).owner = taskGetCurrent k.sys) :
    ((mutexUnlock k (some m)).mutexes m).owner = (k.mutexes m).waitingTasks := by
  simp only [mutexUnlock, if_neg (not_not.mpr h)]
  cases hqueue : (k.mutexes m).waitingTasks <;> simp [removeFromWaitQueue, Kernel.setMutex]

namespace RecursiveSystem

variable {s s' : RecursiveSystem n M} {c : Call (Fin n) M} {t u : Fin n} {m m' : M}

/-- The moves of the recursive mutexes, by the moves of the plain ones. -/
inductive Move (s : RecursiveSystem n M) : Call (Fin n) M → RecursiveSystem n M → Prop where
  | again {t : Fin n} {m : M} : s.sys.CanCall t → (s.sys.mutex m).owner = some t →
      Move s (.lock t m)
        { s with
          sys := (s.sys.entered t m).withCount m (wrap32 ((s.sys.mutex m).recursiveCount + 1))
          locks := bump s.locks m t }
  | first {t : Fin n} {m : M} {sys : System n M} : s.sys.callStep (.lock t m) = some sys →
      (s.sys.mutex m).owner = none →
      Move s (.lock t m) { s with sys := sys.withCount m 1, locks := bump s.locks m t }
  | blocks {t : Fin n} {m : M} {sys : System n M} : s.sys.callStep (.lock t m) = some sys →
      (s.sys.mutex m).owner ≠ none → (s.sys.mutex m).owner ≠ some t → Move s (.lock t m) { s with sys }
  | nested {t : Fin n} {m : M} : s.sys.CanCall t → (s.sys.mutex m).owner = some t →
      0 < sub32 (s.sys.mutex m).recursiveCount 1 →
      Move s (.unlock t m)
        { s with
          sys := { s.sys with kernel := s.sys.dispatch t }.withCount m
            (sub32 (s.sys.mutex m).recursiveCount 1)
          unlocks := bump s.unlocks m t }
  | outermost {t : Fin n} {m : M} {sys : System n M} : s.sys.callStep (.unlock t m) = some sys →
      (s.sys.mutex m).owner = some t → sub32 (s.sys.mutex m).recursiveCount 1 = 0 →
      Move s (.unlock t m)
        { sys := sys.withCount m (sys.mutex m).owner.isSome.toNat
          locks :=
            match (sys.mutex m).owner with
            | some w => bump s.locks m w
            | none => s.locks
          unlocks := bump s.unlocks m t }
  | refused {t : Fin n} {m : M} : s.sys.CanCall t → (s.sys.mutex m).owner ≠ some t →
      Move s (.unlock t m) { s with sys := { s.sys with kernel := s.sys.dispatch t } }
  | wake {t : Fin n} {sys : System n M} : s.sys.callStep (.wake t) = some sys → Move s (.wake t) { s with sys }

/-- A lock by a task that is not the owner is one of the plain mutex. -/
theorem recStep_lock_other (hcall : s.sys.CanCall t) (hother : (s.sys.mutex m).owner ≠ some t) :
    s.recStep (.lock t m) = (s.sys.callStep (.lock t m)).map fun sys =>
      if sys.pending t = none then { s with sys := sys.withCount m 1, locks := bump s.locks m t }
      else { s with sys } := by
  simp only [recStep, System.callStep, if_pos hcall]
  rw [recursiveMutexLock_other (k := s.sys.dispatch t) hother]
  cases mutexLock (s.sys.dispatch t) (some m) with
  | none => rfl
  | some result =>
    obtain ⟨k, yields⟩ := result
    cases yields with
    | true => simp
    | false =>
      simp only [Option.map_some, Bool.false_eq_true, if_false, hcall.2, if_true]
      rfl

/-- The outermost unlock is one of the plain mutex, when its owner is not in line. -/
theorem recStep_unlock_last (hcall : s.sys.CanCall t) (howner : (s.sys.mutex m).owner = some t)
    (hcount : sub32 (s.sys.mutex m).recursiveCount 1 = 0)
    (hnext : (s.sys.mutex m).waitingTasks ≠ some t) :
    s.recStep (.unlock t m) = (s.sys.callStep (.unlock t m)).map fun sys =>
      { sys := sys.withCount m (sys.mutex m).owner.isSome.toNat
        locks :=
          match (sys.mutex m).owner with
          | some w => bump s.locks m w
          | none => s.locks
        unlocks := bump s.unlocks m t } := by
  have hunlock := mutexUnlock_owner (k := s.sys.dispatch t) (m := m) howner
  have hlast := recursiveMutexUnlock_last (k := s.sys.dispatch t) (m := m) howner hcount
  have howner' : ((recursiveMutexUnlock (s.sys.dispatch t) (some m)).mutexes m).owner =
      (s.sys.mutex m).waitingTasks := by
    rw [hlast]
    simp only [Kernel.setCount, Kernel.setMutex, Function.update_self]
    exact hunlock
  simp only [recStep, System.callStep, if_pos hcall, if_pos howner, howner', if_neg hnext,
    Option.map_some]
  rw [hlast]
  simp only [System.mutex, System.withCount, hunlock]
  rfl

/-- **Inversion.** -/
theorem recStep_cases (h : s.sys.Sound) (hstep : s.recStep c = some s') : Move s c s' := by
  cases c with
  | lock t m =>
    have hcall : s.sys.CanCall t := by
      by_contra hnot
      simp [recStep, hnot] at hstep
    by_cases howner : (s.sys.mutex m).owner = some t
    · have hagain := recursiveMutexLock_owner (k := s.sys.dispatch t) (m := m) howner
      simp only [recStep, if_pos hcall, hagain, Option.map_some] at hstep
      cases hstep
      exact .again hcall howner
    · rw [recStep_lock_other hcall howner] at hstep
      obtain ⟨sys, hlock, rfl⟩ := Option.map_eq_some_iff.mp hstep
      rcases h.lock_owner hlock with ⟨hfree, hpending, -⟩ | ⟨htaken, hpending, -⟩
      · rw [if_pos hpending]
        exact .first hlock hfree
      · rw [if_neg (by simp [hpending])]
        exact .blocks hlock htaken howner
  | trylock t m => cases hstep
  | unlock t m =>
    have hcall : s.sys.CanCall t := by
      by_contra hnot
      simp [recStep, hnot] at hstep
    by_cases howner : (s.sys.mutex m).owner = some t
    · rcases Nat.eq_zero_or_pos (sub32 (s.sys.mutex m).recursiveCount 1) with hcount | hcount
      · -- The owner is not in line, so the mutex does not come back to it.
        obtain ⟨q, hq⟩ := h.queueSound m
        have hnext : (s.sys.mutex m).waitingTasks ≠ some t := by
          intro hhead
          have hqueued := hq.queued
          rw [hhead] at hqueued
          cases q with
          | nil => cases hqueued
          | cons w rest =>
            obtain ⟨hw, -⟩ := hqueued
            cases hw
            exact hq.owner_out t howner List.mem_cons_self
        rw [recStep_unlock_last hcall howner hcount hnext] at hstep
        obtain ⟨sys, hunlock, rfl⟩ := Option.map_eq_some_iff.mp hstep
        exact .outermost hunlock howner hcount
      · have hnested := recursiveMutexUnlock_nested (k := s.sys.dispatch t) (m := m) howner hcount
        have hsame : ∀ count, (((s.sys.dispatch t).setCount m count).mutexes m).owner = some t := by
          intro count
          simp only [Kernel.setCount, Kernel.setMutex, Function.update_self]
          exact howner
        simp only [recStep, if_pos hcall, if_pos howner, hnested, if_pos (hsame _)] at hstep
        cases hstep
        exact .nested hcall howner hcount
    · have hother := recursiveMutexUnlock_other (k := s.sys.dispatch t) (m := m) howner
      simp only [recStep, if_pos hcall, if_neg howner, hother] at hstep
      cases hstep
      exact .refused hcall howner
  | wake t =>
    obtain ⟨sys, hwake, rfl⟩ := Option.map_eq_some_iff.mp hstep
    exact .wake hwake

/-- **Step, queues.** A move keeps the invariant of the plain mutexes. -/
theorem Move.sound (h : s.sys.Sound) (hmove : Move s c s') : s'.sys.Sound := by
  have hplain : ∀ {c sys}, s.sys.callStep c = some sys → s.sys.relocks c = false → sys.Sound := by
    intro c sys hstep hno
    exact h.step (by rw [System.exclusiveStep, hno]; exact hstep)
  cases hmove with
  | again hcall howner => exact (h.entered howner).withCount
  | first hlock hfree => exact (hplain hlock (by simp [System.relocks, hfree])).withCount
  | blocks hlock _ hother => exact hplain hlock (by simpa [System.relocks] using hother)
  | nested => exact h.dispatch.withCount
  | outermost hunlock => exact (hplain hunlock rfl).withCount
  | refused => exact h.dispatch
  | wake hwake => exact hplain hwake rfl

/-- The invariant of the counts: a mutex is balanced, and the count of an owner is a positive
word. -/
structure Counted (s : RecursiveSystem n M) (m : M) : Prop where
  balanced : s.Balanced m
  word : (s.sys.mutex m).recursiveCount < 2 ^ 32
  inside : (s.sys.mutex m).owner ≠ none → 0 < (s.sys.mutex m).recursiveCount

omit [DecidableEq M] in
theorem start_counted (k : Kernel n M) (name : M → List UInt8) (m : M) :
    (start k name).Counted m where
  balanced := ⟨fun _ h => (nomatch h), fun _ => rfl, fun _ _ => rfl⟩
  word := Nat.two_pow_pos 32
  inside := fun h => absurd rfl h

omit [DecidableEq M] in
/-- How deep the owner is inside is what the count says. -/
theorem Counted.depth_eq (h : s.Counted m) (howner : (s.sys.mutex m).owner = some t) :
    s.depth m t = (s.sys.mutex m).recursiveCount := by
  rw [depth, ← h.balanced.owner t howner, Nat.add_sub_cancel]

omit [DecidableEq M] in
/-- The last unlock is the one at depth 1. -/
theorem Counted.last_iff (h : s.Counted m) (howner : (s.sys.mutex m).owner = some t) :
    sub32 (s.sys.mutex m).recursiveCount 1 = 0 ↔ s.depth m t = 1 := by
  have hpos := h.inside (by simp [howner])
  rw [h.depth_eq howner, sub32_of_le h.word hpos]
  omega

omit [DecidableEq M] in
/-- A mutex whose owner and counts are as they were. -/
theorem Counted.congr (h : s.Counted m) (howner : (s'.sys.mutex m).owner = (s.sys.mutex m).owner)
    (hcount : (s'.sys.mutex m).recursiveCount = (s.sys.mutex m).recursiveCount)
    (hlocks : s'.locks m = s.locks m) (hunlocks : s'.unlocks m = s.unlocks m) : s'.Counted m := by
  refine ⟨⟨?_, ?_, ?_⟩, ?_, ?_⟩
  · rw [howner, hcount, hlocks, hunlocks]
    exact h.balanced.owner
  · rw [howner, hcount]
    exact h.balanced.free
  · rw [howner, hlocks, hunlocks]
    exact h.balanced.others
  · rw [hcount]
    exact h.word
  · rw [howner, hcount]
    exact h.inside

theorem bump_of_ne (count : M → Fin n → Nat) (hm : m' ≠ m) : bump count m t m' = count m' :=
  Function.update_of_ne hm _ _

/-- The scheduler coming back to a task changes no mutex. -/
theorem callStep_wake_mutex {s s' : System n M} (hstep : s.callStep (.wake t) = some s') :
    s'.mutex = s.mutex := by
  simp only [System.callStep] at hstep
  split at hstep
  · obtain ⟨m, -, rfl⟩ := Option.map_eq_some_iff.mp hstep
    rfl
  · cases hstep

/-- **Step, a lock that returns at once.** The owner is one lock deeper. -/
theorem Counted.locked (h : s.Counted m) (hnot : (s.sys.mutex m).owner = none ∨
      (s.sys.mutex m).owner = some t)
    (howner : (s'.sys.mutex m).owner = some t)
    (hcount : (s'.sys.mutex m).recursiveCount = (s.sys.mutex m).recursiveCount + 1)
    (hword : (s.sys.mutex m).recursiveCount + 1 < 2 ^ 32)
    (hlocks : s'.locks = bump s.locks m t) (hunlocks : s'.unlocks = s.unlocks) : s'.Counted m := by
  have hbefore : (s.sys.mutex m).recursiveCount + s.unlocks m t = s.locks m t := by
    rcases hnot with hfree | hself
    · rw [h.balanced.free hfree, h.balanced.others t (by simp [hfree]), Nat.zero_add]
    · exact h.balanced.owner t hself
  refine ⟨⟨?_, ?_, ?_⟩, ?_, ?_⟩
  · intro u hu
    obtain rfl : t = u := Option.some.inj (howner.symm.trans hu)
    rw [hlocks, hunlocks, hcount, bump_eq, if_pos ⟨rfl, rfl⟩]
    omega
  · intro hfree
    rw [howner] at hfree
    cases hfree
  · intro u hu
    have hut : u ≠ t := fun e => hu (e ▸ howner)
    rw [hlocks, hunlocks, bump_eq, if_neg fun e => hut e.2]
    apply h.balanced.others
    rcases hnot with hfree | hself
    · simp [hfree]
    · rw [hself]
      exact fun e => hut (Option.some.inj e).symm
  · rw [hcount]
    exact hword
  · intro _
    rw [hcount]
    exact Nat.succ_pos _

/-- **Step, a nested unlock.** The owner is one lock less deep. -/
theorem Counted.unlocked (h : s.Counted m) (hself : (s.sys.mutex m).owner = some t)
    (howner : (s'.sys.mutex m).owner = some t)
    (hcount : (s'.sys.mutex m).recursiveCount + 1 = (s.sys.mutex m).recursiveCount)
    (hpos : 0 < (s'.sys.mutex m).recursiveCount)
    (hlocks : s'.locks = s.locks) (hunlocks : s'.unlocks = bump s.unlocks m t) : s'.Counted m := by
  have hbefore := h.balanced.owner t hself
  have hword := h.word
  refine ⟨⟨fun u hu => ?_, fun hfree => ?_, fun u hu => ?_⟩, by omega, fun _ => hpos⟩
  · obtain rfl : t = u := Option.some.inj (howner.symm.trans hu)
    rw [hlocks, hunlocks, bump_eq, if_pos ⟨rfl, rfl⟩]
    omega
  · rw [howner] at hfree
    cases hfree
  · have hut : u ≠ t := fun e => hu (e ▸ howner)
    rw [hlocks, hunlocks, bump_eq, if_neg fun e => hut e.2]
    exact h.balanced.others u (by rw [hself]; exact fun e => hut (Option.some.inj e).symm)

/-- **Step, the outermost unlock.** The owner has unlocked as often as it locked, and the
next owner, if there is one, is one lock deep. -/
theorem Counted.passed (h : s.Counted m) (hself : (s.sys.mutex m).owner = some t)
    (hlast : (s.sys.mutex m).recursiveCount = 1)
    (hcount : (s'.sys.mutex m).recursiveCount = (s'.sys.mutex m).owner.isSome.toNat)
    (hlocks : s'.locks =
      match (s'.sys.mutex m).owner with
      | some w => bump s.locks m w
      | none => s.locks)
    (hunlocks : s'.unlocks = bump s.unlocks m t) : s'.Counted m := by
  have hbefore := h.balanced.owner t hself
  have hall : ∀ u, s.locks m u = bump s.unlocks m t m u := by
    intro u
    rw [bump_eq]
    split
    · rename_i hthis
      rw [hthis.2]
      omega
    · rename_i hother
      apply h.balanced.others
      rw [hself]
      exact fun e => hother ⟨rfl, (Option.some.inj e).symm⟩
  cases hnew : (s'.sys.mutex m).owner with
  | none =>
    simp only [hnew] at hcount hlocks
    refine ⟨⟨?_, fun _ => hcount, ?_⟩, ?_, fun hsome => absurd hnew hsome⟩
    · intro u hu
      rw [hnew] at hu
      cases hu
    · intro u _
      rw [hlocks, hunlocks]
      exact hall u
    · rw [hcount]
      exact Nat.two_pow_pos 32
  | some w =>
    simp only [hnew] at hcount hlocks
    have hone : (s'.sys.mutex m).recursiveCount = 1 := hcount
    refine ⟨⟨?_, ?_, ?_⟩, ?_, ?_⟩
    · intro u hu
      obtain rfl : w = u := Option.some.inj (hnew.symm.trans hu)
      rw [hlocks, hunlocks, bump_eq s.locks, if_pos ⟨rfl, rfl⟩, hone, ← hall w, Nat.add_comm]
    · intro hfree
      rw [hnew] at hfree
      cases hfree
    · intro u hu
      have huw : u ≠ w := fun e => hu (e ▸ hnew)
      rw [hlocks, hunlocks, bump_eq s.locks, if_neg fun e => huw e.2]
      exact hall u
    · rw [hone]
      exact Nat.one_lt_two_pow (by decide)
    · intro _
      rw [hone]
      exact Nat.one_pos

/-- **Step, the other mutexes.** A move leaves every mutex that its call is not about. -/
theorem Move.apart (h : s.sys.Sound) (hmove : Move s c s') (hlock : ∀ t, c ≠ .lock t m)
    (hunlock : ∀ t, c ≠ .unlock t m) :
    (s'.sys.mutex m).owner = (s.sys.mutex m).owner ∧
      (s'.sys.mutex m).recursiveCount = (s.sys.mutex m).recursiveCount ∧
      s'.locks m = s.locks m ∧ s'.unlocks m = s.unlocks m := by
  cases hmove with
  | @again t m' hcall howner =>
    have hm : m ≠ m' := fun e => hlock t (e ▸ rfl)
    rw [System.withCount_owner, System.withCount_count, if_neg hm]
    exact ⟨rfl, rfl, bump_of_ne s.locks hm, rfl⟩
  | @first t m' sys hstep hfree =>
    have hm : m ≠ m' := fun e => hlock t (e ▸ rfl)
    rw [System.withCount_owner, System.withCount_count, if_neg hm]
    rcases h.lock_owner hstep with ⟨-, -, hnew⟩ | ⟨htaken, -⟩
    · rw [hnew, if_neg hm]
      exact ⟨rfl, System.callStep_lock_count hstep m, bump_of_ne s.locks hm, rfl⟩
    · exact absurd hfree htaken
  | blocks hstep htaken =>
    rcases h.lock_owner hstep with ⟨hfree, -⟩ | ⟨-, -, hnew⟩
    · exact absurd hfree htaken
    · exact ⟨hnew m, System.callStep_lock_count hstep m, rfl, rfl⟩
  | @nested t m' hcall howner hpos =>
    have hm : m ≠ m' := fun e => hunlock t (e ▸ rfl)
    rw [System.withCount_owner, System.withCount_count, if_neg hm]
    exact ⟨rfl, rfl, rfl, bump_of_ne s.unlocks hm⟩
  | @outermost t m' sys hstep howner hzero =>
    have hm : m ≠ m' := fun e => hunlock t (e ▸ rfl)
    obtain ⟨q, -, -, hnew⟩ := h.unlock_owner howner hstep
    rw [System.withCount_owner, System.withCount_count, if_neg hm, hnew, if_neg hm]
    refine ⟨rfl, System.callStep_unlock_count hstep hm, ?_, bump_of_ne s.unlocks hm⟩
    cases (sys.mutex m').owner with
    | none => rfl
    | some w => exact bump_of_ne s.locks hm
  | refused => exact ⟨rfl, rfl, rfl, rfl⟩
  | wake hwake =>
    have hsame := congrFun (callStep_wake_mutex hwake) m
    exact ⟨congrArg (·.owner) hsame, congrArg (·.recursiveCount) hsame, rfl, rfl⟩

/-- **Step, a lock call.** Below the bound on nesting it keeps its mutex balanced. -/
theorem Move.counted_lock (h : s.sys.Sound) (hall : s.Counted m) (hmove : Move s (.lock t m) s')
    (hnests : s.NestsBelow (.lock t m)) : s'.Counted m := by
  cases hmove with
  | again hcall howner =>
    have hdepth : s.depth m t + 1 < 2 ^ 32 := hnests
    rw [hall.depth_eq howner] at hdepth
    refine hall.locked (.inr howner) ?_ ?_ hdepth rfl rfl
    · rw [System.withCount_owner]
      exact howner
    · rw [System.withCount_count, if_pos rfl, wrap32_of_lt hdepth]
  | first hlock hfree =>
    rcases h.lock_owner hlock with ⟨-, -, howner⟩ | ⟨htaken, -, -⟩
    · have hzero := hall.balanced.free hfree
      refine hall.locked (.inl hfree) ?_ ?_ (by rw [hzero]; decide) rfl rfl
      · rw [System.withCount_owner, howner, if_pos rfl]
      · rw [System.withCount_count, if_pos rfl, hzero]
    · exact absurd hfree htaken
  | blocks hlock htaken =>
    rcases h.lock_owner hlock with ⟨hfree, -⟩ | ⟨-, -, howner⟩
    · exact absurd hfree htaken
    · exact hall.congr (howner m) (System.callStep_lock_count hlock m) rfl rfl

/-- **Step, an unlock call.** It keeps its mutex balanced. -/
theorem Move.counted_unlock (hall : s.Counted m)
    (hmove : Move s (.unlock t m) s') : s'.Counted m := by
  cases hmove with
  | nested hcall howner hpos =>
    have hinside : 1 ≤ (s.sys.mutex m).recursiveCount := hall.inside (by simp [howner])
    have hless : sub32 (s.sys.mutex m).recursiveCount 1 = (s.sys.mutex m).recursiveCount - 1 :=
      sub32_of_le hall.word hinside
    refine hall.unlocked howner ?_ ?_ ?_ rfl rfl
    · rw [System.withCount_owner]
      exact howner
    · rw [System.withCount_count, if_pos rfl]
      omega
    · rw [System.withCount_count, if_pos rfl]
      exact hpos
  | outermost hunlock howner hzero =>
    have hone := (hall.last_iff howner).mp hzero
    rw [hall.depth_eq howner] at hone
    refine hall.passed howner hone ?_ ?_ rfl
    · rw [System.withCount_count, if_pos rfl, System.withCount_owner]
    · simp only [System.withCount_owner]
  | refused => exact hall.congr rfl rfl rfl rfl

/-- **Step, counts.** A move below the bound on nesting keeps every mutex balanced. -/
theorem Move.counted (h : s.sys.Sound) (hcounted : ∀ m, s.Counted m) (hmove : Move s c s')
    (hnests : s.NestsBelow c) (m : M) : s'.Counted m := by
  by_cases hlock : ∃ t, c = .lock t m
  · obtain ⟨t, rfl⟩ := hlock
    exact hmove.counted_lock h (hcounted m) hnests
  · by_cases hunlock : ∃ t, c = .unlock t m
    · obtain ⟨t, rfl⟩ := hunlock
      exact hmove.counted_unlock (hcounted m)
    · obtain ⟨howner, hcount, hlocks, hunlocks⟩ := hmove.apart h
        (fun t heq => hlock ⟨t, heq⟩) fun t heq => hunlock ⟨t, heq⟩
      exact (hcounted m).congr howner hcount hlocks hunlocks

/-! ### What a move does to the owner -/

/-- A lock call takes the mutex from nobody. -/
theorem Move.lock_owner (h : s.sys.Sound) (hmove : Move s (.lock u m) s')
    (howner : (s.sys.mutex m).owner = some t) : (s'.sys.mutex m).owner = some t := by
  cases hmove with
  | again hcall hself =>
    rw [System.withCount_owner]
    exact howner
  | first hlock hfree =>
    rw [hfree] at howner
    cases howner
  | blocks hlock htaken =>
    rcases h.lock_owner hlock with ⟨hfree, -⟩ | ⟨-, -, hnew⟩
    · exact absurd hfree htaken
    · exact (hnew m).trans howner

/-- **Hand-off.** The owner loses the mutex exactly by its outermost unlock, and then the
first in line has it. -/
theorem Move.passes (h : s.sys.Sound) (hcounted : ∀ m, s.Counted m) (hmove : Move s c s')
    (howner : (s.sys.mutex m).owner = some t) :
    ((s'.sys.mutex m).owner ≠ some t ↔ c = .unlock t m ∧ s.depth m t = 1) ∧
    ((s'.sys.mutex m).owner ≠ some t →
      ∃ q, s.sys.QueueSound m q ∧ (s'.sys.mutex m).owner = q.head?) := by
  have hkept : (s'.sys.mutex m).owner = some t → ¬ (c = .unlock t m ∧ s.depth m t = 1) →
      ((s'.sys.mutex m).owner ≠ some t ↔ c = .unlock t m ∧ s.depth m t = 1) ∧
      ((s'.sys.mutex m).owner ≠ some t →
        ∃ q, s.sys.QueueSound m q ∧ (s'.sys.mutex m).owner = q.head?) := fun hsame hnot =>
    ⟨iff_of_false (fun hne => hne hsame) hnot, fun hne => absurd hsame hne⟩
  by_cases hlock : ∃ u, c = .lock u m
  · obtain ⟨u, rfl⟩ := hlock
    exact hkept (hmove.lock_owner h howner) nofun
  · by_cases hunlock : ∃ u, c = .unlock u m
    · obtain ⟨u, rfl⟩ := hunlock
      cases hmove with
      | nested hcall hself hpos =>
        refine hkept ?_ ?_
        · rw [System.withCount_owner]
          exact howner
        · rintro ⟨hcall, hone⟩
          cases hcall
          have hzero := ((hcounted m).last_iff howner).mpr hone
          omega
      | @outermost _ _ sys hunlock hself hzero =>
        obtain ⟨q, hq, -, hnew⟩ := h.unlock_owner hself hunlock
        obtain rfl : u = t := Option.some.inj (hself.symm.trans howner)
        have hhead : ((sys.withCount m (sys.mutex m).owner.isSome.toNat).mutex m).owner =
            q.head? := by
          rw [System.withCount_owner, hnew, if_pos rfl]
        refine ⟨iff_of_true ?_ ⟨rfl, ((hcounted m).last_iff howner).mp hzero⟩,
          fun _ => ⟨q, hq, hhead⟩⟩
        rw [hhead]
        exact fun hmem => hq.owner_out u howner (List.mem_of_mem_head? hmem)
      | refused hcall hother =>
        apply hkept howner
        rintro ⟨hcall, -⟩
        cases hcall
        exact hother howner
    · obtain ⟨hsame, -⟩ := hmove.apart h (fun u heq => hlock ⟨u, heq⟩) fun u heq => hunlock ⟨u, heq⟩
      exact hkept (hsame.trans howner) fun hlast => hunlock ⟨t, hlast.1⟩

/-- A lock call that returns, returns to the owner. -/
theorem Move.returns (h : s.sys.Sound) (hmove : Move s c s')
    (hret : System.Returns s.sys c s'.sys t m) : (s'.sys.mutex m).owner = some t := by
  cases hmove with
  | again hcall howner =>
    rcases hret with ⟨hlock, -⟩ | ⟨hwake, -⟩
    · cases hlock
      rw [System.withCount_owner]
      exact howner
    · cases hwake
  | first hlock =>
    rw [System.withCount_owner]
    exact h.returns hlock hret
  | blocks hlock => exact h.returns hlock hret
  | nested | outermost | refused =>
    rcases hret with ⟨hlock, -⟩ | ⟨hwake, -⟩
    · cases hlock
    · cases hwake
  | wake hwake => exact h.returns hwake hret

/-- An unlock by a task that is not the owner changes nothing. -/
theorem Move.refuses (hmove : Move s (.unlock t m) s') (hother : (s.sys.mutex m).owner ≠ some t) :
    s' = { s with sys := { s.sys with kernel := s.sys.dispatch t } } := by
  cases hmove with
  | nested _ howner => exact absurd howner hother
  | outermost _ howner => exact absurd howner hother
  | refused => rfl

/-- A call that may be made returns or yields. -/
theorem recStep_of_enabled (h : s.sys.Sound) (henabled : s.sys.Enabled c)
    (hno : ∀ t m, c ≠ .trylock t m) : ∃ s', s.recStep c = some s' := by
  obtain ⟨line, hrep, hinv, -⟩ := h
  obtain ⟨sys, -, hstep, -⟩ := System.callStep_of_enabled hrep hinv henabled
  cases c with
  | lock t m =>
    have hcall : s.sys.CanCall t := henabled
    by_cases howner : (s.sys.mutex m).owner = some t
    · have hagain := recursiveMutexLock_owner (k := s.sys.dispatch t) (m := m) howner
      exact ⟨_, by rw [recStep, if_pos hcall, hagain, Option.map_some]⟩
    · exact ⟨_, by rw [recStep_lock_other hcall howner, hstep, Option.map_some]⟩
  | trylock t m => exact absurd rfl (hno t m)
  | unlock t m =>
    have hcall : s.sys.CanCall t := henabled
    simp only [recStep, if_pos hcall]
    split
    · split <;> exact ⟨_, rfl⟩
    · exact ⟨_, rfl⟩
  | wake t => exact ⟨_, by rw [recStep, hstep, Option.map_some]⟩

/-! ### Runs -/

/-- **Balance of the recursive mutex.** From any memory in which the mutexes have just been
initialised, after any list of calls that nests less than 2^32 locks:

* each mutex is locked exactly when it has an owner, and its queue is in order;
* its count is what the owner locked and did not unlock yet, and 0 without an owner;
* the owner loses it exactly by the outermost unlock, to the task that waits longest if one
  waits;
* a lock call that returns, returns to the owner;
* an unlock by another task changes nothing;
* a call that may be made does return or yield. -/
theorem recursive_mutex_balance (k : Kernel n M) (name : M → List UInt8)
    (calls : List (Call (Fin n) M)) (s : RecursiveSystem n M)
    (hrun : run recStep (start k name) calls = some s)
    (nests : Meets recStep NestsBelow (start k name) calls) :
    (∀ m, ∃ q, s.sys.QueueSound m q) ∧
    (∀ m, s.Balanced m) ∧
    (∀ c s', s.recStep c = some s' →
      (∀ m t, (s.sys.mutex m).owner = some t →
        ((s'.sys.mutex m).owner ≠ some t ↔ c = .unlock t m ∧ s.depth m t = 1) ∧
        ((s'.sys.mutex m).owner ≠ some t →
          ∃ q, s.sys.QueueSound m q ∧ (s'.sys.mutex m).owner = q.head?)) ∧
      (∀ t m, System.Returns s.sys c s'.sys t m → (s'.sys.mutex m).owner = some t) ∧
      (∀ t m, c = .unlock t m → (s.sys.mutex m).owner ≠ some t →
        s' = { s with sys := { s.sys with kernel := s.sys.dispatch t } })) ∧
    (∀ c, s.sys.Enabled c → (∀ t m, c ≠ .trylock t m) → ∃ s', s.recStep c = some s') := by
  have hinv : Along recStep (fun s => s.sys.Sound ∧ ∀ m, s.Counted m) (start k name) calls := by
    refine along_of_meets ?_
      ⟨System.start_sound _ name, start_counted k name⟩ nests
    intro s c s' h hnests hstep
    have hmove := recStep_cases h.1 hstep
    exact ⟨hmove.sound h.1, hmove.counted h.1 h.2 hnests⟩
  obtain ⟨hsound, hcounted⟩ := hinv.last hrun
  refine ⟨hsound.queueSound, fun m => (hcounted m).balanced, ?_, ?_⟩
  · intro c s' hstep
    have hmove := recStep_cases hsound hstep
    refine ⟨fun m t howner => hmove.passes hsound hcounted howner,
      fun t m hret => hmove.returns hsound hret, ?_⟩
    rintro t m rfl hother
    exact hmove.refuses hother
  · exact fun c henabled hno => recStep_of_enabled hsound henabled hno

/-- Task 0 locks twice and unlocks twice; only then task 1, which waits, has the mutex. -/
theorem recursive_mutex_balance_nested :
    ∃ s, run recStep (start System.twoTasks fun _ => [])
        [.lock 0 (), .lock 0 (), .lock 1 (), .unlock 0 (), .unlock 0 (), .wake 1] = some s ∧
      (s.sys.mutex ()).owner = some 1 ∧ (s.sys.mutex ()).recursiveCount = 1 ∧ s.Balanced () := by
  have hends : (run recStep (start System.twoTasks fun _ => [])
      [.lock 0 (), .lock 0 (), .lock 1 (), .unlock 0 (), .unlock 0 (), .wake 1]).map
        (fun s => ((s.sys.mutex ()).owner, (s.sys.mutex ()).recursiveCount)) =
      some (some 1, 1) := by decide
  obtain ⟨s, hrun, hfacts⟩ := Option.map_eq_some_iff.mp hends
  obtain ⟨howner, hcount⟩ := Prod.mk.inj hfacts
  have hbalance := recursive_mutex_balance System.twoTasks (fun _ => []) _ s hrun (by decide)
  exact ⟨s, hrun, howner, hcount, hbalance.2.1 ()⟩

end RecursiveSystem

end ArmKernel.Sync

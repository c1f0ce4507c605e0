/-
Mutual exclusion and hand-off of the mutex, for every interleaving of
`mutex_lock`, `mutex_trylock` and `mutex_unlock`.

The tasks may use any number of mutexes; the one rule is that no task calls
`mutex_lock` on a mutex it owns (`exclusiveStep`). Nothing is rechecked after
`task_yield`, so safety rests on the queue: a task leaves it only by the hand-off
that makes it the owner, and is not ready before.
-/
import ArmKernel.Support.Run
import ArmKernel.Sync.LockSystem

namespace ArmKernel.Sync

open ArmKernel.Support ArmKernel.Tasks

variable {n : Nat} {M : Type} [DecidableEq M]

namespace System

/-- The call is a `mutex_lock` by the owner of the mutex. -/
def relocks (s : System n M) : Call (Fin n) M → Bool
  | .lock t m => decide ((s.mutex m).owner = some t)
  | _ => false

/-- The calls of programs whose tasks do not lock a mutex they own. -/
def exclusiveStep (s : System n M) (c : Call (Fin n) M) : Option (System n M) :=
  if s.relocks c then none else s.callStep c

/-- What a mutex and its wait queue look like between calls. That `waiting_tasks`
is a chain says that it ends and meets no task twice. -/
structure QueueSound (s : System n M) (m : M) (q : List (Fin n)) : Prop where
  locked_iff : (s.mutex m).locked = 1 ↔ (s.mutex m).owner ≠ none
  queued : Queued s.kernel.sys.taskList (s.mutex m).waitingTasks q
  nodup : q.Nodup
  owner_out : ∀ t, (s.mutex m).owner = some t → t ∉ q
  empty_of_unlocked : (s.mutex m).locked = 0 → q = []
  blocked : ∀ t ∈ q, (s.task t).state = .blocked
  fifo : s.blockedOrder m = s.grantedOrder m ++ q

/-- The `mutex_lock` call of `t` on `m` returns in this step: at once, or when the
scheduler comes back to `t`. -/
def Returns (s : System n M) (c : Call (Fin n) M) (s' : System n M) (t : Fin n) (m : M) : Prop :=
  c = .lock t m ∧ s'.pending t = none ∨ c = .wake t ∧ s.pending t = some m

variable {s s' : System n M} {line : M → List (Fin n)}

/-- The invariant of the runs: the memory represents a lock system in order. -/
def Sound (s : System n M) : Prop :=
  ∃ line, s.Represents line ∧ (s.spec line).Inv ∧ (s.spec line).Strict

omit [DecidableEq M] in
theorem start_sound (k : Kernel n M) (name : M → List UInt8) : (start k name).Sound :=
  ⟨_, start_represents k name, start_inv k name, ⟨nofun, nofun⟩⟩

theorem callStep_of_exclusiveStep {c : Call (Fin n) M} (h : s.exclusiveStep c = some s') :
    ¬ s.relocks c = true ∧ s.callStep c = some s' := by
  unfold exclusiveStep at h
  split at h
  · cases h
  · exact ⟨‹_›, h⟩

omit [DecidableEq M] in
theorem relocks_iff (c : Call (Fin n) M) : s.relocks c = true ↔ (s.spec line).Relock c := by
  cases c <;> simp [relocks, LockSpec.Relock, spec]

/-- One call keeps the invariant. -/
theorem Sound.step (h : s.Sound) {c : Call (Fin n) M} (hstep : s.exclusiveStep c = some s') :
    s'.Sound := by
  obtain ⟨line, hrep, hinv, hstrict⟩ := h
  obtain ⟨hno, hcall⟩ := callStep_of_exclusiveStep hstep
  obtain ⟨line', hrep', hmove⟩ := callStep_refines hrep hinv hcall
  exact ⟨line', hrep', hinv.step hmove,
    hstrict.step hinv (fun hre => hno ((relocks_iff c).mpr hre)) hmove⟩

omit [DecidableEq M] in
theorem Sound.queueSound (h : s.Sound) (m : M) : ∃ q, s.QueueSound m q := by
  obtain ⟨line, hrep, hinv, hstrict⟩ := h
  refine ⟨line m, ?_, hrep.queued m, hinv.nodup m, ?_, ?_, hstrict.blocked m, hinv.order m⟩
  · rw [hrep.locked m]
    cases (s.mutex m).owner <;> simp
  · exact fun t howner hmem => hstrict.ownerOut m t hmem howner
  · exact fun h0 => hinv.free m ((hrep.locked_eq_zero_iff m).mp h0)

/-- A call of `mutex_lock` that returns in this step returns to the owner. -/
theorem Sound.returns (h : s.Sound) {c : Call (Fin n) M} (hstep : s.callStep c = some s')
    {t : Fin n} {m : M} (hret : Returns s c s' t m) : (s'.mutex m).owner = some t := by
  obtain ⟨line, hrep, hinv, -⟩ := h
  obtain ⟨line', hrep', hmove⟩ := callStep_refines hrep hinv hstep
  have howner : ∀ a, s'.spec line' = a → (s'.mutex m).owner = a.owner m := by
    rintro a rfl
    rfl
  have hpending : ∀ a, s'.spec line' = a → s'.pending t = a.pending t := by
    rintro a rfl
    rfl
  rcases hret with ⟨rfl, hp⟩ | ⟨rfl, hp⟩
  · generalize hb : s'.spec line' = b at hmove
    cases hmove with
    | lockFree hcall hfree => rw [howner _ hb]; simp [LockSpec.acquire]
    | lockTaken hcall htaken =>
      have := hpending _ hb
      rw [hp] at this
      simp [LockSpec.enqueue] at this
  · generalize hb : s'.spec line' = b at hmove
    cases hmove with
    | @wake _ m' hready hpend =>
      obtain rfl : m' = m := Option.some.inj (hpend.symm.trans hp)
      rw [howner _ hb]
      exact hinv.returns_to_owner hp hready

/-- Nobody overtakes the line: while a task waits for a mutex, a call leaves the
owner as it is or hands the mutex to the first in line. -/
theorem Sound.no_overtaking (h : s.Sound) {c : Call (Fin n) M} (hstep : s.callStep c = some s')
    {m : M} {w : Fin n} {rest : List (Fin n)}
    (hq : Queued s.kernel.sys.taskList (s.mutex m).waitingTasks (w :: rest)) :
    (s'.mutex m).owner = (s.mutex m).owner ∨ (s'.mutex m).owner = some w := by
  obtain ⟨line, hrep, hinv, -⟩ := h
  obtain ⟨line', -, hmove⟩ := callStep_refines hrep hinv hstep
  have hline : line m = w :: rest := Chain.unique (hrep.queued m) hq
  have howned : (s.mutex m).owner ≠ none := fun hnone => by
    have : line m = [] := hinv.free m hnone
    simp [hline] at this
  have howner : ∀ a, s'.spec line' = a → (s'.mutex m).owner = a.owner m := by
    rintro a rfl
    rfl
  generalize hb : s'.spec line' = b at hmove
  rw [howner _ hb]
  cases hmove with
  | @lockFree t m' _ hfree | @tryFree t m' _ hfree =>
    have hm : m ≠ m' := by rintro rfl; exact howned hfree
    exact .inl (by simp [LockSpec.acquire, hm, spec])
  | lockTaken | tryTaken | unlockOther | wake => exact .inl rfl
  | @unlockLast t m' _ _ hempty =>
    have hm : m ≠ m' := by rintro rfl; simp [spec, hline] at hempty
    exact .inl (by simp [LockSpec.release, hm, spec])
  | @unlockNext t m' w' rest' _ _ hnext =>
    by_cases hm : m = m'
    · subst hm
      obtain ⟨rfl, rfl⟩ := List.cons.inj (hline.symm.trans hnext)
      exact .inr (by simp [LockSpec.handOff])
    · exact .inl (by simp [LockSpec.handOff, hm, spec])

/-- `mutex_unlock` by a task that is not the owner changes nothing. -/
theorem unlock_of_not_owner {t : Fin n} {m : M} (hstep : s.callStep (.unlock t m) = some s')
    (h : (s.mutex m).owner ≠ some t) : s' = { s with kernel := s.dispatch t } := by
  have hcall : s.CanCall t := enabled_of_callStep hstep
  have hcur : ((s.dispatch t).mutexes m).owner ≠ taskGetCurrent (s.dispatch t).sys := h
  simp only [callStep, if_pos hcall, if_neg h, mutexUnlock_of_not_owner hcur] at hstep
  exact (Option.some.inj hstep).symm

/-- **Mutual exclusion and hand-off.** From any memory in which the mutexes have
just been initialised, after any list of calls:

* each mutex is locked exactly when it has an owner, and its queue is in order;
* one task at most holds it, and that task is the owner;
* a `mutex_lock` call that returns, returns to the owner;
* no call overtakes the tasks in line, and they are granted the mutex in the order
  in which they blocked (`QueueSound.fifo`);
* `mutex_unlock` by another task changes nothing;
* a call that may be made does return or yield. -/
theorem mutex_exclusion_and_handOff (k : Kernel n M) (name : M → List UInt8)
    (calls : List (Call (Fin n) M)) (s : System n M)
    (hrun : run exclusiveStep (start k name) calls = some s) :
    (∀ m, ∃ q, s.QueueSound m q) ∧
    (∀ m t, s.holds m t = true → (s.mutex m).owner = some t) ∧
    (∀ m t u, s.holds m t = true → s.holds m u = true → t = u) ∧
    (∀ c s', s.exclusiveStep c = some s' →
      (∀ t m, Returns s c s' t m → (s'.mutex m).owner = some t) ∧
      (∀ m w rest, Queued s.kernel.sys.taskList (s.mutex m).waitingTasks (w :: rest) →
        (s'.mutex m).owner = (s.mutex m).owner ∨ (s'.mutex m).owner = some w) ∧
      (∀ t m, c = .unlock t m → (s.mutex m).owner ≠ some t →
        s' = { s with kernel := s.dispatch t })) ∧
    (∀ c, s.Enabled c → s.relocks c = false → ∃ s', s.exclusiveStep c = some s') := by
  have hsound : s.Sound :=
    run_invariant (fun _ _ _ h hstep => h.step hstep) (start_sound k name) hrun
  obtain ⟨line, hrep, hinv, -⟩ := id hsound
  refine ⟨hsound.queueSound, hinv.holder, fun m t u => hinv.exclusive, ?_, ?_⟩
  · intro c s' hstep
    have hcall := (callStep_of_exclusiveStep hstep).2
    refine ⟨fun t m hret => hsound.returns hcall hret,
      fun m w rest hq => hsound.no_overtaking hcall hq, ?_⟩
    rintro t m rfl hne
    exact unlock_of_not_owner hcall hne
  · intro c henabled hno
    obtain ⟨s', -, hs', -⟩ := callStep_of_enabled hrep hinv henabled
    exact ⟨s', by simp [exclusiveStep, hno, hs']⟩

/-- Two ready tasks and one mutex. -/
def twoTasks : Kernel 2 Unit where
  sys := ⟨fun _ => Task.zeroed 2, none, none, 2, [], []⟩
  mutexes := fun _ => mutexInit 2 []
  stats := ⟨0⟩
  rt := ⟨none, 0⟩

/-- Task 1 blocks on the mutex of task 0, is handed it and returns as the owner. -/
theorem twoTasks_handOff :
    ∃ s, run exclusiveStep (start twoTasks fun _ => [])
        [.lock 0 (), .lock 1 (), .unlock 0 (), .wake 1] = some s ∧
      (s.mutex ()).owner = some 1 ∧ s.holds () 1 = true ∧ ∃ q, s.QueueSound () q := by
  have hends : (run exclusiveStep (start twoTasks fun _ => [])
      [.lock 0 (), .lock 1 (), .unlock 0 (), .wake 1]).map
        (fun s => ((s.mutex ()).owner, s.holds () 1)) = some (some 1, true) := by decide
  obtain ⟨s, hrun, hfacts⟩ := Option.map_eq_some_iff.mp hends
  obtain ⟨howner, hholds⟩ := Prod.mk.inj hfacts
  have hsound := mutex_exclusion_and_handOff twoTasks (fun _ => []) _ s hrun
  exact ⟨s, hrun, howner, hholds, hsound.1 ()⟩

end System

end ArmKernel.Sync

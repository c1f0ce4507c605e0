/-
Tasks calling the functions of a reader/writer lock, in any order.

`RwSystem` is the task table and the lock with the calls that wait, and, as history,
how often each task holds the read lock and who holds the write lock. One step is a
critical section: a call by one task, or the re-test of a call after its wake-up. A
task is dispatched when it is `TASK_READY`; readers unlock only what they hold.

`Inv` ties the lock to the history and the two condition queues to the calls that
wait. From it follow exclusion (`rwlock_exclusive`) and that no wake-up is lost
(`rwlock_wakes`), for every run.
-/
import ArmKernel.Sync.RwLock
import ArmKernel.Support.Run
import Mathlib.Algebra.BigOperators.Fin
import Mathlib.Algebra.Order.BigOperators.Group.Finset

namespace ArmKernel.Sync

open ArmKernel.Support ArmKernel.Tasks

variable {n : Nat}

/-- The two calls that can wait. -/
inductive RwCall where
  | read
  | write
deriving DecidableEq

/-- The lock and the tasks that use it. -/
structure RwSystem (n : Nat) where
  sys : TaskSys n
  rw : RwLock n
  calls : Fin n → Option RwCall
  readHolds : Fin n → Nat
  writeHolds : Fin n → Bool

/-- A critical section by one task. -/
inductive RwAction (n : Nat) where
  | readLock (t : Fin n)
  | readTrylock (t : Fin n) (free : Bool)
  | readUnlock (t : Fin n)
  | writeLock (t : Fin n)
  | writeTrylock (t : Fin n) (free : Bool)
  | writeUnlock (t : Fin n)
  | retest (t : Fin n)

namespace RwSystem

/-- Nobody has called the lock yet. -/
def start (sys : TaskSys n) : RwSystem n :=
  { sys, rw := rwlockInit n, calls := fun _ => none, readHolds := fun _ => 0,
    writeHolds := fun _ => false }

/-- The control block of a task. -/
def task (s : RwSystem n) (t : Fin n) : Task n := s.sys.taskList t

/-- The scheduler makes `t` the current task. -/
def dispatch (s : RwSystem n) (t : Fin n) : TaskSys n := { s.sys with currentTask := some t }

/-- `t` is ready and outside the two calls that can wait. -/
def CanCall (s : RwSystem n) (t : Fin n) : Prop := (s.task t).state = .ready ∧ s.calls t = none

instance (s : RwSystem n) (t : Fin n) : Decidable (s.CanCall t) := by
  unfold CanCall
  infer_instance

/-- `t` takes the read lock once more. -/
def tookRead (s : RwSystem n) (t : Fin n) (rw : RwLock n) : RwSystem n :=
  { s with
    rw
    calls := Function.update s.calls t none
    readHolds := Function.update s.readHolds t (s.readHolds t + 1) }

/-- `t` takes the write lock. -/
def tookWrite (s : RwSystem n) (t : Fin n) (rw : RwLock n) : RwSystem n :=
  { s with
    rw
    calls := Function.update s.calls t none
    writeHolds := Function.update s.writeHolds t true }

/-- `t` waits in `call`. -/
def waitIn (s : RwSystem n) (t : Fin n) (call : RwCall) (sys : TaskSys n) (rw : RwLock n) :
    RwSystem n :=
  { s with sys, rw, calls := Function.update s.calls t (some call) }

/-- The test of `rwlock_read_lock` by `t`. -/
def readPass (s : RwSystem n) (t : Fin n) : Option (RwSystem n) :=
  (rwlockReadLock (s.dispatch t) s.rw).map fun (sys, rw, acquired) =>
    if acquired then { s with sys }.tookRead t rw else s.waitIn t .read sys rw

/-- The test of `rwlock_write_lock` by `t`. -/
def writePass (s : RwSystem n) (t : Fin n) : Option (RwSystem n) :=
  (rwlockWriteLock (s.dispatch t) s.rw).map fun (sys, rw, acquired) =>
    if acquired then { s with sys }.tookWrite t rw else s.waitIn t .write sys rw

/-- One critical section. -/
def step (s : RwSystem n) : RwAction n → Option (RwSystem n)
  | .readLock t => if s.CanCall t then s.readPass t else none
  | .readTrylock t free =>
    if s.CanCall t then
      (rwlockReadTrylock s.rw free).map fun (rw, acquired) =>
        if acquired then { s with sys := s.dispatch t }.tookRead t rw
        else { s with sys := s.dispatch t, rw }
    else none
  | .readUnlock t =>
    if s.CanCall t ∧ 0 < s.readHolds t then
      (rwlockReadUnlock (s.dispatch t) s.rw).map fun (sys, rw) =>
        { s with sys, rw, readHolds := Function.update s.readHolds t (s.readHolds t - 1) }
    else none
  | .writeLock t => if s.CanCall t then s.writePass t else none
  | .writeTrylock t free =>
    if s.CanCall t then
      let (rw, acquired) := rwlockWriteTrylock (s.dispatch t) s.rw free
      some (if acquired then { s with sys := s.dispatch t }.tookWrite t rw
        else { s with sys := s.dispatch t, rw })
    else none
  | .writeUnlock t =>
    if s.CanCall t then
      (rwlockWriteUnlock (s.dispatch t) s.rw).map fun (sys, rw) =>
        { s with sys, rw, writeHolds := Function.update s.writeHolds t false }
    else none
  | .retest t =>
    if (s.task t).state = .ready then
      match s.calls t with
      | some .read => s.readPass t
      | some .write => s.writePass t
      | none => none
    else none

/-! ### The invariant -/

/-- The lock and its history, with the lines behind the two condition variables. A
task in a waiting call stands in a line and is blocked, or has been taken off and is
ready to test again. -/
structure Inv (s : RwSystem n) (readers writers : List (Fin n)) : Prop where
  readersQueued : Queued s.sys.taskList s.rw.readers readers
  writersQueued : Queued s.sys.taskList s.rw.writers writers
  reading : ∀ t ∈ readers, s.calls t = some .read
  writing : ∀ t ∈ writers, s.calls t = some .write
  asleep : ∀ t, t ∈ readers ∨ t ∈ writers → (s.task t).state = .blocked
  awake : ∀ t, s.calls t ≠ none → t ∉ readers → t ∉ writers → (s.task t).state = .ready
  count : s.rw.readersCount = ∑ t, (s.readHolds t : Int)
  active : s.rw.writerActive = s.rw.writerOwner.isSome
  owner : ∀ t, s.writeHolds t = true ↔ s.rw.writerOwner = some t
  excluded : s.rw.writerActive = true → s.rw.readersCount = 0
  readersWait : readers ≠ [] → s.rw.writerActive = true
  writersWait : writers ≠ [] → s.rw.readersCount = 0 → s.rw.writerActive = false →
    ∃ u, s.calls u = some .write ∧ u ∉ writers

theorem start_inv (sys : TaskSys n) : Inv (start sys) [] [] where
  readersQueued := rfl
  writersQueued := rfl
  reading := nofun
  writing := nofun
  asleep := by simp
  awake := fun _ h => absurd rfl h
  count := by simp [start, rwlockInit]
  active := rfl
  owner := by simp [start, rwlockInit]
  excluded := fun _ => rfl
  readersWait := fun h => absurd rfl h
  writersWait := fun h => absurd rfl h

variable {s s' : RwSystem n} {readers writers : List (Fin n)} {t u : Fin n}

/-- One entry of a sum of counts is changed. -/
theorem sum_update (f : Fin n → Nat) (t : Fin n) (v : Nat) :
    ∑ u, (Function.update f t v u : Int) = ∑ u, (f u : Int) + (v - f t) := by
  have hentry : ∀ u, (Function.update f t v u : Int) = f u + if u = t then (v : Int) - f t else 0 := by
    intro u
    by_cases hu : u = t
    · subst hu
      simp
    · simp [hu]
  simp only [hentry, Finset.sum_add_distrib, Finset.sum_ite_eq', Finset.mem_univ, if_true]

/-- **A wait**, of the current task, with two lines: it becomes the last of its line, and
what the lines, the calls and the states satisfy stays. -/
theorem conditionWait_lines (sys : TaskSys n) {queue queue' : Option (Fin n)}
    {line line' : List (Fin n)} {calls : Fin n → Option RwCall} {call call' : RwCall}
    (hcurrent : sys.currentTask = some t) (hqueued : Queued sys.taskList queue line)
    (hqueued' : Queued sys.taskList queue' line')
    (hapart : ∀ u ∈ line', u ∉ line) (hcalls : ∀ u ∈ line, calls u = some call)
    (hcalls' : ∀ u ∈ line', calls u = some call')
    (hasleep : ∀ u, u ∈ line ∨ u ∈ line' → (sys.taskList u).state = .blocked)
    (hawake : ∀ u, calls u ≠ none → u ∉ line → u ∉ line' → (sys.taskList u).state = .ready)
    (ht : t ∉ line) (ht' : t ∉ line') :
    ∃ sys' queue₁, conditionWait sys queue = some (sys', queue₁) ∧
      Queued sys'.taskList queue₁ (line ++ [t]) ∧ Queued sys'.taskList queue' line' ∧
      (∀ u ∈ line ++ [t], Function.update calls t (some call) u = some call) ∧
      (∀ u ∈ line', Function.update calls t (some call) u = some call') ∧
      (∀ u, u ∈ line ++ [t] ∨ u ∈ line' → (sys'.taskList u).state = .blocked) ∧
      ∀ u, Function.update calls t (some call) u ≠ none → u ∉ line ++ [t] → u ∉ line' →
        (sys'.taskList u).state = .ready := by
  obtain ⟨sys', queue₁, hwait, hqueued₁, hstate, hlinks⟩ :=
    conditionWait_spec sys hqueued ht hcurrent
  refine ⟨sys', queue₁, hwait, hqueued₁, ?_, ?_, ?_, ?_, ?_⟩
  · exact hqueued'.frame fun u hu => hlinks u (ne_of_mem_of_not_mem hu ht') (hapart u hu)
  · intro u hu
    rcases List.mem_append.mp hu with hold | hnew
    · rw [Function.update_of_ne (ne_of_mem_of_not_mem hold ht)]
      exact hcalls u hold
    · rw [List.mem_singleton.mp hnew, Function.update_self]
  · intro u hu
    rw [Function.update_of_ne (ne_of_mem_of_not_mem hu ht')]
    exact hcalls' u hu
  · intro u hu
    rw [hstate u]
    split
    · rfl
    · rename_i hut
      exact hasleep u (hu.imp_left fun hmem =>
        (List.mem_append.mp hmem).resolve_right (by simpa using hut))
  · intro u hcall hu hu'
    rw [List.mem_append, not_or, List.mem_singleton] at hu
    rw [Function.update_of_ne hu.2] at hcall
    rw [hstate u, if_neg hu.2]
    exact hawake u hcall hu.1 hu'

section Step

variable (h : Inv s readers writers)
include h

theorem Inv.count_nonneg : 0 ≤ s.rw.readersCount := by
  rw [h.count]
  exact Finset.sum_nonneg fun t _ => Int.natCast_nonneg _

/-- A task that runs stands in no line. -/
theorem Inv.not_mem (hready : (s.task t).state = .ready) : t ∉ readers ∧ t ∉ writers := by
  constructor
  · intro hmem
    have hblocked := h.asleep t (.inl hmem)
    rw [hready] at hblocked
    cases hblocked
  · intro hmem
    have hblocked := h.asleep t (.inr hmem)
    rw [hready] at hblocked
    cases hblocked

theorem Inv.not_mem_writers (hmem : t ∈ readers) : t ∉ writers := by
  intro hmem'
  have hcall := h.reading t hmem
  rw [h.writing t hmem'] at hcall
  cases hcall

theorem Inv.not_mem_readers (hmem : t ∈ writers) : t ∉ readers :=
  fun hmem' => h.not_mem_writers hmem' hmem

/-- A call of a task in no line ends. -/
theorem Inv.calls_none (hr : t ∉ readers) (hw : t ∉ writers) :
    (∀ u ∈ readers, Function.update s.calls t none u = some .read) ∧
      (∀ u ∈ writers, Function.update s.calls t none u = some .write) ∧
      ∀ u, Function.update s.calls t none u ≠ none → u ∉ readers → u ∉ writers →
        (s.task u).state = .ready := by
  refine ⟨?_, ?_, ?_⟩
  · intro u hu
    rw [Function.update_of_ne (ne_of_mem_of_not_mem hu hr)]
    exact h.reading u hu
  · intro u hu
    rw [Function.update_of_ne (ne_of_mem_of_not_mem hu hw)]
    exact h.writing u hu
  · intro u hcall hur huw
    by_cases hut : u = t
    · subst hut
      simp at hcall
    · rw [Function.update_of_ne hut] at hcall
      exact h.awake u hcall hur huw

/-- **A reader enters.** -/
theorem Inv.tookRead {rw : RwLock n} (hr : t ∉ readers) (hw : t ∉ writers)
    (hfree : s.rw.writerActive = false)
    (hrw : rw = { s.rw with readersCount := s.rw.readersCount + 1 }) :
    Inv ({ s with sys := s.dispatch t }.tookRead t rw) readers writers := by
  subst hrw
  obtain ⟨hreading, hwriting, hawake⟩ := h.calls_none hr hw
  refine
    { readersQueued := h.readersQueued
      writersQueued := h.writersQueued
      reading := hreading
      writing := hwriting
      asleep := h.asleep
      awake := hawake
      count := ?_
      active := h.active
      owner := h.owner
      excluded := fun hactive => absurd (hfree.symm.trans hactive) Bool.false_ne_true
      readersWait := h.readersWait
      writersWait := fun _ hcount _ => ?_ }
  · simp only [RwSystem.tookRead]
    rw [sum_update, h.count]
    push_cast
    omega
  · have hnonneg := h.count_nonneg
    simp only [RwSystem.tookRead] at hcount
    omega

/-- **A writer enters.** -/
theorem Inv.tookWrite {rw : RwLock n} (hr : t ∉ readers) (hw : t ∉ writers)
    (hfree : ¬ (0 < s.rw.readersCount ∨ s.rw.writerActive = true))
    (hrw : rw = { s.rw with writerActive := true, writerOwner := some t }) :
    Inv ({ s with sys := s.dispatch t }.tookWrite t rw) readers writers := by
  subst hrw
  obtain ⟨hreading, hwriting, hawake⟩ := h.calls_none hr hw
  obtain ⟨hcount, hinactive⟩ := not_or.mp hfree
  have hnonneg := h.count_nonneg
  have hnone : s.rw.writerOwner = none := by
    have hactive := h.active
    rw [Bool.not_eq_true] at hinactive
    rw [hinactive] at hactive
    exact Option.isSome_eq_false_iff.mp hactive.symm |> Option.isNone_iff_eq_none.mp
  exact
    { readersQueued := h.readersQueued
      writersQueued := h.writersQueued
      reading := hreading
      writing := hwriting
      asleep := h.asleep
      awake := hawake
      count := h.count
      active := rfl
      owner := by
        intro u
        simp only [RwSystem.tookWrite]
        by_cases hut : u = t
        · subst hut
          simp
        · rw [Function.update_of_ne hut, h.owner u, hnone]
          simp [Ne.symm hut]
      excluded := fun _ => by
        simp only [RwSystem.tookWrite]
        omega
      readersWait := fun _ => rfl
      writersWait := fun _ _ hactive => absurd hactive (by simp [RwSystem.tookWrite]) }

/-- **A reader waits.** It stands last in line, behind a writer. -/
theorem Inv.waitRead (hready : (s.task t).state = .ready) (hactive : s.rw.writerActive = true) :
    ∃ sys' queue, conditionWait (s.dispatch t) s.rw.readers = some (sys', queue) ∧
      Inv (s.waitIn t .read sys' { s.rw with readers := queue }) (readers ++ [t]) writers := by
  obtain ⟨hr, hw⟩ := h.not_mem hready
  obtain ⟨sys', queue, hwait, hreaders, hwriters, hreading, hwriting, hasleep, hawake⟩ :=
    conditionWait_lines (s.dispatch t) rfl h.readersQueued h.writersQueued
      (fun _ hu => h.not_mem_readers hu) h.reading h.writing h.asleep h.awake hr hw
  exact ⟨sys', queue, hwait,
    { readersQueued := hreaders
      writersQueued := hwriters
      reading := hreading
      writing := hwriting
      asleep := hasleep
      awake := hawake
      count := h.count
      active := h.active
      owner := h.owner
      excluded := h.excluded
      readersWait := fun _ => hactive
      writersWait := fun _ _ hinactive =>
        absurd (hactive.symm.trans hinactive) (by simp) }⟩

/-- **A writer waits.** It stands last in line, behind the readers or a writer. -/
theorem Inv.waitWrite (hready : (s.task t).state = .ready)
    (hbusy : 0 < s.rw.readersCount ∨ s.rw.writerActive = true) :
    ∃ sys' queue, conditionWait (s.dispatch t) s.rw.writers = some (sys', queue) ∧
      Inv (s.waitIn t .write sys' { s.rw with writers := queue }) readers (writers ++ [t]) := by
  obtain ⟨hr, hw⟩ := h.not_mem hready
  obtain ⟨sys', queue, hwait, hwriters, hreaders, hwriting, hreading, hasleep, hawake⟩ :=
    conditionWait_lines (s.dispatch t) rfl h.writersQueued h.readersQueued
      (fun _ hu => h.not_mem_writers hu) h.writing h.reading (fun u hu => h.asleep u hu.symm)
      (fun u hcall huw hur => h.awake u hcall hur huw) hw hr
  refine ⟨sys', queue, hwait,
    { readersQueued := hreaders
      writersQueued := hwriters
      reading := hreading
      writing := hwriting
      asleep := fun u hu => hasleep u hu.symm
      awake := fun u hcall hur huw => hawake u hcall huw hur
      count := h.count
      active := h.active
      owner := h.owner
      excluded := h.excluded
      readersWait := h.readersWait
      writersWait := fun _ hcount hinactive => ?_ }⟩
  simp only [waitIn] at hcount hinactive
  rcases hbusy with hpos | hactive
  · omega
  · rw [hactive] at hinactive
    cases hinactive

theorem Inv.readPass (hready : (s.task t).state = .ready) (hpass : s.readPass t = some s') :
    ∃ readers' writers', Inv s' readers' writers' := by
  unfold RwSystem.readPass rwlockReadLock at hpass
  split at hpass
  · rename_i hactive
    obtain ⟨sys', queue, hwait, hinv⟩ := h.waitRead hready hactive
    rw [hwait] at hpass
    cases hpass
    exact ⟨_, _, hinv⟩
  · rename_i hinactive
    obtain ⟨hr, hw⟩ := h.not_mem hready
    cases hcount : int32 (s.rw.readersCount + 1) with
    | none =>
      rw [hcount] at hpass
      cases hpass
    | some c =>
      rw [hcount] at hpass
      cases hpass
      exact ⟨_, _, h.tookRead hr hw (by simpa using hinactive) (by rw [int32_eq_some hcount])⟩

theorem Inv.writePass (hready : (s.task t).state = .ready) (hpass : s.writePass t = some s') :
    ∃ readers' writers', Inv s' readers' writers' := by
  unfold RwSystem.writePass rwlockWriteLock at hpass
  split at hpass
  · rename_i hbusy
    obtain ⟨sys', queue, hwait, hinv⟩ := h.waitWrite hready hbusy
    rw [hwait] at hpass
    cases hpass
    exact ⟨_, _, hinv⟩
  · rename_i hfree
    obtain ⟨hr, hw⟩ := h.not_mem hready
    cases hpass
    exact ⟨_, _, h.tookWrite hr hw hfree rfl⟩

/-- **A signal to the writers.** The first in line is taken off and ready; what else
the line and the states satisfy stays. -/
theorem Inv.signalWriters (sys : TaskSys n) (htasks : sys.taskList = s.sys.taskList) :
    ∃ sys' queue, conditionSignal sys s.rw.writers = (sys', queue) ∧
      Queued sys'.taskList queue writers.tail ∧ Queued sys'.taskList s.rw.readers readers ∧
      (∀ u, u ∈ readers ∨ u ∈ writers.tail → (sys'.taskList u).state = .blocked) ∧
      (∀ u, s.calls u ≠ none → u ∉ readers → u ∉ writers.tail →
        (sys'.taskList u).state = .ready) ∧
      (writers.tail ≠ [] → ∃ u, s.calls u = some .write ∧ u ∉ writers.tail) := by
  have hqueued := h.writersQueued
  have hnodup := hqueued.nodup
  rw [← htasks] at hqueued
  obtain ⟨sys', queue, hsignal, hqueued', hstate, hlinks⟩ := conditionSignal_spec hqueued
  rw [htasks] at hstate hlinks
  have hhead : ∀ u, writers.head? = some u → u ∈ writers ∧ u ∉ writers.tail := by
    intro u hu
    obtain ⟨rest, rfl⟩ := List.head?_eq_some_iff.mp hu
    exact ⟨List.mem_cons_self, (List.nodup_cons.mp hnodup).1⟩
  refine ⟨sys', queue, hsignal, hqueued', ?_, ?_, ?_, ?_⟩
  · exact h.readersQueued.frame fun u hu => hlinks u (h.not_mem_writers hu)
  · intro u hu
    rw [hstate u, if_neg]
    · exact h.asleep u (hu.imp_right List.mem_of_mem_tail)
    · intro hu'
      obtain ⟨hmem, hnot⟩ := hhead u hu'
      rcases hu with hr | htail
      · exact h.not_mem_writers hr hmem
      · exact hnot htail
  · intro u hcall hur huw
    rw [hstate u]
    split
    · rfl
    · rename_i hne
      apply h.awake u hcall hur
      intro hmem
      cases writers with
      | nil => cases hmem
      | cons w rest =>
        rcases List.mem_cons.mp hmem with rfl | hrest
        · exact hne rfl
        · exact huw hrest
  · intro hne
    cases writers with
    | nil => exact absurd rfl hne
    | cons w rest => exact ⟨w, h.writing w List.mem_cons_self, (List.nodup_cons.mp hnodup).1⟩

/-- **A reader leaves.** The last one signals a writer. -/
theorem Inv.readUnlock (hholds : 0 < s.readHolds t)
    (hstep : (rwlockReadUnlock (s.dispatch t) s.rw).map (fun r => { s with
      sys := r.1, rw := r.2,
      readHolds := Function.update s.readHolds t (s.readHolds t - 1) }) = some s') :
    ∃ writers', Inv s' readers writers' := by
  -- Somebody reads, so no writer is active.
  have hle : (s.readHolds t : Int) ≤ s.rw.readersCount := by
    rw [h.count]
    exact Finset.single_le_sum (f := fun u => (s.readHolds u : Int))
      (fun u _ => Int.natCast_nonneg _) (Finset.mem_univ t)
  have hinactive : s.rw.writerActive = false := by
    rw [← Bool.not_eq_true]
    intro hactive
    have hzero := h.excluded hactive
    omega
  have hcount : s.rw.readersCount - 1 =
      ∑ u, (Function.update s.readHolds t (s.readHolds t - 1) u : Int) := by
    rw [sum_update, h.count]
    omega
  have hactive_false : ∀ {p : Prop}, s.rw.writerActive = true → p :=
    fun hactive => absurd (hinactive.symm.trans hactive) Bool.false_ne_true
  unfold rwlockReadUnlock at hstep
  cases hpred : int32 (s.rw.readersCount - 1) with
  | none =>
    rw [hpred] at hstep
    cases hstep
  | some c =>
    rw [hpred, Option.map_some, Option.map_some] at hstep
    obtain rfl := int32_eq_some hpred
    split at hstep
    · obtain ⟨sys', queue, hsignal, hwq, hrq, hasleep, hawake, hwoken⟩ :=
        h.signalWriters (s.dispatch t) rfl
      rw [hsignal] at hstep
      cases hstep
      exact ⟨writers.tail,
        { readersQueued := hrq
          writersQueued := hwq
          reading := h.reading
          writing := fun u hu => h.writing u (List.mem_of_mem_tail hu)
          asleep := hasleep
          awake := hawake
          count := hcount
          active := h.active
          owner := h.owner
          excluded := fun hactive => hactive_false hactive
          readersWait := h.readersWait
          writersWait := fun hne _ _ => hwoken hne }⟩
    · rename_i hne
      cases hstep
      exact ⟨writers,
        { readersQueued := h.readersQueued
          writersQueued := h.writersQueued
          reading := h.reading
          writing := h.writing
          asleep := h.asleep
          awake := h.awake
          count := hcount
          active := h.active
          owner := h.owner
          excluded := fun hactive => hactive_false hactive
          readersWait := h.readersWait
          writersWait := fun _ hzero _ => absurd hzero hne }⟩

/-- **The writer leaves.** It signals a writer and wakes all readers; nobody but the
writer changes anything. -/
theorem Inv.writeUnlock
    (hstep : (rwlockWriteUnlock (s.dispatch t) s.rw).map (fun r => { s with
      sys := r.1, rw := r.2, writeHolds := Function.update s.writeHolds t false }) = some s') :
    ∃ readers' writers', Inv s' readers' writers' := by
  by_cases howner : s.rw.writerOwner = some t
  · have hactive : s.rw.writerActive = true := by
      rw [h.active, howner]
      rfl
    obtain ⟨sys₁, queue, hsignal, hwq, hrq, hasleep, hawake, hwoken⟩ :=
      h.signalWriters (s.dispatch t) rfl
    obtain ⟨sys', hbroadcast, hstate, hlinks⟩ := conditionBroadcast_spec hrq
    have hcurrent : s.rw.writerOwner = taskGetCurrent (s.dispatch t) := howner
    rw [rwlockWriteUnlock, if_pos hcurrent, hsignal] at hstep
    simp only [hbroadcast, Option.map_some, Option.some.injEq] at hstep
    subst hstep
    refine ⟨[], writers.tail,
      { readersQueued := rfl
        writersQueued := ?_
        reading := by simp
        writing := fun u hu => h.writing u (List.mem_of_mem_tail hu)
        asleep := ?_
        awake := ?_
        count := h.count
        active := rfl
        owner := ?_
        excluded := fun hactive => absurd hactive Bool.false_ne_true
        readersWait := fun hne => absurd rfl hne
        writersWait := fun hne _ _ => hwoken hne }⟩
    · exact hwq.frame fun u hu => hlinks u (h.not_mem_readers (List.mem_of_mem_tail hu))
    · intro u hu
      have htail : u ∈ writers.tail := by simpa using hu
      change (sys'.taskList u).state = .blocked
      rw [hstate u, if_neg (h.not_mem_readers (List.mem_of_mem_tail htail))]
      exact hasleep u (.inr htail)
    · intro u hcall _ huw
      change (sys'.taskList u).state = .ready
      rw [hstate u]
      split
      · rfl
      · rename_i hur
        exact hawake u hcall hur huw
    · intro u
      by_cases hut : u = t
      · subst hut
        simp
      · simp only [Function.update_of_ne hut, h.owner u, howner, Option.some.injEq]
        simp [Ne.symm hut]
  · rw [rwlockWriteUnlock_of_not_owner (s.dispatch t) howner] at hstep
    cases hstep
    -- The caller did not hold the lock.
    have hnot : s.writeHolds t = false := by
      rw [← Bool.not_eq_true, h.owner t]
      exact howner
    have hsame : Function.update s.writeHolds t false = s.writeHolds := by
      rw [← hnot, Function.update_eq_self]
    rw [hsame]
    exact ⟨readers, writers, ⟨h.readersQueued, h.writersQueued, h.reading, h.writing, h.asleep,
      h.awake, h.count, h.active, h.owner, h.excluded, h.readersWait, h.writersWait⟩⟩

/-- Dispatching a task alone changes nothing here. -/
theorem Inv.dispatched : Inv { s with sys := s.dispatch t } readers writers :=
  ⟨h.readersQueued, h.writersQueued, h.reading, h.writing, h.asleep, h.awake, h.count, h.active,
    h.owner, h.excluded, h.readersWait, h.writersWait⟩

/-- **Step.** -/
theorem Inv.step {a : RwAction n} (hstep : s.step a = some s') :
    ∃ readers' writers', Inv s' readers' writers' := by
  cases a with
  | readLock t =>
    simp only [RwSystem.step] at hstep
    split at hstep
    · rename_i hcall
      exact h.readPass hcall.1 hstep
    · cases hstep
  | readTrylock t free =>
    simp only [RwSystem.step] at hstep
    split at hstep
    · rename_i hcall
      obtain ⟨hr, hw⟩ := h.not_mem hcall.1
      unfold rwlockReadTrylock at hstep
      split at hstep
      · cases hstep
        exact ⟨_, _, h.dispatched⟩
      · split at hstep
        · cases hstep
          exact ⟨_, _, h.dispatched⟩
        · rename_i hinactive
          cases hcount : int32 (s.rw.readersCount + 1) with
          | none =>
            rw [hcount] at hstep
            cases hstep
          | some c =>
            rw [hcount] at hstep
            cases hstep
            exact ⟨_, _, h.tookRead hr hw (by simpa using hinactive)
              (by rw [int32_eq_some hcount])⟩
    · cases hstep
  | readUnlock t =>
    simp only [RwSystem.step] at hstep
    split at hstep
    · rename_i hcall
      obtain ⟨writers', hinv⟩ := h.readUnlock hcall.2 hstep
      exact ⟨_, _, hinv⟩
    · cases hstep
  | writeLock t =>
    simp only [RwSystem.step] at hstep
    split at hstep
    · rename_i hcall
      exact h.writePass hcall.1 hstep
    · cases hstep
  | writeTrylock t free =>
    simp only [RwSystem.step] at hstep
    split at hstep
    · rename_i hcall
      obtain ⟨hr, hw⟩ := h.not_mem hcall.1
      unfold rwlockWriteTrylock at hstep
      split at hstep
      · cases hstep
        exact ⟨_, _, h.dispatched⟩
      · split at hstep
        · cases hstep
          exact ⟨_, _, h.dispatched⟩
        · rename_i hfree
          cases hstep
          exact ⟨_, _, h.tookWrite hr hw hfree rfl⟩
    · cases hstep
  | writeUnlock t =>
    simp only [RwSystem.step] at hstep
    split at hstep
    · exact h.writeUnlock hstep
    · cases hstep
  | retest t =>
    simp only [RwSystem.step] at hstep
    split at hstep
    · rename_i hready
      cases hcall : s.calls t with
      | none =>
        rw [hcall] at hstep
        cases hstep
      | some call =>
        rw [hcall] at hstep
        cases call with
        | read => exact h.readPass hready hstep
        | write => exact h.writePass hready hstep
    · cases hstep

end Step

/-- Every state of every run satisfies the invariant. -/
theorem run_inv (sys : TaskSys n) (as : List (RwAction n)) :
    Along step (fun s => ∃ readers writers, Inv s readers writers) (start sys) as := by
  apply along_of_preserved _ ⟨[], [], start_inv sys⟩
  rintro s a s' ⟨readers, writers, h⟩ hstep
  exact h.step hstep

/-! ### Exclusion -/

/-- The number of tasks that hold the read lock. -/
def readingTasks (s : RwSystem n) : Nat := (Finset.univ.filter fun t => 0 < s.readHolds t).card

/-- Readers and writers exclude each other, and the fields of the lock say who is in:
`readers_count` is the number of read locks held, which is the number of tasks that
hold one when none holds two. -/
structure Exclusive (s : RwSystem n) : Prop where
  locks : s.rw.readersCount = ∑ t, (s.readHolds t : Int)
  tasks : (∀ t, s.readHolds t ≤ 1) → s.rw.readersCount = s.readingTasks
  writer : s.rw.writerActive = true ↔ ∃! t, s.writeHolds t = true
  owner : ∀ t, s.writeHolds t = true ↔ s.rw.writerOwner = some t
  exclusive : ¬ (0 < s.rw.readersCount ∧ s.rw.writerActive = true)
  bystander : ∀ t, s.rw.writerOwner ≠ some t →
    rwlockWriteUnlock (s.dispatch t) s.rw = some (s.dispatch t, s.rw)

theorem Inv.exclusive (h : Inv s readers writers) : Exclusive s where
  locks := h.count
  tasks := by
    intro hone
    rw [h.count, readingTasks, Finset.card_filter]
    push_cast
    apply Finset.sum_congr rfl
    intro t _
    have hle := hone t
    split <;> omega
  writer := by
    rw [h.active, Option.isSome_iff_exists]
    constructor
    · rintro ⟨t, ht⟩
      refine ⟨t, (h.owner t).mpr ht, ?_⟩
      intro u hu
      exact Option.some.inj (((h.owner u).mp hu).symm.trans ht)
    · rintro ⟨t, ht, -⟩
      exact ⟨t, (h.owner t).mp ht⟩
  owner := h.owner
  exclusive := by
    rintro ⟨hpos, hactive⟩
    have hzero := h.excluded hactive
    omega
  bystander := fun t ht => rwlockWriteUnlock_of_not_owner (s.dispatch t) ht

/-- **Reader/writer exclusion**, in every state of every run. -/
theorem rwlock_exclusive (sys : TaskSys n) (as : List (RwAction n)) :
    Along step Exclusive (start sys) as :=
  (run_inv sys as).mono fun _ ⟨_, _, h⟩ => h.exclusive

/-- A table of one ready task. -/
def oneTask : TaskSys 1 :=
  { taskList := fun _ => Task.zeroed 1, currentTask := none, idleTask := none, taskCount := 1,
    stackAllocs := [], stackFrees := [] }

/-- One task may hold the read lock twice: `readers_count` is 2 and one task reads. -/
theorem read_lock_twice : ∃ s, run step (start oneTask) [.readLock 0, .readLock 0] = some s ∧
    s.rw.readersCount = 2 ∧ s.readingTasks = 1 :=
  ⟨_, rfl, rfl, by decide⟩

/-! ### Wake-ups -/

/-- A task that waits for readers to be let in waits for an active writer. When
writers wait and the lock is free, one of them has been signalled: it is off the
queue, ready, and has yet to test again. -/
structure Wakes (s : RwSystem n) : Prop where
  readers : ∀ t, InLine s.sys.taskList s.rw.readers t → s.rw.writerActive = true
  writers : ∀ t, InLine s.sys.taskList s.rw.writers t → s.rw.readersCount = 0 →
    s.rw.writerActive = false →
    ∃ u, s.calls u = some .write ∧ ¬ InLine s.sys.taskList s.rw.writers u ∧
      (s.task u).state = .ready

theorem Inv.wakes (h : Inv s readers writers) : Wakes s where
  readers := by
    intro t ht
    exact h.readersWait (List.ne_nil_of_mem (h.readersQueued.inLine_iff.mp ht))
  writers := by
    intro t ht hcount hinactive
    obtain ⟨u, hcall, hu⟩ :=
      h.writersWait (List.ne_nil_of_mem (h.writersQueued.inLine_iff.mp ht)) hcount hinactive
    have hur : u ∉ readers := by
      intro hmem
      rw [h.reading u hmem] at hcall
      cases hcall
    refine ⟨u, hcall, fun hin => hu (h.writersQueued.inLine_iff.mp hin), ?_⟩
    exact h.awake u (by simp [hcall]) hur hu

/-- **No wake-up is lost**, in every state of every run. -/
theorem rwlock_wakes (sys : TaskSys n) (as : List (RwAction n)) :
    Along step Wakes (start sys) as :=
  (run_inv sys as).mono fun _ ⟨_, _, h⟩ => h.wakes

end RwSystem

end ArmKernel.Sync

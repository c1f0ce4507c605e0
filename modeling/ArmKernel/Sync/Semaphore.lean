/-
The counting semaphore (`src/semaphore.c`), and what it is for.

As with the mutex, one call is one step. `semaphore_wait` takes a unit and returns, or
queues the caller and yields; the flag of `semaphoreWait` tells the two apart, and nothing
is tested again behind `task_yield`. `semaphore_post` hands its unit to the first in line,
and counts it only when nobody waits.

`Units` is the semaphore without pointers: a count, a line, and the history of both.
`Units.Kept` is the law of its five moves: no unit is lost or made, none lies free while a
task waits, and units are handed over in the order of arrival.
-/
import ArmKernel.Sync.WaitQueue

namespace ArmKernel.Sync

open ArmKernel.Support ArmKernel.Tasks

/-! ### The calls -/

/-- `semaphore_t`. -/
structure Semaphore (n : Nat) where
  count : Int
  waitingTasks : Option (Fin n)
  name : List UInt8

/-- The memory the calls work on: the task table, the semaphores of the program and
`sync_stats.sem_contentions`. -/
structure SemKernel (n : Nat) (S : Type) where
  sys : TaskSys n
  sems : S → Semaphore n
  semContentions : Nat

/-- `semaphore_init`. -/
def semaphoreInit (n : Nat) (initialCount : Int) (name : List UInt8) : Semaphore n :=
  ⟨initialCount, none, name⟩

section Calls

variable {n : Nat} {S : Type} [DecidableEq S]

/-- Write one semaphore. -/
def SemKernel.setSem (k : SemKernel n S) (x : S) (sem : Semaphore n) : SemKernel n S :=
  { k with sems := Function.update k.sems x sem }

/-- `semaphore_wait`. The flag is set when the call goes through `task_yield`; `none` is a
walk that does not end, or no current task. -/
def semaphoreWait (k : SemKernel n S) (sem : Option S) : Option (SemKernel n S × Bool) :=
  match sem with
  | none => some (k, false)
  | some x =>
    if 0 < (k.sems x).count then
      some (k.setSem x { k.sems x with count := (k.sems x).count - 1 }, false)
    else
      let semContentions := wrap32 (k.semContentions + 1)
      match taskGetCurrent k.sys with
      | none => none
      | some current =>
        let sys := k.sys.setState current .blocked
        (addToWaitQueue sys.taskList (k.sems x).waitingTasks current).map fun (tasks, queue) =>
          ({ k.setSem x { k.sems x with waitingTasks := queue } with
              sys := { sys with taskList := tasks }
              semContentions }, true)

/-- `semaphore_trywait`. -/
def semaphoreTrywait (k : SemKernel n S) (sem : Option S) : SemKernel n S × Bool :=
  match sem with
  | none => (k, false)
  | some x =>
    if 0 < (k.sems x).count then
      (k.setSem x { k.sems x with count := (k.sems x).count - 1 }, true)
    else (k, false)

/-- `semaphore_post`; `none` is a `count++` that overflows. -/
def semaphorePost (k : SemKernel n S) (sem : Option S) : Option (SemKernel n S) :=
  match sem with
  | none => some k
  | some x =>
    match removeFromWaitQueue k.sys.taskList (k.sems x).waitingTasks with
    | (tasks, queue, some waiting) =>
      let sys := TaskSys.setState { k.sys with taskList := tasks } waiting .ready
      some { k.setSem x { k.sems x with waitingTasks := queue } with
        sys := taskResume sys (some waiting) }
    | (tasks, queue, none) =>
      (int32 ((k.sems x).count + 1)).map fun count =>
        { k.setSem x { k.sems x with waitingTasks := queue, count } with
          sys := { k.sys with taskList := tasks } }

end Calls

/-! ### Units and the line for them -/

/-- What happened at a semaphore: how many posts were made, how many waits returned at once
and how many trywaits succeeded, who stood in line and who was handed a unit, oldest first. -/
structure SemHistory (T : Type) where
  posts : Nat
  passed : Nat
  tries : Nat
  blockedOrder : List T
  grantedOrder : List T

/-- The waits that were granted a unit. -/
def SemHistory.granted {T : Type} (h : SemHistory T) : Nat :=
  h.passed + h.tries + h.grantedOrder.length

/-- A semaphore without pointers: the free units, the tasks in line, and its history. -/
structure Units (T : Type) extends SemHistory T where
  count : Int
  line : List T

namespace Units

variable {T : Type} {a b : Units T} {initial : Int}

/-- A semaphore with `initial` free units. -/
def start (initial : Int) : Units T :=
  { count := initial, line := [], posts := 0, passed := 0, tries := 0, blockedOrder := [],
    grantedOrder := [] }

/-- A wait finds a unit. -/
def pass (a : Units T) : Units T := { a with count := a.count - 1, passed := a.passed + 1 }

/-- A trywait finds a unit. -/
def tryPass (a : Units T) : Units T := { a with count := a.count - 1, tries := a.tries + 1 }

/-- `t` stands in line. -/
def block (a : Units T) (t : T) : Units T :=
  { a with line := a.line ++ [t], blockedOrder := a.blockedOrder ++ [t] }

/-- A post hands its unit to `w`, the first in line. -/
def handOff (a : Units T) (w : T) (rest : List T) : Units T :=
  { a with line := rest, posts := a.posts + 1, grantedOrder := a.grantedOrder ++ [w] }

/-- A post leaves its unit. -/
def add (a : Units T) : Units T := { a with count := a.count + 1, posts := a.posts + 1 }

/-- What a call may do to a semaphore. -/
inductive Move (a : Units T) : Units T → Prop where
  | pass : 0 < a.count → Move a a.pass
  | tryPass : 0 < a.count → Move a a.tryPass
  | block {t} : ¬ 0 < a.count → t ∉ a.line → Move a (a.block t)
  | handOff {w rest} : a.line = w :: rest → Move a (a.handOff w rest)
  | add : a.line = [] → Move a a.add

/-- The law of a semaphore that began with `initial` units. -/
structure Kept (initial : Int) (a : Units T) : Prop where
  conserved : initial + a.posts = a.count + a.granted
  nonneg : 0 ≤ a.count
  nobody_waits : 0 < a.count → a.line = []
  in_order : a.blockedOrder = a.grantedOrder ++ a.line
  nodup : a.line.Nodup

theorem Kept.start (h : 0 ≤ initial) : (start initial : Units T).Kept initial where
  conserved := rfl
  nonneg := h
  nobody_waits := fun _ => rfl
  in_order := rfl
  nodup := List.nodup_nil

/-- While a task stands in line, no unit is free. -/
theorem Kept.no_free_unit (h : a.Kept initial) {w : T} {rest : List T} (hline : a.line = w :: rest) :
    ¬ 0 < a.count := by
  intro hpos
  cases hline.symm.trans (h.nobody_waits hpos)

/-- **Every move keeps the law.** -/
theorem Kept.move (h : a.Kept initial) (hmove : Move a b) : b.Kept initial := by
  have hcons := h.conserved
  unfold SemHistory.granted at hcons
  cases hmove with
  | pass hpos =>
    refine { h with conserved := ?_, nonneg := ?_, nobody_waits := fun _ => h.nobody_waits hpos }
    · simp only [Units.pass, SemHistory.granted]
      push_cast at hcons ⊢
      omega
    · simp only [Units.pass]
      omega
  | tryPass hpos =>
    refine { h with conserved := ?_, nonneg := ?_, nobody_waits := fun _ => h.nobody_waits hpos }
    · simp only [Units.tryPass, SemHistory.granted]
      push_cast at hcons ⊢
      omega
    · simp only [Units.tryPass]
      omega
  | block hnone hout =>
    refine { h with nobody_waits := fun hpos => absurd hpos hnone, in_order := ?_, nodup := ?_ }
    · simp only [Units.block, h.in_order, List.append_assoc]
    · exact h.nodup.append (List.nodup_singleton _) (List.disjoint_singleton.mpr hout)
  | @handOff w rest hline =>
    -- The count stays at 0: the unit is the post's own.
    refine { h with
      conserved := ?_
      nobody_waits := fun hpos => absurd hpos (h.no_free_unit hline)
      in_order := ?_
      nodup := ?_ }
    · simp only [Units.handOff, SemHistory.granted, List.length_append, List.length_singleton]
      push_cast at hcons ⊢
      omega
    · simp only [Units.handOff, h.in_order, hline, List.append_assoc, List.singleton_append]
    · have := h.nodup
      rw [hline] at this
      exact this.of_cons
  | add hline =>
    refine { h with conserved := ?_, nonneg := ?_, nobody_waits := fun _ => hline }
    · simp only [Units.add, SemHistory.granted]
      push_cast at hcons ⊢
      omega
    · have := h.nonneg
      simp only [Units.add]
      omega

/-- Nobody overtakes the line: while `w` is the first of it, a move grants a unit to nobody
else. -/
theorem Kept.no_overtaking (h : a.Kept initial) (hmove : Move a b) {w : T} {rest : List T}
    (hline : a.line = w :: rest) :
    b.passed = a.passed ∧ b.tries = a.tries ∧
      (b.grantedOrder = a.grantedOrder ∨ b.grantedOrder = a.grantedOrder ++ [w]) := by
  cases hmove with
  | pass hpos | tryPass hpos => exact absurd hpos (h.no_free_unit hline)
  | block => exact ⟨rfl, rfl, .inl rfl⟩
  | handOff hnext =>
    obtain ⟨rfl, -⟩ := List.cons.inj (hline.symm.trans hnext)
    exact ⟨rfl, rfl, .inr rfl⟩
  | add hnil => cases hline.symm.trans hnil

end Units

end ArmKernel.Sync

/-
Units and turns at the semaphores, for every interleaving of `semaphore_wait`,
`semaphore_trywait` and `semaphore_post`.

A post counts its unit or hands it over, and a wait that blocked returns without a second
test. That no unit is lost or made, and that nobody gets one out of turn, rests on one
fact: while a task stands in line the count is 0, so a unit that arrives goes to the first
in line and no other call can find one.
-/
import ArmKernel.Support.Run
import ArmKernel.Sync.SemSystem

namespace ArmKernel.Sync

open ArmKernel.Support ArmKernel.Tasks

variable {n : Nat} {S : Type}

namespace SemSystem

/-- What a semaphore that began with `initial` units, its wait queue and the tasks in its
wait calls look like between calls. -/
structure UnitsKept (s : SemSystem n S) (initial : Int) (x : S) (q : List (Fin n)) : Prop where
  queued : Queued s.kernel.sys.taskList (s.sem x).waitingTasks q
  conserved : initial + (s.history x).posts = (s.sem x).count + (s.history x).granted
  nonneg : 0 ≤ (s.sem x).count
  nobody_waits : 0 < (s.sem x).count → q = []
  in_order : (s.history x).blockedOrder = (s.history x).grantedOrder ++ q
  blocked : ∀ t ∈ q, s.pending t = some x ∧ (s.task t).state = .blocked
  served : ∀ t, s.pending t = some x → t ∈ q ∨ (s.task t).state = .ready

/-- A call in turn: it returns or yields; while tasks stand in line no wait or trywait is
given a unit, and a post gives it to the first; a wait returns only to a task that has left
the line. -/
structure InTurn [DecidableEq S] (s : SemSystem n S) (c : SemCall (Fin n) S) : Prop where
  returns : s.Enabled c → ∃ s', s.callStep c = some s'
  no_overtaking : ∀ s', s.callStep c = some s' → ∀ x w rest,
    Queued s.kernel.sys.taskList (s.sem x).waitingTasks (w :: rest) →
      (s'.history x).passed = (s.history x).passed ∧ (s'.history x).tries = (s.history x).tries ∧
        ((s'.history x).grantedOrder = (s.history x).grantedOrder ∨
          (s'.history x).grantedOrder = (s.history x).grantedOrder ++ [w])
  leaves_line : ∀ s' t, c = .wake t → s.callStep c = some s' →
    ∀ x, ¬ InLine s.kernel.sys.taskList (s.sem x).waitingTasks t

/-- The invariant of the runs: the memory represents semaphores in order. -/
def Sound (initial : S → Int) (s : SemSystem n S) : Prop :=
  ∃ line, s.Represents line ∧ (s.spec line).Inv initial

variable {s s' : SemSystem n S} {initial : S → Int}

theorem start_sound (k : SemKernel n S) (name : S → List UInt8) (h : ∀ x, 0 ≤ initial x) :
    (start k initial name).Sound initial :=
  ⟨_, start_represents k name, start_inv k name h⟩

theorem Sound.unitsKept (h : s.Sound initial) (x : S) : ∃ q, s.UnitsKept (initial x) x q := by
  obtain ⟨line, hrep, hinv⟩ := h
  have hkept := hinv.kept x
  exact ⟨line x, hrep x, hkept.conserved, hkept.nonneg, hkept.nobody_waits, hkept.in_order,
    fun t ht => ⟨hinv.calling x t ht, hinv.blocked x t ht⟩, hinv.served x⟩

variable [DecidableEq S]

/-- One call keeps the invariant. -/
theorem Sound.step (h : s.Sound initial) {c : SemCall (Fin n) S} (hstep : s.callStep c = some s') :
    s'.Sound initial := by
  obtain ⟨line, hrep, hinv⟩ := h
  obtain ⟨line', hrep', hmove⟩ := callStep_refines hrep hinv hstep
  exact ⟨line', hrep', hinv.step hmove⟩

/-- Every call leaves a semaphore as it is, or makes one of the moves of `Units`. -/
theorem units_of_step {a b : SemSpec (Fin n) S} {c : SemCall (Fin n) S} (hinv : a.Inv initial)
    (hstep : SemSpec.Step a c b) (x : S) :
    b.units x = a.units x ∨ Units.Move (a.units x) (b.units x) := by
  have hset : ∀ (y : S) (u : Units (Fin n)), Units.Move (a.units y) u →
      Function.update a.units y u x = a.units x ∨
        Units.Move (a.units x) (Function.update a.units y u x) := by
    intro y u hmove
    by_cases hx : x = y
    · subst hx
      rw [Function.update_self]
      exact .inr hmove
    · rw [Function.update_of_ne hx]
      exact .inl rfl
  cases hstep with
  | waitPasses _ hpos => exact hset _ _ (.pass hpos)
  | waitBlocks hcall hnone => exact hset _ _ (.block hnone (hinv.not_mem_line hcall.1 _))
  | tryPasses _ hpos => exact hset _ _ (.tryPass hpos)
  | postHands _ hline => exact hset _ _ (.handOff hline)
  | postAdds _ hline => exact hset _ _ (.add hline)
  | tryFails => exact .inl rfl
  | wake => exact .inl rfl

theorem Sound.inTurn (h : s.Sound initial) (c : SemCall (Fin n) S) : s.InTurn c := by
  obtain ⟨line, hrep, hinv⟩ := h
  refine ⟨?_, ?_, ?_⟩
  · intro henabled
    obtain ⟨s', -, hs', -⟩ := callStep_of_enabled hrep hinv henabled
    exact ⟨s', hs'⟩
  · intro s' hstep x w rest hq
    have hline : line x = w :: rest := Chain.unique (hrep x) hq
    obtain ⟨line', -, hmove⟩ := callStep_refines hrep hinv hstep
    rcases units_of_step hinv hmove x with hsame | hmoved
    · have hhistory : s'.history x = s.history x := congrArg Units.toSemHistory hsame
      rw [hhistory]
      exact ⟨rfl, rfl, .inl rfl⟩
    · exact (hinv.kept x).no_overtaking hmoved hline
  · rintro s' t rfl hstep x hin
    have hready := (Option.ite_none_right_eq_some.mp hstep).1.1
    exact hinv.not_mem_line hready x ((hrep x).inLine_iff.mp hin)

/-- **Units and turns.** Whatever the tasks call, in whatever order, on semaphores that began
with `initialCount` units: what was there and what was posted is free or was granted, the count
is not negative, nobody waits beside a free unit, the tasks are granted in the order in which
they blocked, and every call is in turn. -/
theorem semaphores_keep_units (k : SemKernel n S) (initialCount : S → Int)
    (name : S → List UInt8) (h : ∀ x, 0 ≤ initialCount x) (calls : List (SemCall (Fin n) S)) :
    Along callStep (fun s => ∀ x, ∃ q, s.UnitsKept (initialCount x) x q)
        (start k initialCount name) calls ∧
      Each callStep InTurn (start k initialCount name) calls := by
  have hstart := start_sound k name h
  have preserved : ∀ (s : SemSystem n S) c s', s.Sound initialCount → s.callStep c = some s' →
      s'.Sound initialCount := fun _ _ _ hsound hstep => hsound.step hstep
  constructor
  · have hall : Along callStep (Sound initialCount) (start k initialCount name) calls :=
      along_of_preserved preserved hstart calls
    exact hall.mono fun _ hsound => hsound.unitsKept
  · exact each_of_preserved (fun _ c hsound => hsound.inTurn c) preserved hstart calls

/-- Two ready tasks and one semaphore. -/
def twoWaiters : SemKernel 2 Unit where
  sys := ⟨fun _ => Task.zeroed 2, none, none, 2, [], []⟩
  sems := fun _ => semaphoreInit 2 0 []
  semContentions := 0

/-- One unit for two tasks: task 1 blocks, is handed the unit that task 0 posts, and returns. -/
theorem twoWaiters_keep_units :
    ∃ s, run callStep (start twoWaiters (fun _ => 1) fun _ => [])
        [.wait 0 (), .wait 1 (), .post 0 (), .wake 1] = some s ∧
      (s.sem ()).count = 0 ∧ (s.history ()).granted = 2 ∧ ∃ q, s.UnitsKept 1 () q := by
  have hends : (run callStep (start twoWaiters (fun _ => 1) fun _ => [])
      [.wait 0 (), .wait 1 (), .post 0 (), .wake 1]).map
        (fun s => ((s.sem ()).count, (s.history ()).granted)) = some (0, 2) := by decide
  obtain ⟨s, hrun, hfacts⟩ := Option.map_eq_some_iff.mp hends
  obtain ⟨hcount, hgranted⟩ := Prod.mk.inj hfacts
  have hkept := (semaphores_keep_units twoWaiters (fun _ => 1) (fun _ => []) (fun _ => by decide)
    [.wait 0 (), .wait 1 (), .post 0 (), .wake 1]).1.last hrun
  exact ⟨s, hrun, hcount, hgranted, hkept ()⟩

end SemSystem

end ArmKernel.Sync

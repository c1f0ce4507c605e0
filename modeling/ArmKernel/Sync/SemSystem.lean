/-
Tasks calling the semaphore functions, in any order.

`SemSpec` are the semaphores without pointers: `Units` for each, and the waits the tasks
sit in. `SemSystem` is the kernel memory with the same waits and histories; a task that is
ready makes a call (`callStep`), and a wait that blocked returns by `wake`, when the
scheduler comes back to its task. `callStep_refines` shows that each call is a move of
`SemSpec`, the pointer queue of a semaphore playing its line, so what `SemSpec.Inv` says
holds of every run (`semaphores_keep_units`).
-/
import ArmKernel.Support.Run
import ArmKernel.Sync.Semaphore

namespace ArmKernel.Sync

open ArmKernel.Support ArmKernel.Tasks

/-- The calls on the semaphores, by task and semaphore. -/
inductive SemCall (T S : Type) where
  | wait (t : T) (x : S)
  | trywait (t : T) (x : S)
  | post (t : T) (x : S)
  | wake (t : T)
deriving DecidableEq

/-- Tasks `T`, semaphores `S`; `pending` is the semaphore whose `wait` call a task sits in. -/
@[ext] structure SemSpec (T S : Type) where
  state : T → TaskState
  pending : T → Option S
  units : S → Units T

namespace SemSpec

variable {T S : Type} {a b : SemSpec T S}

/-- A ready task outside every `wait` call: it can make a call. -/
def CanCall (a : SemSpec T S) (t : T) : Prop := a.state t = .ready ∧ a.pending t = none

section Moves

variable [DecidableEq T] [DecidableEq S]

/-- Rewrite one semaphore. -/
def set (a : SemSpec T S) (x : S) (u : Units T) : SemSpec T S :=
  { a with units := Function.update a.units x u }

/-- `t` blocks and stands in line for `x`. -/
def block (a : SemSpec T S) (t : T) (x : S) : SemSpec T S :=
  { a.set x ((a.units x).block t) with
    state := Function.update a.state t .blocked
    pending := Function.update a.pending t (some x) }

/-- A post on `x` is handed to `w`, the first in line. -/
def handOff (a : SemSpec T S) (x : S) (w : T) (rest : List T) : SemSpec T S :=
  { a.set x ((a.units x).handOff w rest) with state := Function.update a.state w .ready }

/-- The wait of `t` returns. -/
def leave (a : SemSpec T S) (t : T) : SemSpec T S :=
  { a with pending := Function.update a.pending t none }

end Moves

/-- The moves of the calls. -/
inductive Step [DecidableEq T] [DecidableEq S] (a : SemSpec T S) :
    SemCall T S → SemSpec T S → Prop where
  | waitPasses {t x} : a.CanCall t → 0 < (a.units x).count →
      Step a (.wait t x) (a.set x (a.units x).pass)
  | waitBlocks {t x} : a.CanCall t → ¬ 0 < (a.units x).count → Step a (.wait t x) (a.block t x)
  | tryPasses {t x} : a.CanCall t → 0 < (a.units x).count →
      Step a (.trywait t x) (a.set x (a.units x).tryPass)
  | tryFails {t x} : a.CanCall t → ¬ 0 < (a.units x).count → Step a (.trywait t x) a
  | postHands {t x w rest} : a.CanCall t → (a.units x).line = w :: rest →
      Step a (.post t x) (a.handOff x w rest)
  | postAdds {t x} : a.CanCall t → (a.units x).line = [] →
      Step a (.post t x) (a.set x (a.units x).add)
  | wake {t x} : a.state t = .ready → a.pending t = some x → Step a (.wake t) (a.leave t)

/-- What holds between calls: each semaphore keeps its units, a task in line sits in its wait
and is blocked, and a wait whose task is not in line was granted and can return. -/
structure Inv (initial : S → Int) (a : SemSpec T S) : Prop where
  kept : ∀ x, (a.units x).Kept (initial x)
  calling : ∀ x t, t ∈ (a.units x).line → a.pending t = some x
  blocked : ∀ x t, t ∈ (a.units x).line → a.state t = .blocked
  served : ∀ x t, a.pending t = some x → t ∈ (a.units x).line ∨ a.state t = .ready

variable {initial : S → Int} {t : T} {x : S}

theorem Inv.not_mem_line (h : a.Inv initial) (hready : a.state t = .ready) (x : S) :
    t ∉ (a.units x).line := by
  intro hmem
  cases (h.blocked x t hmem).symm.trans hready

section Moved

variable [DecidableEq S]

/-- A move of one semaphore keeps the law of all. -/
theorem Inv.kept_set (h : a.Inv initial) {u : Units T} (hmove : Units.Move (a.units x) u) (y : S) :
    ((a.set x u).units y).Kept (initial y) := by
  by_cases hy : y = x
  · subst hy
    simpa [set] using (h.kept y).move hmove
  · simpa [set, hy] using h.kept y

/-- A move that leaves the line as it is keeps the invariant. -/
theorem Inv.set (h : a.Inv initial) {u : Units T} (hmove : Units.Move (a.units x) u)
    (hline : u.line = (a.units x).line) : (a.set x u).Inv initial := by
  have hlines : ∀ y, ((a.set x u).units y).line = (a.units y).line := by
    intro y
    by_cases hy : y = x
    · subst hy
      simpa [SemSpec.set] using hline
    · simp [SemSpec.set, hy]
  refine ⟨h.kept_set hmove, ?_, ?_, ?_⟩
  · intro y t hmem
    rw [hlines] at hmem
    exact h.calling y t hmem
  · intro y t hmem
    rw [hlines] at hmem
    exact h.blocked y t hmem
  · intro y t hp
    rw [hlines]
    exact h.served y t hp

end Moved

variable [DecidableEq T] [DecidableEq S]

theorem Inv.block (h : a.Inv initial) (hcall : a.CanCall t) (hnone : ¬ 0 < (a.units x).count) :
    (a.block t x).Inv initial := by
  have hout := h.not_mem_line hcall.1
  -- The lines are the old ones and, for `x`, the caller.
  have hlines : ∀ y u, u ∈ ((a.block t x).units y).line ↔
      u ∈ (a.units y).line ∨ y = x ∧ u = t := by
    intro y u
    by_cases hy : y = x
    · subst hy
      simp [SemSpec.block, SemSpec.set, Units.block]
    · simp [SemSpec.block, SemSpec.set, hy]
  refine ⟨fun y => h.kept_set (.block hnone (hout x)) y, ?_, ?_, ?_⟩
  · intro y u hmem
    rcases (hlines y u).mp hmem with hold | ⟨rfl, rfl⟩
    · have hu : u ≠ t := fun e => hout y (e ▸ hold)
      simpa [SemSpec.block, SemSpec.set, hu] using h.calling y u hold
    · simp [SemSpec.block, SemSpec.set]
  · intro y u hmem
    rcases (hlines y u).mp hmem with hold | ⟨rfl, rfl⟩
    · have hu : u ≠ t := fun e => hout y (e ▸ hold)
      simpa [SemSpec.block, SemSpec.set, hu] using h.blocked y u hold
    · simp [SemSpec.block, SemSpec.set]
  · intro y u hp
    rw [hlines]
    by_cases hu : u = t
    · subst hu
      have hy : x = y := by simpa [SemSpec.block, SemSpec.set] using hp
      exact .inl (.inr ⟨hy.symm, rfl⟩)
    · rcases h.served y u (by simpa [SemSpec.block, SemSpec.set, hu] using hp) with hmem | hready
      · exact .inl (.inl hmem)
      · exact .inr (by simpa [SemSpec.block, SemSpec.set, hu] using hready)

theorem Inv.handOff (h : a.Inv initial) {w : T} {rest : List T}
    (hline : (a.units x).line = w :: rest) : (a.handOff x w rest).Inv initial := by
  have hnodup := (h.kept x).nodup
  rw [hline] at hnodup
  have hw : a.pending w = some x := h.calling x w (by rw [hline]; exact List.mem_cons_self)
  -- `w` leaves the line of `x` and stands in no other.
  have hlines : ∀ y u, u ∈ ((a.handOff x w rest).units y).line ↔
      u ∈ (a.units y).line ∧ u ≠ w := by
    intro y u
    by_cases hy : y = x
    · subst hy
      simp only [SemSpec.handOff, SemSpec.set, Function.update_self, Units.handOff, hline,
        List.mem_cons]
      constructor
      · intro hmem
        exact ⟨.inr hmem, fun e => (List.nodup_cons.mp hnodup).1 (e ▸ hmem)⟩
      · rintro ⟨rfl | hmem, hne⟩
        · exact absurd rfl hne
        · exact hmem
    · simp only [SemSpec.handOff, SemSpec.set, Function.update_of_ne hy]
      constructor
      · intro hmem
        refine ⟨hmem, ?_⟩
        rintro rfl
        exact hy (Option.some.inj ((h.calling y u hmem).symm.trans hw))
      · exact And.left
  refine ⟨fun y => h.kept_set (.handOff hline) y, ?_, ?_, ?_⟩
  · intro y u hmem
    exact h.calling y u ((hlines y u).mp hmem).1
  · intro y u hmem
    obtain ⟨hold, hne⟩ := (hlines y u).mp hmem
    simpa [SemSpec.handOff, SemSpec.set, hne] using h.blocked y u hold
  · intro y u hp
    rw [hlines]
    by_cases hu : u = w
    · subst hu
      exact .inr (by simp [SemSpec.handOff, SemSpec.set])
    · rcases h.served y u hp with hmem | hready
      · exact .inl ⟨hmem, hu⟩
      · exact .inr (by simpa [SemSpec.handOff, SemSpec.set, hu] using hready)

omit [DecidableEq S] in
theorem Inv.leave (h : a.Inv initial) (hready : a.state t = .ready) : (a.leave t).Inv initial := by
  refine ⟨h.kept, ?_, h.blocked, ?_⟩
  · intro y u hmem
    have hu : u ≠ t := fun e => h.not_mem_line hready y (e ▸ hmem)
    simpa [SemSpec.leave, hu] using h.calling y u hmem
  · intro y u hp
    by_cases hu : u = t
    · subst hu
      simp [SemSpec.leave] at hp
    · exact h.served y u (by simpa [SemSpec.leave, hu] using hp)

/-- **Every move keeps the invariant.** -/
theorem Inv.step (h : a.Inv initial) {c : SemCall T S} (hstep : Step a c b) : b.Inv initial := by
  cases hstep with
  | waitPasses _ hpos => exact h.set (.pass hpos) rfl
  | waitBlocks hcall hnone => exact h.block hcall hnone
  | tryPasses _ hpos => exact h.set (.tryPass hpos) rfl
  | tryFails => exact h
  | postHands _ hline => exact h.handOff hline
  | postAdds _ hline => exact h.set (.add hline) rfl
  | wake hready => exact h.leave hready

end SemSpec

/-! ### The kernel and its tasks -/

variable {n : Nat} {S : Type}

/-- The kernel and the tasks that run on it. -/
structure SemSystem (n : Nat) (S : Type) where
  kernel : SemKernel n S
  pending : Fin n → Option S
  history : S → SemHistory (Fin n)

namespace SemSystem

/-- The control block of a task. -/
def task (s : SemSystem n S) (t : Fin n) : Task n := s.kernel.sys.taskList t

/-- A semaphore. -/
def sem (s : SemSystem n S) (x : S) : Semaphore n := s.kernel.sems x

/-- The scheduler makes `t` the current task. -/
def dispatch (s : SemSystem n S) (t : Fin n) : SemKernel n S :=
  { s.kernel with sys := { s.kernel.sys with currentTask := some t } }

/-- `t` is ready and outside every `semaphore_wait` call. -/
def CanCall (s : SemSystem n S) (t : Fin n) : Prop :=
  (s.task t).state = .ready ∧ s.pending t = none

instance (s : SemSystem n S) (t : Fin n) : Decidable (s.CanCall t) := by
  unfold CanCall
  cases s.pending t <;> infer_instance

/-- All semaphores as `semaphore_init` leaves them, no call under way. -/
def start (k : SemKernel n S) (initialCount : S → Int) (name : S → List UInt8) : SemSystem n S where
  kernel := { k with sems := fun x => semaphoreInit n (initialCount x) (name x) }
  pending := fun _ => none
  history := fun x => (Units.start (initialCount x)).toSemHistory

/-- The semaphores the memory represents, given the lines behind the queues. -/
def spec (s : SemSystem n S) (line : S → List (Fin n)) : SemSpec (Fin n) S where
  state := fun t => (s.task t).state
  pending := s.pending
  units := fun x => { s.history x with count := (s.sem x).count, line := line x }

/-- The queue of each semaphore holds its line. -/
def Represents (s : SemSystem n S) (line : S → List (Fin n)) : Prop :=
  ∀ x, Queued s.kernel.sys.taskList (s.sem x).waitingTasks (line x)

variable {s s' : SemSystem n S} {line : S → List (Fin n)} {initial : S → Int} {t : Fin n} {x : S}

theorem start_represents (k : SemKernel n S) (name : S → List UInt8) :
    (start k initial name).Represents fun _ => [] := fun _ => rfl

theorem start_inv (k : SemKernel n S) (name : S → List UInt8) (h : ∀ x, 0 ≤ initial x) :
    ((start k initial name).spec fun _ => []).Inv initial where
  kept := fun x => Units.Kept.start (h x)
  calling := fun _ _ hmem => nomatch hmem
  blocked := fun _ _ hmem => nomatch hmem
  served := fun _ _ hp => nomatch hp

/-- Distinct semaphores have disjoint lines: a task waits in one call at a time. -/
theorem line_disjoint (hinv : (s.spec line).Inv initial) {y : S} {u : Fin n} (hu : u ∈ line x)
    (hu' : u ∈ line y) : x = y :=
  Option.some.inj ((hinv.calling x u hu).symm.trans (hinv.calling y u hu'))

variable [DecidableEq S]

/-- One call by one task. -/
def callStep (s : SemSystem n S) : SemCall (Fin n) S → Option (SemSystem n S)
  | .wait t x =>
    if s.CanCall t then
      (semaphoreWait (s.dispatch t) (some x)).map fun (kernel, yields) =>
        if yields then
          { kernel
            pending := Function.update s.pending t (some x)
            history := Function.update s.history x
              { s.history x with blockedOrder := (s.history x).blockedOrder ++ [t] } }
        else
          { s with
            kernel
            history := Function.update s.history x
              { s.history x with passed := (s.history x).passed + 1 } }
    else none
  | .trywait t x =>
    if s.CanCall t then
      match semaphoreTrywait (s.dispatch t) (some x) with
      | (kernel, true) =>
        some { s with
          kernel
          history := Function.update s.history x
            { s.history x with tries := (s.history x).tries + 1 } }
      | (kernel, false) => some { s with kernel }
    else none
  | .post t x =>
    if s.CanCall t then
      (semaphorePost (s.dispatch t) (some x)).map fun kernel =>
        { s with
          kernel
          history := Function.update s.history x
            { s.history x with
              posts := (s.history x).posts + 1
              grantedOrder := (s.history x).grantedOrder ++ (s.sem x).waitingTasks.toList } }
    else none
  | .wake t =>
    if (s.task t).state = .ready ∧ (s.pending t).isSome then
      some { s with kernel := s.dispatch t, pending := Function.update s.pending t none }
    else none

/-! ### Each call is a move of the semaphores -/

/-- A call that rewrites the semaphore `x` and the line behind it, and keeps the links of the
tasks in the other lines. -/
theorem Represents.update {s₁ : SemSystem n S} {sem : Semaphore n} {q : List (Fin n)}
    (hrep : s.Represents line) (hsems : s₁.kernel.sems = Function.update s.kernel.sems x sem)
    (hqueued : Queued s₁.kernel.sys.taskList sem.waitingTasks q)
    (hothers : ∀ y, y ≠ x → ∀ u ∈ line y, (s₁.task u).nextWait = (s.task u).nextWait) :
    s₁.Represents (Function.update line x q) := by
  intro y
  by_cases hy : y = x
  · subst hy
    simpa [SemSystem.sem, hsems] using hqueued
  · have : Queued s₁.kernel.sys.taskList (s.sem y).waitingTasks (line y) :=
      (hrep y).frame (hothers y hy)
    simpa [SemSystem.sem, hsems, hy] using this

/-- The units after one semaphore, its line and its history were rewritten. -/
theorem units_update {s₁ : SemSystem n S} (sem : Semaphore n) {q : List (Fin n)}
    {history : SemHistory (Fin n)}
    (hsems : s₁.kernel.sems = Function.update s.kernel.sems x sem)
    (hhistory : s₁.history = Function.update s.history x history) :
    (s₁.spec (Function.update line x q)).units =
      Function.update (s.spec line).units x { history with count := sem.count, line := q } := by
  funext y
  by_cases hy : y = x
  · subst hy
    simp [spec, SemSystem.sem, hsems, hhistory]
  · simp [spec, SemSystem.sem, hsems, hhistory, hy]

/-- A call that takes or counts a unit, and leaves the line as it is. -/
theorem set_refines (s₁ : SemSystem n S) {sem : Semaphore n} {history : SemHistory (Fin n)}
    (hrep : s.Represents line) (hsems : s₁.kernel.sems = Function.update s.kernel.sems x sem)
    (hhistory : s₁.history = Function.update s.history x history)
    (htasks : s₁.kernel.sys.taskList = s.kernel.sys.taskList) (hpending : s₁.pending = s.pending)
    (hwaiting : sem.waitingTasks = (s.sem x).waitingTasks) :
    s₁.Represents line ∧ s₁.spec line =
      (s.spec line).set x { history with count := sem.count, line := line x } := by
  have hsame : Function.update line x (line x) = line := Function.update_eq_self x line
  constructor
  · have := hrep.update (q := line x) hsems (by rw [htasks, hwaiting]; exact hrep x) fun _ _ u _ => by
      rw [task, htasks, task]
    rwa [hsame] at this
  · have hunits := @units_update _ _ _ line x _ _ sem (line x) _ hsems hhistory
    rw [hsame] at hunits
    have hstate : (s₁.spec line).state = (s.spec line).state := by
      simp only [spec, task, htasks]
    exact SemSpec.ext hstate hpending hunits

/-- `t` takes a unit of `x`, which then has the history `history`. -/
def take (s : SemSystem n S) (t : Fin n) (x : S) (history : SemHistory (Fin n)) : SemSystem n S :=
  { s with
    kernel := (s.dispatch t).setSem x { s.sem x with count := (s.sem x).count - 1 }
    history := Function.update s.history x history }

/-- `semaphore_wait` takes a unit. -/
theorem wait_passes (hrep : s.Represents line) (hcall : s.CanCall t) (hpos : 0 < (s.sem x).count) :
    ∃ s₁ line₁, s.callStep (.wait t x) = some s₁ ∧
      s₁.Represents line₁ ∧ SemSpec.Step (s.spec line) (.wait t x) (s₁.spec line₁) := by
  have hpos' : 0 < ((s.dispatch t).sems x).count := hpos
  obtain ⟨hrep₁, hspec⟩ := set_refines
    (s.take t x { s.history x with passed := (s.history x).passed + 1 }) hrep rfl rfl rfl rfl rfl
  refine ⟨_, line, ?_, hrep₁, ?_⟩
  · simp only [callStep, if_pos hcall, semaphoreWait, if_pos hpos']
    rfl
  · rw [hspec]
    exact .waitPasses hcall hpos

/-- Without a unit the caller of `semaphore_wait` blocks and stands in line. -/
theorem wait_blocks (hrep : s.Represents line) (hinv : (s.spec line).Inv initial)
    (hcall : s.CanCall t) (hnone : ¬ 0 < (s.sem x).count) :
    ∃ s₁ line₁, s.callStep (.wait t x) = some s₁ ∧
      s₁.Represents line₁ ∧ SemSpec.Step (s.spec line) (.wait t x) (s₁.spec line₁) := by
  have hpos : ¬ 0 < ((s.dispatch t).sems x).count := hnone
  have hout : ∀ y, t ∉ line y := hinv.not_mem_line hcall.1
  have hqueued : Queued ((s.dispatch t).sys.setState t .blocked).taskList
      (s.sem x).waitingTasks (line x) :=
    (hrep x).frame fun u _ => setState_nextWait (s.dispatch t).sys t u .blocked
  obtain ⟨tasks, head, hadd, hq, hstate, hlinks⟩ := add_to_wait_queue_spec hqueued (hout x)
  have hwait : semaphoreWait (s.dispatch t) (some x) =
      some ({ (s.dispatch t).setSem x { s.sem x with waitingTasks := head } with
        sys := { (s.dispatch t).sys.setState t .blocked with taskList := tasks }
        semContentions := wrap32 (s.kernel.semContentions + 1) }, true) := by
    simp only [semaphoreWait, if_neg hpos]
    change Option.map _ (addToWaitQueue _ _ _) = _
    exact congrArg (Option.map _) hadd
  let s₁ : SemSystem n S :=
    { kernel :=
        { (s.dispatch t).setSem x { s.sem x with waitingTasks := head } with
          sys := { (s.dispatch t).sys.setState t .blocked with taskList := tasks }
          semContentions := wrap32 (s.kernel.semContentions + 1) }
      pending := Function.update s.pending t (some x)
      history := Function.update s.history x
        { s.history x with blockedOrder := (s.history x).blockedOrder ++ [t] } }
  refine ⟨s₁, Function.update line x (line x ++ [t]), ?_, ?_, ?_⟩
  · simp only [callStep, if_pos hcall, hwait, Option.map_some, if_true]
    rfl
  · refine hrep.update rfl hq fun y hy u hu => ?_
    -- A task in another line is neither the caller nor in the line of `x`.
    have hut : u ≠ t := fun e => hout y (e ▸ hu)
    have hul : u ∉ line x := fun hu' => hy (line_disjoint hinv hu hu')
    have := hlinks u hut hul
    rw [setState_nextWait] at this
    exact this
  · have hunits : (s₁.spec (Function.update line x (line x ++ [t]))).units =
        ((s.spec line).block t x).units :=
      units_update { s.sem x with waitingTasks := head } rfl rfl
    have hstates : (s₁.spec (Function.update line x (line x ++ [t]))).state =
        ((s.spec line).block t x).state := by
      funext u
      have := hstate u
      rw [setState_state] at this
      by_cases hu : u = t
      · subst hu
        simpa [SemSpec.block, spec, task, s₁] using this
      · simpa [SemSpec.block, spec, task, s₁, dispatch, hu] using this
    have hspec : s₁.spec (Function.update line x (line x ++ [t])) = (s.spec line).block t x :=
      SemSpec.ext hstates rfl hunits
    rw [hspec]
    exact .waitBlocks hcall hpos

theorem wait_refines (hrep : s.Represents line) (hinv : (s.spec line).Inv initial)
    (hcall : s.CanCall t) : ∃ s₁ line₁, s.callStep (.wait t x) = some s₁ ∧
      s₁.Represents line₁ ∧ SemSpec.Step (s.spec line) (.wait t x) (s₁.spec line₁) := by
  by_cases hpos : 0 < (s.sem x).count
  · exact wait_passes hrep hcall hpos
  · exact wait_blocks hrep hinv hcall hpos

/-- `semaphore_trywait` takes a unit, or changes nothing. -/
theorem trywait_refines (hrep : s.Represents line) (hcall : s.CanCall t) :
    ∃ s₁ line₁, s.callStep (.trywait t x) = some s₁ ∧
      s₁.Represents line₁ ∧ SemSpec.Step (s.spec line) (.trywait t x) (s₁.spec line₁) := by
  by_cases hpos : 0 < ((s.dispatch t).sems x).count
  · obtain ⟨hrep₁, hspec⟩ := set_refines
      (s.take t x { s.history x with tries := (s.history x).tries + 1 }) hrep rfl rfl rfl rfl rfl
    refine ⟨_, line, ?_, hrep₁, ?_⟩
    · simp only [callStep, if_pos hcall, semaphoreTrywait, if_pos hpos]
      rfl
    · rw [hspec]
      exact .tryPasses hcall hpos
  · refine ⟨{ s with kernel := s.dispatch t }, line, ?_, hrep, .tryFails hcall hpos⟩
    simp only [callStep, if_pos hcall, semaphoreTrywait, if_neg hpos]

/-- A post finds an empty queue when nobody stands in line. -/
theorem post_of_nil (hrep : s.Represents line) (hline : line x = []) (t : Fin n) :
    semaphorePost (s.dispatch t) (some x) = (int32 ((s.sem x).count + 1)).map fun count =>
      (s.dispatch t).setSem x { s.sem x with count } := by
  have hempty : (s.sem x).waitingTasks = none := by
    rw [(hrep x).head_eq, hline, List.head?_nil]
  have hremove : removeFromWaitQueue (s.dispatch t).sys.taskList
      ((s.dispatch t).sems x).waitingTasks = (s.kernel.sys.taskList, none, none) := by
    change removeFromWaitQueue _ (s.sem x).waitingTasks = _
    rw [hempty]
    rfl
  simp only [semaphorePost, hremove]
  change Option.map _ (int32 ((s.sem x).count + 1)) = _
  rw [← hempty]
  rfl

/-- `semaphore_post` counts its unit when nobody waits. -/
theorem post_adds (hrep : s.Represents line) (hcall : s.CanCall t) (hline : line x = [])
    {count : Int} (hcount : int32 ((s.sem x).count + 1) = some count) :
    ∃ s₁ line₁, s.callStep (.post t x) = some s₁ ∧
      s₁.Represents line₁ ∧ SemSpec.Step (s.spec line) (.post t x) (s₁.spec line₁) := by
  obtain rfl := int32_eq_some hcount
  have hempty : (s.sem x).waitingTasks = none := by
    rw [(hrep x).head_eq, hline, List.head?_nil]
  let history : SemHistory (Fin n) := { s.history x with posts := (s.history x).posts + 1 }
  let s₁ : SemSystem n S :=
    { s with
      kernel := (s.dispatch t).setSem x { s.sem x with count := (s.sem x).count + 1 }
      history := Function.update s.history x history }
  obtain ⟨hrep₁, hspec⟩ := set_refines s₁ hrep rfl rfl rfl rfl rfl
  refine ⟨s₁, line, ?_, hrep₁, ?_⟩
  · have hpost : semaphorePost (s.dispatch t) (some x) = some s₁.kernel := by
      rw [post_of_nil hrep hline, hcount]
      rfl
    simp only [callStep, if_pos hcall, hpost, Option.map_some, hempty, Option.toList_none,
      List.append_nil]
    rfl
  · rw [hspec]
    exact .postAdds hcall hline

/-- `semaphore_post` hands its unit to the first in line. -/
theorem post_hands (hrep : s.Represents line) (hinv : (s.spec line).Inv initial)
    (hcall : s.CanCall t) {w : Fin n} {rest : List (Fin n)} (hline : line x = w :: rest) :
    ∃ s₁ line₁, s.callStep (.post t x) = some s₁ ∧
      s₁.Represents line₁ ∧ SemSpec.Step (s.spec line) (.post t x) (s₁.spec line₁) := by
  have hqueued : Queued (s.dispatch t).sys.taskList (s.sem x).waitingTasks (line x) := hrep x
  rcases remove_from_wait_queue_spec hqueued with
    ⟨hnil, -⟩ | ⟨w', rest', tasks, head, hcons, hremove, hq, hstate, hlinks⟩
  · cases hline.symm.trans hnil
  · obtain ⟨rfl, rfl⟩ := List.cons.inj (hline.symm.trans hcons)
    have hfirst : (s.sem x).waitingTasks = some w := by
      rw [(hrep x).head_eq, hline, List.head?_cons]
    let s₁ : SemSystem n S :=
      { s with
        kernel :=
          { (s.dispatch t).setSem x { s.sem x with waitingTasks := head } with
            sys := TaskSys.setState { (s.dispatch t).sys with taskList := tasks } w .ready }
        history := Function.update s.history x
          { s.history x with
            posts := (s.history x).posts + 1
            grantedOrder := (s.history x).grantedOrder ++ [w] } }
    have hnext : ∀ u, (s₁.task u).nextWait = (tasks u).nextWait := fun u =>
      setState_nextWait _ w u .ready
    refine ⟨s₁, Function.update line x rest, ?_, ?_, ?_⟩
    · have hpost : semaphorePost (s.dispatch t) (some x) = some s₁.kernel := by
        have hremove' : removeFromWaitQueue (s.dispatch t).sys.taskList
            ((s.dispatch t).sems x).waitingTasks = (tasks, head, some w) := hremove
        simp only [semaphorePost, hremove', taskResume_setState_ready]
        rfl
      simp only [callStep, if_pos hcall, hpost, Option.map_some, hfirst, Option.toList_some]
      rfl
    · refine hrep.update rfl (hq.frame fun u _ => hnext u) fun y hy u hu => ?_
      -- The task that leaves the line of `x` stands in no other.
      have huw : u ≠ w := by
        rintro rfl
        exact hy (line_disjoint hinv hu (by rw [hline]; exact List.mem_cons_self))
      rw [hnext u, hlinks u huw]
      rfl
    · have hunits : (s₁.spec (Function.update line x rest)).units =
          ((s.spec line).handOff x w rest).units :=
        units_update { s.sem x with waitingTasks := head } rfl rfl
      have hstates : (s₁.spec (Function.update line x rest)).state =
          ((s.spec line).handOff x w rest).state := by
        funext u
        have := hstate u
        by_cases hu : u = w
        · subst hu
          simp [SemSpec.handOff, spec, task, s₁, setState_state]
        · simpa [SemSpec.handOff, SemSpec.set, spec, task, s₁, dispatch, setState_state, hu]
            using this
      have hspec : s₁.spec (Function.update line x rest) = (s.spec line).handOff x w rest :=
        SemSpec.ext hstates rfl hunits
      rw [hspec]
      exact .postHands hcall hline

/-- The calls a task may make now. A post needs room for its unit in `count`. -/
def Enabled (s : SemSystem n S) : SemCall (Fin n) S → Prop
  | .wait t _ | .trywait t _ => s.CanCall t
  | .post t x => s.CanCall t ∧ (s.sem x).count < 2 ^ 31 - 1
  | .wake t => (s.task t).state = .ready ∧ (s.pending t).isSome

/-- A call that may be made returns or yields: it does not fault or overflow, and its walk
along the queue ends. -/
theorem callStep_of_enabled (hrep : s.Represents line) (hinv : (s.spec line).Inv initial)
    {c : SemCall (Fin n) S} (h : s.Enabled c) : ∃ s₁ line₁, s.callStep c = some s₁ ∧
      s₁.Represents line₁ ∧ SemSpec.Step (s.spec line) c (s₁.spec line₁) := by
  cases c with
  | wait t x => exact wait_refines hrep hinv h
  | trywait t x => exact trywait_refines hrep h
  | post t x =>
    cases hline : line x with
    | nil =>
      have hnonneg : 0 ≤ (s.sem x).count := (hinv.kept x).nonneg
      have hcount : int32 ((s.sem x).count + 1) = some ((s.sem x).count + 1) := by
        have := h.2
        rw [int32, if_pos (by omega)]
      exact post_adds hrep h.1 hline hcount
    | cons w rest => exact post_hands hrep hinv h.1 hline
  | wake t =>
    obtain ⟨x, hp⟩ := Option.isSome_iff_exists.mp h.2
    exact ⟨_, line, if_pos h, hrep, .wake h.1 hp⟩

/-- **Each call is a move of the semaphores.** -/
theorem callStep_refines (hrep : s.Represents line) (hinv : (s.spec line).Inv initial)
    {c : SemCall (Fin n) S} (h : s.callStep c = some s') :
    ∃ line', s'.Represents line' ∧ SemSpec.Step (s.spec line) c (s'.spec line') := by
  have hmove : ∃ s₁ line₁, s.callStep c = some s₁ ∧ s₁.Represents line₁ ∧
      SemSpec.Step (s.spec line) c (s₁.spec line₁) := by
    cases c with
    | wait t x => exact wait_refines hrep hinv (Option.ite_none_right_eq_some.mp h).1
    | trywait t x => exact trywait_refines hrep (Option.ite_none_right_eq_some.mp h).1
    | wake t => exact callStep_of_enabled hrep hinv (Option.ite_none_right_eq_some.mp h).1
    | post t x =>
      obtain ⟨hcall, hpost⟩ := Option.ite_none_right_eq_some.mp h
      cases hline : line x with
      | cons w rest => exact post_hands hrep hinv hcall hline
      | nil =>
        -- A post that was made found room for its unit.
        obtain ⟨k, hk, -⟩ := Option.map_eq_some_iff.mp hpost
        rw [post_of_nil hrep hline] at hk
        obtain ⟨count, hcount, -⟩ := Option.map_eq_some_iff.mp hk
        exact post_adds hrep hcall hline hcount
  obtain ⟨s₁, line₁, hs₁, hrep₁, hstep⟩ := hmove
  obtain rfl : s₁ = s' := Option.some.inj (hs₁.symm.trans h)
  exact ⟨line₁, hrep₁, hstep⟩

end SemSystem

end ArmKernel.Sync

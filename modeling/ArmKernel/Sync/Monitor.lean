/-
Tasks that wait on the two condition variables of one object.

`Monitor` is the task table with the two head pointers, the calls the tasks are in, and, as
history, which tasks were signalled and have not tested the object since. A task that runs
waits, signals, or goes on with its call; `Lines` ties the table to two lines of tasks.

`Wakes served` says that no wake-up is lost: when a task stands in a line and its call could
go on, some task that was signalled on this condition has yet to test. The three
`wakes_*_iff` say what is left to check after each operation.
-/
import ArmKernel.Sync.Condition

namespace ArmKernel.Sync

open ArmKernel.Support ArmKernel.Tasks

variable {n : Nat} {Call : Type}

/-- The condition variables. -/
inductive Condition where
  | notFull
  | notEmpty
deriving DecidableEq

/-- Tasks that are all ready. -/
def readyTasks (n : Nat) : TaskSys n :=
  { taskList := fun _ => Task.zeroed n, currentTask := none, idleTask := none, taskCount := n,
    stackAllocs := [], stackFrees := [] }

/-- The other condition variable. -/
def Condition.other : Condition → Condition
  | .notFull => .notEmpty
  | .notEmpty => .notFull

theorem Condition.eq_or_eq_other (c c' : Condition) : c' = c ∨ c' = c.other := by
  cases c <;> cases c' <;> simp [other]

/-- The object's `waiting_tasks`, and the tasks in a call on it. -/
structure Monitor (n : Nat) (Call : Type) where
  sys : TaskSys n
  waiting : Condition → Option (Fin n)
  calls : Fin n → Option Call
  woken : Fin n → Bool

namespace Monitor

/-- Nobody has called yet. -/
def start (sys : TaskSys n) : Monitor n Call :=
  { sys, waiting := fun _ => none, calls := fun _ => none, woken := fun _ => false }

/-- The scheduler makes `t` the current task. -/
def dispatch (m : Monitor n Call) (t : Fin n) : TaskSys n := { m.sys with currentTask := some t }

/-- `t` has tested, and is in `call` from now on. -/
def settle (m : Monitor n Call) (t : Fin n) (call : Option Call) : Monitor n Call :=
  { m with
    sys := m.dispatch t
    calls := Function.update m.calls t call
    woken := Function.update m.woken t false }

/-- `t` has tested, and waits on `c` in `call`. -/
def wait (m : Monitor n Call) (t : Fin n) (c : Condition) (call : Call) : Option (Monitor n Call) :=
  (conditionWait (m.dispatch t) (m.waiting c)).map fun (sys, queue) =>
    { m.settle t (some call) with sys, waiting := Function.update m.waiting c queue }

/-- The current task signals `c`. -/
def signal (m : Monitor n Call) (c : Condition) : Monitor n Call :=
  let (sys, queue) := conditionSignal m.sys (m.waiting c)
  { m with
    sys
    waiting := Function.update m.waiting c queue
    woken :=
      match m.waiting c with
      | some first => Function.update m.woken first true
      | none => m.woken }

variable (side : Call → Condition)

/-- `t` was signalled on `c`, and has not tested since. -/
def Woken (m : Monitor n Call) (c : Condition) (t : Fin n) : Prop :=
  m.woken t = true ∧ ∃ call, m.calls t = some call ∧ side call = c

instance (m : Monitor n Call) (c : Condition) (t : Fin n) : Decidable (m.Woken side c t) :=
  decidable_of_iff (m.woken t = true ∧ ∃ call ∈ m.calls t, side call = c) Iff.rfl

/-- **No wake-up is lost.** -/
def Wakes (m : Monitor n Call) (served : Call → Prop) : Prop :=
  ∀ c t call, InLine m.sys.taskList (m.waiting c) t → m.calls t = some call → served call →
    ∃ u, m.Woken side c u

/-- The tasks of `line c` stand in line on `c`, each in a call that waits there. -/
structure Lines (m : Monitor n Call) (line : Condition → List (Fin n)) : Prop where
  queued : ∀ c, Queued m.sys.taskList (m.waiting c) (line c)
  inCall : ∀ c, ∀ t ∈ line c, ∃ call, m.calls t = some call ∧ side call = c
  asleep : ∀ c, ∀ t ∈ line c, (m.sys.taskList t).state = .blocked
  awake : ∀ t, m.calls t ≠ none → (∀ c, t ∉ line c) → (m.sys.taskList t).state = .ready
  woken : ∀ t, m.woken t = true → m.calls t ≠ none ∧ ∀ c, t ∉ line c

section Rules

variable {side} {m : Monitor n Call} {line : Condition → List (Fin n)} {t u : Fin n}
  {c c' : Condition} {call : Call} {served : Call → Prop}

theorem lines_start (sys : TaskSys n) : Lines side (start sys) fun _ => [] where
  queued := fun _ => rfl
  inCall := by simp
  asleep := by simp
  awake := fun _ h => absurd rfl h
  woken := fun _ h => by cases h

/-- Nobody in line on `c` is in a call that could go on. -/
def Idle (m : Monitor n Call) (line : List (Fin n)) (served : Call → Prop) : Prop :=
  ∀ t ∈ line, ∀ call, m.calls t = some call → ¬ served call

/-- No wake-up is lost, told by the lines. -/
theorem Lines.wakes_iff (h : Lines side m line) :
    m.Wakes side served ↔ ∀ c, (∃ u, m.Woken side c u) ∨ Idle m (line c) served := by
  constructor
  · intro hwakes c
    by_cases hwoken : ∃ u, m.Woken side c u
    · exact .inl hwoken
    · exact .inr fun t ht call hcall hserved =>
        hwoken (hwakes c t call ((h.queued c).inLine_iff.mpr ht) hcall hserved)
  · intro hall c t call hline hcall hserved
    exact (hall c).resolve_right fun hidle =>
      hidle t ((h.queued c).inLine_iff.mp hline) call hcall hserved

theorem Lines.apart (h : Lines side m line) (hc : t ∈ line c) (hc' : t ∈ line c') : c = c' := by
  obtain ⟨call, hcall, rfl⟩ := h.inCall c t hc
  obtain ⟨call', hcall', rfl⟩ := h.inCall c' t hc'
  cases hcall.symm.trans hcall'
  rfl

/-- A task that runs stands in no line. -/
theorem Lines.notMem_of_ready (h : Lines side m line) (hready : (m.sys.taskList t).state = .ready) :
    ∀ c, t ∉ line c := fun c hmem => by
  have hblocked := h.asleep c t hmem
  rw [hready] at hblocked
  cases hblocked

/-- The tasks in line are those that sleep in a call. -/
theorem Lines.mem_iff (h : Lines side m line) :
    t ∈ line c ↔
      (m.sys.taskList t).state = .blocked ∧ ∃ call, m.calls t = some call ∧ side call = c := by
  refine ⟨fun ht => ⟨h.asleep c t ht, h.inCall c t ht⟩, ?_⟩
  rintro ⟨hblocked, call, hcall, rfl⟩
  by_contra hnot
  have hready := h.awake t (by rw [hcall]; exact Option.some_ne_none call) fun c ht => by
    obtain ⟨call', hcall', rfl⟩ := h.inCall c t ht
    cases hcall.symm.trans hcall'
    exact hnot ht
  rw [hblocked] at hready
  cases hready

/-- The head pointer is the first in line. -/
theorem Lines.waiting_eq (h : Lines side m line) (c : Condition) :
    m.waiting c = (line c).head? := by
  have hq := h.queued c
  cases hline : line c with
  | nil =>
    rw [hline] at hq
    exact hq
  | cons w rest =>
    rw [hline] at hq
    exact hq.1

theorem Lines.waiting_eq_none_iff (h : Lines side m line) (c : Condition) :
    m.waiting c = none ↔ line c = [] := by
  rw [h.waiting_eq, List.head?_eq_none_iff]

theorem Lines.inCall_of_head (h : Lines side m line) (hfirst : (line c).head? = some u) :
    ∃ call, m.calls u = some call ∧ side call = c := by
  obtain ⟨rest, hrest⟩ := List.head?_eq_some_iff.mp hfirst
  exact h.inCall c u (by rw [hrest]; exact List.mem_cons_self)

/-! Who stands in a line with a task more, or without its first. -/

theorem mem_joined (hu : u ∈ Function.update line c (line c ++ [t]) c') :
    u ∈ line c' ∨ u = t ∧ c' = c := by
  by_cases hc : c' = c
  · subst hc
    rw [Function.update_self] at hu
    simpa using hu
  · rw [Function.update_of_ne hc] at hu
    exact .inl hu

theorem mem_left (hu : u ∈ Function.update line c (line c).tail c') : u ∈ line c' := by
  by_cases hc : c' = c
  · subst hc
    rw [Function.update_self] at hu
    exact List.mem_of_mem_tail hu
  · rwa [Function.update_of_ne hc] at hu

theorem mem_left_of_ne_head (hu : u ∈ line c') (hfirst : (line c).head? ≠ some u) :
    u ∈ Function.update line c (line c).tail c' := by
  by_cases hc : c' = c
  · subst hc
    rw [Function.update_self]
    cases hline : line c' with
    | nil =>
      rw [hline] at hu
      cases hu
    | cons w rest =>
      rw [hline] at hu hfirst
      exact (List.mem_cons.mp hu).resolve_left fun huw => hfirst (by simp [huw])
  · rwa [Function.update_of_ne hc]

/-- The first in line is in no line any more. -/
theorem Lines.ne_head_of_mem_left (h : Lines side m line)
    (hu : u ∈ Function.update line c (line c).tail c') : (line c).head? ≠ some u := by
  intro hfirst
  obtain ⟨rest, hrest⟩ := List.head?_eq_some_iff.mp hfirst
  have hfront : u ∈ line c := by
    rw [hrest]
    exact List.mem_cons_self
  obtain rfl := h.apart (mem_left hu) hfront
  rw [Function.update_self, hrest] at hu
  have hnodup := (h.queued c').nodup
  rw [hrest] at hnodup
  exact (List.nodup_cons.mp hnodup).1 hu

/-- **A test.** -/
theorem Lines.settle (h : Lines side m line) (ht : ∀ c, t ∉ line c)
    (hready : (m.sys.taskList t).state = .ready) (next : Option Call) :
    Lines side (m.settle t next) line where
  queued := h.queued
  inCall c u hu := by
    obtain ⟨call, hcall, hside⟩ := h.inCall c u hu
    refine ⟨call, ?_, hside⟩
    rw [← hcall]
    exact Function.update_of_ne (ne_of_mem_of_not_mem hu (ht c)) _ _
  asleep := h.asleep
  awake u hcall hu := by
    by_cases hut : u = t
    · rw [hut]
      exact hready
    · exact h.awake u (by simpa [Monitor.settle, hut] using hcall) hu
  woken u hu := by
    by_cases hut : u = t
    · subst hut
      simp [Monitor.settle] at hu
    · simpa [Monitor.settle, hut] using h.woken u (by simpa [Monitor.settle, hut] using hu)

theorem woken_settle {next : Option Call} :
    (m.settle t next).Woken side c u ↔ u ≠ t ∧ m.Woken side c u := by
  unfold Woken Monitor.settle
  by_cases hut : u = t
  · subst hut
    simp
  · simp [hut]

theorem idle_settle (ht : ∀ c, t ∉ line c) {next : Option Call} :
    Idle (m.settle t next) (line c) served ↔ Idle m (line c) served := by
  refine forall_congr' fun u => forall_congr' ?_
  intro hu
  have hut : u ≠ t := ne_of_mem_of_not_mem hu (ht c)
  simp [Monitor.settle, hut]

theorem Lines.idle_iff (h : Lines side m line) (c : Condition) (served : Call → Prop) :
    Idle m (line c) served ↔
      ∀ u, (m.sys.taskList u).state = .blocked → ∀ call ∈ m.calls u, side call = c →
        ¬ served call := by
  constructor
  · intro hidle u hblocked call hcall hside
    exact hidle u (h.mem_iff.mpr ⟨hblocked, call, hcall, hside⟩) call hcall
  · intro hall u hu call hcall
    obtain ⟨hblocked, call', hcall', hside⟩ := h.mem_iff.mp hu
    cases hcall.symm.trans hcall'
    exact hall u hblocked call hcall hside

theorem Lines.wakes_settle_iff (h : Lines side m line) (ht : ∀ c, t ∉ line c)
    (hready : (m.sys.taskList t).state = .ready) (next : Option Call) :
    (m.settle t next).Wakes side served ↔
      ∀ c, (∃ u, u ≠ t ∧ m.Woken side c u) ∨ Idle m (line c) served := by
  rw [(h.settle ht hready next).wakes_iff]
  refine forall_congr' fun c => or_congr ?_ (idle_settle ht)
  exact exists_congr fun u => woken_settle

/-- **A wait.** The task stands last in line. -/
theorem Lines.wait (h : Lines side m line) (ht : ∀ c, t ∉ line c) (hside : side call = c) :
    ∃ m', m.wait t c call = some m' ∧
      Lines side m' (Function.update line c (line c ++ [t])) ∧
      m'.calls = Function.update m.calls t (some call) ∧
      m'.woken = Function.update m.woken t false := by
  obtain ⟨sys', queue, hwait, hqueued, hstate, hlinks⟩ :=
    conditionWait_spec (m.dispatch t) (h.queued c) (ht c) rfl
  refine ⟨_, by rw [Monitor.wait, hwait, Option.map_some], ?_, rfl, rfl⟩
  refine
    { queued := fun c' => ?_
      inCall := fun c' u hu => ?_
      asleep := fun c' u hu => ?_
      awake := fun u hcall hu => ?_
      woken := fun u hu => ?_ }
  · by_cases hc : c' = c
    · subst hc
      simpa using hqueued
    · simp only [Function.update_of_ne hc]
      refine (h.queued c').frame fun u hu => hlinks u (ne_of_mem_of_not_mem hu (ht c')) ?_
      exact fun hu' => hc (h.apart hu hu')
  · rcases mem_joined hu with hu | ⟨rfl, rfl⟩
    · obtain ⟨call', hcall, hside'⟩ := h.inCall c' u hu
      refine ⟨call', ?_, hside'⟩
      rw [← hcall]
      exact Function.update_of_ne (ne_of_mem_of_not_mem hu (ht c')) _ _
    · exact ⟨call, Function.update_self .., hside⟩
  · show (sys'.taskList u).state = .blocked
    rw [hstate u]
    rcases mem_joined hu with hu | ⟨rfl, -⟩
    · rw [if_neg (ne_of_mem_of_not_mem hu (ht c'))]
      exact h.asleep c' u hu
    · rw [if_pos rfl]
  · have hut : u ≠ t := by
      rintro rfl
      exact hu c (by simp)
    have hold : ∀ c', u ∉ line c' := fun c' hmem' => by
      by_cases hc : c' = c
      · subst hc
        exact hu c' (by simp [hmem'])
      · exact hu c' (by simpa [hc] using hmem')
    show (sys'.taskList u).state = .ready
    rw [hstate u, if_neg hut]
    exact h.awake u (by simpa [Monitor.settle, hut] using hcall) hold
  · by_cases hut : u = t
    · subst hut
      simp [Monitor.settle] at hu
    · obtain ⟨hcall, hold⟩ := h.woken u (by simpa [Monitor.settle, hut] using hu)
      refine ⟨by simpa [Monitor.settle, hut] using hcall, fun c' hmem' => ?_⟩
      rcases mem_joined hmem' with hmem' | ⟨rfl, -⟩
      · exact hold c' hmem'
      · exact hut rfl

theorem Lines.wakes_wait_iff (served : Call → Prop) (h : Lines side m line)
    (ht : ∀ c, t ∉ line c) (hside : side call = c) :
    ∃ m', m.wait t c call = some m' ∧
      Lines side m' (Function.update line c (line c ++ [t])) ∧
      (m'.Wakes side served ↔ ∀ c', (∃ u, u ≠ t ∧ m.Woken side c' u) ∨
        Idle m (line c') served ∧ (c' = c → ¬ served call)) := by
  obtain ⟨m', hwait, hlines, hcalls, hwoken⟩ := h.wait ht hside
  refine ⟨m', hwait, hlines, ?_⟩
  have hsame : ∀ c' u, m'.Woken side c' u ↔ u ≠ t ∧ m.Woken side c' u := by
    intro c' u
    unfold Woken
    rw [hcalls, hwoken]
    by_cases hut : u = t
    · subst hut
      simp
    · simp [hut]
  have hidle : ∀ c', Idle m' (line c') served ↔ Idle m (line c') served := fun c' => by
    refine forall_congr' fun u => forall_congr' ?_
    intro hu
    rw [hcalls, Function.update_of_ne (ne_of_mem_of_not_mem hu (ht c'))]
  rw [hlines.wakes_iff]
  refine forall_congr' fun c' => or_congr (exists_congr fun u => hsame c' u) ?_
  rw [← hidle c']
  by_cases hc : c' = c
  · subst hc
    rw [Function.update_self]
    constructor
    · intro hall
      exact ⟨fun u hu => hall u (List.mem_append_left _ hu),
        fun _ => hall t (List.mem_append_right _ List.mem_cons_self) call (by rw [hcalls]; simp)⟩
    · rintro ⟨hall, hnot⟩ u hu call' hcall
      rcases List.mem_append.mp hu with hu | hu
      · exact hall u hu call' hcall
      · obtain rfl := List.mem_singleton.mp hu
        rw [hcalls, Function.update_self] at hcall
        cases hcall
        exact hnot rfl
  · rw [Function.update_of_ne hc]
    exact (and_iff_left fun hcc => absurd hcc hc).symm

theorem calls_signal : (m.signal c).calls = m.calls := rfl

/-- Who has yet to test after a signal. -/
theorem Lines.woken_signal (h : Lines side m line) (c : Condition) (u : Fin n) :
    (m.signal c).woken u = (m.woken u || decide ((line c).head? = some u)) := by
  obtain ⟨sys', queue, hsignal, -⟩ := conditionSignal_spec (h.queued c)
  unfold Monitor.signal
  rw [hsignal]
  dsimp only
  rw [h.waiting_eq]
  cases (line c).head? with
  | none => simp
  | some w =>
    by_cases huw : u = w
    · subst huw
      simp
    · simp [huw, Ne.symm huw]

/-- **A signal.** The first in line is ready, and has yet to test. -/
theorem Lines.signal (h : Lines side m line) (c : Condition) :
    Lines side (m.signal c) (Function.update line c (line c).tail) := by
  obtain ⟨sys', queue, hsignal, hqueued, hstate, hlinks⟩ := conditionSignal_spec (h.queued c)
  have hsys : (m.signal c).sys = sys' := by
    unfold Monitor.signal
    rw [hsignal]
  have hwaiting : (m.signal c).waiting = Function.update m.waiting c queue := by
    unfold Monitor.signal
    rw [hsignal]
  refine
    { queued := fun c' => ?_
      inCall := fun c' u hu => h.inCall c' u (mem_left hu)
      asleep := fun c' u hu => ?_
      awake := fun u hcall hu => ?_
      woken := fun u hu => ?_ }
  · rw [hsys, hwaiting]
    by_cases hc : c' = c
    · subst hc
      simpa using hqueued
    · simp only [Function.update_of_ne hc]
      exact (h.queued c').frame fun u hu => hlinks u fun hu' => hc (h.apart hu hu')
  · rw [hsys, hstate u, if_neg (h.ne_head_of_mem_left hu)]
    exact h.asleep c' u (mem_left hu)
  · rw [hsys, hstate u]
    split
    · rfl
    · rename_i hfirst
      exact h.awake u hcall fun c' hmem => hu c' (mem_left_of_ne_head hmem hfirst)
  · rw [h.woken_signal, Bool.or_eq_true, decide_eq_true_eq] at hu
    rcases hu with hu | hfirst
    · obtain ⟨hcall, hold⟩ := h.woken u hu
      exact ⟨hcall, fun c' hmem => hold c' (mem_left hmem)⟩
    · obtain ⟨call, hcall, -⟩ := h.inCall_of_head hfirst
      refine ⟨?_, fun c' hmem => h.ne_head_of_mem_left hmem hfirst⟩
      show m.calls u ≠ none
      rw [hcall]
      exact Option.some_ne_none call

/-- After a signal on `c` only the other condition is left to check. -/
theorem Lines.wakes_signal_iff (h : Lines side m line) (c : Condition) :
    (m.signal c).Wakes side served ↔
      ∀ c', c' ≠ c → (∃ u, m.Woken side c' u) ∨ Idle m (line c') served := by
  have hcalls := @calls_signal n Call m c
  rw [(h.signal c).wakes_iff]
  have hkeep : ∀ c' u, m.Woken side c' u → (m.signal c).Woken side c' u := by
    rintro c' u ⟨hu, hcall⟩
    refine ⟨?_, hcalls ▸ hcall⟩
    rw [h.woken_signal, hu, Bool.true_or]
  constructor
  · intro hall c' hc
    refine (hall c').imp ?_ ?_
    · rintro ⟨u, hu, call, hcall, hside⟩
      refine ⟨u, ?_, call, hcalls ▸ hcall, hside⟩
      rw [h.woken_signal, Bool.or_eq_true, decide_eq_true_eq] at hu
      refine hu.resolve_right fun hfirst => hc ?_
      obtain ⟨call', hcall', hside'⟩ := h.inCall_of_head hfirst
      rw [hcalls, hcall'] at hcall
      cases hcall
      rw [← hside, ← hside']
    · intro hidle
      rwa [Function.update_of_ne hc] at hidle
  · intro hall c'
    by_cases hc : c' = c
    · subst hc
      cases hline : line c' with
      | nil =>
        right
        rw [Function.update_self]
        intro u hu
        cases hu
      | cons w rest =>
        left
        obtain ⟨call, hcall, hside⟩ := h.inCall c' w (by rw [hline]; exact List.mem_cons_self)
        refine ⟨w, ?_, call, hcalls ▸ hcall, hside⟩
        rw [h.woken_signal, hline, List.head?_cons, decide_eq_true rfl, Bool.or_true]
    · refine (hall c' hc).imp ?_ ?_
      · rintro ⟨u, hu⟩
        exact ⟨u, hkeep c' u hu⟩
      · intro hidle
        rwa [Function.update_of_ne hc]

/-- **A test with a signal to the other side.** Only the own side is left to check. -/
theorem Lines.wakes_settle_signal_iff (h : Lines side m line) (ht : ∀ c, t ∉ line c)
    (hready : (m.sys.taskList t).state = .ready) (next : Option Call) (c : Condition) :
    ((m.settle t next).signal c.other).Wakes side served ↔
      (∃ u, u ≠ t ∧ m.Woken side c u) ∨ Idle m (line c) served := by
  rw [(h.settle ht hready next).wakes_signal_iff]
  have hkeeps : ∀ c, ((∃ u, (m.settle t next).Woken side c u) ∨
      Idle (m.settle t next) (line c) served) ↔
      ((∃ u, u ≠ t ∧ m.Woken side c u) ∨ Idle m (line c) served) := fun c =>
    or_congr (exists_congr fun u => woken_settle) (idle_settle ht)
  constructor
  · intro hall
    exact (hkeeps c).mp (hall c (by cases c <;> simp [Condition.other]))
  · intro hkept c' hc
    rw [(Condition.eq_or_eq_other c c').resolve_right hc]
    exact (hkeeps c).mpr hkept

end Rules

end Monitor

end ArmKernel.Sync

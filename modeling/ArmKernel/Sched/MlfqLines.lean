/-
What the functions of the multi-level feedback queue do to its lines.

`Lines s lines` ties each queue to a list of tasks. `Framed s s'` says that only links
and records behind `scheduler_data` changed. Each function has one lemma over these:
`mlfqEnqueue_spec` and `mlfqDequeue_spec` move one task, `boostQueue_spec` and
`boostLevels_spec` are the two loops of a boost, `mlfqRemove_spec` takes a task out of
the middle of a queue, `nextFrom_spec` is the search.
-/
import ArmKernel.Sched.Mlfq

namespace ArmKernel.Sched

open ArmKernel.Support ArmKernel.Tasks MlfqSys

variable {n : Nat} {s s' s'' : MlfqSys n} {lines : Nat → List (Fin n)} {t u : Fin n} {i j : Nat}

@[simp] theorem nextOf_setNext (tasks : Fin n → Task n) (t : Fin n) (p : Option (Fin n)) :
    nextOf (setNext tasks t p) = Function.update (nextOf tasks) t p := by
  funext u
  by_cases h : u = t
  · subst h
    simp [nextOf, setNext]
  · simp [nextOf, setNext, h]

@[simp] theorem setNext_state (tasks : Fin n → Task n) (t u : Fin n) (p : Option (Fin n)) :
    (setNext tasks t p u).state = (tasks u).state := by
  by_cases h : u = t
  · subst h
    simp [setNext]
  · simp [setNext, h]

@[simp] theorem setNext_schedulerData (tasks : Fin n → Task n) (t u : Fin n)
    (p : Option (Fin n)) : (setNext tasks t p u).schedulerData = (tasks u).schedulerData := by
  by_cases h : u = t
  · subst h
    simp [setNext]
  · simp [setNext, h]

/-- What `scheduler_data` of a task points at. -/
def dataOf (s : MlfqSys n) (t : Fin n) : SchedulerData := (s.sys.taskList t).schedulerData

/-- The queue of each level holds the tasks of its line: they are linked from the head,
the tail is the last one, the count is their number. No task stands in two lines. -/
structure Lines (s : MlfqSys n) (lines : Nat → List (Fin n)) : Prop where
  chain : ∀ i < mlfqQueueCount, Chain (nextOf s.sys.taskList) (s.mlfq.queues i).head (lines i)
  tail : ∀ i < mlfqQueueCount, (s.mlfq.queues i).tail = (lines i).getLast?
  count : ∀ i < mlfqQueueCount, (s.mlfq.queues i).taskCount = (lines i).length
  apart : ∀ i < mlfqQueueCount, ∀ j < mlfqQueueCount, ∀ t ∈ lines i, t ∈ lines j → i = j

/-- States, quanta and the current task are the same. -/
structure Framed (s s' : MlfqSys n) : Prop where
  states : ∀ t, (s'.sys.taskList t).state = (s.sys.taskList t).state
  quanta : ∀ i, (s'.mlfq.queues i).timeQuantum = (s.mlfq.queues i).timeQuantum
  period : s'.mlfq.boostPeriod = s.mlfq.boostPeriod
  counter : s'.mlfq.boostCounter = s.mlfq.boostCounter
  current : s'.sys.currentTask = s.sys.currentTask

theorem Framed.refl (s : MlfqSys n) : Framed s s := ⟨fun _ => rfl, fun _ => rfl, rfl, rfl, rfl⟩

theorem Framed.trans (h : Framed s s') (h' : Framed s' s'') : Framed s s'' where
  states := fun t => (h'.states t).trans (h.states t)
  quanta := fun i => (h'.quanta i).trans (h.quanta i)
  period := h'.period.trans h.period
  counter := h'.counter.trans h.counter
  current := h'.current.trans h.current

/-! ### Records -/

theorem setParams_next (params : MlfqParams) :
    nextOf (s.setParams t params).sys.taskList = nextOf s.sys.taskList := by
  funext u
  by_cases h : u = t
  · subst h
    simp [nextOf, MlfqSys.setParams]
  · simp [nextOf, MlfqSys.setParams, modify_of_ne, h]

theorem setParams_framed (params : MlfqParams) : Framed s (s.setParams t params) := by
  refine ⟨?_, fun _ => rfl, rfl, rfl, rfl⟩
  intro u
  by_cases h : u = t
  · subst h
    simp [MlfqSys.setParams]
  · simp [MlfqSys.setParams, modify_of_ne, h]

theorem dataOf_setParams (params : MlfqParams) :
    dataOf (s.setParams t params) = Function.update (dataOf s) t (.mlfq params) := by
  funext u
  by_cases h : u = t
  · subst h
    simp [dataOf, MlfqSys.setParams]
  · simp [dataOf, MlfqSys.setParams, modify_of_ne, h]

theorem Lines.setParams (h : Lines s lines) (t : Fin n) (params : MlfqParams) :
    Lines (s.setParams t params) lines where
  chain := by
    rw [setParams_next]
    exact h.chain
  tail := h.tail
  count := h.count
  apart := h.apart

theorem params_eq_some {params : MlfqParams} :
    s.params t = some params ↔ dataOf s t = .mlfq params := by
  unfold MlfqSys.params dataOf
  cases (s.sys.taskList t).schedulerData <;> simp

/-! ### One task -/

/-- Writing one queue and the table behind it. -/
theorem setQueue_queues {tasks : Fin n → Task n} {queue : MlfqQueue n} :
    ((s.setTasks tasks).setQueue i queue).mlfq.queues j =
      if j = i then queue else s.mlfq.queues j := by
  by_cases h : j = i
  · subst h
    simp [MlfqSys.setQueue]
  · simp [MlfqSys.setQueue, MlfqSys.setTasks, h]

theorem setQueue_framed {tasks : Fin n → Task n} {queue : MlfqQueue n}
    (hstate : ∀ t, (tasks t).state = (s.sys.taskList t).state)
    (hquantum : queue.timeQuantum = (s.mlfq.queues i).timeQuantum) :
    Framed s ((s.setTasks tasks).setQueue i queue) where
  states := hstate
  quanta := by
    intro j
    rw [setQueue_queues]
    split
    · rename_i hj
      rw [hquantum, hj]
    · rfl
  period := rfl
  counter := rfl
  current := rfl

/-- A line with its queue, written in place of another. -/
theorem Lines.setQueue {tasks : Fin n → Task n} {queue : MlfqQueue n} {line : List (Fin n)}
    (h : Lines s lines) (chain : Chain (nextOf tasks) queue.head line)
    (tail : queue.tail = line.getLast?) (count : queue.taskCount = line.length)
    (fresh : ∀ j < mlfqQueueCount, j ≠ i → ∀ t ∈ line, t ∉ lines j)
    (others : ∀ j < mlfqQueueCount, j ≠ i →
      Chain (nextOf tasks) (s.mlfq.queues j).head (lines j)) :
    Lines ((s.setTasks tasks).setQueue i queue) (Function.update lines i line) where
  chain := by
    intro j hj
    rw [setQueue_queues]
    by_cases hji : j = i
    · subst hji
      rw [if_pos rfl, Function.update_self]
      exact chain
    · rw [if_neg hji, Function.update_of_ne hji]
      exact others j hj hji
  tail := by
    intro j hj
    rw [setQueue_queues]
    by_cases hji : j = i
    · subst hji
      simpa using tail
    · rw [if_neg hji, Function.update_of_ne hji]
      exact h.tail j hj
  count := by
    intro j hj
    rw [setQueue_queues]
    by_cases hji : j = i
    · subst hji
      simpa using count
    · rw [if_neg hji, Function.update_of_ne hji]
      exact h.count j hj
  apart := by
    intro j hj k hk t htj htk
    by_cases hji : j = i
    · by_cases hki : k = i
      · rw [hji, hki]
      · subst hji
        rw [Function.update_self] at htj
        rw [Function.update_of_ne hki] at htk
        exact absurd htk (fresh k hk hki t htj)
    · rw [Function.update_of_ne hji] at htj
      by_cases hki : k = i
      · subst hki
        rw [Function.update_self] at htk
        exact absurd htj (fresh j hj hji t htk)
      · rw [Function.update_of_ne hki] at htk
        exact h.apart j hj k hk t htj htk

/-- **Enqueue.** A task that stands in no line becomes the last of its line. -/
theorem mlfqEnqueue_spec (hn : n < 2 ^ 32) (h : Lines s lines) (hi : i < mlfqQueueCount)
    (ht : ∀ j < mlfqQueueCount, t ∉ lines j) :
    ∃ s', mlfqEnqueue s i (some t) = some s' ∧
      Lines s' (Function.update lines i (lines i ++ [t])) ∧ Framed s s' ∧ dataOf s' = dataOf s := by
  -- Clearing the link of the task touches no line.
  have hcleared : ∀ j < mlfqQueueCount,
      Chain (nextOf (setNext s.sys.taskList t none)) (s.mlfq.queues j).head (lines j) := by
    intro j hj
    rw [nextOf_setNext]
    exact (h.chain j hj).update (ht j hj) none
  have hnone : nextOf (setNext s.sys.taskList t none) t = none := by
    rw [nextOf_setNext, Function.update_self]
  have hcount := h.count i hi
  have htail := h.tail i hi
  rw [mlfqEnqueue, if_neg (Nat.not_le.mpr hi)]
  rcases List.eq_nil_or_concat (lines i) with hnil | ⟨l, last, hlast⟩
  · have hhead : (s.mlfq.queues i).head = none := by
      have hchain := h.chain i hi
      rwa [hnil] at hchain
    simp only [hhead]
    refine ⟨_, rfl, ?_, setQueue_framed (by simp) rfl, ?_⟩
    · apply h.setQueue
      · rw [hnil]
        exact ⟨rfl, hnone⟩
      · simp [hnil]
      · rw [hcount, hnil]
        rfl
      · intro j hj hji u hu
        rw [hnil, List.nil_append, List.mem_singleton] at hu
        subst hu
        exact ht j hj
      · exact fun j hj _ => hcleared j hj
    · funext u
      simp [dataOf, MlfqSys.setQueue, MlfqSys.setTasks]
  · rw [List.concat_eq_append] at hlast
    have hchain := hcleared i hi
    rw [hlast] at hchain htail
    rw [List.getLast?_append, List.getLast?_singleton, Option.some_or] at htail
    obtain ⟨first, hhead⟩ : ∃ first, (s.mlfq.queues i).head = some first := by
      cases l with
      | nil => exact ⟨_, hchain.1⟩
      | cons first l => exact ⟨_, hchain.1⟩
    have hnew : Chain (nextOf (setNext (setNext s.sys.taskList t none) last (some t)))
        (s.mlfq.queues i).head (l ++ [last] ++ [t]) := by
      rw [nextOf_setNext]
      exact hchain.append_fresh (by rw [← hlast]; exact ht i hi) hnone
    have hlength := hnew.length_le
    rw [Fintype.card_fin, List.length_append, ← hlast, List.length_singleton] at hlength
    simp only [hhead, htail]
    refine ⟨_, rfl, ?_, setQueue_framed (by simp) rfl, ?_⟩
    · apply h.setQueue
      · rw [hlast, ← hhead]
        exact hnew
      · simp
      · rw [hcount, List.length_append, List.length_singleton]
        exact wrap32_of_lt (by omega)
      · intro j hj hji u hu
        rcases List.mem_append.mp hu with hold | hlast'
        · exact fun hmem => hji (h.apart j hj i hi u hmem hold)
        · rw [List.mem_singleton.mp hlast']
          exact ht j hj
      · intro j hj hji
        rw [nextOf_setNext]
        apply (hcleared j hj).update
        intro hmem
        exact hji (h.apart j hj i hi last hmem (by simp [hlast]))
    · funext u
      simp [dataOf, MlfqSys.setQueue, MlfqSys.setTasks]

/-- **Dequeue.** The first task leaves the line. -/
theorem mlfqDequeue_spec (hn : n < 2 ^ 32) (h : Lines s lines) (hi : i < mlfqQueueCount)
    {rest : List (Fin n)} (hline : lines i = t :: rest) :
    ∃ s', mlfqDequeue s i = (s', some t) ∧ Lines s' (Function.update lines i rest) ∧
      Framed s s' ∧ dataOf s' = dataOf s := by
  have hchain := h.chain i hi
  have htail := h.tail i hi
  have hcount := h.count i hi
  have hlength := hchain.length_le
  rw [Fintype.card_fin] at hlength
  rw [hline] at hchain htail hcount hlength
  obtain ⟨hhead, hrest⟩ := hchain
  have htrest : t ∉ rest := by
    have hnodup := Chain.nodup (h.chain i hi)
    rw [hline] at hnodup
    exact (List.nodup_cons.mp hnodup).1
  rw [mlfqDequeue, if_neg (Nat.not_le.mpr hi)]
  simp only [hhead]
  refine ⟨_, rfl, ?_, setQueue_framed (by simp) rfl, ?_⟩
  · apply h.setQueue
    · rw [nextOf_setNext]
      exact hrest.update htrest none
    · cases rest with
      | nil =>
        have hnull : (s.sys.taskList t).next = none := hrest
        simp [hnull]
      | cons u rest =>
        have hnext : (s.sys.taskList t).next = some u := hrest.1
        rw [hnext, if_neg (by simp), htail, List.getLast?_cons_cons]
    · rw [hcount, List.length_cons]
      rw [List.length_cons] at hlength
      exact sub32_of_le (by omega) (by omega)
    · intro j hj hji u hu hmem
      exact hji (h.apart j hj i hi u hmem (by rw [hline]; exact List.mem_cons_of_mem _ hu))
    · intro j hj hji
      rw [nextOf_setNext]
      apply (h.chain j hj).update
      intro hmem
      exact hji (h.apart j hj i hi t hmem (by rw [hline]; exact List.mem_cons_self))
  · funext u
    simp [dataOf, MlfqSys.setQueue, MlfqSys.setTasks]

/-! ### The boost -/

/-- The record of a task moved to the first queue. -/
def resetData (quantum : Nat) : SchedulerData → SchedulerData
  | .mlfq params => .mlfq { params with currentQueue := 0, timeSlice := quantum }
  | data => data

/-- **One level of a boost.** Its tasks go behind those of the first queue, in order. -/
theorem boostQueue_spec (hn : n < 2 ^ 32) {line : List (Fin n)} {rounds : Nat} (h : Lines s lines)
    (hi : i < mlfqQueueCount) (hpos : i ≠ 0) (hline : lines i = line)
    (hrounds : line.length ≤ rounds) (hdata : ∀ t ∈ line, ∃ params, dataOf s t = .mlfq params) :
    ∃ s' lines', boostQueue i rounds s = some s' ∧ Lines s' lines' ∧
      lines' 0 = lines 0 ++ line ∧ lines' i = [] ∧
      (∀ j, j ≠ 0 → j ≠ i → lines' j = lines j) ∧ Framed s s' ∧
      ∀ t, dataOf s' t =
        if t ∈ line then resetData (s.mlfq.queues 0).timeQuantum (dataOf s t) else dataOf s t := by
  induction line generalizing s lines rounds with
  | nil =>
    have hhead : (s.mlfq.queues i).head = none := by
      have hchain := h.chain i hi
      rwa [hline] at hchain
    refine ⟨s, lines, ?_, h, by simp, hline, fun _ _ _ => rfl, Framed.refl s, by simp⟩
    unfold boostQueue
    rw [hhead]
  | cons t rest ih =>
    have hhead : (s.mlfq.queues i).head = some t := by
      have hchain := h.chain i hi
      rw [hline] at hchain
      exact hchain.1
    have htrest : t ∉ rest := by
      have hnodup := (h.chain i hi).nodup
      rw [hline] at hnodup
      exact (List.nodup_cons.mp hnodup).1
    obtain ⟨rounds, rfl⟩ := Nat.exists_eq_add_one_of_ne_zero (Nat.ne_zero_of_lt hrounds)
    obtain ⟨params, hparams⟩ := hdata t List.mem_cons_self
    obtain ⟨s₁, hdequeue, hlines₁, hframed₁, hdata₁⟩ := mlfqDequeue_spec hn h hi hline
    -- The task stands in no line now.
    have hfree : ∀ j < mlfqQueueCount, t ∉ Function.update lines i rest j := by
      intro j hj
      by_cases hji : j = i
      · subst hji
        rwa [Function.update_self]
      · rw [Function.update_of_ne hji]
        exact fun hmem => hji (h.apart j hj i hi t hmem (by rw [hline]; exact List.mem_cons_self))
    obtain ⟨s₃, henqueue, hlines₃, hframed₃, hdata₃⟩ :=
      mlfqEnqueue_spec hn
        (hlines₁.setParams t
          { params with currentQueue := 0, timeSlice := (s₁.mlfq.queues 0).timeQuantum })
        (i := 0) (by decide) hfree
    rw [dataOf_setParams, hdata₁, hframed₁.quanta 0] at hdata₃
    have hframed := (hframed₁.trans (setParams_framed _)).trans hframed₃
    have hline₃ : Function.update (Function.update lines i rest) 0
        (Function.update lines i rest 0 ++ [t]) i = rest := by
      rw [Function.update_of_ne hpos, Function.update_self]
    obtain ⟨s', lines', hrun, hlines', hzero, hempty, hothers, hframed', hdata'⟩ :=
      ih hlines₃ hline₃ (Nat.le_of_succ_le_succ hrounds) (by
        intro u hu
        rw [hdata₃, Function.update_of_ne (ne_of_mem_of_not_mem hu htrest)]
        exact hdata u (List.mem_cons_of_mem _ hu))
    refine ⟨s', lines', ?_, hlines', ?_, hempty, ?_, hframed.trans hframed', ?_⟩
    · unfold boostQueue
      rw [hhead]
      simp only [hdequeue]
      rw [params_eq_some.mpr (by rw [hdata₁]; exact hparams), Option.bind_some, henqueue,
        Option.bind_some, hrun]
    · rw [hzero, Function.update_self, Function.update_of_ne (Ne.symm hpos), List.append_assoc,
        List.singleton_append]
    · intro j hj hji
      rw [hothers j hj hji, Function.update_of_ne hj, Function.update_of_ne hji]
    · intro u
      rw [hdata' u, hframed.quanta 0, hdata₃]
      by_cases hut : u = t
      · subst hut
        rw [if_neg htrest, if_pos List.mem_cons_self, Function.update_self, hparams]
        rfl
      · rw [Function.update_of_ne hut]
        simp only [List.mem_cons, hut, false_or]

/-- **The levels of a boost**, one behind the other. -/
theorem boostLevels_spec (hn : n < 2 ^ 32) {levels : List Nat} (h : Lines s lines)
    (hlevels : ∀ i ∈ levels, i ≠ 0 ∧ i < mlfqQueueCount) (hnodup : levels.Nodup)
    (hdata : ∀ i ∈ levels, ∀ t ∈ lines i, ∃ params, dataOf s t = .mlfq params) :
    ∃ s' lines', levels.foldlM (fun s i => boostQueue i n s) s = some s' ∧ Lines s' lines' ∧
      lines' 0 = lines 0 ++ levels.flatMap lines ∧ (∀ i ∈ levels, lines' i = []) ∧
      (∀ j, j ≠ 0 → j ∉ levels → lines' j = lines j) ∧ Framed s s' ∧
      ∀ t, dataOf s' t =
        if t ∈ levels.flatMap lines then resetData (s.mlfq.queues 0).timeQuantum (dataOf s t)
        else dataOf s t := by
  induction levels generalizing s lines with
  | nil =>
    exact ⟨s, lines, rfl, h, by simp, by simp, fun _ _ _ => rfl, Framed.refl s, by simp⟩
  | cons i levels ih =>
    obtain ⟨hpos, hi⟩ := hlevels i List.mem_cons_self
    obtain ⟨hilevels, hnodup'⟩ := List.nodup_cons.mp hnodup
    have hlength := (h.chain i hi).length_le
    rw [Fintype.card_fin] at hlength
    obtain ⟨s₁, lines₁, hrun₁, hlines₁, hzero₁, hempty₁, hothers₁, hframed₁, hdata₁⟩ :=
      boostQueue_spec hn h hi hpos rfl hlength (hdata i List.mem_cons_self)
    -- The levels still to come are as they were.
    have hrest : ∀ j ∈ levels, lines₁ j = lines j := by
      intro j hj
      exact hothers₁ j (hlevels j (List.mem_cons_of_mem _ hj)).1 (ne_of_mem_of_not_mem hj hilevels)
    have hflat : levels.flatMap lines₁ = levels.flatMap lines := List.flatMap_congr hrest
    have hdisjoint : ∀ t ∈ levels.flatMap lines, t ∉ lines i := by
      intro t ht hti
      obtain ⟨j, hj, htj⟩ := List.mem_flatMap.mp ht
      have hjlt := (hlevels j (List.mem_cons_of_mem _ hj)).2
      exact hilevels (h.apart i hi j hjlt t hti htj ▸ hj)
    obtain ⟨s', lines', hrun, hlines', hzero, hempty, hothers, hframed, hdata'⟩ :=
      ih hlines₁ (fun j hj => hlevels j (List.mem_cons_of_mem _ hj)) hnodup' (by
        intro j hj t ht
        have htj : t ∈ levels.flatMap lines₁ := List.mem_flatMap.mpr ⟨j, hj, ht⟩
        rw [hflat] at htj
        rw [hdata₁ t, if_neg (hdisjoint t htj)]
        rw [hrest j hj] at ht
        exact hdata j (List.mem_cons_of_mem _ hj) t ht)
    refine ⟨s', lines', ?_, hlines', ?_, ?_, ?_, hframed₁.trans hframed, ?_⟩
    · rw [List.foldlM_cons, hrun₁]
      exact hrun
    · rw [hzero, hzero₁, hflat, List.flatMap_cons, List.append_assoc]
    · intro j hj
      rcases List.mem_cons.mp hj with rfl | hmem
      · rw [hothers j hpos hilevels, hempty₁]
      · exact hempty j hmem
    · intro j hj hnot
      rw [List.mem_cons, not_or] at hnot
      rw [hothers j hj hnot.2, hothers₁ j hj hnot.1]
    · intro t
      rw [hdata' t, hflat, hframed₁.quanta 0, hdata₁ t]
      by_cases hrest' : t ∈ levels.flatMap lines
      · rw [if_pos hrest', if_neg (hdisjoint t hrest'), if_pos]
        rw [List.flatMap_cons]
        exact List.mem_append_right _ hrest'
      · rw [if_neg hrest']
        simp only [List.flatMap_cons, List.mem_append, hrest', or_false]

/-- The lines after a boost: all tasks stand in the first one. -/
def boosted (lines : Nat → List (Fin n)) (i : Nat) : List (Fin n) :=
  if i = 0 then (levelsFrom 0).flatMap lines else []

theorem mem_levelsFrom {a : Nat} (ha : a ≤ mlfqQueueCount) :
    i ∈ levelsFrom a ↔ a ≤ i ∧ i < mlfqQueueCount := by
  rw [levelsFrom, List.mem_range'_1, Nat.add_sub_cancel' ha]

/-- **Boost.** Queues 1 to 7 go in order behind queue 0, with the record of every task
moved reset. -/
theorem schedulerMlfqBoost_spec (hn : n < 2 ^ 32) (h : Lines s lines)
    (hdata : ∀ i < mlfqQueueCount, ∀ t ∈ lines i, ∃ params, dataOf s t = .mlfq params) :
    ∃ s', schedulerMlfqBoost s = some s' ∧ Lines s' (boosted lines) ∧
      s'.mlfq.boostCounter = 0 ∧
      Framed { s with mlfq := { s.mlfq with boostCounter := 0 } } s' ∧
      ∀ t, dataOf s' t = if t ∈ (levelsFrom 1).flatMap lines then
        resetData (s.mlfq.queues 0).timeQuantum (dataOf s t) else dataOf s t := by
  have hlevels : ∀ i ∈ levelsFrom 1, i ≠ 0 ∧ i < mlfqQueueCount := by
    intro i hi
    obtain ⟨hlo, hhi⟩ := (mem_levelsFrom (by decide)).mp hi
    exact ⟨Nat.ne_zero_of_lt hlo, hhi⟩
  obtain ⟨s₁, lines₁, hrun, hlines₁, hzero, hempty, -, hframed, hdata₁⟩ :=
    boostLevels_spec hn h hlevels List.nodup_range' fun i hi => hdata i (hlevels i hi).2
  have hboosted : ∀ i < mlfqQueueCount, lines₁ i = boosted lines i := by
    intro i hi
    unfold boosted
    split
    · rename_i hi0
      subst hi0
      rw [hzero]
      rfl
    · rename_i hi0
      exact hempty i ((mem_levelsFrom (by decide)).mpr ⟨Nat.pos_of_ne_zero hi0, hi⟩)
  refine ⟨{ s₁ with mlfq := { s₁.mlfq with boostCounter := 0 } }, ?_, ?_, rfl, ?_, hdata₁⟩
  · rw [schedulerMlfqBoost, hrun, Option.map_some]
  · refine ⟨?_, ?_, ?_, ?_⟩
    · intro i hi
      rw [← hboosted i hi]
      exact hlines₁.chain i hi
    · intro i hi
      rw [← hboosted i hi]
      exact hlines₁.tail i hi
    · intro i hi
      rw [← hboosted i hi]
      exact hlines₁.count i hi
    · intro i hi j hj t hti htj
      rw [← hboosted i hi] at hti
      rw [← hboosted j hj] at htj
      exact hlines₁.apart i hi j hj t hti htj
  · exact ⟨hframed.states, hframed.quanta, hframed.period, rfl, hframed.current⟩

/-! ### Demotion -/

/-- The tail of a line without one of its tasks. -/
theorem getLast?_remove {before after : List (Fin n)} (hnodup : (before ++ t :: after).Nodup) :
    (if (before ++ t :: after).getLast? = some t then before.getLast?
      else (before ++ t :: after).getLast?) = (before ++ after).getLast? := by
  cases after with
  | nil => simp
  | cons u after =>
    have ht : t ∉ u :: after :=
      (List.nodup_cons.mp (List.nodup_append.mp hnodup).2.1).1
    have hlast : (before ++ t :: u :: after).getLast? = some ((u :: after).getLast (by simp)) := by
      rw [List.getLast?_append, List.getLast?_cons_cons, List.getLast?_eq_some_getLast (by simp),
        Option.some_or]
    rw [hlast, if_neg, List.getLast?_append, List.getLast?_eq_some_getLast (by simp),
      Option.some_or]
    intro heq
    exact ht (Option.some.inj heq ▸ List.getLast_mem (by simp))

/-- Taking a task out of the middle of its line. -/
theorem mlfqRemove_spec (hn : n < 2 ^ 32) (h : Lines s lines) (hi : i < mlfqQueueCount)
    {before after : List (Fin n)} (hline : lines i = before ++ t :: after) :
    Lines (mlfqRemove s i before.getLast? t) (Function.update lines i (before ++ after)) ∧
      Framed s (mlfqRemove s i before.getLast? t) ∧
      dataOf (mlfqRemove s i before.getLast? t) = dataOf s := by
  have hchain := h.chain i hi
  have hnodup := hchain.nodup
  have hlength := hchain.length_le
  rw [Fintype.card_fin] at hlength
  have htail : (if (s.mlfq.queues i).tail = some t then before.getLast?
      else (s.mlfq.queues i).tail) = (before ++ after).getLast? := by
    rw [h.tail i hi, hline]
    rw [hline] at hnodup
    exact getLast?_remove hnodup
  have hcount : sub32 (s.mlfq.queues i).taskCount 1 = (before ++ after).length := by
    have hlen : (lines i).length = (before ++ after).length + 1 := by
      rw [hline]
      simp only [List.length_append, List.length_cons, Nat.add_assoc]
    rw [h.count i hi, sub32_of_le (by omega) (by omega), hlen, Nat.add_sub_cancel]
  have hfresh : ∀ j < mlfqQueueCount, j ≠ i → ∀ u ∈ before ++ after, u ∉ lines j := by
    intro j hj hji u hu hmem
    apply hji
    apply h.apart j hj i hi u hmem
    rw [hline]
    rcases List.mem_append.mp hu with hb | ha
    · exact List.mem_append_left _ hb
    · exact List.mem_append_right _ (List.mem_cons_of_mem _ ha)
  rw [hline] at hchain
  unfold mlfqRemove
  rcases List.eq_nil_or_concat before with rfl | ⟨l, p, hp⟩
  · refine ⟨?_, setQueue_framed (fun _ => rfl) rfl, rfl⟩
    apply h.setQueue
    · exact hchain.2
    · exact htail
    · exact hcount
    · exact hfresh
    · exact fun j hj _ => h.chain j hj
  · rw [List.concat_eq_append] at hp
    subst hp
    have hlast : (l ++ [p]).getLast? = some p := by simp
    have hunlinked : Chain (nextOf (setNext s.sys.taskList p (s.sys.taskList t).next))
        (s.mlfq.queues i).head (l ++ [p] ++ after) := by
      rw [List.append_assoc, List.singleton_append, nextOf_setNext]
      rw [List.append_assoc, List.singleton_append] at hchain
      exact hchain.unlink
    rw [hlast] at htail
    simp only [hlast]
    refine ⟨?_, setQueue_framed (by simp) rfl, ?_⟩
    · apply h.setQueue
      · exact hunlinked
      · exact htail
      · exact hcount
      · exact hfresh
      · intro j hj hji
        rw [nextOf_setNext]
        apply (h.chain j hj).update
        exact hfresh j hj hji p (by simp)
    · funext u
      simp [dataOf, MlfqSys.setQueue, MlfqSys.setTasks]

/-- The level below, as far as there is one. -/
def levelBelow (i : Nat) : Nat := min (i + 1) (mlfqQueueCount - 1)

/-- **Update of a task's queue.** A task whose slice is used up goes to the end of the
line below, with the quantum of that level; the last level is its own below. -/
theorem schedulerMlfqUpdateQueue_spec (hn : n < 2 ^ 32) (h : Lines s lines) {params : MlfqParams}
    (hdata : dataOf s t = .mlfq params) (hi : params.currentQueue < mlfqQueueCount)
    (hmem : t ∈ lines params.currentQueue) (hslice : params.timeSlice = 0) :
    ∃ s' lines', schedulerMlfqUpdateQueue s (some t) = some s' ∧ Lines s' lines' ∧
      (∀ j < mlfqQueueCount, ∀ u, u ∈ lines' j ↔
        u = t ∧ j = levelBelow params.currentQueue ∨ u ≠ t ∧ u ∈ lines j) ∧
      Framed s s' ∧
      dataOf s' = Function.update (dataOf s) t (.mlfq { params with
        currentQueue := levelBelow params.currentQueue
        timeSlice := (s.mlfq.queues (levelBelow params.currentQueue)).timeQuantum }) := by
  have hq : mlfqQueueCount = 8 := rfl
  have hbelow : (if mlfqQueueCount ≤ wrap32 (params.currentQueue + 1) then mlfqQueueCount - 1
      else wrap32 (params.currentQueue + 1)) = levelBelow params.currentQueue := by
    rw [wrap32_of_lt (by omega), levelBelow]
    split <;> omega
  have hbelow_lt : levelBelow params.currentQueue < mlfqQueueCount := by
    unfold levelBelow
    omega
  obtain ⟨before, after, hline⟩ := List.append_of_mem hmem
  have hchain := h.chain _ hi
  have hnodup := hchain.nodup
  have hlength := hchain.length_le
  rw [Fintype.card_fin] at hlength
  rw [hline] at hchain hnodup hlength
  rw [List.length_append, List.length_cons] at hlength
  have hwalk : walkTo (nextOf s.sys.taskList) t n none (s.mlfq.queues params.currentQueue).head =
      some (before.getLast?.or none, some t) := hchain.walkTo_eq (by omega)
  rw [Option.or_none] at hwalk
  obtain ⟨hlines₁, hframed₁, hdata₁⟩ := mlfqRemove_spec hn h hi hline
  -- The task stands in no line in between.
  have hmem₁ : ∀ j < mlfqQueueCount, ∀ u,
      u ∈ Function.update lines params.currentQueue (before ++ after) j ↔ u ≠ t ∧ u ∈ lines j := by
    intro j hj u
    have htnot : t ∉ before ++ after := by
      have hperm : (t :: (before ++ after)).Nodup := List.perm_middle.nodup_iff.mp hnodup
      exact (List.nodup_cons.mp hperm).1
    by_cases hji : j = params.currentQueue
    · subst hji
      rw [Function.update_self, hline]
      constructor
      · intro hu
        refine ⟨ne_of_mem_of_not_mem hu htnot, ?_⟩
        rcases List.mem_append.mp hu with hb | ha
        · exact List.mem_append_left _ hb
        · exact List.mem_append_right _ (List.mem_cons_of_mem _ ha)
      · rintro ⟨hut, hu⟩
        rcases List.mem_append.mp hu with hb | ha
        · exact List.mem_append_left _ hb
        · exact List.mem_append_right _ ((List.mem_cons.mp ha).resolve_left hut)
    · rw [Function.update_of_ne hji]
      constructor
      · intro hu
        refine ⟨?_, hu⟩
        rintro rfl
        exact hji (h.apart j hj _ hi u hu hmem)
      · exact fun hu => hu.2
  obtain ⟨s', henqueue, hlines', hframed', hdata'⟩ :=
    mlfqEnqueue_spec hn
      (hlines₁.setParams t
        { params with
          currentQueue := levelBelow params.currentQueue
          timeSlice := (s.mlfq.queues (levelBelow params.currentQueue)).timeQuantum })
      hbelow_lt (fun j hj hu => ((hmem₁ j hj t).mp hu).1 rfl)
  rw [dataOf_setParams, hdata₁] at hdata'
  refine ⟨s', _, ?_, hlines', ?_, (hframed₁.trans (setParams_framed _)).trans hframed', hdata'⟩
  · have hrecord : (s.sys.taskList t).schedulerData = .mlfq params := hdata
    rw [schedulerMlfqUpdateQueue]
    simp only [hrecord]
    rw [if_pos hslice, if_neg (Nat.not_le.mpr hi), hwalk, Option.bind_some]
    simp only [hbelow, hframed₁.quanta]
    exact henqueue
  · intro j hj u
    by_cases hjb : j = levelBelow params.currentQueue
    · subst hjb
      rw [Function.update_self, List.mem_append, hmem₁ _ hj, List.mem_singleton]
      simp only [and_true]
      exact or_comm
    · rw [Function.update_of_ne hjb, hmem₁ j hj]
      simp only [hjb, and_false, false_or]

/-! ### The search -/

/-- **The search of `scheduler_mlfq_next`.** The first ready task, the lines taken one
behind the other. -/
theorem nextFrom_spec {levels : List Nat} (h : Lines s lines)
    (hlevels : ∀ i ∈ levels, i < mlfqQueueCount) :
    nextFrom s levels =
      some ((levels.flatMap lines).find? fun t => (s.sys.taskList t).state = .ready) := by
  induction levels with
  | nil => rfl
  | cons i levels ih =>
    have hi := hlevels i List.mem_cons_self
    have hlength := (h.chain i hi).length_le
    rw [Fintype.card_fin] at hlength
    rw [nextFrom, (h.chain i hi).walkFind_eq hlength, Option.bind_some, List.flatMap_cons,
      List.find?_append]
    cases (lines i).find? fun t => (s.sys.taskList t).state = .ready with
    | none => exact ih fun j hj => hlevels j (List.mem_cons_of_mem _ hj)
    | some t => rfl

end ArmKernel.Sched

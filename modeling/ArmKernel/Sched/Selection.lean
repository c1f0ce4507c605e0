/-
The choice of the next task, over whole runs under one policy.

A run creates tasks, registers them with the policy in charge, and changes their states as
the rest of the kernel does: the locks, the timer and the calls of `task.c`. `Serves k next`
says that `next` is ready, and that it is null only when no task under the policy is ready.

Two policy values have no case in `scheduler_next_task`, the fair policy takes the first
entity whatever the state of its task, and `edf_schedule` overlooks a deadline of
`UINT32_MAX`. `Healthy` is the condition under which none of this shows.
-/
import ArmKernel.Sched.FairRuns
import ArmKernel.Sched.Policies

namespace ArmKernel.Sched

open ArmKernel.Support ArmKernel.Tasks

variable {n : Nat}

/-- A call of the kernel. -/
inductive SelectAction (n : Nat) where
  | create (name : List UInt8) (entry taskExit : Word) (priority stackSize : Nat)
      (malloc : Option Nat)
  | register (t : Fin n) (malloc : Bool) (params : RealtimeParams) (now beyond : Nat)
  | enqueue (t : Fin n)
  | setState (t : Fin n) (state : TaskState)
  | sleep (ms : Nat)
  | suspend (task : Option (Fin n))
  | resume (task : Option (Fin n))
  | delete (task : Option (Fin n))
  | schedule

/-- One step. `register` is the call of the policy in charge, if it has one. -/
def selectStep (k : Kernel n) : SelectAction n → Option (Kernel n)
  | .create name entry taskExit priority stackSize malloc =>
    some { k with sys := (taskCreate k.sys name entry taskExit priority stackSize malloc).1 }
  | .register t malloc params now beyond =>
    match k.currentPolicy with
    | .mlfq => kernelStep k (.initMlfq t malloc)
    | .realtime => kernelStep k (.setRealtime t params malloc now)
    | .fair => kernelStep k (.initFair t malloc beyond)
    | .roundRobin | .priority => some k
  | .enqueue t => kernelStep k (.enqueueFair t)
  | .setState t state => some { k with sys := k.sys.setState t state }
  | .sleep ms => some { k with sys := (taskSleep k.sys ms).1 }
  | .suspend task => some { k with sys := (taskSuspend k.sys task).1 }
  | .resume task => some { k with sys := taskResume k.sys task }
  | .delete task => some { k with sys := (taskDelete k.sys task).1 }
  | .schedule => schedule k

/-- The policy in charge links the tasks themselves. -/
def LinksTasks (k : Kernel n) : Prop := k.currentPolicy = .mlfq ∨ k.currentPolicy = .realtime

/-- While tasks are linked, one is registered once, and a create that succeeds does not take its
slot while it has a record. An entity is enqueued once. -/
def Proper (k : Kernel n) : SelectAction n → Prop
  | .create _ _ _ _ _ malloc =>
    LinksTasks k → k.sys.taskCount < n → malloc ≠ none →
      ∀ i ∈ freeSlot k.sys.taskList, (k.sys.taskList i).schedulerData = .null
  | .register t malloc .. =>
    LinksTasks k → malloc = true → (k.sys.taskList t).schedulerData = .null
  | .enqueue t => k.currentPolicy = .fair ∧ ∀ e ∈ entityOf k.sys t, e ∉ k.fair.line
  | _ => True

instance (k : Kernel n) : Decidable (LinksTasks k) := inferInstanceAs (Decidable (_ ∨ _))

instance (k : Kernel n) : (a : SelectAction n) → Decidable (Proper k a)
  | .create _ _ _ _ _ malloc =>
    inferInstanceAs (Decidable (LinksTasks k → k.sys.taskCount < n → malloc ≠ none →
      ∀ i ∈ freeSlot k.sys.taskList, (k.sys.taskList i).schedulerData = .null))
  | .register t malloc .. =>
    inferInstanceAs (Decidable (LinksTasks k → malloc = true →
      (k.sys.taskList t).schedulerData = .null))
  | .enqueue t =>
    inferInstanceAs (Decidable (k.currentPolicy = .fair ∧
      ∀ e ∈ entityOf k.sys t, e ∉ k.fair.line))
  | .setState .. | .sleep _ | .suspend _ | .resume _ | .delete _ | .schedule => isTrue trivial

/-- The task is under the policy in charge. -/
def UnderPolicy (k : Kernel n) (t : Fin n) : Prop :=
  match k.currentPolicy with
  | .mlfq => typeOf k.sys t = some .mlfq
  | .realtime => typeOf k.sys t = some .realtime
  | .fair => ∃ e ∈ k.fair.line, (k.fair.entity e).task = t
  | .roundRobin | .priority => True

/-- A task is ready. -/
def Ready (k : Kernel n) (t : Fin n) : Prop := (k.sys.taskList t).state = .ready

/-- The task chosen is ready, and there is one when some task under the policy is ready. -/
def Serves (k : Kernel n) (next : Option (Fin n)) : Prop :=
  (∀ t ∈ next, Ready k t) ∧ ((∃ t, UnderPolicy k t ∧ Ready k t) → next ≠ none)

/-- `scheduler_next_task` returns such a task, and `task_schedule` makes it the current
one. -/
structure NextRunnable (k : Kernel n) : Prop where
  choice : ∃ k' next, schedulerNextTask k = some (k', next) ∧ Serves k next
  dispatch : ∃ k', schedule k = some k' ∧ Serves k' k'.sys.currentTask

/-- What the policy in charge relies on. -/
def Healthy (k : Kernel n) : Prop :=
  match k.currentPolicy with
  | .mlfq => True
  | .realtime => (∃ t, UnderPolicy k t ∧ Ready k t) → ∃ t, Earlier uint32Max (k.sys.taskList t)
  | .fair => ∀ e ∈ k.fair.line.head?, Ready k (k.fair.entity e).task
  | .roundRobin | .priority => ∀ t, ¬ Ready k t

/-! ### The invariant -/

/-- The tasks of the real-time policy are linked, each once. -/
structure RtLine (rt : Realtime n) (sys : TaskSys n) (l : List (Fin n)) : Prop where
  chain : Chain (nextOf sys.taskList) rt.rtTasks l
  members : ∀ t, t ∈ l ↔ ∃ params, (sys.taskList t).schedulerData = .realtime params

/-- What the policy in charge keeps. -/
def SelectInv (k : Kernel n) : Prop :=
  match k.currentPolicy with
  | .mlfq => ∃ lines, MlfqInv k.mlfqSys lines
  | .realtime => ∃ l, RtLine k.rt k.sys l
  | .fair => ∃ t, FairTree k.fairSys t
  | .roundRobin | .priority => True

variable {k k' : Kernel n} {sys sys' : TaskSys n} {rt : Realtime n} {l : List (Fin n)} {t : Fin n}

/-- Every task keeps its record and its link, or ends without a record; while tasks are
linked, only a task that had none may do the latter. -/
def Calm (linked : Prop) (sys sys' : TaskSys n) : Prop :=
  ∀ t, (sys'.taskList t).schedulerData = (sys.taskList t).schedulerData ∧
      (sys'.taskList t).next = (sys.taskList t).next ∨
    (sys'.taskList t).schedulerData = .null ∧ (linked → (sys.taskList t).schedulerData = .null)

theorem Calm.data {linked : Prop} (h : Calm linked sys sys') (hlinked : linked) (t : Fin n) :
    (sys'.taskList t).schedulerData = (sys.taskList t).schedulerData := by
  rcases h t with ⟨hdata, -⟩ | ⟨hnew, hold⟩
  · exact hdata
  · rw [hnew, hold hlinked]

theorem Calm.next {linked : Prop} (h : Calm linked sys sys') (hlinked : linked)
    (ht : (sys.taskList t).schedulerData ≠ .null) :
    (sys'.taskList t).next = (sys.taskList t).next := by
  rcases h t with ⟨-, hnext⟩ | ⟨-, hold⟩
  · exact hnext
  · exact absurd (hold hlinked) ht

theorem RtLine.calm {linked : Prop} (h : RtLine rt sys l) (hcalm : Calm linked sys sys')
    (hlinked : linked) : RtLine rt sys' l where
  chain := by
    apply h.chain.congr
    intro t ht
    obtain ⟨params, hparams⟩ := (h.members t).mp ht
    exact hcalm.next hlinked (by simp [hparams])
  members := by
    intro t
    rw [hcalm.data hlinked t]
    exact h.members t

/-- **Registration** with the real-time policy. -/
theorem RtLine.register (h : RtLine rt sys l) (hnull : (sys.taskList t).schedulerData = .null)
    (params : RealtimeParams) (now : Nat) :
    RtLine (schedulerSetRealtimeParams rt sys (some t) (some params) true now).1
      (schedulerSetRealtimeParams rt sys (some t) (some params) true now).2 (t :: l) := by
  have hnot : t ∉ l := by
    intro hmem
    obtain ⟨p, hp⟩ := (h.members t).mp hmem
    rw [hnull] at hp
    cases hp
  simp only [schedulerSetRealtimeParams, not_true, if_false]
  constructor
  · refine ⟨rfl, ?_⟩
    simp only [nextOf, modify_self]
    apply h.chain.congr
    intro u hu
    exact congrArg Task.next (modify_of_ne _ _ (ne_of_mem_of_not_mem hu hnot))
  · intro u
    by_cases hut : u = t
    · subst hut
      simp
    · rw [modify_of_ne _ _ hut, List.mem_cons, ← h.members u]
      exact or_iff_right hut

/-- What `edf_schedule` finds in the list. -/
theorem RtLine.edfSchedule_eq (h : RtLine rt sys l) :
    ∃ next, edfSchedule rt sys = some next ∧
      (next = none ∧ (∀ t, ¬ Earlier uint32Max (sys.taskList t)) ∨
        ∃ t, next = some t ∧ Earlier uint32Max (sys.taskList t)) := by
  have hlength := h.chain.length_le
  rw [Fintype.card_fin] at hlength
  obtain ⟨next, hrun, hnext⟩ :=
    edfFrom_spec none uint32Max h.chain (fun t ht => (h.members t).mp ht)
      hlength
  refine ⟨next, hrun, ?_⟩
  rcases hnext with ⟨rfl, hnone⟩ | ⟨t, -, rfl, hfound⟩
  · refine .inl ⟨rfl, fun t hearlier => hnone t ?_ hearlier⟩
    obtain ⟨-, params, hparams, -⟩ := hearlier
    exact (h.members t).mpr ⟨params, hparams⟩
  · exact .inr ⟨t, rfl, hfound⟩

/-! ### The choice -/

theorem selectInv_mlfq (hp : k.currentPolicy = .mlfq) :
    SelectInv k ↔ ∃ lines, MlfqInv k.mlfqSys lines := by
  rw [SelectInv, hp]

theorem selectInv_realtime (hp : k.currentPolicy = .realtime) :
    SelectInv k ↔ ∃ l, RtLine k.rt k.sys l := by
  rw [SelectInv, hp]

theorem selectInv_fair (hp : k.currentPolicy = .fair) :
    SelectInv k ↔ ∃ t, FairTree k.fairSys t := by
  rw [SelectInv, hp]

/-- The feedback queue serves whoever is ready. -/
theorem serves_mlfq (hp : k.currentPolicy = .mlfq) {lines : Nat → List (Fin n)}
    (h : MlfqInv k.mlfqSys lines) :
    ∃ next, schedulerMlfqNext k.mlfqSys = some next ∧ Serves k next := by
  refine ⟨_, nextFrom_spec h.shape fun i hi => ((mem_levelsFrom (Nat.zero_le _)).mp hi).2, ?_, ?_⟩
  · intro t ht
    have hready : (k.sys.taskList t).state = .ready :=
      of_decide_eq_true (List.find?_some (p := fun t => (k.sys.taskList t).state = .ready) ht)
    exact hready
  · rintro ⟨t, hunder, hready⟩ hnone
    rw [UnderPolicy, hp] at hunder
    have hmanaged : Managed k.mlfqSys t := by
      apply (h.plain t).resolve_left
      intro hnull
      rw [typeOf, show (k.sys.taskList t).schedulerData = .null from hnull] at hunder
      cases hunder
    obtain ⟨params, hdata⟩ := hmanaged
    obtain ⟨hlt, hmem⟩ := h.managed t params hdata
    have hlevel : params.currentQueue ∈ levelsFrom 0 :=
      (mem_levelsFrom (Nat.zero_le _)).mpr ⟨Nat.zero_le _, hlt⟩
    exact List.find?_eq_none.mp hnone t (List.mem_flatMap.mpr ⟨_, hlevel, hmem⟩)
      (decide_eq_true hready)

/-- The real-time policy serves them unless it overlooks all of them. -/
theorem serves_realtime (hp : k.currentPolicy = .realtime) (h : RtLine k.rt k.sys l) :
    ∃ next, edfSchedule k.rt k.sys = some next ∧ (Serves k next ↔ Healthy k) := by
  obtain ⟨next, hrun, hnext⟩ := h.edfSchedule_eq
  refine ⟨next, hrun, ?_⟩
  rw [Healthy, hp]
  rcases hnext with ⟨rfl, hnone⟩ | ⟨t, rfl, hfound⟩
  · constructor
    · rintro ⟨-, hserved⟩ hready
      exact absurd rfl (hserved hready)
    · intro hhealthy
      refine ⟨by simp, fun hready _ => ?_⟩
      obtain ⟨t, hearlier⟩ := hhealthy hready
      exact hnone t hearlier
  · constructor
    · exact fun _ _ => ⟨t, hfound⟩
    · intro _
      refine ⟨?_, fun _ => Option.some_ne_none t⟩
      rintro _ ⟨⟩
      exact hfound.1

/-- The fair policy serves the owner of the first entity. -/
theorem serves_fair (hp : k.currentPolicy = .fair) {tree : RbTree Nat}
    (h : FairTree k.fairSys tree) :
    ∃ next, schedulerPickNextFair k.fair = some next ∧ (Serves k next ↔ Healthy k) := by
  have hleft : leftmost k.fair = some tree.toList.head? := h.queue.leftmost_eq
  have hline : k.fair.line = tree.toList := h.line_eq
  refine ⟨_, by rw [schedulerPickNextFair, hleft, Option.map_some], ?_⟩
  rw [Healthy, hp]
  dsimp only
  rw [hline]
  cases hlist : tree.toList with
  | nil =>
    rw [hlist] at hline
    constructor
    · exact fun _ => by simp
    · intro _
      refine ⟨by simp, ?_⟩
      rintro ⟨t, hunder, -⟩
      rw [UnderPolicy, hp] at hunder
      obtain ⟨e, he, -⟩ := hunder
      rw [hline] at he
      cases he
  | cons e rest =>
    constructor
    · rintro ⟨hready, -⟩ _ ⟨⟩
      exact hready _ rfl
    · intro hhealthy
      refine ⟨?_, fun _ => Option.some_ne_none _⟩
      rintro _ ⟨⟩
      exact hhealthy e rfl

/-- **The choice.** The call returns, and serves the tasks exactly in a healthy state. -/
theorem SelectInv.next (h : SelectInv k) :
    ∃ next, nextUnderPolicy k = some next ∧ (Serves k next ↔ Healthy k) := by
  rw [nextUnderPolicy]
  cases hp : k.currentPolicy with
  | mlfq =>
    obtain ⟨lines, hinv⟩ := (selectInv_mlfq hp).mp h
    obtain ⟨next, hrun, hserves⟩ := serves_mlfq hp hinv
    refine ⟨next, hrun, ?_⟩
    rw [Healthy, hp]
    exact iff_of_true hserves trivial
  | realtime =>
    obtain ⟨l, hline⟩ := (selectInv_realtime hp).mp h
    exact serves_realtime hp hline
  | fair =>
    obtain ⟨tree, htree⟩ := (selectInv_fair hp).mp h
    exact serves_fair hp htree
  | roundRobin | priority =>
    refine ⟨none, rfl, ?_⟩
    rw [Healthy, hp]
    constructor
    · rintro ⟨-, hserved⟩ t hready
      exact hserved ⟨t, by rw [UnderPolicy, hp]; trivial, hready⟩ rfl
    · intro hidle
      refine ⟨by simp, ?_⟩
      rintro ⟨t, -, hready⟩
      exact absurd hready (hidle t)

theorem nextRunnable_iff {next : Option (Fin n)} (hnext : nextUnderPolicy k = some next) :
    NextRunnable k ↔ Serves k next := by
  constructor
  · rintro ⟨⟨k', next', hchoice, hserves⟩, -⟩
    obtain ⟨hnext', -⟩ := schedulerNextTask_spec hchoice
    rw [hnext] at hnext'
    cases hnext'
    exact hserves
  · intro hserves
    obtain ⟨⟨k₁, next₁⟩, hchoice⟩ : ∃ result, schedulerNextTask k = some result := by
      rw [schedulerNextTask, hnext]
      exact ⟨_, rfl⟩
    have hdispatch : schedule k = some { k₁ with sys := taskSchedule k₁.sys next₁ } := by
      rw [schedule, hchoice]
      rfl
    obtain ⟨next₂, stats, hnext₂, hk'⟩ := schedule_spec hdispatch
    obtain ⟨hnext₁, -⟩ := schedulerNextTask_spec hchoice
    rw [hnext] at hnext₁ hnext₂
    cases hnext₁
    cases hnext₂
    refine ⟨⟨k₁, next, hchoice, hserves⟩, _, hdispatch, ?_⟩
    rw [hk']
    exact hserves

/-! ### Steps -/

theorem calm_of_same {linked : Prop}
    (hdata : ∀ t, (sys'.taskList t).schedulerData = (sys.taskList t).schedulerData)
    (hnext : ∀ t, (sys'.taskList t).next = (sys.taskList t).next) : Calm linked sys sys' :=
  fun t => .inl ⟨hdata t, hnext t⟩

theorem calm_setState {linked : Prop} (sys : TaskSys n) (t : Fin n) (state : TaskState) :
    Calm linked sys (sys.setState t state) :=
  calm_of_same (by simp) (by simp)

theorem calm_taskSleep {linked : Prop} (sys : TaskSys n) (ms : Nat) :
    Calm linked sys (taskSleep sys ms).1 := by
  cases hcurrent : sys.currentTask with
  | none =>
    simp only [taskSleep, hcurrent]
    exact calm_of_same (fun _ => rfl) fun _ => rfl
  | some t =>
    simp only [taskSleep, hcurrent]
    intro u
    left
    by_cases hut : u = t
    · subst hut
      simp
    · rw [modify_of_ne _ _ hut]
      exact ⟨rfl, rfl⟩

theorem calm_taskSuspend {linked : Prop} (sys : TaskSys n) (task : Option (Fin n)) :
    Calm linked sys (taskSuspend sys task).1 := by
  cases task with
  | none => exact calm_of_same (fun _ => rfl) fun _ => rfl
  | some t =>
    rw [taskSuspend]
    split
    · exact calm_of_same (fun _ => rfl) fun _ => rfl
    · exact calm_setState sys t .suspended

theorem calm_taskResume {linked : Prop} (sys : TaskSys n) (task : Option (Fin n)) :
    Calm linked sys (taskResume sys task) := by
  cases task with
  | none => exact calm_of_same (fun _ => rfl) fun _ => rfl
  | some t =>
    rw [taskResume]
    split
    · exact calm_setState sys t .ready
    · exact calm_of_same (fun _ => rfl) fun _ => rfl

theorem calm_taskDelete {linked : Prop} (sys : TaskSys n) (task : Option (Fin n)) :
    Calm linked sys (taskDelete sys task).1 := by
  cases task with
  | none => exact calm_of_same (fun _ => rfl) fun _ => rfl
  | some t =>
    rw [taskDelete]
    split
    · exact calm_of_same (fun _ => rfl) fun _ => rfl
    · have hstate : Calm linked sys (sys.setState t .terminated) := calm_setState sys t _
      exact fun u => hstate u

/-- A task created has no record; its slot had none while tasks are linked. -/
theorem calm_taskCreate {linked : Prop} (name : List UInt8) (entry taskExit : Word)
    (priority stackSize : Nat) (malloc : Option Nat)
    (hfree : linked → sys.taskCount < n → malloc ≠ none →
      ∀ i ∈ freeSlot sys.taskList, (sys.taskList i).schedulerData = .null) :
    Calm linked sys (taskCreate sys name entry taskExit priority stackSize malloc).1 := by
  have hidle : Calm linked sys sys := calm_of_same (fun _ => rfl) fun _ => rfl
  rw [taskCreate]
  split
  · exact hidle
  · rename_i hroom
    split
    · exact hidle
    · rename_i i hslot
      split
      · exact hidle
      · rename_i stack
        intro t
        by_cases hti : t = i
        · subst hti
          right
          simp only [Function.update_self]
          refine ⟨rfl, fun hlinked => ?_⟩
          exact hfree hlinked (Nat.lt_of_not_le hroom) (Option.some_ne_none stack) t hslot
        · left
          simp only [Function.update_of_ne hti]
          exact ⟨trivial, trivial⟩

/-- A step that writes no structure of a policy. -/
theorem SelectInv.calm (h : SelectInv k) (hpolicy : k'.currentPolicy = k.currentPolicy)
    (hmlfq : k'.mlfq = k.mlfq) (hrt : k'.rt = k.rt) (hfair : k'.fair = k.fair)
    (hcalm : Calm (LinksTasks k) k.sys k'.sys) : SelectInv k' := by
  cases hp : k.currentPolicy with
  | mlfq =>
    have hlinked : LinksTasks k := .inl hp
    obtain ⟨lines, hinv⟩ := (selectInv_mlfq hp).mp h
    refine (selectInv_mlfq (hpolicy.trans hp)).mpr ⟨lines, hinv.congr ?_ ?_ ?_⟩
    · rintro t ⟨params, hparams⟩
      apply hcalm.next hlinked
      have hrecord : (k.sys.taskList t).schedulerData = .mlfq params := hparams
      simp [hrecord]
    · funext t
      exact hcalm.data hlinked t
    · rw [Kernel.mlfqSys, Kernel.mlfqSys, hmlfq]
  | realtime =>
    obtain ⟨l, hline⟩ := (selectInv_realtime hp).mp h
    rw [selectInv_realtime (hpolicy.trans hp), hrt]
    exact ⟨l, hline.calm hcalm (.inr hp)⟩
  | fair =>
    obtain ⟨tree, htree⟩ := (selectInv_fair hp).mp h
    have hsame : k'.fairSys = ⟨k'.sys, k.fair⟩ := by rw [Kernel.fairSys, hfair]
    rw [selectInv_fair (hpolicy.trans hp), hsame]
    refine ⟨tree, htree.shape, htree.balanced, htree.sorted, htree.bounded, ?_⟩
    intro t
    rcases hcalm t with ⟨hdata, -⟩ | ⟨hnull, -⟩
    · rw [hdata]
      exact htree.owned t
    · exact .inl hnull
  | roundRobin | priority =>
    rw [SelectInv, hpolicy, hp]
    trivial

/-- **Registration** with the policy in charge. -/
theorem SelectInv.register (hn : n < 2 ^ 32) (h : SelectInv k) {malloc : Bool}
    (params : RealtimeParams) (now beyond : Nat)
    (hproper : LinksTasks k → malloc = true → (k.sys.taskList t).schedulerData = .null) :
    ∃ k', selectStep k (.register t malloc params now beyond) = some k' ∧ SelectInv k' := by
  rw [selectStep]
  cases hp : k.currentPolicy with
  | mlfq =>
    obtain ⟨lines, hinv⟩ := (selectInv_mlfq hp).mp h
    cases malloc with
    | false => exact ⟨k, rfl, h⟩
    | true =>
      obtain ⟨s', lines', hrun, hinv', -⟩ := hinv.initTask hn (hproper (.inl hp) rfl)
      refine ⟨k.setMlfqSys s', ?_, ?_⟩
      · rw [kernelStep, hrun, Option.map_some]
      · exact (selectInv_mlfq (k := k.setMlfqSys s') hp).mpr ⟨lines', hinv'⟩
  | realtime =>
    obtain ⟨l, hline⟩ := (selectInv_realtime hp).mp h
    cases malloc with
    | false => exact ⟨k, rfl, h⟩
    | true =>
      have hline' := hline.register (hproper (.inr hp) rfl) params now
      refine ⟨_, rfl, (selectInv_realtime ?_).mpr ⟨t :: l, hline'⟩⟩
      exact hp
  | fair =>
    obtain ⟨tree, htree⟩ := (selectInv_fair hp).mp h
    refine ⟨k.setFairSys (initSchedEntity k.fairSys t malloc beyond), rfl, ?_⟩
    exact (selectInv_fair (k := k.setFairSys _) hp).mpr ⟨tree, htree.initEntity malloc beyond⟩
  | roundRobin | priority => exact ⟨k, rfl, h⟩

/-- **Enqueueing** under the fair policy. -/
theorem SelectInv.enqueue (h : SelectInv k) (hp : k.currentPolicy = .fair)
    (hproper : ∀ e ∈ entityOf k.sys t, e ∉ k.fair.line) :
    ∃ k', selectStep k (.enqueue t) = some k' ∧ SelectInv k' := by
  obtain ⟨tree, htree⟩ := (selectInv_fair hp).mp h
  have hline : k.fair.line = tree.toList := htree.line_eq
  rcases htree.owned t with hnull | ⟨e, -, hdata⟩
  · refine ⟨k, ?_, h⟩
    simp only [selectStep, kernelStep, enqueueTaskFair, hnull]
    rfl
  · have hentity : entityOf k.fairSys.sys t = some e := by
      rw [entityOf, hdata]
    have hfresh : e ∉ tree.toList := hline ▸ hproper e hentity
    obtain ⟨tree', t', hrun, htree', -⟩ := htree.enqueue hentity hfresh
    refine ⟨k.setFairSys { k.fairSys with fair := { k.fair with tree := tree' } }, ?_, ?_⟩
    · rw [selectStep, kernelStep, hrun]
      rfl
    · exact (selectInv_fair (k := k.setFairSys _) hp).mpr ⟨t', htree'⟩

/-- **Step lemma.** A proper call returns, and the invariant holds again. -/
theorem SelectInv.step (hn : n < 2 ^ 32) (h : SelectInv k) {a : SelectAction n}
    (hproper : Proper k a) : ∃ k', selectStep k a = some k' ∧ SelectInv k' := by
  cases a with
  | create name entry taskExit priority stackSize malloc =>
    exact ⟨_, rfl, h.calm rfl rfl rfl rfl
      (calm_taskCreate name entry taskExit priority stackSize malloc hproper)⟩
  | register t malloc params now beyond => exact h.register hn params now beyond hproper
  | enqueue t => exact h.enqueue hproper.1 hproper.2
  | setState t state => exact ⟨_, rfl, h.calm rfl rfl rfl rfl (calm_setState k.sys t state)⟩
  | sleep ms => exact ⟨_, rfl, h.calm rfl rfl rfl rfl (calm_taskSleep k.sys ms)⟩
  | suspend task => exact ⟨_, rfl, h.calm rfl rfl rfl rfl (calm_taskSuspend k.sys task)⟩
  | resume task => exact ⟨_, rfl, h.calm rfl rfl rfl rfl (calm_taskResume k.sys task)⟩
  | delete task => exact ⟨_, rfl, h.calm rfl rfl rfl rfl (calm_taskDelete k.sys task)⟩
  | schedule =>
    obtain ⟨next, hnext, -⟩ := h.next
    obtain ⟨k', hrun⟩ : ∃ k', schedule k = some k' := by
      rw [schedule, schedulerNextTask, hnext]
      exact ⟨_, rfl⟩
    obtain ⟨next', stats, -, rfl⟩ := schedule_spec hrun
    exact ⟨_, hrun, h.calm rfl rfl rfl rfl (calm_of_same (fun _ => rfl) fun _ => rfl)⟩

/-! ### Every run -/

theorem fresh_selectInv (k : Kernel n) (baseQuantum : Nat) (blank : Nat → SchedEntity n) :
    SelectInv (k.fresh baseQuantum blank) := by
  have hpolicy : (k.fresh baseQuantum blank).currentPolicy = k.currentPolicy := rfl
  cases hp : k.currentPolicy with
  | mlfq =>
    rw [selectInv_mlfq (hpolicy.trans hp)]
    exact ⟨_, mlfqStart_inv (k.fresh baseQuantum blank).sys k.mlfq baseQuantum⟩
  | realtime =>
    rw [selectInv_realtime (hpolicy.trans hp)]
    exact ⟨[], rfl, by simp [Kernel.fresh]⟩
  | fair =>
    rw [selectInv_fair (hpolicy.trans hp)]
    exact ⟨.leaf, (fairStart_inv (k.fresh baseQuantum blank).sys blank).tree⟩
  | roundRobin | priority =>
    rw [SelectInv, hpolicy, hp]
    trivial

/-- **The next task.** Under every policy, in every state of every proper run, the choice is
never a task that is not ready, and never null while a task under the policy is ready,
exactly when the state is healthy. -/
theorem next_runnable_iff (hn : n < 2 ^ 32) (k : Kernel n) (baseQuantum : Nat)
    (blank : Nat → SchedEntity n) (as : List (SelectAction n))
    (proper : Meets selectStep Proper (k.fresh baseQuantum blank) as) :
    Along selectStep (fun k => NextRunnable k ↔ Healthy k) (k.fresh baseQuantum blank) as := by
  have halong : Along selectStep SelectInv (k.fresh baseQuantum blank) as := by
    apply along_of_meets _ (fresh_selectInv k baseQuantum blank) proper
    intro k a k' h hproper hstep
    obtain ⟨k'', hrun, hinv⟩ := h.step hn hproper
    rw [hstep] at hrun
    cases hrun
    exact hinv
  apply halong.mono
  intro k h
  obtain ⟨next, hnext, hserves⟩ := h.next
  exact (nextRunnable_iff hnext).trans hserves

/-- Two ready tasks under the policy given, none registered. -/
def twoTasksUnder (policy : SchedulerPolicy) : Kernel 2 :=
  { twoTaskKernel with currentPolicy := policy }

/-- Both tasks are in the fair tree. -/
def bothEnqueued : List (SelectAction 2) :=
  let first : Fin 2 := ⟨0, Nat.zero_lt_two⟩
  [.register first true hundredTicks 0 1, .enqueue first, .register (.last 1) true hundredTicks 0 1,
    .enqueue (.last 1), .schedule]

theorem next_runnable_iff_run :
    Meets selectStep Proper ((twoTasksUnder .fair).fresh 1 fun _ => blankEntity) bothEnqueued ∧
      Along selectStep (fun k => NextRunnable k ↔ Healthy k)
        ((twoTasksUnder .fair).fresh 1 fun _ => blankEntity) bothEnqueued :=
  ⟨by decide, next_runnable_iff (by decide) _ 1 (fun _ => blankEntity) bothEnqueued (by decide)⟩

/-- The first in the tree is suspended; the second is ready. -/
def firstSuspended : List (SelectAction 2) :=
  bothEnqueued ++ [.suspend (some ⟨0, Nat.zero_lt_two⟩)]

/-- A real-time task with the latest of all deadlines. -/
def latestDeadline : List (SelectAction 2) :=
  [.register (.last 1) true { hundredTicks with deadline := uint32Max } 0 1]

/-- The choice in the last state of a run. -/
theorem serves_last {s : Kernel n} {as : List (SelectAction n)} (next : Option (Fin n))
    (halong : Along selectStep NextRunnable s as) (hrun : run selectStep s as = some k)
    (hnext : nextUnderPolicy k = some next) : Serves k next :=
  (nextRunnable_iff hnext).mp (halong.last hrun)

/-- Under the priority policy nobody is chosen of two ready tasks; the fair policy chooses a
suspended one; the real-time policy overlooks a ready one. -/
theorem next_not_runnable :
    ¬ Along selectStep NextRunnable ((twoTasksUnder .priority).fresh 1 fun _ => blankEntity) [] ∧
      (Meets selectStep Proper ((twoTasksUnder .fair).fresh 1 fun _ => blankEntity) firstSuspended ∧
        ¬ Along selectStep NextRunnable
          ((twoTasksUnder .fair).fresh 1 fun _ => blankEntity) firstSuspended) ∧
      Meets selectStep Proper ((twoTasksUnder .realtime).fresh 1 fun _ => blankEntity)
          latestDeadline ∧
        ¬ Along selectStep NextRunnable
          ((twoTasksUnder .realtime).fresh 1 fun _ => blankEntity) latestDeadline := by
  refine ⟨fun halong => ?_, ⟨by decide, fun halong => ?_⟩, by decide, fun halong => ?_⟩
  · obtain ⟨-, hserved⟩ := serves_last none halong rfl rfl
    exact hserved ⟨.last 1, trivial, rfl⟩ rfl
  · obtain ⟨hready, -⟩ := serves_last (some ⟨0, Nat.zero_lt_two⟩) halong rfl rfl
    have hsuspended : TaskState.suspended = TaskState.ready := hready _ rfl
    cases hsuspended
  · obtain ⟨-, hserved⟩ := serves_last none halong rfl rfl
    exact hserved ⟨.last 1, rfl, rfl⟩ rfl

end ArmKernel.Sched

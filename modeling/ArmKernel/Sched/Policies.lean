/-
Several policies over one set of tasks.

A run mixes registrations with the three policies, changes of the policy and ticks. What a
handler is to respect is `Independent`: the records it reads are of its own type
(`Reads` lists them), and the sequences that the structures of the other policies hold are
as they were. Sequences are followed link by link (`nodeAt`), whatever shape the links are
in.

`Orderly` asks that a task is registered with one policy only, and that the current task
is one of the policy in charge, or of none, when a handler reads its record. `Apart` is the
invariant: what a policy reaches through its links has records of its type.
-/
import ArmKernel.Sched.Records
import ArmKernel.Support.Run

namespace ArmKernel.Sched

open ArmKernel.Support ArmKernel.Tasks

variable {n : Nat}

/-- A call of the scheduler, or a change by the rest of the kernel. -/
inductive KernelAction (n : Nat) where
  | initMlfq (t : Fin n) (malloc : Bool)
  | setRealtime (t : Fin n) (params : RealtimeParams) (malloc : Bool) (now : Nat)
  | initFair (t : Fin n) (malloc : Bool) (beyond : Nat)
  | enqueueFair (t : Fin n)
  | setPolicy (policy : SchedulerPolicy) (now : Nat)
  | tick (now : Nat)
  | dispatch (current : Option (Fin n))
  | setState (t : Fin n) (state : TaskState)

/-- One step. -/
def kernelStep (k : Kernel n) : KernelAction n → Option (Kernel n)
  | .initMlfq t malloc => (schedulerMlfqInitTask k.mlfqSys t malloc).map k.setMlfqSys
  | .setRealtime t params malloc now =>
    let (rt, sys) := schedulerSetRealtimeParams k.rt k.sys (some t) (some params) malloc now
    some { k with rt, sys }
  | .initFair t malloc beyond => some (k.setFairSys (initSchedEntity k.fairSys t malloc beyond))
  | .enqueueFair t => (enqueueTaskFair k.fairSys (some t)).map k.setFairSys
  | .setPolicy policy now => schedulerSetPolicy k now policy
  | .tick now => schedulerTick k now
  | .dispatch current => some { k with sys := { k.sys with currentTask := current } }
  | .setState t state => some { k with sys := k.sys.setState t state }

/-- Tasks just created, and no policy with a task. -/
def Kernel.fresh (k : Kernel n) (baseQuantum : Nat) (blank : Nat → SchedEntity n) : Kernel n :=
  { k with
    sys :=
      { k.sys with
        taskList := fun t => { k.sys.taskList t with next := none, schedulerData := .null } }
    mlfq := schedulerMlfqInit k.mlfq baseQuantum
    rt := { rtTasks := none, rtTaskCount := 0 }
    fair := .empty blank }

/-- The type of the records of a policy. -/
def policyType : SchedulerPolicy → Option RecordType
  | .mlfq => some .mlfq
  | .fair => some .fair
  | .realtime => some .realtime
  | .roundRobin | .priority => none

/-- A handler reads the record of a task as one of the type. -/
inductive Reads (k : Kernel n) : KernelAction n → Fin n → RecordType → Prop where
  /-- `enqueue_task_fair`. -/
  | enqueue {t : Fin n} : typeOf k.sys t ≠ none → Reads k (.enqueueFair t) t .fair
  /-- The three ticks read the record of the current task. -/
  | tick {t : Fin n} {now : Nat} {τ : RecordType} : k.schedulerState = .running →
    policyType k.currentPolicy = some τ → k.sys.currentTask = some t → typeOf k.sys t ≠ none →
      Reads k (.tick now) t τ
  /-- A boost reads those of the tasks it moves. -/
  | boost {t u : Fin n} {now i : Nat} : k.schedulerState = .running → k.currentPolicy = .mlfq →
    k.sys.currentTask = some u → typeOf k.sys u ≠ none → 0 < i → i < mlfqQueueCount →
      OnChain (nextOf k.sys.taskList) (k.mlfq.queues i).head t → Reads k (.tick now) t .mlfq
  /-- `scheduler_update_deadlines` reads those of the real-time tasks. -/
  | release {t : Fin n} {now : Nat} : k.schedulerState = .running → k.currentPolicy = .realtime →
    OnChain (nextOf k.sys.taskList) k.rt.rtTasks t → Reads k (.tick now) t .realtime
  /-- `scheduler_set_policy` updates the current task under the policy it leaves. -/
  | leave {t : Fin n} {policy : SchedulerPolicy} {now : Nat} {τ : RecordType} :
    policy ≠ k.currentPolicy → policyType k.currentPolicy = some τ → τ ≠ .realtime →
      k.sys.currentTask = some t → typeOf k.sys t ≠ none → Reads k (.setPolicy policy now) t τ
  /-- Or all deadlines. -/
  | leaveRealtime {t u : Fin n} {policy : SchedulerPolicy} {now : Nat} :
    policy ≠ k.currentPolicy → k.currentPolicy = .realtime → k.sys.currentTask = some u →
      OnChain (nextOf k.sys.taskList) k.rt.rtTasks t → Reads k (.setPolicy policy now) t .realtime

/-- The policy an action belongs to. -/
def actsFor (k : Kernel n) : KernelAction n → Option RecordType
  | .initMlfq .. => some .mlfq
  | .setRealtime .. => some .realtime
  | .initFair .. | .enqueueFair .. => some .fair
  | .setPolicy .. | .tick .. => policyType k.currentPolicy
  | .dispatch .. | .setState .. => none

/-- The sequences of the policies other than `τ` are the same. -/
structure OthersKept (τ : Option RecordType) (k k' : Kernel n) : Prop where
  mlfq : τ ≠ some .mlfq → ∀ i < mlfqQueueCount, ∀ hops,
    nodeAt (nextOf k'.sys.taskList) (k'.mlfq.queues i).head hops =
      nodeAt (nextOf k.sys.taskList) (k.mlfq.queues i).head hops
  realtime : τ ≠ some .realtime → ∀ hops,
    nodeAt (nextOf k'.sys.taskList) k'.rt.rtTasks hops =
      nodeAt (nextOf k.sys.taskList) k.rt.rtTasks hops
  fair : τ ≠ some .fair → k'.fair.tree.inorder k'.fair.allocated k'.fair.tree.root =
    k.fair.tree.inorder k.fair.allocated k.fair.tree.root

/-- The policies do not get in each other's way. -/
structure Independent (k : Kernel n) (a : KernelAction n) : Prop where
  reads : ∀ t τ, Reads k a t τ → typeOf k.sys t = some τ
  keeps : ∀ k', kernelStep k a = some k' → OthersKept (actsFor k a) k k'

/-- The task has a record of the type, or none yet. -/
def Fits (sys : TaskSys n) (t : Fin n) (τ : RecordType) : Prop :=
  typeOf sys t = none ∨ typeOf sys t = some τ

/-- A task is registered with one policy, and the record of the current task is only read
under its own. -/
def Orderly (k : Kernel n) : KernelAction n → Prop
  | .initMlfq t malloc => malloc = true → Fits k.sys t .mlfq
  | .setRealtime t _ malloc _ => malloc = true → Fits k.sys t .realtime
  | .initFair t malloc _ => malloc = true → Fits k.sys t .fair
  | .enqueueFair t => Fits k.sys t .fair
  | .setPolicy policy _ => policy ≠ k.currentPolicy →
    ∀ t ∈ k.sys.currentTask, ∀ τ ∈ policyType k.currentPolicy, τ ≠ .realtime → Fits k.sys t τ
  | .tick _ => k.schedulerState = .running →
    ∀ t ∈ k.sys.currentTask, ∀ τ ∈ policyType k.currentPolicy, Fits k.sys t τ
  | .dispatch _ | .setState .. => True

instance (sys : TaskSys n) (t : Fin n) (τ : RecordType) : Decidable (Fits sys t τ) :=
  inferInstanceAs (Decidable (_ ∨ _))

instance (k : Kernel n) : (a : KernelAction n) → Decidable (Orderly k a)
  | .initMlfq t malloc => inferInstanceAs (Decidable (malloc = true → Fits k.sys t .mlfq))
  | .setRealtime t _ malloc _ => inferInstanceAs (Decidable (malloc = true → Fits k.sys t .realtime))
  | .initFair t malloc _ => inferInstanceAs (Decidable (malloc = true → Fits k.sys t .fair))
  | .enqueueFair t => inferInstanceAs (Decidable (Fits k.sys t .fair))
  | .setPolicy policy _ =>
    inferInstanceAs (Decidable (policy ≠ k.currentPolicy → ∀ t ∈ k.sys.currentTask,
      ∀ τ ∈ policyType k.currentPolicy, τ ≠ .realtime → Fits k.sys t τ))
  | .tick _ =>
    inferInstanceAs (Decidable (k.schedulerState = .running → ∀ t ∈ k.sys.currentTask,
      ∀ τ ∈ policyType k.currentPolicy, Fits k.sys t τ))
  | .dispatch _ | .setState .. => isTrue trivial

/-- The list of real-time tasks reaches tasks with a real-time record. -/
structure RtClosed (rt : Realtime n) (sys : TaskSys n) : Prop where
  head : ∀ t, rt.rtTasks = some t → typeOf sys t = some .realtime
  next : ∀ t u, typeOf sys t = some .realtime → nextOf sys.taskList t = some u →
    typeOf sys u = some .realtime

/-- What a policy reaches has records of its type, and a task without a record is not
linked. -/
structure Apart (k : Kernel n) : Prop where
  mlfq : MlfqClosed k.mlfqSys
  realtime : RtClosed k.rt k.sys
  plain : ∀ t, typeOf k.sys t = none → nextOf k.sys.taskList t = none

variable {k k' : Kernel n} {sys sys' : TaskSys n} {τ σ : RecordType} {t : Fin n}

theorem Fits.eq (h : Fits sys t τ) (hsome : typeOf sys t ≠ none) : typeOf sys t = some τ :=
  h.resolve_left hsome

/-! ### What a call of one policy leaves alone -/

/-- The links of another policy's tasks stay closed. -/
theorem Within.next_closed (h : Within τ sys sys') (hσ : σ ≠ τ)
    (hclosed : ∀ t u, typeOf sys t = some σ → nextOf sys.taskList t = some u →
      typeOf sys u = some σ) :
    ∀ t u, typeOf sys' t = some σ → nextOf sys'.taskList t = some u → typeOf sys' u = some σ := by
  intro t u ht hu
  have hold := (h.foreign_iff hσ).mp ht
  rw [(h.foreign t σ hold hσ).1] at hu
  exact (h.foreign_iff hσ).mpr (hclosed t u hold hu)

/-- A sequence of another policy's tasks stays the same. -/
theorem Within.sequence (h : Within τ sys sys') (hσ : σ ≠ τ) {head : Option (Fin n)}
    (hhead : ∀ t, head = some t → typeOf sys t = some σ)
    (hclosed : ∀ t u, typeOf sys t = some σ → nextOf sys.taskList t = some u →
      typeOf sys u = some σ) (hops : Nat) :
    nodeAt (nextOf sys'.taskList) head hops = nodeAt (nextOf sys.taskList) head hops :=
  (nodeAt_congr hhead hclosed (fun t ht => (h.foreign t σ ht hσ).1) hops).1

theorem Within.plain_unlinked (h : Within τ sys sys')
    (hplain : ∀ t, typeOf sys t = none → nextOf sys.taskList t = none) :
    ∀ t, typeOf sys' t = none → nextOf sys'.taskList t = none := by
  intro t ht
  cases hold : typeOf sys t with
  | none =>
    rcases h.plain t hold with ⟨hnext, -⟩ | hown
    · rw [hnext]
      exact hplain t hold
    · rw [hown] at ht
      cases ht
  | some ρ =>
    by_cases hρ : ρ = τ
    · subst hρ
      rw [h.own t hold] at ht
      cases ht
    · rw [(h.foreign t ρ hold hρ).2] at ht
      cases ht

/-- Another policy's call keeps the multi-level feedback queue. -/
theorem MlfqClosed.kept {mlfq : Mlfq n} (h : MlfqClosed ⟨sys, mlfq⟩) (hwithin : Within τ sys sys')
    (hτ : τ ≠ .mlfq) : MlfqClosed ⟨sys', mlfq⟩ where
  head := fun i hi t ht => (hwithin.foreign_iff hτ.symm).mpr (h.head i hi t ht)
  tail := fun i hi t ht => (hwithin.foreign_iff hτ.symm).mpr (h.tail i hi t ht)
  next := hwithin.next_closed hτ.symm h.next

/-- Another policy's call keeps the real-time list. -/
theorem RtClosed.kept {rt : Realtime n} (h : RtClosed rt sys) (hwithin : Within τ sys sys')
    (hτ : τ ≠ .realtime) : RtClosed rt sys' where
  head := fun t ht => (hwithin.foreign_iff hτ.symm).mpr (h.head t ht)
  next := hwithin.next_closed hτ.symm h.next

/-- A call of the multi-level feedback queue. -/
theorem Apart.mlfqCall (h : Apart k) {s : MlfqSys n} (hstays : MlfqStays k.mlfqSys s) :
    Apart (k.setMlfqSys s) ∧ OthersKept (some .mlfq) k (k.setMlfqSys s) := by
  obtain ⟨hclosed, hwithin⟩ := hstays
  refine ⟨⟨hclosed, h.realtime.kept hwithin (by simp), hwithin.plain_unlinked h.plain⟩, ?_⟩
  refine ⟨fun hne => absurd rfl hne, ?_, fun _ => rfl⟩
  intro _ hops
  exact hwithin.sequence (by simp) h.realtime.head h.realtime.next hops

/-- A call of the real-time policy. -/
theorem Apart.realtimeCall (h : Apart k) {rt : Realtime n} (hwithin : Within .realtime k.sys sys')
    (hclosed : RtClosed rt sys') (stats : SchedulerStats) :
    Apart { k with rt, sys := sys', stats } ∧
      OthersKept (some .realtime) k { k with rt, sys := sys', stats } := by
  refine ⟨⟨h.mlfq.kept hwithin (by simp), hclosed, hwithin.plain_unlinked h.plain⟩, ?_⟩
  refine ⟨?_, fun hne => absurd rfl hne, fun _ => rfl⟩
  intro _ i hi hops
  exact hwithin.sequence (by simp) (h.mlfq.head i hi) h.mlfq.next hops

/-- A call of the fair policy. -/
theorem Apart.fairCall (h : Apart k) {s : FairSys n} (hwithin : Within .fair k.sys s.sys) :
    Apart (k.setFairSys s) ∧ OthersKept (some .fair) k (k.setFairSys s) := by
  refine ⟨⟨h.mlfq.kept hwithin (by simp), h.realtime.kept hwithin (by simp),
    hwithin.plain_unlinked h.plain⟩, ?_⟩
  refine ⟨?_, ?_, fun hne => absurd rfl hne⟩
  · intro _ i hi hops
    exact hwithin.sequence (by simp) (h.mlfq.head i hi) h.mlfq.next hops
  · intro _ hops
    exact hwithin.sequence (by simp) h.realtime.head h.realtime.next hops

/-- A step that touches no link, no record and no structure. -/
theorem Apart.idle (h : Apart k) (hnext : nextOf k'.sys.taskList = nextOf k.sys.taskList)
    (htype : typeOf k'.sys = typeOf k.sys) (hmlfq : k'.mlfq = k.mlfq) (hrt : k'.rt = k.rt)
    (hfair : k'.fair = k.fair) (τ : Option RecordType) : Apart k' ∧ OthersKept τ k k' := by
  have hwithin : Within .fair k.sys k'.sys := within_of_links htype fun t _ => congrFun hnext t
  refine ⟨⟨?_, ?_, hwithin.plain_unlinked h.plain⟩,
    ⟨?_, ?_, ?_⟩⟩
  · rw [Kernel.mlfqSys, hmlfq]
    exact h.mlfq.kept hwithin (by simp)
  · rw [hrt]
    exact h.realtime.kept hwithin (by simp)
  · intro _ i hi hops
    rw [hnext, hmlfq]
  · intro _ hops
    rw [hnext, hrt]
  · intro _
    rw [hfair]

/-! ### The calls of the policies -/

theorem initSchedEntity_within {s : FairSys n} {malloc : Bool} {beyond : Nat}
    (hfits : malloc = true → Fits s.sys t .fair) :
    Within .fair s.sys (initSchedEntity s t malloc beyond).sys := by
  cases malloc with
  | false => exact Within.refl _ _
  | true =>
    exact within_modify (f := fun task => { task with schedulerData := .fair s.fair.allocated }) rfl
      (hfits rfl)

/-- The other functions of the fair policy write entities only. -/
theorem enqueueTaskFair_sys {s s' : FairSys n} {task : Option (Fin n)}
    (hrun : enqueueTaskFair s task = some s') : s'.sys = s.sys := by
  unfold enqueueTaskFair at hrun
  split at hrun
  · cases hrun
    rfl
  · split at hrun
    · cases hrun
      rfl
    · obtain ⟨fair, -, rfl⟩ := Option.map_eq_some_iff.mp hrun
      rfl
    · cases hrun

theorem schedulerUpdateVruntime_sys {s s' : FairSys n} {now : Nat} {task : Option (Fin n)}
    (hrun : schedulerUpdateVruntime s now task = some s') : s'.sys = s.sys := by
  unfold schedulerUpdateVruntime at hrun
  split at hrun
  · cases hrun
    rfl
  · split at hrun
    · cases hrun
      rfl
    · split at hrun <;> cases hrun
      rfl
    · cases hrun

theorem schedulerFairTick_sys {s s' : FairSys n} {now : Nat} {yields : Bool}
    (hrun : schedulerFairTick s now = some (s', yields)) : s'.sys = s.sys := by
  unfold schedulerFairTick at hrun
  split at hrun
  · cases hrun
    rfl
  · split at hrun
    · cases hrun
      rfl
    · obtain ⟨s₁, hupdate, hrest⟩ := Option.bind_eq_some_iff.mp hrun
      obtain ⟨least, -, hpreempt⟩ := Option.bind_eq_some_iff.mp hrest
      have hsys := schedulerUpdateVruntime_sys hupdate
      dsimp only at hpreempt
      split at hpreempt
      · obtain ⟨s₂, henqueue, heq⟩ := Option.map_eq_some_iff.mp hpreempt
        cases heq
        exact (enqueueTaskFair_sys henqueue).trans hsys
      · cases hpreempt
        exact hsys
    · cases hrun

theorem schedulerSetRealtimeParams_closed {rt : Realtime n} (h : RtClosed rt sys)
    (params : RealtimeParams) (now : Nat) {malloc : Bool}
    (hfits : malloc = true → Fits sys t .realtime) :
    Within .realtime sys (schedulerSetRealtimeParams rt sys (some t) (some params) malloc now).2 ∧
      RtClosed (schedulerSetRealtimeParams rt sys (some t) (some params) malloc now).1
        (schedulerSetRealtimeParams rt sys (some t) (some params) malloc now).2 := by
  cases malloc with
  | false => exact ⟨Within.refl _ _, h⟩
  | true =>
    let f : Task n → Task n := fun task =>
      { task with
        schedulerData := .realtime { params with nextRelease := wrap32 (now + params.period) }
        next := rt.rtTasks }
    have hwithin : Within .realtime sys (sys.modify t f) := within_modify rfl (hfits rfl)
    have hself : typeOf (sys.modify t f) t = some .realtime := by
      rw [typeOf, modify_self]
      rfl
    refine ⟨hwithin, ⟨?_, ?_⟩⟩
    · rintro u ⟨⟩
      exact hself
    · intro u v hu huv
      by_cases hut : u = t
      · subst hut
        have hlink : rt.rtTasks = some v := by
          have hnext : nextOf (sys.modify u f).taskList u = some v := huv
          rwa [nextOf, modify_self] at hnext
        exact hwithin.own v (h.head v hlink)
      · have hsame : (sys.modify t f).taskList u = sys.taskList u := modify_of_ne _ _ hut
        have hu' : typeOf (sys.modify t f) u = some .realtime := hu
        have huv' : nextOf (sys.modify t f).taskList u = some v := huv
        rw [typeOf, hsame] at hu'
        rw [nextOf, hsame] at huv'
        exact hwithin.own v (h.next u v hu' huv')

theorem recordType_refresh (now : Nat) (task : Task n) :
    recordType (refresh now task).schedulerData = recordType task.schedulerData := by
  unfold refresh
  split
  · rename_i params hdata
    unfold release
    split
    · rw [hdata]
      rfl
    · rfl
  · rfl

/-- The release loop keeps links and types. -/
theorem schedulerUpdateDeadlines_links {rt : Realtime n} {now : Nat}
    (hrun : schedulerUpdateDeadlines rt sys now = some sys') :
    nextOf sys'.taskList = nextOf sys.taskList ∧ typeOf sys' = typeOf sys ∧
      sys'.currentTask = sys.currentTask := by
  obtain ⟨l, -, rfl⟩ := update_deadlines_spec hrun
  refine ⟨?_, ?_, rfl⟩
  · funext t
    dsimp only [nextOf]
    split
    · exact refresh_next now _
    · rfl
  · funext t
    dsimp only [typeOf]
    split
    · exact recordType_refresh now _
    · rfl

/-- So does the tick of the real-time policy. -/
theorem schedulerRtTick_links {rt : Realtime n} {now missed : Nat} {yields : Bool}
    (hrun : schedulerRtTick rt sys now = some (yields, sys', missed)) :
    nextOf sys'.taskList = nextOf sys.taskList ∧ typeOf sys' = typeOf sys := by
  obtain ⟨sys₁, hdeadlines, hrest⟩ := Option.bind_eq_some_iff.mp hrun
  obtain ⟨hnext, htype, -⟩ := schedulerUpdateDeadlines_links hdeadlines
  dsimp only at hrest
  split at hrest
  · cases hrest
    exact ⟨hnext, htype⟩
  · rename_i t hcurrent
    split at hrest
    · cases hrest
      exact ⟨hnext, htype⟩
    · rename_i params hdata
      cases hrest
      refine ⟨Eq.trans ?_ hnext, Eq.trans ?_ htype⟩
      · funext u
        by_cases hut : u = t
        · subst hut
          simp [nextOf]
        · simp [nextOf, modify_of_ne, hut]
      · funext u
        by_cases hut : u = t
        · subst hut
          simp [typeOf, hdata, recordType]
        · simp [typeOf, modify_of_ne, hut]
    · cases hrest

/-! ### Every step -/

/-- Statistics, the policy and the state of the scheduler do not count. -/
theorem Apart.relabel (h : Apart k) (hsys : k'.sys = k.sys) (hmlfq : k'.mlfq = k.mlfq)
    (hrt : k'.rt = k.rt) : Apart k' where
  mlfq := by
    rw [Kernel.mlfqSys, hsys, hmlfq]
    exact h.mlfq
  realtime := by
    rw [hsys, hrt]
    exact h.realtime
  plain := by
    rw [hsys]
    exact h.plain

theorem OthersKept.relabel {k₁ : Kernel n} {τ : Option RecordType} (h : OthersKept τ k k')
    (hsys : k₁.sys = k'.sys) (hmlfq : k₁.mlfq = k'.mlfq) (hrt : k₁.rt = k'.rt)
    (hfair : k₁.fair = k'.fair) : OthersKept τ k k₁ := by
  obtain ⟨hm, hr, hf⟩ := h
  refine ⟨?_, ?_, ?_⟩
  · rw [hsys, hmlfq]
    exact hm
  · rw [hsys, hrt]
    exact hr
  · rw [hfair]
    exact hf

theorem Apart.tick (h : Apart k) {now : Nat} (hrun : schedulerTick k now = some k') :
    Apart k' ∧ OthersKept (policyType k.currentPolicy) k k' := by
  unfold schedulerTick at hrun
  split at hrun
  · cases hrun
    apply h.idle <;> rfl
  · dsimp only at hrun
    split at hrun
    · rename_i hpolicy
      obtain ⟨s, hs, rfl⟩ := Option.map_eq_some_iff.mp hrun
      obtain ⟨hapart, hkept⟩ := h.mlfqCall (schedulerMlfqTick_stays h.mlfq hs)
      rw [hpolicy]
      exact ⟨hapart.relabel rfl rfl rfl, hkept.relabel rfl rfl rfl rfl⟩
    · rename_i hpolicy
      obtain ⟨⟨s, yields⟩, hs, rfl⟩ := Option.map_eq_some_iff.mp hrun
      have hsys : s.sys = k.sys := schedulerFairTick_sys hs
      obtain ⟨hapart, hkept⟩ := h.fairCall (s := s) (by rw [hsys]; exact Within.refl _ _)
      rw [hpolicy]
      exact ⟨hapart.relabel rfl rfl rfl, hkept.relabel rfl rfl rfl rfl⟩
    · rename_i hpolicy
      obtain ⟨⟨yields, sys, missed⟩, hs, rfl⟩ := Option.map_eq_some_iff.mp hrun
      obtain ⟨hnext, htype⟩ := schedulerRtTick_links hs
      apply h.idle
      · exact hnext
      · exact htype
      · rfl
      · rfl
      · rfl
    · cases hrun
      apply h.idle <;> rfl
    · cases hrun
      apply h.idle <;> rfl

theorem Apart.setPolicy (h : Apart k) {policy : SchedulerPolicy} {now : Nat}
    (hrun : schedulerSetPolicy k now policy = some k') :
    Apart k' ∧ OthersKept (policyType k.currentPolicy) k k' := by
  unfold schedulerSetPolicy at hrun
  split at hrun
  · obtain ⟨k₁, hleft, rfl⟩ := Option.map_eq_some_iff.mp hrun
    have hleave : Apart k₁ ∧ OthersKept (policyType k.currentPolicy) k k₁ := by
      split at hleft
      · unfold leavePolicy at hleft
        split at hleft
        · rename_i hpolicy
          obtain ⟨s, hs, rfl⟩ := Option.map_eq_some_iff.mp hleft
          rw [hpolicy]
          exact h.mlfqCall (schedulerMlfqUpdateQueue_stays h.mlfq hs)
        · rename_i hpolicy
          obtain ⟨s, hs, rfl⟩ := Option.map_eq_some_iff.mp hleft
          have hsys : s.sys = k.sys := schedulerUpdateVruntime_sys hs
          rw [hpolicy]
          exact h.fairCall (by rw [hsys]; exact Within.refl _ _)
        · obtain ⟨sys, hs, rfl⟩ := Option.map_eq_some_iff.mp hleft
          obtain ⟨hnext, htype, -⟩ := schedulerUpdateDeadlines_links hs
          apply h.idle
          · exact hnext
          · exact htype
          · rfl
          · rfl
          · rfl
        · cases hleft
          apply h.idle <;> rfl
        · cases hleft
          apply h.idle <;> rfl
      · cases hleft
        apply h.idle <;> rfl
    exact ⟨hleave.1.relabel rfl rfl rfl, hleave.2.relabel rfl rfl rfl rfl⟩
  · cases hrun
    apply h.idle <;> rfl

/-- **Step lemma.** An orderly step keeps the policies apart, and the sequences of the
others. -/
theorem Apart.step (h : Apart k) {a : KernelAction n} (hok : Orderly k a)
    (hrun : kernelStep k a = some k') : Apart k' ∧ OthersKept (actsFor k a) k k' := by
  cases a with
  | initMlfq t malloc =>
    obtain ⟨s, hs, rfl⟩ := Option.map_eq_some_iff.mp hrun
    exact h.mlfqCall (schedulerMlfqInitTask_stays h.mlfq hok (h.plain t) hs)
  | setRealtime t params malloc now =>
    cases hrun
    obtain ⟨hwithin, hclosed⟩ := schedulerSetRealtimeParams_closed h.realtime params now hok
    exact h.realtimeCall hwithin hclosed k.stats
  | initFair t malloc beyond =>
    cases hrun
    exact h.fairCall (initSchedEntity_within (s := k.fairSys) hok)
  | enqueueFair t =>
    obtain ⟨s, hs, rfl⟩ := Option.map_eq_some_iff.mp hrun
    have hsys : s.sys = k.sys := enqueueTaskFair_sys hs
    exact h.fairCall (by rw [hsys]; exact Within.refl _ _)
  | setPolicy policy now => exact h.setPolicy hrun
  | tick now => exact h.tick hrun
  | dispatch current =>
    cases hrun
    apply h.idle <;> rfl
  | setState t state =>
    cases hrun
    apply h.idle
    · funext u
      simp [nextOf]
    · funext u
      simp [typeOf]
    · rfl
    · rfl
    · rfl

/-- An orderly step reads records of the right type. -/
theorem Apart.reads (h : Apart k) {a : KernelAction n} (hok : Orderly k a)
    (hreads : Reads k a t τ) : typeOf k.sys t = some τ := by
  cases hreads with
  | enqueue hsome => exact Fits.eq hok hsome
  | tick hrunning hpolicy hcurrent hsome =>
    exact Fits.eq (hok hrunning t hcurrent τ hpolicy) hsome
  | boost _ _ _ _ _ hi hmem => exact hmem.mem_closed (h.mlfq.head _ hi) h.mlfq.next
  | release _ _ hmem => exact hmem.mem_closed h.realtime.head h.realtime.next
  | leave hne hpolicy hτ hcurrent hsome =>
    exact Fits.eq (hok hne t hcurrent τ hpolicy hτ) hsome
  | leaveRealtime _ _ _ hmem => exact hmem.mem_closed h.realtime.head h.realtime.next

theorem fresh_apart (k : Kernel n) (baseQuantum : Nat) (blank : Nat → SchedEntity n) :
    Apart (k.fresh baseQuantum blank) where
  mlfq := by
    refine ⟨?_, ?_, ?_⟩
    · intro i hi t ht
      simp [Kernel.mlfqSys, Kernel.fresh, schedulerMlfqInit, hi] at ht
    · intro i hi t ht
      simp [Kernel.mlfqSys, Kernel.fresh, schedulerMlfqInit, hi] at ht
    · intro t u _ hu
      simp [Kernel.mlfqSys, Kernel.fresh, nextOf] at hu
  realtime := by
    constructor
    · intro t ht
      simp [Kernel.fresh] at ht
    · intro t u _ hu
      simp [Kernel.fresh, nextOf] at hu
  plain := fun _ _ => rfl

/-- **Policies side by side.** In every run in which a task is registered with one policy
and the record of the current task is read under its own policy only, every call reads
records of its type and leaves the sequences of the other policies as they were. -/
theorem policies_independent (k : Kernel n) (baseQuantum : Nat) (blank : Nat → SchedEntity n)
    (as : List (KernelAction n)) (h : Each kernelStep Orderly (k.fresh baseQuantum blank) as) :
    Each kernelStep Independent (k.fresh baseQuantum blank) as := by
  apply each_of_each _ _ (fresh_apart k baseQuantum blank) h
  · intro k a hapart hok
    exact ⟨fun t τ hreads => hapart.reads hok hreads, fun k' hrun => (hapart.step hok hrun).2⟩
  · intro k a k' hapart hok hrun
    exact (hapart.step hok hrun).1

/-- Two tasks, with the fair policy in charge, as `scheduler.c` starts out. -/
def twoTaskKernel : Kernel 2 where
  sys :=
    { taskList := fun _ => Task.zeroed 2
      currentTask := none
      idleTask := none
      taskCount := 2
      stackAllocs := []
      stackFrees := [] }
  rt := { rtTasks := none, rtTaskCount := 0 }
  mlfq :=
    { queues := fun _ => { head := none, tail := none, timeQuantum := 0, taskCount := 0 }
      boostPeriod := 100
      boostCounter := 0 }
  fair := .empty fun _ =>
    { vruntime := 0, weight := 0, minGranularity := 0, execStart := 0, sumExecRuntime := 0,
      task := .last 1 }
  schedulerState := .running
  currentPolicy := .fair
  stats := { contextSwitches := 0, preemptions := 0, schedulerRuns := 0, missedDeadlines := 0 }

/-- No entity. -/
def blankEntity : SchedEntity 2 :=
  { vruntime := 0, weight := 0, minGranularity := 0, execStart := 0, sumExecRuntime := 0,
    task := .last 1 }

/-- A period of 100 ticks, 20 of them for the task. -/
def hundredTicks : RealtimeParams :=
  { period := 100, deadline := 100, execution := 20, nextRelease := 0, executionTime := 0 }

/-- One task under each of two policies, each tick under the policy of the current one. -/
def sideBySide : List (KernelAction 2) :=
  let first : Fin 2 := ⟨0, Nat.zero_lt_two⟩
  [.setRealtime first hundredTicks true 0, .initMlfq (.last 1) true, .setPolicy .mlfq 0,
    .dispatch (some (.last 1)), .tick 1, .setPolicy .realtime 1, .dispatch (some first), .tick 2]

theorem policies_independent_run :
    Each kernelStep Independent (twoTaskKernel.fresh 1 fun _ => blankEntity) sideBySide :=
  policies_independent twoTaskKernel 1 (fun _ => blankEntity) sideBySide (by decide)

/-- Two real-time tasks, of which the second is registered with the feedback queue too. -/
def registeredTwice : List (KernelAction 2) :=
  [.setRealtime ⟨0, Nat.zero_lt_two⟩ hundredTicks true 0,
    .setRealtime (.last 1) hundredTicks true 0, .initMlfq (.last 1) true]

/-- A task of the feedback queue runs while the fair policy is in charge. -/
def tickUnderFair : List (KernelAction 2) :=
  [.initMlfq (.last 1) true, .dispatch (some (.last 1)), .tick 1]

/-- The first run cuts the real-time list off behind its first task; in the second the fair
tick reads a record of the feedback queue. -/
theorem policies_clash :
    ¬ Each kernelStep Independent (twoTaskKernel.fresh 1 fun _ => blankEntity) registeredTwice ∧
      ¬ Each kernelStep Independent (twoTaskKernel.fresh 1 fun _ => blankEntity) tickUnderFair := by
  constructor
  · intro h
    obtain ⟨-, h⟩ := h
    obtain ⟨-, h⟩ := h _ rfl
    obtain ⟨hlast, -⟩ := h _ rfl
    have hkept := (hlast.keeps _ rfl).realtime (by simp [actsFor]) 1
    cases hkept
  · intro h
    obtain ⟨-, h⟩ := h
    obtain ⟨-, h⟩ := h _ rfl
    obtain ⟨hlast, -⟩ := h _ rfl
    have hread := hlast.reads (.last 1) .fair (.tick rfl rfl rfl (by decide))
    cases hread

end ArmKernel.Sched

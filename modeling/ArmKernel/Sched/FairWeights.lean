/-
The arithmetic of the fair policy (`init_sched_entity`, `scheduler_update_vruntime` and
`scheduler_set_weight` of `src/scheduler_fair.c`).

Three interfaces meet in one formula: priorities are bytes (`task_create`,
`task_set_priority`) and index `prio_to_weight`, which has 40 entries, at 20 + priority;
weights are whatever `scheduler_set_weight` is given, and divide; ticks are added up.

`weights_safe_iff` gives the calls at which this is safe: the priority is below 20, the weight
is not zero, and the virtual runtime stays below 2^64. `short_run_safe` bounds the last of
these by the number of calls.
-/
import ArmKernel.Sched.FairAccounting

namespace ArmKernel.Sched

open ArmKernel.Support ArmKernel.Tasks

variable {n : Nat}

/-- A call that gives a priority, a weight or a tick. -/
inductive WeightCall (n : Nat) where
  | create (name : List UInt8) (entry taskExit : Word) (priority stackSize : Nat)
      (malloc : Option Nat)
  | setPriority (t : Fin n) (priority : Nat)
  | initEntity (t : Fin n) (malloc : Bool) (beyond : Nat)
  | setWeight (t : Fin n) (weight : Nat)
  | updateVruntime (now : Nat) (t : Fin n)

/-- One call; `none` when it does not return. The tick counter has 32 bits. -/
def weightStep (s : FairSys n) : WeightCall n → Option (FairSys n)
  | .create name entry taskExit priority stackSize malloc =>
    some { s with sys := (taskCreate s.sys name entry taskExit priority stackSize malloc).1 }
  | .setPriority t priority => some { s with sys := taskSetPriority s.sys (some t) priority }
  | .initEntity t malloc beyond => some (initSchedEntity s t malloc beyond)
  | .setWeight t weight => schedulerSetWeight s (some t) weight
  | .updateVruntime now t =>
    if now < 2 ^ 32 then schedulerUpdateVruntime s now (some t) else none

/-- What is promised of a call. The table is read inside its bounds; an update returns, adds
exactly the weighted time to the virtual runtime of the task's entity, and makes no virtual
runtime smaller. -/
def Safe (s : FairSys n) : WeightCall n → Prop
  | .initEntity t malloc _ =>
    malloc = true → 20 + (s.sys.taskList t).priority < prioToWeight.length
  | .updateVruntime now t =>
    now < 2 ^ 32 → ∃ s', schedulerUpdateVruntime s now (some t) = some s' ∧
      (∀ e ∈ entityOf s.sys t, (s'.fair.entity e).vruntime =
        (s.fair.entity e).vruntime +
          (now - (s.fair.entity e).execStart) * 1024 / (s.fair.entity e).weight) ∧
      ∀ e, (s.fair.entity e).vruntime ≤ (s'.fair.entity e).vruntime
  | _ => True

/-- The use that is safe: entities are made for tasks of a priority below 20; an update finds a
weight that is not zero, and a virtual runtime with room for what is added. -/
def InRange (s : FairSys n) : WeightCall n → Prop
  | .initEntity t malloc _ => malloc = true → (s.sys.taskList t).priority < 20
  | .updateVruntime now t =>
    now < 2 ^ 32 → ∀ e ∈ entityOf s.sys t, (s.fair.entity e).weight ≠ 0 ∧
      (s.fair.entity e).vruntime + now * 1024 / (s.fair.entity e).weight < 2 ^ 64
  | _ => True

instance (s : FairSys n) : (call : WeightCall n) → Decidable (InRange s call)
  | .initEntity t malloc _ =>
    inferInstanceAs (Decidable (malloc = true → (s.sys.taskList t).priority < 20))
  | .updateVruntime now t =>
    inferInstanceAs (Decidable (now < 2 ^ 32 → ∀ e ∈ entityOf s.sys t,
      (s.fair.entity e).weight ≠ 0 ∧
        (s.fair.entity e).vruntime + now * 1024 / (s.fair.entity e).weight < 2 ^ 64))
  | .create .. | .setPriority .. | .setWeight .. => isTrue trivial

/-- The invariant: a record is an entity, and entities start at tick 0. -/
structure FairRecords (s : FairSys n) : Prop where
  owned : ∀ u, (s.sys.taskList u).schedulerData = .null ∨
    ∃ e < s.fair.allocated, (s.sys.taskList u).schedulerData = .fair e
  started : ∀ e < s.fair.allocated, (s.fair.entity e).execStart = 0

variable {s s' : FairSys n} {t u : Fin n} {e now : Nat}

/-! ### What the calls do to the records -/

/-- A task without an entity is not charged. -/
theorem update_plain (hdata : (s.sys.taskList t).schedulerData = .null) :
    schedulerUpdateVruntime s now (some t) = some s := by
  simp only [schedulerUpdateVruntime, hdata]

theorem update_entity (hdata : (s.sys.taskList t).schedulerData = .fair e)
    (hweight : (s.fair.entity e).weight ≠ 0) :
    schedulerUpdateVruntime s now (some t) =
      some { s with fair := s.fair.modify e (charged now) } := by
  simp only [schedulerUpdateVruntime, hdata]
  rw [if_neg hweight]
  rfl

theorem entityOf_fair {sys : TaskSys n} (hdata : (sys.taskList t).schedulerData = .fair e) :
    entityOf sys t = some e := by
  simp only [entityOf, hdata]

theorem entityOf_null {sys : TaskSys n} (hdata : (sys.taskList t).schedulerData = .null) :
    entityOf sys t = none := by
  simp only [entityOf, hdata]

/-- A block of the table keeps its record, or is a new one without a record. -/
theorem taskCreate_schedulerData (sys : TaskSys n) (name : List UInt8) (entry taskExit : Word)
    (priority stackSize : Nat) (malloc : Option Nat) (u : Fin n) :
    let sys' := (taskCreate sys name entry taskExit priority stackSize malloc).1
    (sys'.taskList u).schedulerData = (sys.taskList u).schedulerData ∨
      (sys'.taskList u).schedulerData = .null := by
  intro sys'
  have hsys' : sys' = (taskCreate sys name entry taskExit priority stackSize malloc).1 := rfl
  unfold taskCreate at hsys'
  by_cases hfull : n ≤ sys.taskCount
  · rw [if_pos hfull] at hsys'
    rw [hsys']
    exact .inl rfl
  · rw [if_neg hfull] at hsys'
    cases hslot : freeSlot sys.taskList with
    | none =>
      simp only [hslot] at hsys'
      rw [hsys']
      exact .inl rfl
    | some i =>
      cases malloc with
      | none =>
        simp only [hslot] at hsys'
        rw [hsys']
        exact .inl rfl
      | some stack =>
        simp only [hslot] at hsys'
        rw [hsys']
        dsimp only
        by_cases hu : u = i
        · subst hu
          rw [Function.update_self]
          exact .inr rfl
        · rw [Function.update_of_ne hu]
          exact .inl rfl

theorem taskSetPriority_schedulerData (sys : TaskSys n) (t u : Fin n) (priority : Nat) :
    ((taskSetPriority sys (some t) priority).taskList u).schedulerData =
      (sys.taskList u).schedulerData := by
  unfold taskSetPriority
  by_cases hidle : sys.idleTask = some t
  · simp only [if_pos hidle]
  · simp only [if_neg hidle]
    by_cases hu : u = t
    · subst hu
      rw [modify_self]
    · rw [modify_of_ne _ _ hu]

/-- Records that stay, or go, and entities that begin where they began. -/
theorem FairRecords.of_same (h : FairRecords s) {sys : TaskSys n} {fair : Fair n}
    (hdata : ∀ u, (sys.taskList u).schedulerData = (s.sys.taskList u).schedulerData ∨
      (sys.taskList u).schedulerData = .null)
    (hallocated : fair.allocated = s.fair.allocated)
    (hstart : ∀ e, (fair.entity e).execStart = (s.fair.entity e).execStart) :
    FairRecords { sys, fair } := by
  refine ⟨?_, ?_⟩
  · intro u
    rcases hdata u with hsame | hnull
    · rcases h.owned u with hnull | ⟨e, he, hfair⟩
      · exact .inl (hsame.trans hnull)
      · exact .inr ⟨e, by rw [hallocated]; exact he, hsame.trans hfair⟩
    · exact .inl hnull
  · intro e he
    rw [hallocated] at he
    exact (hstart e).trans (h.started e he)

/-- Writing an entity without moving its start. -/
theorem modify_execStart (fair : Fair n) (e f : Nat) {g : SchedEntity n → SchedEntity n}
    (hg : ∀ entity, (g entity).execStart = entity.execStart) :
    ((fair.modify e g).entity f).execStart = (fair.entity f).execStart := by
  by_cases hf : f = e
  · subst hf
    rw [modify_entity_self, hg]
  · rw [modify_entity_of_ne _ _ hf]

theorem FairRecords.initEntity (h : FairRecords s) (malloc : Bool) (beyond : Nat) :
    FairRecords (initSchedEntity s t malloc beyond) := by
  cases malloc with
  | false => exact h
  | true =>
    simp only [initSchedEntity, not_true, if_false]
    refine ⟨?_, ?_⟩
    · intro u
      by_cases hu : u = t
      · subst hu
        rw [modify_self]
        exact .inr ⟨_, Nat.lt_succ_self _, rfl⟩
      · rw [modify_of_ne _ _ hu]
        rcases h.owned u with hnull | ⟨e, he, hdata⟩
        · exact .inl hnull
        · exact .inr ⟨e, Nat.lt_succ_of_lt he, hdata⟩
    · intro e he
      by_cases hnew : e = s.fair.allocated
      · subst hnew
        simp only [Function.update_self]
      · simp only [Function.update_of_ne hnew]
        exact h.started e (lt_of_le_of_ne (Nat.le_of_lt_succ he) hnew)

/-- **Step lemma.** Every call, safe or not, keeps the records. -/
theorem FairRecords.step (h : FairRecords s) {call : WeightCall n}
    (hstep : weightStep s call = some s') : FairRecords s' := by
  cases call with
  | create name entry taskExit priority stackSize malloc =>
    cases hstep
    exact h.of_same (taskCreate_schedulerData s.sys _ _ _ _ _ _) rfl fun _ => rfl
  | setPriority t priority =>
    cases hstep
    exact h.of_same (fun u => .inl (taskSetPriority_schedulerData s.sys t u priority)) rfl
      fun _ => rfl
  | initEntity t malloc beyond =>
    cases hstep
    exact h.initEntity malloc beyond
  | setWeight t weight =>
    simp only [weightStep, schedulerSetWeight] at hstep
    rcases h.owned t with hnull | ⟨e, -, hdata⟩
    · simp only [hnull] at hstep
      cases hstep
      exact h
    · simp only [hdata] at hstep
      cases hstep
      exact h.of_same (fun _ => .inl rfl) rfl fun f => modify_execStart s.fair e f fun _ => rfl
  | updateVruntime now t =>
    simp only [weightStep] at hstep
    by_cases hnow : now < 2 ^ 32
    · rw [if_pos hnow] at hstep
      rcases h.owned t with hnull | ⟨e, -, hdata⟩
      · rw [update_plain hnull] at hstep
        cases hstep
        exact h
      · obtain ⟨-, rfl⟩ := schedulerUpdateVruntime_spec hdata hstep
        exact h.of_same (fun _ => .inl rfl) rfl fun f => modify_execStart s.fair e f fun _ => rfl
    · rw [if_neg hnow] at hstep
      cases hstep

theorem fairStart_records (sys : TaskSys n) (blank : Nat → SchedEntity n) :
    FairRecords (fairStart sys blank).s :=
  ⟨fun _ => .inl rfl, fun _ he => absurd he (Nat.not_lt_zero _)⟩

/-! ### When a call is safe -/

/-- The sum of an update wraps, or it is exact. -/
theorem charged_vruntime {entity : SchedEntity n} (hstart : entity.execStart = 0)
    (hnow : now < 2 ^ 32) :
    (charged now entity).vruntime = wrap64 (entity.vruntime + now * 1024 / entity.weight) := by
  have hpassed : entity.execStart ≤ now := by
    rw [hstart]
    exact Nat.zero_le now
  rw [(charged_eq hpassed hnow).2, hstart, Nat.sub_zero]

/-- **Safety of a call.** -/
theorem FairRecords.safe_iff (h : FairRecords s) (call : WeightCall n) :
    Safe s call ↔ InRange s call := by
  cases call with
  | create name entry taskExit priority stackSize malloc => exact Iff.rfl
  | setPriority t priority => exact Iff.rfl
  | setWeight t weight => exact Iff.rfl
  | initEntity t malloc beyond =>
    have hlength : prioToWeight.length = 20 + 20 := rfl
    simp only [Safe, InRange, hlength, Nat.add_lt_add_iff_left]
  | updateVruntime now t =>
    simp only [Safe, InRange]
    refine forall_congr' fun hnow => ?_
    rcases h.owned t with hnull | ⟨e, he, hdata⟩
    · rw [entityOf_null hnull, update_plain hnull]
      simp
    · have hstart := h.started e he
      rw [entityOf_fair hdata]
      simp only [Option.mem_some_iff, forall_eq', hstart, Nat.sub_zero]
      constructor
      · rintro ⟨s', hupdate, hexact, -⟩
        obtain ⟨hweight, rfl⟩ := schedulerUpdateVruntime_spec hdata hupdate
        rw [modify_entity_self, charged_vruntime hstart hnow] at hexact
        refine ⟨hweight, ?_⟩
        rw [← hexact]
        exact Nat.mod_lt _ (by decide)
      · rintro ⟨hweight, hroom⟩
        have hexact : (charged now (s.fair.entity e)).vruntime =
            (s.fair.entity e).vruntime + now * 1024 / (s.fair.entity e).weight := by
          rw [charged_vruntime hstart hnow, wrap64_of_lt hroom]
        refine ⟨_, update_entity hdata hweight, ?_, ?_⟩
        · rw [modify_entity_self, hexact]
        · intro f
          by_cases hf : f = e
          · subst hf
            rw [modify_entity_self, hexact]
            exact Nat.le_add_right _ _
          · rw [modify_entity_of_ne _ _ hf]

theorem FairRecords.each_safe_iff (h : FairRecords s) (calls : List (WeightCall n)) :
    Each weightStep Safe s calls ↔ Each weightStep InRange s calls := by
  apply Each.congr
  apply each_of_preserved _ _ h
  · exact fun s call h => h.safe_iff call
  · exact fun s call s' h hstep => h.step hstep

/-- **Fair-weight arithmetic.** For every task table, every sequence of priorities, weights and
ticks, and every call of it: the call is safe exactly when it is in range. -/
theorem weights_safe_iff (sys : TaskSys n) (blank : Nat → SchedEntity n)
    (calls : List (WeightCall n)) :
    Each weightStep Safe (fairStart sys blank).s calls ↔
      Each weightStep InRange (fairStart sys blank).s calls :=
  (fairStart_records sys blank).each_safe_iff calls

/-- A priority of 20 is read behind the table; a weight of 0 divides. -/
theorem weights_unsafe :
    ¬ Each weightStep Safe fairTwoTasks.s [.setPriority (.last 1) 20, .initEntity (.last 1) true 1] ∧
      ¬ Each weightStep Safe fairTwoTasks.s
        [.initEntity (.last 1) true 1, .setWeight (.last 1) 0, .updateVruntime 1 (.last 1)] := by
  constructor
  · intro h
    have hread : 20 + 20 < prioToWeight.length := (h.2 _ rfl).1 rfl
    exact absurd hread (Nat.lt_irrefl _)
  · intro h
    obtain ⟨s', hupdate, -⟩ := ((h.2 _ rfl).2 _ rfl).1 (by decide)
    cases hupdate

/-! ### Runs that are short enough -/

/-- Entities are made for tasks of a priority below 20, and weights are not zero. -/
def Modest (s : FairSys n) : WeightCall n → Prop
  | .initEntity t malloc _ => malloc = true → (s.sys.taskList t).priority < 20
  | .setWeight _ weight => weight ≠ 0
  | _ => True

/-- An entity of a task with a weight, after at most `m` updates. -/
structure Fit (entity : SchedEntity n) (m : Nat) : Prop where
  weighted : entity.weight ≠ 0
  bounded : entity.vruntime ≤ m * 2 ^ 42

/-- All entities after at most `m` calls. -/
structure Updated (s : FairSys n) (m : Nat) : Prop where
  records : FairRecords s
  fit : ∀ e < s.fair.allocated, Fit (s.fair.entity e) m

theorem prioToWeight_ne_zero {p : Nat} (h : p < 20) (beyond : Nat) :
    (prioToWeight[20 + p]?).getD beyond ≠ 0 := by
  have htable : ∀ w ∈ prioToWeight, w ≠ 0 := by decide
  have hlength : 20 + p < prioToWeight.length := Nat.add_lt_add_left h 20
  rw [List.getElem?_eq_getElem hlength, Option.getD_some]
  exact htable _ (List.getElem_mem hlength)

variable {entity : SchedEntity n} {m : Nat}

theorem Fit.succ (h : Fit entity m) : Fit entity (m + 1) :=
  ⟨h.weighted, h.bounded.trans (Nat.mul_le_mul_right _ (Nat.le_succ m))⟩

/-- One update adds less than 2^42. -/
theorem Fit.room (h : Fit entity m) (hnow : now < 2 ^ 32) :
    entity.vruntime + now * 1024 / entity.weight < (m + 1) * 2 ^ 42 := by
  have hproduct : now * 1024 < 2 ^ 42 := by omega
  have hadded : now * 1024 / entity.weight < 2 ^ 42 :=
    lt_of_le_of_lt (Nat.div_le_self _ _) hproduct
  rw [Nat.succ_mul]
  exact Nat.add_lt_add_of_le_of_lt h.bounded hadded

/-- The first 2^22 updates fit into 64 bits. -/
theorem Fit.room64 (h : Fit entity m) (hnow : now < 2 ^ 32) (hm : m < 2 ^ 22) :
    entity.vruntime + now * 1024 / entity.weight < 2 ^ 64 := by
  have hroom : (m + 1) * 2 ^ 42 ≤ 2 ^ 22 * 2 ^ 42 := Nat.mul_le_mul_right _ hm
  rw [← Nat.pow_add] at hroom
  exact (h.room hnow).trans_le hroom

theorem Fit.charged (h : Fit entity m) (hstart : entity.execStart = 0) (hnow : now < 2 ^ 32) :
    Fit (charged now entity) (m + 1) := by
  refine ⟨h.weighted, ?_⟩
  rw [charged_vruntime hstart hnow]
  exact (Nat.mod_le _ _).trans (h.room hnow).le

/-- A modest call is in range as long as fewer than 2^22 came before it. -/
theorem Updated.inRange (h : Updated s m) (hm : m < 2 ^ 22) {call : WeightCall n}
    (hmodest : Modest s call) : InRange s call := by
  cases call with
  | create name entry taskExit priority stackSize malloc => trivial
  | setPriority t priority => trivial
  | setWeight t weight => trivial
  | initEntity t malloc beyond => exact hmodest
  | updateVruntime now t =>
    intro hnow e he
    rcases h.records.owned t with hnull | ⟨f, hf, hdata⟩
    · rw [entityOf_null hnull] at he
      cases he
    · rw [entityOf_fair hdata] at he
      obtain rfl := Option.some.inj he
      have hfit := h.fit f hf
      exact ⟨hfit.weighted, hfit.room64 hnow hm⟩

/-- **Step lemma.** A modest call keeps the entities fit, with one update more. -/
theorem Updated.step (h : Updated s m) {call : WeightCall n} (hmodest : Modest s call)
    (hstep : weightStep s call = some s') : Updated s' (m + 1) := by
  refine ⟨h.records.step hstep, ?_⟩
  intro e he
  cases call with
  | create name entry taskExit priority stackSize malloc =>
    cases hstep
    exact (h.fit e he).succ
  | setPriority t priority =>
    cases hstep
    exact (h.fit e he).succ
  | initEntity t malloc beyond =>
    cases hstep
    cases malloc with
    | false => exact (h.fit e he).succ
    | true =>
      simp only [initSchedEntity, not_true, if_false] at he ⊢
      by_cases hnew : e = s.fair.allocated
      · subst hnew
        rw [Function.update_self]
        exact ⟨prioToWeight_ne_zero (hmodest rfl) beyond, Nat.zero_le _⟩
      · rw [Function.update_of_ne hnew]
        exact (h.fit e (lt_of_le_of_ne (Nat.le_of_lt_succ he) hnew)).succ
  | setWeight t weight =>
    simp only [weightStep, schedulerSetWeight] at hstep
    rcases h.records.owned t with hnull | ⟨f, -, hdata⟩
    · simp only [hnull] at hstep
      cases hstep
      exact (h.fit e he).succ
    · simp only [hdata] at hstep
      cases hstep
      have hfit := h.fit e he
      by_cases hf : e = f
      · subst hf
        rw [modify_entity_self]
        exact ⟨hmodest, hfit.succ.bounded⟩
      · rw [modify_entity_of_ne _ _ hf]
        exact hfit.succ
  | updateVruntime now t =>
    simp only [weightStep] at hstep
    by_cases hnow : now < 2 ^ 32
    · rw [if_pos hnow] at hstep
      rcases h.records.owned t with hnull | ⟨f, -, hdata⟩
      · rw [update_plain hnull] at hstep
        cases hstep
        exact (h.fit e he).succ
      · obtain ⟨-, rfl⟩ := schedulerUpdateVruntime_spec hdata hstep
        have hfit := h.fit e he
        by_cases hf : e = f
        · subst hf
          rw [modify_entity_self]
          exact hfit.charged (h.records.started e he) hnow
        · rw [modify_entity_of_ne _ _ hf]
          exact hfit.succ
    · rw [if_neg hnow] at hstep
      cases hstep

/-- **Safety of a short run.** Up to 2^22 calls that make entities for priorities below 20 and
set no weight of zero are safe, whatever the ticks. -/
theorem short_run_safe (sys : TaskSys n) (blank : Nat → SchedEntity n) (calls : List (WeightCall n))
    (hshort : calls.length ≤ 2 ^ 22)
    (hmodest : Each weightStep Modest (fairStart sys blank).s calls) :
    Each weightStep Safe (fairStart sys blank).s calls := by
  rw [(fairStart_records sys blank).each_safe_iff]
  have hstart : Updated (fairStart sys blank).s 0 :=
    ⟨fairStart_records sys blank, fun _ he => absurd he (Nat.not_lt_zero _)⟩
  generalize (fairStart sys blank).s = s at hstart hmodest
  generalize hdone : 0 = m at hstart
  have hroom : m + calls.length ≤ 2 ^ 22 := by omega
  clear hshort hdone
  induction calls generalizing s m with
  | nil => trivial
  | cons call calls ih =>
    rw [List.length_cons] at hroom
    refine ⟨hstart.inRange (by omega) hmodest.1, ?_⟩
    intro s' hstep
    exact ih s' (hmodest.2 s' hstep) (m + 1) (hstart.step hmodest.1 hstep) (by omega)

end ArmKernel.Sched

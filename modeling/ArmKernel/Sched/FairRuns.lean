/-
Runs of the completely fair policy.

A step is a call of one of the functions of the policy. A run goes on in the state `none`
when a call does not return, so a condition on its steps is asked of every call it makes.

`FairSound r t` is what the policy promises of the tree `t` in memory. `Lawful` is the use
the policy is made for: weights are not zero, an entity is enqueued once, the virtual
runtimes do not wrap. `Keeps` is the rest a step has to meet: an update leaves the entity
at its place in the tree, and a tick does not preempt.
-/
import ArmKernel.Sched.FairQueue
import ArmKernel.Support.Run
import Mathlib.Data.List.TakeWhile

namespace ArmKernel.Sched

open ArmKernel.Support ArmKernel.Tasks

variable {n : Nat}

/-- A call of the policy. -/
inductive FairAction (n : Nat) where
  | initEntity (t : Fin n) (malloc : Bool) (beyond : Nat)
  | setWeight (t : Fin n) (weight : Nat)
  | enqueue (t : Fin n)
  | updateVruntime (now : Nat) (t : Fin n)
  | tick (now : Nat) (current : Fin n)

/-- The policy, with the entities enqueued so far. -/
structure FairRun (n : Nat) where
  s : FairSys n
  enqueued : List Nat

/-- The entity of a task. -/
def entityOf (sys : TaskSys n) (t : Fin n) : Option Nat :=
  match (sys.taskList t).schedulerData with
  | .fair e => some e
  | _ => none

/-- One call; `none` when it does not return. -/
def FairRun.call (r : FairRun n) : FairAction n → Option (FairRun n)
  | .initEntity t malloc beyond => some { r with s := initSchedEntity r.s t malloc beyond }
  | .setWeight t weight => (schedulerSetWeight r.s (some t) weight).map fun s => { r with s }
  | .enqueue t =>
    (enqueueTaskFair r.s (some t)).map fun s =>
      { s, enqueued := (entityOf r.s.sys t).toList ++ r.enqueued }
  | .updateVruntime now t => (schedulerUpdateVruntime r.s now (some t)).map fun s => { r with s }
  | .tick now current =>
    (schedulerFairTick { r.s with sys := { r.s.sys with currentTask := some current } } now).map
      fun (s, _) => { r with s }

/-- One step of a run. -/
def fairStep (r : Option (FairRun n)) (a : FairAction n) : Option (Option (FairRun n)) :=
  some (r.bind fun r => r.call a)

/-- Tasks without records, and an empty tree. -/
def fairStart (sys : TaskSys n) (blank : Nat → SchedEntity n) : FairRun n where
  s :=
    { sys := { sys with taskList := fun t => { sys.taskList t with schedulerData := .null } }
      fair := .empty blank }
  enqueued := []

/-- The virtual runtime does not wrap in an update at `now`. -/
def NoWrap (now : Nat) (entity : SchedEntity n) : Prop :=
  now < 2 ^ 32 ∧ entity.vruntime + now * 1024 / entity.weight < 2 ^ 64

/-- The use the policy is made for. -/
def Lawful (r : FairRun n) : FairAction n → Prop
  | .initEntity _ _ beyond => beyond ≠ 0
  | .setWeight _ weight => weight ≠ 0
  | .enqueue t => ∃ e ∈ entityOf r.s.sys t, e ∉ r.enqueued
  | .updateVruntime now t => ∀ e ∈ entityOf r.s.sys t, NoWrap now (r.s.fair.entity e)
  | .tick now t =>
    ∃ e ∈ entityOf r.s.sys t, e ∈ r.enqueued ∧ NoWrap now (r.s.fair.entity e)

/-- The entities in the order of the tree. -/
def Fair.line (fair : Fair n) : List Nat := fair.tree.inorder fair.allocated fair.tree.root

/-- The entities behind one in the tree. -/
def Fair.behind (fair : Fair n) (e : Nat) : List Nat := (fair.line.dropWhile (· ≠ e)).tail

/-- An update at `now` does not carry the entity past one behind it. -/
def KeepsPlace (fair : Fair n) (now e : Nat) : Prop :=
  ∀ f ∈ fair.behind e, vruntimeAt now (fair.entity e) ≤ (fair.entity f).vruntime

/-- After an update at `now` the entity is not ahead of the first one by more than its
granularity. -/
def Stays (fair : Fair n) (now e : Nat) : Prop :=
  ∀ f ∈ fair.line.head?,
    vruntimeAt now (fair.entity e) ≤
      wrap64 ((if f = e then vruntimeAt now (fair.entity e) else (fair.entity f).vruntime) +
        (fair.entity e).minGranularity)

/-- The step leaves the tree alone, and every entity at its place. -/
def Keeps (r : FairRun n) : FairAction n → Prop
  | .updateVruntime now t => ∀ e ∈ entityOf r.s.sys t, KeepsPlace r.s.fair now e
  | .tick now t => ∀ e ∈ entityOf r.s.sys t, KeepsPlace r.s.fair now e ∧ Stays r.s.fair now e
  | _ => True

instance (now : Nat) (entity : SchedEntity n) : Decidable (NoWrap now entity) :=
  inferInstanceAs (Decidable (_ ∧ _))

instance (r : FairRun n) : (a : FairAction n) → Decidable (Lawful r a)
  | .initEntity _ _ beyond => inferInstanceAs (Decidable (beyond ≠ 0))
  | .setWeight _ weight => inferInstanceAs (Decidable (weight ≠ 0))
  | .enqueue t => inferInstanceAs (Decidable (∃ e ∈ entityOf r.s.sys t, e ∉ r.enqueued))
  | .updateVruntime now t =>
    inferInstanceAs (Decidable (∀ e ∈ entityOf r.s.sys t, NoWrap now (r.s.fair.entity e)))
  | .tick now t =>
    inferInstanceAs (Decidable (∃ e ∈ entityOf r.s.sys t, e ∈ r.enqueued ∧
      NoWrap now (r.s.fair.entity e)))

instance (fair : Fair n) (now e : Nat) : Decidable (KeepsPlace fair now e) :=
  inferInstanceAs (Decidable (∀ f ∈ fair.behind e, _))

instance (fair : Fair n) (now e : Nat) : Decidable (Stays fair now e) :=
  inferInstanceAs (Decidable (∀ f ∈ fair.line.head?, _))

instance (r : FairRun n) : (a : FairAction n) → Decidable (Keeps r a)
  | .updateVruntime now t =>
    inferInstanceAs (Decidable (∀ e ∈ entityOf r.s.sys t, KeepsPlace r.s.fair now e))
  | .tick now t =>
    inferInstanceAs (Decidable (∀ e ∈ entityOf r.s.sys t,
      KeepsPlace r.s.fair now e ∧ Stays r.s.fair now e))
  | .initEntity .. | .setWeight .. | .enqueue .. => isTrue trivial

/-- What the policy promises of the tree. -/
structure FairSound (r : FairRun n) (t : RbTree Nat) : Prop where
  /-- A finite tree with consistent parent links, and no entity twice. -/
  shape : Represents r.s.fair.tree t
  /-- The red-black rules. -/
  balanced : ∃ h, Balanced t .black h
  /-- It holds the entities enqueued. -/
  members : ∀ e, e ∈ t.toList ↔ e ∈ r.enqueued
  /-- It is ordered by the present virtual runtimes. -/
  sorted : t.toList.Pairwise fun e f =>
    (r.s.fair.entity e).vruntime ≤ (r.s.fair.entity f).vruntime
  /-- `scheduler_min_vruntime` returns the least virtual runtime. -/
  minimum : ∃ v, schedulerMinVruntime r.s.fair = some v ∧
    (∀ e ∈ r.enqueued, v ≤ (r.s.fair.entity e).vruntime) ∧
    (r.enqueued ≠ [] → ∃ e ∈ r.enqueued, (r.s.fair.entity e).vruntime = v)

/-- The tree: what memory holds, in the order of the virtual runtimes, and its entities are
allocated. -/
structure FairTree (s : FairSys n) (t : RbTree Nat) : Prop where
  shape : Represents s.fair.tree t
  balanced : ∃ h, Balanced t .black h
  sorted : t.toList.Pairwise fun e f => (s.fair.entity e).vruntime ≤ (s.fair.entity f).vruntime
  bounded : ∀ e ∈ t.toList, e < s.fair.allocated
  owned : ∀ u, (s.sys.taskList u).schedulerData = .null ∨
    ∃ e < s.fair.allocated, (s.sys.taskList u).schedulerData = .fair e

/-- The invariant: the tree, and what the records of the tasks and the entities are. -/
structure FairInv (r : FairRun n) (t : RbTree Nat) : Prop where
  shape : Represents r.s.fair.tree t
  balanced : ∃ h, Balanced t .black h
  members : ∀ e, e ∈ t.toList ↔ e ∈ r.enqueued
  sorted : t.toList.Pairwise fun e f =>
    (r.s.fair.entity e).vruntime ≤ (r.s.fair.entity f).vruntime
  bounded : ∀ e ∈ t.toList, e < r.s.fair.allocated
  owned : ∀ u, (r.s.sys.taskList u).schedulerData = .null ∨
    ∃ e < r.s.fair.allocated, (r.s.sys.taskList u).schedulerData = .fair e
  weighted : ∀ e < r.s.fair.allocated, (r.s.fair.entity e).weight ≠ 0
  started : ∀ e < r.s.fair.allocated, (r.s.fair.entity e).execStart = 0

variable {r : FairRun n} {t : RbTree Nat} {e : Nat} {u : Fin n}

/-! ### What the tree gives -/

section Tree

variable {s : FairSys n}

theorem FairTree.queue (h : FairTree s t) : FairQueue s.fair t :=
  ⟨h.shape, h.balanced, h.sorted, h.bounded⟩

theorem FairTree.line_eq (h : FairTree s t) : s.fair.line = t.toList := by
  rw [Fair.line, h.shape.root]
  exact h.shape.nodes.inorder h.queue.length_le

/-- The entity of a task is the one its record points at. -/
theorem FairTree.data (h : FairTree s t) (hu : entityOf s.sys u = some e) :
    (s.sys.taskList u).schedulerData = .fair e ∧ e < s.fair.allocated := by
  rcases h.owned u with hnull | ⟨f, hf, hdata⟩
  · simp [entityOf, hnull] at hu
  · simp only [entityOf, hdata, Option.some.injEq] at hu
    exact ⟨hu ▸ hdata, hu ▸ hf⟩

/-- A new entity is none of the tree. -/
theorem FairTree.initEntity (h : FairTree s t) (malloc : Bool) (beyond : Nat) :
    FairTree (initSchedEntity s u malloc beyond) t := by
  cases malloc with
  | false => exact h
  | true =>
    have hfresh : ∀ e ∈ t.toList, e ≠ s.fair.allocated := fun e he => (h.bounded e he).ne
    refine ⟨⟨h.shape.root, h.shape.nodes.congr ?_, h.shape.nodup⟩, h.balanced, ?_, ?_, ?_⟩
    · intro e he
      simp only [initSchedEntity, not_true, if_false]
      exact RbMem.modify_of_ne _ _ (hfresh e he)
    · apply h.sorted.imp_of_mem
      intro e f he hf hle
      simp only [initSchedEntity, not_true, if_false, Function.update_of_ne (hfresh e he),
        Function.update_of_ne (hfresh f hf)]
      exact hle
    · exact fun e he => Nat.lt_succ_of_lt (h.bounded e he)
    · intro v
      by_cases hv : v = u
      · subst hv
        exact .inr ⟨s.fair.allocated, Nat.lt_succ_self _, by simp [initSchedEntity]⟩
      · have hsame : (initSchedEntity s u true beyond).sys.taskList v = s.sys.taskList v := by
          simp only [initSchedEntity, not_true, if_false]
          exact modify_of_ne _ _ hv
        simp only [hsame]
        rcases h.owned v with hnull | ⟨e, he, hdata⟩
        · exact .inl hnull
        · exact .inr ⟨e, Nat.lt_succ_of_lt he, hdata⟩

/-- **Enqueue** of an entity that is not in the tree. -/
theorem FairTree.enqueue (h : FairTree s t) (hu : entityOf s.sys u = some e)
    (hfresh : e ∉ t.toList) :
    ∃ tree t', enqueueTaskFair s (some u) = some { s with fair := { s.fair with tree } } ∧
      FairTree { s with fair := { s.fair with tree } } t' ∧
      ∀ f, f ∈ t'.toList ↔ f = e ∨ f ∈ t.toList := by
  obtain ⟨hdata, he⟩ := h.data hu
  obtain ⟨tree, t', before, after, hrun, hqueue, hsplit, hlist, -, -⟩ := h.queue.enqueue he hfresh
  have hmem : ∀ f, f ∈ t'.toList ↔ f = e ∨ f ∈ t.toList := by
    intro f
    rw [hlist, hsplit, List.perm_middle.mem_iff, List.mem_cons]
  refine ⟨tree, t', ?_, ⟨hqueue.shape, hqueue.balanced, hqueue.sorted, hqueue.bounded, h.owned⟩,
    hmem⟩
  simp only [enqueueTaskFair, hdata, hrun, Option.map_some]

end Tree

/-! ### What the invariant gives -/

theorem FairInv.tree (h : FairInv r t) : FairTree r.s t :=
  ⟨h.shape, h.balanced, h.sorted, h.bounded, h.owned⟩

theorem FairInv.sound (h : FairInv r t) : FairSound r t := by
  refine ⟨h.shape, h.balanced, h.members, h.sorted, ?_⟩
  have hleft := h.tree.queue.leftmost_eq
  have hsorted := h.sorted
  have hmembers := h.members
  rw [schedulerMinVruntime, hleft]
  cases hlist : t.toList with
  | nil =>
    rw [hlist] at hmembers
    have hnone : ∀ e, e ∉ r.enqueued := fun e he => by simpa using (hmembers e).mpr he
    exact ⟨0, rfl, fun e he => absurd he (hnone e), fun hne =>
      absurd (List.eq_nil_iff_forall_not_mem.mpr hnone) hne⟩
  | cons x rest =>
    rw [hlist] at hmembers hsorted
    have hfirst := (List.pairwise_cons.mp hsorted).1
    refine ⟨_, rfl, ?_, fun _ => ⟨x, (hmembers x).mp List.mem_cons_self, rfl⟩⟩
    intro e he
    rcases List.mem_cons.mp ((hmembers e).mpr he) with rfl | hmem
    · exact Nat.le_refl _
    · exact hfirst e hmem

/-! ### Steps -/

/-- The place of an entity in the tree. -/
theorem FairInv.place (h : FairInv r t) (he : e ∈ t.toList) :
    ∃ before after, t.toList = before ++ e :: after ∧ e ∉ before ++ after ∧
      r.s.fair.behind e = after := by
  obtain ⟨before, after, hlist⟩ := List.append_of_mem he
  have hnodup := h.shape.nodup
  rw [hlist, List.perm_middle.nodup_iff, List.nodup_cons] at hnodup
  have hbefore : e ∉ before := fun hmem => hnodup.1 (List.mem_append_left _ hmem)
  refine ⟨before, after, hlist, hnodup.1, ?_⟩
  rw [Fair.behind, h.tree.line_eq, hlist, List.dropWhile_append_of_pos]
  · simp
  · intro f hf
    exact decide_eq_true (ne_of_mem_of_not_mem hf hbefore)

/-- The entities behind one are not before it in virtual runtime. -/
theorem FairInv.behind_le (h : FairInv r t) {f : Nat} (hf : f ∈ r.s.fair.behind e) :
    (r.s.fair.entity e).vruntime ≤ (r.s.fair.entity f).vruntime := by
  by_cases he : e ∈ t.toList
  · obtain ⟨before, after, hlist, -, hbehind⟩ := h.place he
    have hsorted := h.sorted
    rw [hlist] at hsorted
    rw [hbehind] at hf
    exact (List.pairwise_cons.mp (List.pairwise_append.mp hsorted).2.1).1 f hf
  · rw [Fair.behind, h.tree.line_eq, List.dropWhile_eq_nil_iff.mpr] at hf
    · cases hf
    · intro f hf
      exact decide_eq_true (ne_of_mem_of_not_mem hf he)

/-- **Writing an entity** that keeps its place. -/
theorem FairInv.modify (h : FairInv r t) {f : SchedEntity n → SchedEntity n}
    (hweight : (f (r.s.fair.entity e)).weight ≠ 0)
    (hstart : (f (r.s.fair.entity e)).execStart = (r.s.fair.entity e).execStart)
    (hup : (r.s.fair.entity e).vruntime ≤ (f (r.s.fair.entity e)).vruntime)
    (hplace : ∀ g ∈ r.s.fair.behind e,
      (f (r.s.fair.entity e)).vruntime ≤ (r.s.fair.entity g).vruntime) :
    FairInv { r with s := { r.s with fair := r.s.fair.modify e f } } t := by
  have hothers : ∀ g, g ≠ e → (r.s.fair.modify e f).entity g = r.s.fair.entity g :=
    fun g hg => Function.update_of_ne hg _ _
  have hself : (r.s.fair.modify e f).entity e = f (r.s.fair.entity e) :=
    Function.update_self _ _ _
  refine ⟨h.shape, h.balanced, h.members, ?_, h.bounded, h.owned, ?_, ?_⟩
  · by_cases he : e ∈ t.toList
    · obtain ⟨before, after, hlist, hfresh, hbehind⟩ := h.place he
      have hsorted := h.sorted
      rw [hlist] at hsorted ⊢
      rw [hbehind] at hplace
      apply sorted_rekey hsorted hfresh
      · intro g hg
        exact congrArg SchedEntity.vruntime (hothers g hg)
      · exact hself ▸ hup
      · exact hself ▸ hplace
    · apply h.sorted.imp_of_mem
      intro g g' hg hg' hle
      rw [hothers g (ne_of_mem_of_not_mem hg he), hothers g' (ne_of_mem_of_not_mem hg' he)]
      exact hle
  · intro g hg
    by_cases hge : g = e
    · subst hge
      exact hself ▸ hweight
    · exact hothers g hge ▸ h.weighted g hg
  · intro g hg
    by_cases hge : g = e
    · subst hge
      exact hself ▸ hstart.trans (h.started g hg)
    · exact hothers g hge ▸ h.started g hg

theorem FairInv.initEntity (h : FairInv r t) (malloc : Bool) {beyond : Nat} (hbeyond : beyond ≠ 0) :
    FairInv { r with s := initSchedEntity r.s u malloc beyond } t := by
  have htree := h.tree.initEntity (u := u) malloc beyond
  cases malloc with
  | false => exact h
  | true =>
    have hweight : (prioToWeight[20 + (r.s.sys.taskList u).priority]?).getD beyond ≠ 0 := by
      cases hget : prioToWeight[20 + (r.s.sys.taskList u).priority]? with
      | none => exact hbeyond
      | some w =>
        have hpos : ∀ w ∈ prioToWeight, w ≠ 0 := by decide
        exact hpos w (List.mem_of_getElem? hget)
    have hnew : ∀ e, e < r.s.fair.allocated + 1 → e ≠ r.s.fair.allocated → e < r.s.fair.allocated :=
      fun e hlt hne => by omega
    refine ⟨htree.shape, htree.balanced, h.members, htree.sorted, htree.bounded, htree.owned, ?_, ?_⟩
    · intro e he
      by_cases hea : e = r.s.fair.allocated
      · subst hea
        simp only [initSchedEntity, not_true, if_false, Function.update_self]
        exact hweight
      · simp only [initSchedEntity, not_true, if_false, Function.update_of_ne hea]
        exact h.weighted e (hnew e he hea)
    · intro e he
      by_cases hea : e = r.s.fair.allocated
      · subst hea
        simp only [initSchedEntity, not_true, if_false, Function.update_self]
      · simp only [initSchedEntity, not_true, if_false, Function.update_of_ne hea]
        exact h.started e (hnew e he hea)

/-- An update without a wrap. -/
theorem vruntimeAt_eq {now : Nat} {entity : SchedEntity n} (hstart : entity.execStart = 0)
    (hwrap : NoWrap now entity) :
    vruntimeAt now entity = entity.vruntime + now * 1024 / entity.weight := by
  obtain ⟨hnow, hsum⟩ := hwrap
  have hdelta : sub64 now 0 = now := by
    unfold sub64 wrap64
    omega
  have hproduct : wrap64 (now * 1024) = now * 1024 := wrap64_of_lt (by omega)
  rw [vruntimeAt, hstart, hdelta, hproduct, wrap64_of_lt hsum]

/-- What an update writes. -/
def charged (now : Nat) (entity : SchedEntity n) : SchedEntity n :=
  { entity with
    vruntime := vruntimeAt now entity
    sumExecRuntime := wrap64 (entity.sumExecRuntime + sub64 now entity.execStart) }

/-- **Update** of an entity that keeps its place. -/
theorem FairInv.updateVruntime (h : FairInv r t) (now : Nat)
    (hlawful : ∀ e ∈ entityOf r.s.sys u, NoWrap now (r.s.fair.entity e))
    (hkeeps : ∀ e ∈ entityOf r.s.sys u, KeepsPlace r.s.fair now e) :
    ∃ s', schedulerUpdateVruntime r.s now (some u) = some s' ∧ FairInv { r with s := s' } t ∧
      s'.sys = r.s.sys ∧
      ∀ e ∈ entityOf r.s.sys u, s'.fair = r.s.fair.modify e (charged now) := by
  rcases h.owned u with hnull | ⟨e, he, hdata⟩
  · refine ⟨r.s, by simp only [schedulerUpdateVruntime, hnull], h, rfl, ?_⟩
    simp [entityOf, hnull]
  · have hentity : entityOf r.s.sys u = some e := by simp only [entityOf, hdata]
    rw [hentity] at hlawful hkeeps ⊢
    have hvruntime := vruntimeAt_eq (h.started e he) (hlawful e rfl)
    have hweight := h.weighted e he
    refine ⟨{ r.s with fair := r.s.fair.modify e (charged now) }, ?_, ?_, rfl, ?_⟩
    · simp only [schedulerUpdateVruntime, hdata]
      rw [if_neg hweight]
      rfl
    · apply h.modify hweight rfl
      · rw [charged, hvruntime]
        exact Nat.le_add_right _ _
      · exact hkeeps e rfl
    · rintro _ ⟨⟩
      rfl

/-- **Enqueue** of a fresh entity. -/
theorem FairInv.enqueue (h : FairInv r t) (hu : entityOf r.s.sys u = some e)
    (hfresh : e ∉ r.enqueued) :
    ∃ s' t', enqueueTaskFair r.s (some u) = some s' ∧
      FairInv { s := s', enqueued := e :: r.enqueued } t' := by
  have hnot : e ∉ t.toList := fun hmem => hfresh ((h.members e).mp hmem)
  obtain ⟨tree, t', hrun, htree, hmem⟩ := h.tree.enqueue hu hnot
  refine ⟨_, t', hrun, htree.shape, htree.balanced, ?_, htree.sorted, htree.bounded, h.owned,
    h.weighted, h.started⟩
  intro f
  rw [hmem f, h.members f, List.mem_cons]

/-- **Tick** without a preemption. -/
theorem FairInv.tick (h : FairInv r t) {now : Nat} (hu : entityOf r.s.sys u = some e)
    (hqueued : e ∈ r.enqueued) (hwrap : NoWrap now (r.s.fair.entity e))
    (hplace : KeepsPlace r.s.fair now e) (hstays : Stays r.s.fair now e) :
    ∃ r', r.call (.tick now u) = some r' ∧ FairInv r' t := by
  let s₀ : FairSys n := { r.s with sys := { r.s.sys with currentTask := some u } }
  have h₀ : FairInv { r with s := s₀ } t :=
    ⟨h.shape, h.balanced, h.members, h.sorted, h.bounded, h.owned, h.weighted, h.started⟩
  have hdata : (s₀.sys.taskList u).schedulerData = .fair e := (h.tree.data hu).1
  have hu₀ : entityOf s₀.sys u = some e := hu
  have hupdated := h₀.updateVruntime (u := u) now
  simp only [hu₀, Option.mem_some_iff, forall_eq'] at hupdated
  obtain ⟨s', hupdate, hinv, -, hfair⟩ := hupdated hwrap hplace
  have hself : s'.fair.entity e = charged now (r.s.fair.entity e) := by
    rw [hfair]
    exact Function.update_self _ _ _
  -- The least virtual runtime is that of the first entity in line.
  obtain ⟨f, hfirst⟩ : ∃ f, t.toList.head? = some f := by
    cases hlist : t.toList with
    | nil =>
      have hmem := (h.members e).mpr hqueued
      rw [hlist] at hmem
      cases hmem
    | cons f rest => exact ⟨f, rfl⟩
  have hleast : schedulerMinVruntime s'.fair = some (s'.fair.entity f).vruntime := by
    rw [schedulerMinVruntime, hinv.tree.queue.leftmost_eq, hfirst]
    rfl
  have hstay : ¬ wrap64 ((s'.fair.entity f).vruntime + (s'.fair.entity e).minGranularity) <
      (s'.fair.entity e).vruntime := by
    have hle := hstays f (by rw [h.tree.line_eq]; exact hfirst)
    have hkey : (s'.fair.entity f).vruntime =
        if f = e then vruntimeAt now (r.s.fair.entity e) else (r.s.fair.entity f).vruntime := by
      split
      · rename_i hfe
        rw [hfe, hself]
        rfl
      · rename_i hfe
        rw [hfair]
        exact congrArg SchedEntity.vruntime (Function.update_of_ne hfe _ _)
    rw [hkey, hself]
    exact Nat.not_lt.mpr hle
  refine ⟨{ r with s := s' }, ?_, hinv⟩
  simp only [FairRun.call, schedulerFairTick, taskGetCurrent]
  simp only [s₀] at hdata hupdate
  rw [hdata]
  dsimp only
  rw [hupdate, Option.bind_some, hleast, Option.bind_some, if_neg hstay]
  rfl

/-! ### Every run -/

/-- **Step lemma.** A lawful call that keeps places returns, and the invariant holds again. -/
theorem FairInv.step (h : FairInv r t) {a : FairAction n} (hlawful : Lawful r a)
    (hkeeps : Keeps r a) : ∃ r' t', r.call a = some r' ∧ FairInv r' t' := by
  cases a with
  | initEntity u malloc beyond => exact ⟨_, t, rfl, h.initEntity malloc hlawful⟩
  | setWeight u weight =>
    rcases h.owned u with hnull | ⟨e, -, hdata⟩
    · refine ⟨r, t, ?_, h⟩
      simp only [FairRun.call, schedulerSetWeight, hnull]
      rfl
    · refine ⟨_, t, ?_, h.modify (e := e) (f := fun entity => { entity with weight }) hlawful rfl
        (Nat.le_refl _) fun g hg => h.behind_le hg⟩
      simp only [FairRun.call, schedulerSetWeight, hdata]
      rfl
  | enqueue u =>
    obtain ⟨e, hu, hfresh⟩ := hlawful
    rw [Option.mem_def] at hu
    obtain ⟨s', t', hrun, hinv⟩ := h.enqueue hu hfresh
    refine ⟨_, t', ?_, hinv⟩
    simp only [FairRun.call, hrun, hu]
    rfl
  | updateVruntime now u =>
    obtain ⟨s', hrun, hinv, -, -⟩ := h.updateVruntime now hlawful hkeeps
    refine ⟨_, t, ?_, hinv⟩
    simp only [FairRun.call, hrun]
    rfl
  | tick now u =>
    obtain ⟨e, hu, hqueued, hwrap⟩ := hlawful
    obtain ⟨hplace, hstays⟩ := hkeeps e hu
    obtain ⟨r', hrun, hinv⟩ := h.tick hu hqueued hwrap hplace hstays
    exact ⟨r', t, hrun, hinv⟩

theorem fairStart_inv (sys : TaskSys n) (blank : Nat → SchedEntity n) :
    FairInv (fairStart sys blank) .leaf where
  shape := ⟨rfl, trivial, List.nodup_nil⟩
  balanced := ⟨0, .leaf⟩
  members := fun _ => Iff.rfl
  sorted := List.Pairwise.nil
  bounded := by simp
  owned := fun _ => .inl rfl
  weighted := by simp [fairStart, Fair.empty]
  started := by simp [fairStart, Fair.empty]

/-- The policy is in order; a call that does not return leaves it out of order. -/
def FairInOrder (s : Option (FairRun n)) : Prop := ∃ r, s = some r ∧ ∃ t, FairSound r t

/-- A condition on the calls of a run, as long as they return. -/
def OnCalls (ok : FairRun n → FairAction n → Prop) (s : Option (FairRun n)) (a : FairAction n) :
    Prop := ∀ r ∈ s, ok r a

instance (ok : FairRun n → FairAction n → Prop) [∀ r a, Decidable (ok r a)]
    (s : Option (FairRun n)) (a : FairAction n) : Decidable (OnCalls ok s a) :=
  inferInstanceAs (Decidable (∀ r ∈ s, ok r a))

/-- **The fair tree.** In every state of every lawful run whose steps keep every entity at
its place, the tree is sound, and no call hangs. -/
theorem fair_tree_in_order (sys : TaskSys n) (blank : Nat → SchedEntity n)
    (as : List (FairAction n))
    (lawful : Meets fairStep (OnCalls Lawful) (some (fairStart sys blank)) as)
    (keeps : Meets fairStep (OnCalls Keeps) (some (fairStart sys blank)) as) :
    Along fairStep FairInOrder (some (fairStart sys blank)) as := by
  have halong : Along fairStep (fun s => ∃ r, s = some r ∧ ∃ t, FairInv r t)
      (some (fairStart sys blank)) as := by
    apply along_of_meets _ ⟨_, rfl, _, fairStart_inv sys blank⟩ (lawful.and keeps)
    rintro _ a s' ⟨r, rfl, t, h⟩ ⟨hlawful, hkeeps⟩ hstep
    obtain ⟨r', t', hcall, hinv⟩ := h.step (hlawful r rfl) (hkeeps r rfl)
    rw [fairStep, Option.bind_some, hcall, Option.some_inj] at hstep
    exact ⟨r', hstep.symm, t', hinv⟩
  exact halong.mono fun _ ⟨r, hr, t, h⟩ => ⟨r, hr, t, h.sound⟩

/-- Two tasks of priority 0, hence of weight 1024. -/
def fairTwoTasks : FairRun 2 :=
  fairStart
    { taskList := fun _ => Task.zeroed 2
      currentTask := none
      idleTask := none
      taskCount := 2
      stackAllocs := []
      stackFrees := [] }
    fun _ =>
      { vruntime := 0, weight := 0, minGranularity := 0, execStart := 0, sumExecRuntime := 0,
        task := .last 1 }

/-- Both tasks are enqueued. -/
def fairEnqueued : List (FairAction 2) :=
  let first : Fin 2 := ⟨0, Nat.zero_lt_two⟩
  [.initEntity first true 1, .initEntity (.last 1) true 1, .enqueue first, .enqueue (.last 1)]

/-- The second one, behind in the tree, runs for three ticks. -/
def fairSecondRuns : List (FairAction 2) :=
  fairEnqueued ++ [.tick 1 (.last 1), .tick 2 (.last 1), .tick 3 (.last 1)]

theorem fair_tree_in_order_run :
    Meets fairStep (OnCalls Lawful) (some fairTwoTasks) fairSecondRuns ∧
      Meets fairStep (OnCalls Keeps) (some fairTwoTasks) fairSecondRuns ∧
      Along fairStep FairInOrder (some fairTwoTasks) fairSecondRuns :=
  ⟨by decide, by decide, fair_tree_in_order _ _ fairSecondRuns (by decide) (by decide)⟩

/-- The first one runs for one tick. -/
def fairFirstRuns : List (FairAction 2) := fairEnqueued ++ [.tick 1 ⟨0, Nat.zero_lt_two⟩]

/-- One tick of the task at the front of the tree: its virtual runtime is 1, that of the
other task 0, and `scheduler_min_vruntime` returns 1. -/
theorem fair_tick_loses_order :
    Meets fairStep (OnCalls Lawful) (some fairTwoTasks) fairFirstRuns ∧
      ¬ Along fairStep FairInOrder (some fairTwoTasks) fairFirstRuns := by
  refine ⟨by decide, fun halong => ?_⟩
  obtain ⟨r, hr, t, hsound⟩ := halong.last rfl
  cases hr
  obtain ⟨v, hv, hleast, -⟩ := hsound.minimum
  have hone : (some 1 : Option Nat) = some v := hv
  have hzero : v ≤ 0 := hleast 1 (by decide)
  cases hone
  cases hzero

end ArmKernel.Sched

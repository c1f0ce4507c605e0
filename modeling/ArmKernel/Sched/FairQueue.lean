/-
The fair tree as a queue.

`FairQueue fair t` says that memory holds the red-black tree `t`, in the order of the
virtual runtimes. `enqueue_task_fair` puts an entity behind those of its own virtual
runtime, so the entities of one virtual runtime stand in the order they came in: with
`arrived` for that order, this is `Stable`.
-/
import ArmKernel.Sched.Fair

namespace ArmKernel.Sched

open ArmKernel.Support ArmKernel.Tasks

variable {n : Nat}

/-- The tree: what memory holds, in the order of the virtual runtimes, and its entities are
allocated. -/
structure FairQueue (fair : Fair n) (t : RbTree Nat) : Prop where
  shape : Represents fair.tree t
  balanced : ∃ h, Balanced t .black h
  sorted : t.toList.Pairwise fun e f => (fair.entity e).vruntime ≤ (fair.entity f).vruntime
  bounded : ∀ e ∈ t.toList, e < fair.allocated

/-- The entities of a virtual runtime. -/
def ofVruntime (entity : Nat → SchedEntity n) (v : Nat) (line : List Nat) : List Nat :=
  line.filter fun e => decide ((entity e).vruntime = v)

/-- In the line, the entities of one virtual runtime stand in the order they arrived in. -/
def Stable (entity : Nat → SchedEntity n) (line arrived : List Nat) : Prop :=
  ∀ v, ofVruntime entity v line = ofVruntime entity v arrived

section Order

variable {entity : Nat → SchedEntity n} {before after arrived line : List Nat} {e lead v : Nat}

theorem ofVruntime_append (v : Nat) (l l' : List Nat) :
    ofVruntime entity v (l ++ l') = ofVruntime entity v l ++ ofVruntime entity v l' :=
  List.filter_append ..

theorem ofVruntime_nil (habsent : ∀ f ∈ line, (entity f).vruntime ≠ v) :
    ofVruntime entity v line = [] :=
  List.filter_eq_nil_iff.mpr fun f hf => by simpa using habsent f hf

/-- An entity put in front of those with a larger virtual runtime is the last of its own. -/
theorem ofVruntime_insert (hafter : ∀ f ∈ after, (entity e).vruntime < (entity f).vruntime) (v : Nat) :
    ofVruntime entity v (before ++ e :: after) =
      ofVruntime entity v (before ++ after) ++ ofVruntime entity v [e] := by
  rw [← List.singleton_append, ofVruntime_append, ofVruntime_append, ofVruntime_append]
  by_cases hv : (entity e).vruntime = v
  · have hnone : ofVruntime entity v after = [] :=
      ofVruntime_nil fun f hf => by
        have hlt := hafter f hf
        rw [hv] at hlt
        exact hlt.ne'
    rw [hnone, List.append_nil, List.append_nil]
  · have hnone : ofVruntime entity v [e] = [] :=
      ofVruntime_nil fun f hf => by rwa [List.mem_singleton.mp hf]
    rw [hnone, List.nil_append, List.append_nil]

/-- **The order of arrival** survives an insertion behind the equal keys. -/
theorem Stable.insert (h : Stable entity (before ++ after) arrived)
    (hafter : ∀ f ∈ after, (entity e).vruntime < (entity f).vruntime) :
    Stable entity (before ++ e :: after) (arrived ++ [e]) := by
  intro v
  calc ofVruntime entity v (before ++ e :: after)
      = ofVruntime entity v (before ++ after) ++ ofVruntime entity v [e] := ofVruntime_insert hafter v
    _ = ofVruntime entity v arrived ++ ofVruntime entity v [e] := by rw [h v]
    _ = _ := (ofVruntime_append v arrived [e]).symm

/-- The first in line is the first that arrived with the virtual runtime of it. -/
theorem Stable.first (h : Stable entity (lead :: line) arrived) :
    arrived.find? (fun f => decide ((entity f).vruntime = (entity lead).vruntime)) = some lead := by
  rw [← List.head?_filter]
  have hfilter := h (entity lead).vruntime
  unfold ofVruntime at hfilter
  rw [← hfilter, List.filter_cons_of_pos (by simp), List.head?_cons]

end Order

/-! ### The operations -/

variable {fair : Fair n} {t : RbTree Nat} {s : FairSys n} {e : Nat} {u : Fin n}

theorem FairQueue.length_le (h : FairQueue fair t) : t.toList.length ≤ fair.allocated := by
  have hsub : t.toList ⊆ List.range fair.allocated :=
    fun e he => List.mem_range.mpr (h.bounded e he)
  have hle := (List.subperm_of_subset h.shape.nodup hsub).length_le
  rwa [List.length_range] at hle

/-- The leftmost entity is the first in line. -/
theorem FairQueue.leftmost_eq (h : FairQueue fair t) : leftmost fair = some t.toList.head? := by
  rw [leftmost, h.shape.root]
  cases t with
  | leaf => rfl
  | node c a y b =>
    obtain ⟨x, rest, hlist, hwalk⟩ := h.shape.nodes.walkLast_left h.length_le
    simp only [RbTree.top]
    rw [hwalk, hlist]
    rfl

/-- **Enqueue** of an entity that is not in the tree. -/
theorem FairQueue.enqueue (h : FairQueue fair t) (he : e < fair.allocated)
    (hfresh : e ∉ t.toList) :
    ∃ tree t' before after, enqueueEntity fair e = some { fair with tree } ∧
      FairQueue { fair with tree } t' ∧ t.toList = before ++ after ∧
      t'.toList = before ++ e :: after ∧
      (∀ f ∈ before, (fair.entity f).vruntime ≤ (fair.entity e).vruntime) ∧
      ∀ f ∈ after, (fair.entity e).vruntime < (fair.entity f).vruntime := by
  obtain ⟨k, hbalanced⟩ := h.balanced
  obtain ⟨slot, m', t', before, after, hdescend, hrun, hrep, hbalanced', hsplit, hlist, hbefore,
    hafter⟩ :=
    insert_sorted (fun _ => .left) h.shape hbalanced hfresh h.sorted h.length_le h.length_le
  refine ⟨m', t', before, after, ?_, ⟨hrep, hbalanced', ?_, ?_⟩, hsplit, hlist, hbefore, hafter⟩
  · rw [enqueueEntity, hdescend, Option.bind_some, hrun, Option.map_some]
  · have hsorted := h.sorted
    rw [hsplit] at hsorted
    rw [hlist]
    exact sorted_insert hsorted hbefore fun f hf => (hafter f hf).le
  · intro f hf
    rw [hlist, List.perm_middle.mem_iff, ← hsplit] at hf
    rcases List.mem_cons.mp hf with rfl | hold
    · exact he
    · exact h.bounded f hold

/-- The first entity in line has the least virtual runtime, and `scheduler_min_vruntime`
returns it. -/
theorem FairQueue.first (h : FairQueue fair t) (hne : t.toList ≠ []) :
    ∃ first rest, t.toList = first :: rest ∧ leftmost fair = some (some first) ∧
      schedulerMinVruntime fair = some (fair.entity first).vruntime ∧
      ∀ f ∈ t.toList, (fair.entity first).vruntime ≤ (fair.entity f).vruntime := by
  obtain ⟨first, rest, hlist⟩ := List.exists_cons_of_ne_nil hne
  have hleft : leftmost fair = some (some first) := by
    rw [h.leftmost_eq, hlist]
    rfl
  have hsorted := h.sorted
  rw [hlist] at hsorted
  refine ⟨first, rest, hlist, hleft, ?_, ?_⟩
  · rw [schedulerMinVruntime, hleft]
    rfl
  · intro f hf
    rw [hlist] at hf
    rcases List.mem_cons.mp hf with rfl | hmem
    · exact Nat.le_refl _
    · exact (List.pairwise_cons.mp hsorted).1 f hmem

/-- **Fair-queue insertion.** The entity goes behind those of its virtual runtime or a
smaller one and before the others. The leftmost entity then has the least virtual runtime,
and is the first that arrived with it. -/
theorem enqueue_task_fair_in_order (h : FairQueue s.fair t)
    (hdata : (s.sys.taskList u).schedulerData = .fair e) (he : e < s.fair.allocated)
    (hfresh : e ∉ t.toList) :
    ∃ fair' t' before after first,
      enqueueTaskFair s (some u) = some { s with fair := fair' } ∧
      fair'.entity = s.fair.entity ∧ FairQueue fair' t' ∧
      t.toList = before ++ after ∧ t'.toList = before ++ e :: after ∧
      (∀ f ∈ before, (s.fair.entity f).vruntime ≤ (s.fair.entity e).vruntime) ∧
      (∀ f ∈ after, (s.fair.entity e).vruntime < (s.fair.entity f).vruntime) ∧
      first ∈ t'.toList ∧ leftmost fair' = some (some first) ∧
      schedulerMinVruntime fair' = some (s.fair.entity first).vruntime ∧
      (∀ f ∈ t'.toList, (s.fair.entity first).vruntime ≤ (s.fair.entity f).vruntime) ∧
      ∀ arrived, Stable s.fair.entity t.toList arrived →
        Stable s.fair.entity t'.toList (arrived ++ [e]) ∧
        (arrived ++ [e]).find?
          (fun f => decide ((s.fair.entity f).vruntime = (s.fair.entity first).vruntime)) =
            some first := by
  obtain ⟨tree, t', before, after, hrun, hqueue, hsplit, hlist, hbefore, hafter⟩ :=
    h.enqueue he hfresh
  have hne : t'.toList ≠ [] := by simp [hlist]
  obtain ⟨first, rest, hcons, hleft, hmin, hleast⟩ := hqueue.first hne
  refine ⟨{ s.fair with tree }, t', before, after, first, ?_, rfl, hqueue, hsplit, hlist, hbefore,
    hafter, ?_, hleft, hmin, hleast, fun arrived hstable => ?_⟩
  · simp only [enqueueTaskFair, hdata, hrun, Option.map_some]
  · rw [hcons]
    exact List.mem_cons_self
  · rw [hsplit] at hstable
    have hstable' := hstable.insert hafter
    rw [← hlist] at hstable'
    refine ⟨hstable', ?_⟩
    rw [hcons] at hstable'
    exact hstable'.first

/-- Two tasks whose entities have one virtual runtime; the first entity is the tree. -/
def tiedPair : FairSys 2 where
  sys :=
    { taskList := fun u => { Task.zeroed 2 with schedulerData := .fair u.val }
      currentTask := none
      idleTask := none
      taskCount := 2
      stackAllocs := []
      stackFrees := [] }
  fair :=
    { tree :=
        { node := fun _ => { parent := none, left := none, right := none, color := .black }
          root := some 0 }
      entity := fun _ =>
        { vruntime := 5, weight := 1024, minGranularity := 0, execStart := 0, sumExecRuntime := 0,
          task := .last 1 }
      allocated := 2 }

theorem enqueue_task_fair_in_order_tied :
    ∃ fair', enqueueTaskFair tiedPair (some (.last 1)) = some { tiedPair with fair := fair' } ∧
      leftmost fair' = some (some 0) ∧ schedulerMinVruntime fair' = some 5 := by
  have hqueue : FairQueue tiedPair.fair (.node .black .leaf 0 .leaf) :=
    { shape := { root := rfl, nodes := ⟨rfl, trivial, trivial⟩, nodup := List.nodup_singleton 0 }
      balanced := ⟨1, .black .leaf .leaf⟩
      sorted := List.pairwise_singleton _ 0
      bounded := by decide }
  obtain ⟨fair', t', before, after, first, hrun, -, -, -, -, -, -, -, hleft, hmin, -, hstable⟩ :=
    enqueue_task_fair_in_order (u := .last 1) (e := 1) hqueue rfl (by decide) (by decide)
  have hfirst := (hstable [0] fun _ => rfl).2
  obtain rfl : 0 = first := Option.some_inj.mp hfirst
  exact ⟨fair', hrun, hleft, hmin⟩

/-! ### From the empty tree -/

/-- `enqueue_task_fair` of the tasks, one after the other. -/
def enqueueTasksFair (s : FairSys n) (us : List (Fin n)) : Option (FairSys n) :=
  us.foldlM (fun s u => enqueueTaskFair s (some u)) s

/-- Entities enqueued one after the other stand in line as they arrived. -/
theorem enqueueTasksFair_stable {entityOf : Fin n → Nat} {us : List (Fin n)} {arrived : List Nat}
    (h : FairQueue s.fair t) (hstable : Stable s.fair.entity t.toList arrived)
    (hdata : ∀ u ∈ us, (s.sys.taskList u).schedulerData = .fair (entityOf u))
    (halloc : ∀ u ∈ us, entityOf u < s.fair.allocated)
    (hfresh : (us.map entityOf ++ t.toList).Nodup) :
    ∃ fair' t', enqueueTasksFair s us = some { s with fair := fair' } ∧ FairQueue fair' t' ∧
      Stable fair'.entity t'.toList (arrived ++ us.map entityOf) := by
  induction us generalizing s t arrived with
  | nil =>
    refine ⟨s.fair, t, rfl, h, ?_⟩
    rwa [List.map_nil, List.append_nil]
  | cons u us ih =>
    rw [List.map_cons, List.cons_append, List.nodup_cons] at hfresh
    obtain ⟨hnew, hrest⟩ := hfresh
    have he := halloc u List.mem_cons_self
    obtain ⟨tree, t₁, before, after, hrun, hqueue, hsplit, hlist, -, hafter⟩ :=
      h.enqueue he fun hmem => hnew (List.mem_append_right _ hmem)
    rw [hsplit] at hstable
    have hstable₁ := hstable.insert hafter
    rw [← hlist] at hstable₁
    have hperm : (us.map entityOf ++ t₁.toList).Perm
        (entityOf u :: (us.map entityOf ++ t.toList)) := by
      rw [hlist, hsplit]
      exact (List.perm_middle.append_left _).trans List.perm_middle
    have hfresh₁ := hperm.nodup_iff.mpr (List.nodup_cons.mpr ⟨hnew, hrest⟩)
    obtain ⟨fair', t', hrun', hqueue', hstable'⟩ :=
      ih (s := { s with fair := { s.fair with tree } }) hqueue hstable₁
        (fun v hv => hdata v (List.mem_cons_of_mem _ hv))
        (fun v hv => halloc v (List.mem_cons_of_mem _ hv)) hfresh₁
    refine ⟨fair', t', ?_, hqueue', ?_⟩
    · have hone : enqueueTaskFair s (some u) = some { s with fair := { s.fair with tree } } := by
        simp only [enqueueTaskFair, hdata u List.mem_cons_self, hrun, Option.map_some]
      rw [enqueueTasksFair, List.foldlM_cons, hone]
      exact hrun'
    · rw [List.append_assoc, List.singleton_append] at hstable'
      exact hstable'

end ArmKernel.Sched

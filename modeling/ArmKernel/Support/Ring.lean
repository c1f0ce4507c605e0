/-
Circular doubly-linked lists.

Every node has a `next` and a `prev` pointer. `Linked next prev l` says that the
consecutive nodes of `l` point at each other, and a ring with head `h` and further
nodes `rest` is the closed walk `Ring next prev h rest`: `h`, the nodes of `rest`,
and `h` again. The node before the head is then the last one (`Ring.prev_head`).

The two edits of a queue kept as a ring are `Ring.insert_last`, which links a new
node in before the head, and `Ring.remove_last`, which unlinks the last one.
`Linked.transport` is the frame rule: a walk reads `next` of all its nodes but the
last and `prev` of all but the first.
-/
import Mathlib.Data.List.Nodup
import Mathlib.Logic.Function.Basic

namespace ArmKernel.Support

variable {P : Type*} {next prev next' prev' : P → P} {h x y z : P} {l l₁ l₂ rest : List P}

/-- Consecutive nodes point at each other. -/
def Linked (next prev : P → P) : List P → Prop
  | x :: y :: l => next x = y ∧ prev y = x ∧ Linked next prev (y :: l)
  | _ => True

/-- The ring of the head `h` and the nodes of `rest`, in `next` order. -/
def Ring (next prev : P → P) (h : P) (rest : List P) : Prop :=
  Linked next prev (h :: rest ++ [h])

@[simp] theorem linked_singleton : Linked next prev [x] := trivial

@[simp] theorem linked_cons_cons :
    Linked next prev (x :: y :: l) ↔ next x = y ∧ prev y = x ∧ Linked next prev (y :: l) :=
  Iff.rfl

/-- A walk through `x` is a walk to `x` and a walk from `x`. -/
theorem linked_append :
    Linked next prev (l₁ ++ x :: l₂) ↔
      Linked next prev (l₁ ++ [x]) ∧ Linked next prev (x :: l₂) := by
  induction l₁ with
  | nil => simp
  | cons a l₁ ih =>
    cases l₁ with
    | nil => simp [and_assoc]
    | cons b l₁ =>
      simp only [List.cons_append, linked_cons_cons] at ih ⊢
      rw [ih, and_assoc, and_assoc]

/-- **Frame rule.** A walk survives in a store that agrees on `next` of all nodes
but the last and on `prev` of all but the first. -/
theorem Linked.transport (hl : Linked next prev l) (hnext : ∀ x ∈ l.dropLast, next' x = next x)
    (hprev : ∀ y ∈ l.tail, prev' y = prev y) : Linked next' prev' l := by
  induction l with
  | nil => trivial
  | cons x l ih =>
    cases l with
    | nil => trivial
    | cons y l =>
      obtain ⟨hn, hp, hrest⟩ := hl
      refine ⟨?_, ?_, ih hrest (fun a ha => hnext a ?_) (fun b hb => hprev b ?_)⟩
      · rw [hnext x (by simp), hn]
      · rw [hprev y (by simp), hp]
      · simp [ha]
      · exact List.mem_of_mem_tail hb

/-- Both ends of a nonempty walk written as a list with a first and a last node. -/
theorem exists_append_singleton (h : P) (rest : List P) : ∃ l last, h :: rest = l ++ [last] :=
  ⟨(h :: rest).dropLast, (h :: rest).getLast (by simp), (List.dropLast_append_getLast _).symm⟩

/-- The node before the head is the last one, and the last one leads to the head. -/
theorem Ring.prev_head {last : P} (hring : Ring next prev h rest) (hlast : h :: rest = l ++ [last]) :
    prev h = last ∧ next last = h := by
  unfold Ring at hring
  rw [hlast, List.append_assoc, List.singleton_append, linked_append] at hring
  exact ⟨hring.2.2.1, hring.2.1⟩

/-- The walk from the head to the last node. -/
theorem Ring.linked (hring : Ring next prev h rest) : Linked next prev (h :: rest) := by
  obtain ⟨l, last, hlast⟩ := exists_append_singleton h rest
  unfold Ring at hring
  rw [hlast, List.append_assoc, List.singleton_append, linked_append] at hring
  rw [hlast]
  exact hring.1

/-- A node that points at itself both ways is a ring. -/
theorem ring_singleton (hnext : next x = x) (hprev : prev x = x) : Ring next prev x [] :=
  ⟨hnext, hprev, trivial⟩

/-- Closing a walk gives a ring. -/
theorem ring_of_linked {last : P} (hlinked : Linked next prev (h :: rest))
    (hlast : h :: rest = l ++ [last]) (hnext : next last = h) (hprev : prev h = last) :
    Ring next prev h rest := by
  unfold Ring
  rw [hlast, List.append_assoc, List.singleton_append, linked_append, ← hlast]
  exact ⟨hlinked, hnext, hprev, trivial⟩

section Edits

variable [DecidableEq P]

/-- **Insert before the head.** Four pointers are written: both of the new node,
`next` of the old last node and `prev` of the head. -/
theorem Ring.insert_last {c : P} (hring : Ring next prev h rest) (hnodup : (h :: rest).Nodup)
    (hc : c ∉ h :: rest) :
    Ring (Function.update (Function.update next c h) (prev h) c)
      (Function.update (Function.update prev c (prev h)) h c) h (rest ++ [c]) := by
  obtain ⟨l, last, hlast⟩ := exists_append_singleton h rest
  obtain ⟨hprev, -⟩ := hring.prev_head hlast
  have hch : c ≠ h := fun e => hc (by simp [e])
  have hclast : c ≠ last := fun e => hc (by rw [hlast]; simp [e])
  rw [hprev]
  -- The walk from the head to the old last node is not touched.
  have hwalk : Linked (Function.update (Function.update next c h) last c)
      (Function.update (Function.update prev c last) h c) (h :: rest) := by
    refine hring.linked.transport ?_ ?_
    · intro a ha
      rw [hlast, List.dropLast_concat] at ha
      have hne : a ≠ last := by
        rintro rfl
        rw [hlast] at hnodup
        exact (List.disjoint_of_nodup_append hnodup) ha (by simp)
      have hac : a ≠ c := fun e => hc (by rw [hlast]; simp [← e, ha])
      rw [Function.update_of_ne hne, Function.update_of_ne hac]
    · intro b hb
      have hb' : b ∈ rest := hb
      have hne : b ≠ h := by
        rintro rfl
        exact (List.nodup_cons.mp hnodup).1 hb'
      have hbc : b ≠ c := fun e => hc (by simp [← e, hb'])
      rw [Function.update_of_ne hne, Function.update_of_ne hbc]
  refine ring_of_linked (l := h :: rest) ?_ rfl ?_ ?_
  · show Linked _ _ (h :: rest ++ [c])
    rw [hlast, List.append_assoc, List.singleton_append, linked_append, ← hlast]
    refine ⟨hwalk, by simp, ?_, trivial⟩
    rw [Function.update_of_ne hch, Function.update_self]
  · rw [Function.update_of_ne hclast, Function.update_self]
  · simp

/-- **Remove the last node.** Two pointers are written: `next` of the node before
it and `prev` of the head. -/
theorem Ring.remove_last {o : P} (hring : Ring next prev h (rest ++ [o]))
    (hnodup : (h :: (rest ++ [o])).Nodup) :
    Ring (Function.update next (prev o) (next o)) (Function.update prev (next o) (prev o))
      h rest := by
  obtain ⟨l, last, hlast⟩ := exists_append_singleton h rest
  have hall : h :: (rest ++ [o]) = (h :: rest) ++ [o] := rfl
  obtain ⟨-, hnexto⟩ := hring.prev_head hall
  have hwalk := hring.linked
  rw [hall, hlast, List.append_assoc, List.singleton_append, linked_append] at hwalk
  have hprevo : prev o = last := hwalk.2.2.1
  rw [hnexto, hprevo]
  have hkept : Linked (Function.update next last h) (Function.update prev h last) (h :: rest) := by
    have hold : Linked next prev (h :: rest) := by
      rw [hlast]
      exact hwalk.1
    have hnd : (h :: rest).Nodup := by
      rw [hall] at hnodup
      exact hnodup.of_append_left
    refine hold.transport ?_ ?_
    · intro a ha
      rw [hlast, List.dropLast_concat] at ha
      refine Function.update_of_ne ?_ _ _
      rintro rfl
      rw [hlast] at hnd
      exact (List.disjoint_of_nodup_append hnd) ha (by simp)
    · intro b hb
      refine Function.update_of_ne ?_ _ _
      rintro rfl
      exact (List.nodup_cons.mp hnd).1 hb
  exact ring_of_linked hkept hlast (by simp) (by simp)

end Edits

end ArmKernel.Support

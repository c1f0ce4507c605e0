/-
Tables that keep their entries in the first slots of an array.

`filled slot count` lists the entries. A new entry goes behind the last one
(`filled_push`); an entry is removed by moving the last one into its slot, which keeps
the other entries but not their order (`filled_swapRemove`).
-/
import Mathlib.Data.List.Perm.Basic
import Mathlib.Data.List.Range
import Mathlib.Logic.Function.Basic

namespace ArmKernel.Support

variable {α : Type*}

/-- The entries of a table of which the first `count` slots are in use. -/
def filled (slot : Nat → α) (count : Nat) : List α := (List.range count).map slot

@[simp] theorem length_filled (slot : Nat → α) (count : Nat) :
    (filled slot count).length = count := by
  rw [filled, List.length_map, List.length_range]

@[simp] theorem filled_zero (slot : Nat → α) : filled slot 0 = [] := rfl

theorem filled_succ (slot : Nat → α) (count : Nat) :
    filled slot (count + 1) = filled slot count ++ [slot count] := by
  rw [filled, List.range_succ, List.map_append]
  rfl

theorem mem_filled {slot : Nat → α} {count : Nat} {a : α} :
    a ∈ filled slot count ↔ ∃ i < count, slot i = a := by
  simp only [filled, List.mem_map, List.mem_range]

/-- A slot behind the entries does not matter. -/
theorem filled_update_of_le {count i : Nat} (slot : Nat → α) (a : α) (h : count ≤ i) :
    filled (Function.update slot i a) count = filled slot count := by
  refine List.map_congr_left ?_
  intro j hj
  exact Function.update_of_ne (Nat.ne_of_lt (Nat.lt_of_lt_of_le (List.mem_range.mp hj) h)) a slot

/-- A new entry goes behind the last one. -/
theorem filled_push (slot : Nat → α) (count : Nat) (a : α) :
    filled (Function.update slot count a) (count + 1) = filled slot count ++ [a] := by
  rw [filled_succ, filled_update_of_le slot a (Nat.le_refl count), Function.update_self]

/-- An entry overwritten in place leaves the list for the new one. -/
theorem filled_update_perm {count i : Nat} (slot : Nat → α) (a : α) (h : i < count) :
    (slot i :: filled (Function.update slot i a) count).Perm (a :: filled slot count) := by
  induction count with
  | zero => exact absurd h (Nat.not_lt_zero i)
  | succ count ih =>
    rw [filled_succ, filled_succ, ← List.cons_append, ← List.cons_append]
    rcases Nat.lt_succ_iff_lt_or_eq.mp h with hlt | rfl
    · rw [Function.update_of_ne (Nat.ne_of_gt hlt)]
      exact (ih hlt).append_right [slot count]
    · rw [filled_update_of_le slot a (Nat.le_refl i), Function.update_self]
      calc slot i :: filled slot i ++ [a]
          = (slot i :: filled slot i) ++ [a] := rfl
        List.Perm _ (a :: (slot i :: filled slot i)) := List.perm_append_singleton a _
        List.Perm _ (a :: (filled slot i ++ [slot i])) :=
          (List.perm_append_singleton (slot i) (filled slot i)).symm.cons a

/-- **Removal.** When the last entry takes the slot of another, that one is gone and the
rest stay. -/
theorem filled_swapRemove {count i : Nat} (slot : Nat → α) (h : i < count + 1) :
    (slot i :: filled (Function.update slot i (slot count)) count).Perm
      (filled slot (count + 1)) := by
  rw [filled_succ]
  rcases Nat.lt_succ_iff_lt_or_eq.mp h with hlt | rfl
  · exact (filled_update_perm slot (slot count) hlt).trans
      (List.perm_append_singleton (slot count) (filled slot count)).symm
  · rw [filled_update_of_le slot (slot i) (Nat.le_refl i)]
    exact (List.perm_append_singleton (slot i) (filled slot i)).symm

end ArmKernel.Support

/-
Circular buffers.

A buffer of `cap` slots is a function of the slot number. `window slots cap head n`
lists the `n` slots from `head` on, going back to slot 0 behind slot `cap - 1`.

* A window is cut anywhere (`window_add`), and its last slot is `window_succ`.
* `index_inj`: fewer than `cap` steps apart, two slots of a window are different, so a
  write behind a window leaves it alone (`window_congr`).
* `window_eq_two_parts`: a window is read in at most two straight pieces.
* `window_shift`: moving each of the first `k` slots one further and dropping the
  first one takes the element number `k` out of the window.
-/
import Mathlib.Data.List.Basic
import Mathlib.Data.List.Infix
import Mathlib.Algebra.Order.Group.Nat
import Mathlib.Data.Nat.ModEq

namespace ArmKernel.Support

variable {α : Type*} {slots slots' : Nat → α} {cap head i j k m n : Nat}

/-- The slot `i` places behind `head`. -/
def index (cap head i : Nat) : Nat := (head + i) % cap

/-- The `n` slots from `head` on. -/
def window (slots : Nat → α) (cap head n : Nat) : List α :=
  (List.range n).map fun i => slots (index cap head i)

theorem index_lt (hcap : 0 < cap) : index cap head i < cap := Nat.mod_lt _ hcap

@[simp] theorem index_zero (h : head < cap) : index cap head 0 = head := Nat.mod_eq_of_lt h

@[simp] theorem index_index : index cap (index cap head i) j = index cap head (i + j) := by
  simp only [index, Nat.mod_add_mod, Nat.add_assoc]

/-- Slots less than a round apart are different. -/
theorem index_inj (hi : i < cap) (hj : j < cap) (h : index cap head i = index cap head j) :
    i = j := by
  have hmod : i % cap = j % cap := Nat.ModEq.add_left_cancel' head h
  rwa [Nat.mod_eq_of_lt hi, Nat.mod_eq_of_lt hj] at hmod

@[simp] theorem window_length : (window slots cap head n).length = n := by simp [window]

@[simp] theorem window_zero : window slots cap head 0 = [] := rfl

theorem getElem_window (h : i < (window slots cap head n).length) :
    (window slots cap head n)[i] = slots (index cap head i) := by
  simp [window]

/-- **Cutting.** A window is a window and the window behind it. -/
theorem window_add :
    window slots cap head (m + n) =
      window slots cap head m ++ window slots cap (index cap head m) n := by
  simp [window, List.range_add, Function.comp_def]

theorem window_succ :
    window slots cap head (n + 1) = window slots cap head n ++ [slots (index cap head n)] := by
  simp [window, List.range_succ]

/-- **Frame.** A window depends on its own slots only. -/
theorem window_congr (h : ∀ i < n, slots' (index cap head i) = slots (index cap head i)) :
    window slots' cap head n = window slots cap head n := by
  apply List.map_congr_left
  intro i hi
  exact h i (List.mem_range.mp hi)

/-- The front part of a window. -/
theorem take_window (h : m ≤ n) : (window slots cap head n).take m = window slots cap head m := by
  obtain ⟨k, rfl⟩ := Nat.exists_eq_add_of_le h
  rw [window_add, List.take_left' window_length]

/-- What is behind the front part. -/
theorem drop_window (h : m ≤ n) :
    (window slots cap head n).drop m = window slots cap (index cap head m) (n - m) := by
  obtain ⟨k, rfl⟩ := Nat.exists_eq_add_of_le h
  rw [window_add, List.drop_left' window_length, Nat.add_sub_cancel_left]

/-- A straight piece, without going round. -/
theorem window_straight (h : head + n ≤ cap) :
    window slots cap head n = (List.range n).map fun i => slots (head + i) := by
  apply List.map_congr_left
  intro i hi
  have hlt : i < n := List.mem_range.mp hi
  rw [index, Nat.mod_eq_of_lt (by omega)]

/-- **Going round.** A window that passes the end is the piece up to the end and the
piece from slot 0 on. -/
theorem window_eq_two_parts (hhead : head < cap) (hn : n ≤ cap) (hround : cap - head ≤ n) :
    window slots cap head n =
      ((List.range (cap - head)).map fun i => slots (head + i)) ++
        (List.range (n - (cap - head))).map slots := by
  have hend : index cap head (cap - head) = 0 := by
    rw [index, Nat.add_sub_cancel' (by omega), Nat.mod_self]
  have hsplit : n = (cap - head) + (n - (cap - head)) := by omega
  rw [hsplit, window_add, hend, window_straight (by omega), window_straight (by omega),
    Nat.add_sub_cancel_left]
  simp

/-- **Taking out one element.** When the slots `1 .. k` of the window hold what was
one slot before each of them and the slots behind `k` are as before, then the window
without its first slot is the old window without the element number `k`. -/
theorem window_shift (hk : k < n)
    (moved : ∀ i < k, slots' (index cap head (i + 1)) = slots (index cap head i))
    (kept : ∀ i, k < i → i < n → slots' (index cap head i) = slots (index cap head i)) :
    window slots' cap (index cap head 1) (n - 1) = (window slots cap head n).eraseIdx k := by
  apply List.ext_getElem
  · simp [List.length_eraseIdx, hk]
  · intro i hi hi'
    have hin : i < n - 1 := by simpa using hi
    rw [getElem_window, index_index, Nat.add_comm 1 i, List.getElem_eraseIdx]
    split
    · rename_i hlt
      rw [moved i hlt, getElem_window]
    · rename_i hge
      rw [kept (i + 1) (by omega) (by omega), getElem_window]

end ArmKernel.Support

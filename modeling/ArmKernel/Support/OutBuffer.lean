/-
Output through a pointer into an allocated block.

An `OutBuffer` is a block of `size` bytes. A write outside the block has no result, so a
program that writes through a pointer stays inside its block exactly when it has one.
`Begins b l` says that the first bytes of the block are `l`; `begins_write` and
`begins_writeAll` are the writes of a pointer that stands behind them.

`cString` is the string in the block, up to the first zero.
-/
import Mathlib.Data.List.Basic
import Mathlib.Logic.Function.Basic

namespace ArmKernel.Support

/-- A block of memory, with what is in it. -/
structure OutBuffer where
  size : Nat
  bytes : Nat → BitVec 8

namespace OutBuffer

/-- One byte at `i`. -/
def write (b : OutBuffer) (i : Nat) (x : BitVec 8) : Option OutBuffer :=
  if i < b.size then some { b with bytes := Function.update b.bytes i x } else none

/-- The bytes of a list from `i` on. -/
def writeAll : OutBuffer → Nat → List (BitVec 8) → Option OutBuffer
  | b, _, [] => some b
  | b, i, x :: xs => (b.write i x).bind fun b => b.writeAll (i + 1) xs

/-- The block with the bytes of a list from `i` on. -/
def put (b : OutBuffer) (i : Nat) (xs : List (BitVec 8)) : OutBuffer :=
  { b with bytes := fun j => if i ≤ j ∧ j < i + xs.length then xs[j - i]?.getD 0 else b.bytes j }

/-- What is in the block. -/
def contents (b : OutBuffer) : List (BitVec 8) := (List.range b.size).map b.bytes

/-- The string at the beginning of the block. -/
def cString (b : OutBuffer) : List (BitVec 8) := b.contents.takeWhile (· ≠ 0)

/-- The block begins with the bytes of the list. -/
def Begins (b : OutBuffer) (l : List (BitVec 8)) : Prop := ∀ i (h : i < l.length), b.bytes i = l[i]

section Writes

variable {b b' : OutBuffer} {l xs : List (BitVec 8)} {x : BitVec 8} {n : Nat}

theorem begins_nil (b : OutBuffer) : b.Begins [] := fun _ h => absurd h (Nat.not_lt_zero _)

theorem Begins.left (h : b.Begins (l ++ xs)) : b.Begins l := by
  intro i hi
  have hall : i < (l ++ xs).length := by
    rw [List.length_append]
    omega
  rw [h i hall, List.getElem_append_left hi]

/-- **A write** behind what is there. -/
theorem begins_write (h : b.Begins l) (hroom : l.length < b.size) (x : BitVec 8) :
    ∃ b', b.write l.length x = some b' ∧ b'.size = b.size ∧ b'.Begins (l ++ [x]) := by
  refine ⟨_, if_pos hroom, rfl, ?_⟩
  intro i hi
  rcases Nat.lt_or_ge i l.length with hlt | hge
  · rw [List.getElem_append_left hlt]
    exact (Function.update_of_ne (Nat.ne_of_lt hlt) _ _).trans (h i hlt)
  · have hi' : i = l.length := by
      rw [List.length_append, List.length_singleton] at hi
      omega
    subst hi'
    rw [List.getElem_append_right (Nat.le_refl _)]
    simp

/-- **Several writes** behind what is there. -/
theorem begins_writeAll (h : b.Begins l) (hroom : l.length + xs.length ≤ b.size) :
    ∃ b', b.writeAll l.length xs = some b' ∧ b'.size = b.size ∧ b'.Begins (l ++ xs) := by
  induction xs generalizing b l with
  | nil => exact ⟨b, rfl, rfl, (List.append_nil l).symm ▸ h⟩
  | cons x xs ih =>
    rw [List.length_cons] at hroom
    obtain ⟨b₁, hwrite, hsize, hbegins⟩ := begins_write h (by omega) x
    have hlength : (l ++ [x]).length = l.length + 1 := List.length_append
    obtain ⟨b', hrest, hsize', hbegins'⟩ := ih hbegins (by omega)
    refine ⟨b', ?_, hsize'.trans hsize, ?_⟩
    · rw [writeAll, hwrite, Option.bind_some, ← hlength]
      exact hrest
    · rwa [List.append_assoc, List.singleton_append] at hbegins'

/-- Writes that stay inside the block. -/
theorem writeAll_inside {i : Nat} (h : i + xs.length ≤ b.size) :
    ∃ b', b.writeAll i xs = some b' ∧ b'.size = b.size := by
  induction xs generalizing b i with
  | nil => exact ⟨b, rfl, rfl⟩
  | cons x xs ih =>
    rw [List.length_cons] at h
    have hwrite : b.write i x = some { b with bytes := Function.update b.bytes i x } :=
      if_pos (by omega)
    have hroom : i + 1 + xs.length ≤ b.size := by omega
    obtain ⟨b', hrest, hsize⟩ :=
      @ih { b with bytes := Function.update b.bytes i x } (i + 1) hroom
    refine ⟨b', ?_, hsize⟩
    rw [writeAll, hwrite, Option.bind_some]
    exact hrest

theorem put_size (b : OutBuffer) (i : Nat) (xs : List (BitVec 8)) :
    (b.put i xs).size = b.size := rfl

theorem put_bytes (b : OutBuffer) (i : Nat) (xs : List (BitVec 8)) (j : Nat) :
    (b.put i xs).bytes j =
      if i ≤ j ∧ j < i + xs.length then xs[j - i]?.getD 0 else b.bytes j := rfl

/-- Blocks of one size with the same bytes. -/
theorem eq_of_bytes (hsize : b.size = b'.size) (hbytes : ∀ j, b.bytes j = b'.bytes j) : b = b' := by
  obtain ⟨size, bytes⟩ := b
  obtain ⟨size', bytes'⟩ := b'
  cases hsize
  cases (funext hbytes : bytes = bytes')
  rfl

theorem put_nil (b : OutBuffer) (i : Nat) : b.put i [] = b := by
  refine eq_of_bytes rfl fun j => ?_
  rw [put_bytes, if_neg fun h => absurd h.2 (Nat.not_lt.mpr h.1)]

/-- One write is a list of one byte. -/
theorem write_eq_put (b : OutBuffer) (i : Nat) (x : BitVec 8) :
    b.write i x = if i + 1 ≤ b.size then some (b.put i [x]) else none := by
  have hput : { b with bytes := Function.update b.bytes i x } = b.put i [x] := by
    refine eq_of_bytes rfl fun j => ?_
    rw [put_bytes, List.length_singleton]
    show Function.update b.bytes i x j = _
    by_cases hj : j = i
    · subst hj
      rw [Function.update_self, if_pos ⟨Nat.le_refl j, Nat.lt_succ_self j⟩, Nat.sub_self]
      rfl
    · have hout : ¬(i ≤ j ∧ j < i + 1) := by omega
      rw [Function.update_of_ne hj, if_neg hout]
  rw [write, hput]
  rfl

/-- Bytes put behind others are put together with them. -/
theorem put_put_right (b : OutBuffer) (i : Nat) (xs ys : List (BitVec 8)) :
    (b.put i xs).put (i + xs.length) ys = b.put i (xs ++ ys) := by
  refine eq_of_bytes rfl fun j => ?_
  rw [put_bytes, put_bytes, put_bytes, List.length_append]
  rcases Nat.lt_or_ge j (i + xs.length) with hleft | hright
  · have hnot : ¬(i + xs.length ≤ j ∧ j < i + xs.length + ys.length) :=
      fun h => absurd hleft (Nat.not_lt.mpr h.1)
    rw [if_neg hnot]
    by_cases hlow : i ≤ j
    · have hindex : j - i < xs.length := by omega
      have hall : j < i + (xs.length + ys.length) := by omega
      rw [if_pos ⟨hlow, hleft⟩, if_pos ⟨hlow, hall⟩, List.getElem?_append_left hindex]
    · rw [if_neg fun h => hlow h.1, if_neg fun h => hlow h.1]
  · have hnot : ¬(i ≤ j ∧ j < i + xs.length) := fun h => absurd h.2 (Nat.not_lt.mpr hright)
    have hlow : i ≤ j := Nat.le_trans (Nat.le_add_right i xs.length) hright
    have hindex : xs.length ≤ j - i := Nat.le_sub_of_add_le' hright
    rw [if_neg hnot, List.getElem?_append_right hindex, Nat.sub_sub, Nat.add_assoc]
    simp only [hlow, hright, true_and]

/-- Bytes put in front of others. -/
theorem put_put_left (b : OutBuffer) (i : Nat) (xs ys : List (BitVec 8)) :
    (b.put (i + xs.length) ys).put i xs = b.put i (xs ++ ys) := by
  rw [← put_put_right]
  refine eq_of_bytes rfl fun j => ?_
  rw [put_bytes, put_bytes, put_bytes, put_bytes]
  by_cases hleft : i ≤ j ∧ j < i + xs.length
  · have hright : ¬(i + xs.length ≤ j ∧ j < i + xs.length + ys.length) :=
      fun h => absurd hleft.2 (Nat.not_lt.mpr h.1)
    rw [if_pos hleft, if_neg hright, if_pos hleft]
  · rw [if_neg hleft, if_neg hleft]

theorem begins_put (h : b.Begins l) (xs : List (BitVec 8)) :
    (b.put l.length xs).Begins (l ++ xs) := by
  intro i hi
  rw [List.length_append] at hi
  rw [put_bytes]
  rcases Nat.lt_or_ge i l.length with hlt | hge
  · have hout : ¬(l.length ≤ i ∧ i < l.length + xs.length) :=
      fun hin => absurd hlt (Nat.not_lt.mpr hin.1)
    rw [if_neg hout, List.getElem_append_left hlt, h i hlt]
  · have hindex : i - l.length < xs.length := by omega
    rw [if_pos ⟨hge, hi⟩, List.getElem_append_right hge, List.getElem?_eq_getElem hindex,
      Option.getD_some]

/-- A string in front of its terminating zero. -/
theorem cString_of_begins (h : b.Begins (l ++ [0])) (hroom : l.length < b.size)
    (hl : ∀ x ∈ l, x ≠ 0) : b.cString = l := by
  have hcontents : b.contents = l ++ 0 :: b.contents.drop (l.length + 1) := by
    have hlength : (l ++ [0]).length = l.length + 1 := List.length_append
    have htake : b.contents.take (l.length + 1) = l ++ [0] := by
      apply List.ext_getElem
      · simp only [contents, List.length_take, List.length_map, List.length_range]
        omega
      · intro i hi hi'
        simp only [contents, List.getElem_take, List.getElem_map, List.getElem_range]
        exact h i hi'
    calc b.contents = b.contents.take (l.length + 1) ++ b.contents.drop (l.length + 1) :=
          (List.take_append_drop _ _).symm
      _ = l ++ 0 :: b.contents.drop (l.length + 1) := by
          rw [htake, List.append_assoc, List.singleton_append]
  rw [cString, hcontents, List.takeWhile_append_of_pos]
  · simp
  · intro x hx
    simpa using hl x hx

end Writes

end OutBuffer

end ArmKernel.Support

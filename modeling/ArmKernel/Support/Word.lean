/-
Arithmetic of 32-bit unsigned integers on natural numbers.

The target is a 32-bit ARM core: `uint32_t`, `size_t` and every pointer are 32
bits wide. A value of such a type is a natural number; each operation that can
leave the range is followed by `wrap32`. A `uint64_t` is treated alike, with `wrap64`.
-/
import Mathlib.Algebra.Group.Int.Defs
import Mathlib.Algebra.Order.Group.Nat

namespace ArmKernel.Support

/-- Reduction to 32 bits. -/
def wrap32 (x : Nat) : Nat := x % 2 ^ 32

/-- Subtraction of 32-bit words. -/
def sub32 (x y : Nat) : Nat := wrap32 (x + (2 ^ 32 - y % 2 ^ 32))

theorem wrap32_lt (x : Nat) : wrap32 x < 2 ^ 32 := Nat.mod_lt _ (by decide)

theorem wrap32_of_lt {x : Nat} (h : x < 2 ^ 32) : wrap32 x = x := Nat.mod_eq_of_lt h

@[simp] theorem wrap32_wrap32 (x : Nat) : wrap32 (wrap32 x) = wrap32 x := Nat.mod_mod _ _

/-- Without a borrow, subtraction of words is subtraction of numbers. -/
theorem sub32_of_le {x y : Nat} (hx : x < 2 ^ 32) (hy : y ≤ x) : sub32 x y = x - y := by
  unfold sub32 wrap32
  omega

/-- A word as an `int`. -/
def toInt32 (x : Nat) : Int := (BitVec.ofNat 32 x).toInt

theorem toInt32_of_lt {x : Nat} (h : x < 2 ^ 31) : toInt32 x = x := by
  unfold toInt32
  rw [BitVec.toInt_eq_toNat_of_lt (by simp; omega), BitVec.toNat_ofNat, Nat.mod_eq_of_lt (by omega)]

/-- The other words are negative. -/
theorem toInt32_lt_zero {x : Nat} (h : x < 2 ^ 32) (hx : 2 ^ 31 ≤ x) : toInt32 x < 0 := by
  have hneg : (BitVec.ofNat 32 x).msb = true := by
    rw [BitVec.msb_eq_decide, BitVec.toNat_ofNat, Nat.mod_eq_of_lt h]
    exact decide_eq_true hx
  exact BitVec.toInt_neg_of_msb_true hneg

/-- A value of type `int32_t`; C does not define an operation that leaves the type. -/
def int32 (x : Int) : Option Int := if -2 ^ 31 ≤ x ∧ x < 2 ^ 31 then some x else none

theorem int32_eq_some {x y : Int} (h : int32 x = some y) : y = x := by
  unfold int32 at h
  split at h
  · exact (Option.some.inj h).symm
  · cases h

/-- Reduction to 64 bits. -/
def wrap64 (x : Nat) : Nat := x % 2 ^ 64

/-- Subtraction of 64-bit words. -/
def sub64 (x y : Nat) : Nat := wrap64 (x + (2 ^ 64 - y % 2 ^ 64))

theorem wrap64_of_lt {x : Nat} (h : x < 2 ^ 64) : wrap64 x = x := Nat.mod_eq_of_lt h

end ArmKernel.Support

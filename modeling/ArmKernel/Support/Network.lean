/-
Unsigned numbers as bytes.

`toNetwork k x` are the `k` low bytes of `x`, the most significant one first, and
`ofNetwork` reads them back (`ofNetwork_toNetwork`). `toLittle` and `ofLittle` are the
same with the least significant byte first, as the machine stores a word.
-/
import Mathlib.Data.List.Basic
import Mathlib.Algebra.Order.Group.Nat

namespace ArmKernel.Support

/-- The `k` low bytes of `x`, the most significant one first. -/
def toNetwork : Nat → Nat → List (BitVec 8)
  | 0, _ => []
  | k + 1, x => BitVec.ofNat 8 (x / 2 ^ (8 * k)) :: toNetwork k x

/-- The number with these bytes, the most significant one first. -/
def ofNetwork : List (BitVec 8) → Nat
  | [] => 0
  | b :: bytes => b.toNat * 2 ^ (8 * bytes.length) + ofNetwork bytes

@[simp] theorem toNetwork_length (k x : Nat) : (toNetwork k x).length = k := by
  induction k with
  | zero => rfl
  | succ k ih => simp [toNetwork, ih]

theorem ofNetwork_toNetwork (k x : Nat) : ofNetwork (toNetwork k x) = x % 2 ^ (8 * k) := by
  induction k with
  | zero => simp [toNetwork, ofNetwork, Nat.mod_one]
  | succ k ih =>
    have hpow : 2 ^ (8 * (k + 1)) = 2 ^ (8 * k) * 2 ^ 8 := by rw [Nat.mul_succ, Nat.pow_add]
    rw [toNetwork, ofNetwork, ih, toNetwork_length, BitVec.toNat_ofNat, hpow, Nat.mod_mul,
      Nat.mul_comm, Nat.add_comm]

/-- A number that fits is read back as it was. -/
theorem ofNetwork_toNetwork_of_lt {k x : Nat} (h : x < 2 ^ (8 * k)) :
    ofNetwork (toNetwork k x) = x := by
  rw [ofNetwork_toNetwork, Nat.mod_eq_of_lt h]

/-- The `k` low bytes of `x`, the least significant one first. -/
def toLittle (k x : Nat) : List (BitVec 8) := (toNetwork k x).reverse

/-- The number with these bytes, the least significant one first. -/
def ofLittle (bytes : List (BitVec 8)) : Nat := ofNetwork bytes.reverse

@[simp] theorem toLittle_length (k x : Nat) : (toLittle k x).length = k := by simp [toLittle]

theorem ofLittle_toLittle_of_lt {k x : Nat} (h : x < 2 ^ (8 * k)) :
    ofLittle (toLittle k x) = x := by
  rw [ofLittle, toLittle, List.reverse_reverse, ofNetwork_toNetwork_of_lt h]

end ArmKernel.Support

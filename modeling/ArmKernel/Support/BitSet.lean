/-
Bit sets in byte memory: bit `i` is bit `i % 8` of byte `i / 8`.

`setBitAt` and `clearBitAt` are the two masked stores, and `masked_eq_zero_iff` is the
masked test. `bitAt_setBitAt` and `bitAt_clearBitAt` say that a store changes one bit.
-/
import ArmKernel.Support.Bytes
import Mathlib.Logic.Function.Basic

namespace ArmKernel.Support

/-- Bit `i`. -/
def bitAt (mem : Bytes) (i : Nat) : Bool := (mem (i / 8)).getLsbD (i % 8)

/-- `mem[i / 8] |= 1 << (i % 8)`. -/
def setBitAt (mem : Bytes) (i : Nat) : Bytes :=
  Function.update mem (i / 8) (mem (i / 8) ||| 1#8 <<< (i % 8))

/-- `mem[i / 8] &= ~(1 << (i % 8))`. -/
def clearBitAt (mem : Bytes) (i : Nat) : Bytes :=
  Function.update mem (i / 8) (mem (i / 8) &&& ~~~(1#8 <<< (i % 8)))

theorem getLsbD_mask {j k : Nat} (hj : j < 8) : (1#8 <<< k).getLsbD j = decide (j = k) := by
  rw [BitVec.getLsbD_shiftLeft, BitVec.getLsbD_one, Bool.eq_iff_iff]
  simp
  omega

section Bits

variable {mem : Bytes} {i j : Nat}

/-- `(mem[i / 8] & (1 << (i % 8))) == 0`. -/
theorem masked_eq_zero_iff : mem (i / 8) &&& 1#8 <<< (i % 8) = 0#8 ↔ bitAt mem i = false := by
  have hi : i % 8 < 8 := Nat.mod_lt i (by decide)
  constructor
  · intro h
    have hbit := congrArg (fun x : BitVec 8 => x.getLsbD (i % 8)) h
    simpa [getLsbD_mask hi, bitAt] using hbit
  · intro h
    apply BitVec.eq_of_getLsbD_eq
    intro j hj
    rw [BitVec.getLsbD_and, getLsbD_mask hj]
    by_cases hji : j = i % 8
    · subst hji
      simpa [bitAt] using h
    · simp [hji]

theorem bitAt_setBitAt : bitAt (setBitAt mem i) j = (decide (j = i) || bitAt mem j) := by
  have hj : j % 8 < 8 := Nat.mod_lt j (by decide)
  unfold bitAt setBitAt
  by_cases hbyte : j / 8 = i / 8
  · rw [hbyte, Function.update_self, BitVec.getLsbD_or, getLsbD_mask hj, Bool.or_comm]
    congr 2
    rw [eq_iff_iff]
    omega
  · have hne : j ≠ i := fun e => hbyte (e ▸ rfl)
    rw [Function.update_of_ne hbyte, decide_eq_false hne, Bool.false_or]

theorem bitAt_clearBitAt : bitAt (clearBitAt mem i) j = (!decide (j = i) && bitAt mem j) := by
  have hj : j % 8 < 8 := Nat.mod_lt j (by decide)
  unfold bitAt clearBitAt
  by_cases hbyte : j / 8 = i / 8
  · rw [hbyte, Function.update_self, BitVec.getLsbD_and, BitVec.getLsbD_not, getLsbD_mask hj,
      decide_eq_true hj, Bool.true_and, Bool.and_comm]
    congr 3
    rw [eq_iff_iff]
    omega
  · have hne : j ≠ i := fun e => hbyte (e ▸ rfl)
    rw [Function.update_of_ne hbyte, decide_eq_false hne, Bool.not_false, Bool.true_and]

end Bits

end ArmKernel.Support

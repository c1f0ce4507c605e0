/-
Fields of words, and registers that are changed one at a time.

`setField x pos v` puts the bits of `v` into `x` from bit `pos` on, by a mask and a shift. Fields
that do not overlap are set in either order (`setField_comm`).

`modifyAt s k f` reads the register `k`, applies `f` and writes it back. Two of them commute when
they are about different registers, or when their functions do (`modifyAt_comm`).
-/
import Mathlib.Logic.Function.Basic

namespace ArmKernel.Support

section Field

variable {w f g : Nat}

/-- The word `x` with `v` in the bits from `pos` on. -/
def setField (x : BitVec w) (pos : Nat) (v : BitVec f) : BitVec w :=
  (x &&& ~~~((BitVec.allOnes f).setWidth w <<< pos)) ||| (v.setWidth w <<< pos)

theorem getLsbD_setField (x : BitVec w) (pos : Nat) (v : BitVec f) {i : Nat} (hi : i < w) :
    (setField x pos v).getLsbD i =
      if pos ≤ i ∧ i < pos + f then v.getLsbD (i - pos) else x.getLsbD i := by
  have hsub : i - pos < w := Nat.lt_of_le_of_lt (Nat.sub_le i pos) hi
  rw [setField, BitVec.getLsbD_or, BitVec.getLsbD_and, BitVec.getLsbD_not,
    BitVec.getLsbD_shiftLeft, BitVec.getLsbD_shiftLeft, BitVec.getLsbD_setWidth,
    BitVec.getLsbD_setWidth, BitVec.getLsbD_allOnes]
  by_cases hlow : i < pos
  · have hout : ¬(pos ≤ i ∧ i < pos + f) := fun h => absurd hlow (Nat.not_lt.mpr h.1)
    rw [if_neg hout]
    simp [hi, hlow]
  · by_cases hhigh : i - pos < f
    · have hin : pos ≤ i ∧ i < pos + f := by omega
      rw [if_pos hin]
      simp [hi, hlow, hhigh, hsub]
    · have hout : ¬(pos ≤ i ∧ i < pos + f) := by omega
      have hzero : v.getLsbD (i - pos) = false := BitVec.getLsbD_of_ge v _ (Nat.not_lt.mp hhigh)
      rw [if_neg hout]
      simp [hi, hlow, hhigh, hsub, hzero]

/-- Two fields that have no bit in common. -/
theorem setField_comm (x : BitVec w) {pos pos' : Nat} (v : BitVec f) (u : BitVec g)
    (h : pos + f ≤ pos' ∨ pos' + g ≤ pos) :
    setField (setField x pos v) pos' u = setField (setField x pos' u) pos v := by
  apply BitVec.eq_of_getLsbD_eq
  intro i hi
  rw [getLsbD_setField _ _ _ hi, getLsbD_setField _ _ _ hi, getLsbD_setField _ _ _ hi,
    getLsbD_setField _ _ _ hi]
  by_cases hfirst : pos ≤ i ∧ i < pos + f
  · have hsecond : ¬(pos' ≤ i ∧ i < pos' + g) := by omega
    rw [if_neg hsecond, if_pos hfirst, if_pos hfirst]
  · rw [if_neg hfirst, if_neg hfirst]

end Field

section Modify

variable {K V : Type*} [DecidableEq K]

/-- The register `k` gets what `f` makes of it. -/
def modifyAt (s : K → V) (k : K) (f : V → V) : K → V := Function.update s k (f (s k))

@[simp] theorem modifyAt_self (s : K → V) (k : K) (f : V → V) : modifyAt s k f k = f (s k) := by
  rw [modifyAt, Function.update_self]

@[simp] theorem modifyAt_of_ne (s : K → V) {k k' : K} (f : V → V) (h : k' ≠ k) :
    modifyAt s k f k' = s k' := by
  rw [modifyAt, Function.update_of_ne h]

theorem modifyAt_comm (s : K → V) {k k' : K} {f g : V → V}
    (h : k = k' → ∀ x, g (f x) = f (g x)) :
    modifyAt (modifyAt s k f) k' g = modifyAt (modifyAt s k' g) k f := by
  funext i
  by_cases hk : k = k'
  · subst hk
    by_cases hi : i = k
    · subst hi
      rw [modifyAt_self, modifyAt_self, modifyAt_self, modifyAt_self, h rfl]
    · rw [modifyAt_of_ne _ _ hi, modifyAt_of_ne _ _ hi, modifyAt_of_ne _ _ hi,
        modifyAt_of_ne _ _ hi]
  · by_cases hi : i = k
    · subst hi
      rw [modifyAt_of_ne _ _ hk, modifyAt_self, modifyAt_self, modifyAt_of_ne _ _ hk]
    · by_cases hi' : i = k'
      · subst hi'
        rw [modifyAt_self, modifyAt_of_ne _ _ hi, modifyAt_of_ne _ _ hi, modifyAt_self]
      · rw [modifyAt_of_ne _ _ hi', modifyAt_of_ne _ _ hi, modifyAt_of_ne _ _ hi,
          modifyAt_of_ne _ _ hi']

end Modify

end ArmKernel.Support

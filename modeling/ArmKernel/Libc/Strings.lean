/-
Memory functions (`src/string.c`), and strings in memory.

A copy from the low end reads again what it wrote when the destination lies behind the source
(`moveUp_echoBytes`). `memmove` copies from the low end when the destination lies below the
source, and from the high end otherwise; either way it copies what the source held before
(`memmove_eq_copyBytes`).
-/
import ArmKernel.Support.Bytes
import ArmKernel.Support.Chars

namespace ArmKernel.Libc

open ArmKernel.Support

/-- `memmove`: `while (n--) *d++ = *s++`. -/
def moveUp : Nat → Bytes → (d s : Nat) → Bytes
  | 0, mem, _, _ => mem
  | n + 1, mem, d, s => moveUp n (storeBytes mem d [mem s]) (d + 1) (s + 1)

/-- `memmove`: `while (n--) *--d = *--s`, with `d` and `s` the low ends. -/
def moveDown : Nat → Bytes → (d s : Nat) → Bytes
  | 0, mem, _, _ => mem
  | n + 1, mem, d, s => moveDown n (storeBytes mem (d + n) [mem (s + n)]) d s

/-- `memmove`. -/
def memmove (mem : Bytes) (dest src n : Nat) : Bytes :=
  if dest < src then moveUp n mem dest src else moveDown n mem dest src

section Move

variable {d s : Nat}

/-- A copy from the low end that has copied `k` bytes already. -/
theorem moveUp_echoBytes (n k : Nat) (mem : Bytes) (d s : Nat) :
    moveUp n (echoBytes mem d s k) (d + k) (s + k) = echoBytes mem d s (k + n) := by
  induction n generalizing k with
  | zero => rfl
  | succ n ih =>
    rw [moveUp, echoBytes_next, storeBytes_echoBytes, Nat.add_assoc, Nat.add_assoc, ih]
    congr 1
    omega

theorem moveUp_eq (n : Nat) (mem : Bytes) (h : d < s) : moveUp n mem d s = copyBytes mem d s n := by
  have hup := moveUp_echoBytes n 0 mem d s
  rw [echoBytes_zero, Nat.zero_add] at hup
  exact hup.trans (echoBytes_eq_copyBytes mem (.inl (Nat.le_of_lt h)))

theorem moveDown_eq (n : Nat) (mem : Bytes) (h : s ≤ d) :
    moveDown n mem d s = copyBytes mem d s n := by
  induction n generalizing mem with
  | zero =>
    funext b
    rw [moveDown, copyBytes, if_neg (by omega)]
  | succ n ih =>
    rw [moveDown, ih]
    funext b
    unfold copyBytes
    by_cases hhigh : b = d + n
    · subst hhigh
      rw [if_neg (by omega), storeBytes_singleton, if_pos rfl, if_pos (by omega),
        Nat.add_sub_cancel_left]
    · by_cases hin : d ≤ b ∧ b < d + n
      · rw [if_pos hin, if_pos (by omega), storeBytes_singleton, if_neg (by omega)]
      · rw [if_neg hin, if_neg (by omega), storeBytes_singleton, if_neg hhigh]

/-- **Moving memory.** Whatever the overlap, the destination gets what the source held. -/
theorem memmove_eq_copyBytes (mem : Bytes) (d s n : Nat) :
    memmove mem d s n = copyBytes mem d s n := by
  unfold memmove
  split
  · rename_i h
    exact moveUp_eq n mem h
  · rename_i h
    exact moveDown_eq n mem (Nat.not_lt.mp h)

/-- **Moving memory, byte by byte.** Nothing but the destination changes. -/
theorem memmove_bytes (mem : Bytes) (dest src n : Nat) :
    (∀ i < n, memmove mem dest src n (dest + i) = mem (src + i)) ∧
      ∀ b, b < dest ∨ dest + n ≤ b → memmove mem dest src n b = mem b := by
  rw [memmove_eq_copyBytes]
  unfold copyBytes
  constructor
  · intro i hi
    rw [if_pos (by omega), Nat.add_sub_cancel_left]
  · intro b hb
    rw [if_neg (by omega)]

end Move

/-! ### Strings in memory -/

/-- The string stands at `p`, with its NUL. -/
def Holds (mem : Bytes) (p : Nat) (s : CString) : Prop :=
  readBytes mem p (s.bytes.length + 1) = s.bytes ++ [0]

instance (mem : Bytes) (p : Nat) (s : CString) : Decidable (Holds mem p s) :=
  inferInstanceAs (Decidable (_ = _))

section Strings

variable {mem : Bytes} {p i : Nat} {s : CString}

theorem Holds.char (h : Holds mem p s) (hi : i < s.bytes.length) : mem (p + i) = s.bytes[i] := by
  have hread : (readBytes mem p (s.bytes.length + 1))[i]? = (s.bytes ++ [0])[i]? := by rw [h]
  rw [List.getElem?_append_left hi, List.getElem?_eq_getElem hi] at hread
  have hrange : i < s.bytes.length + 1 := by omega
  simpa [readBytes, hrange] using hread

theorem Holds.nul (h : Holds mem p s) : mem (p + s.bytes.length) = 0 := by
  have hread : (readBytes mem p (s.bytes.length + 1))[s.bytes.length]? =
      (s.bytes ++ [0])[s.bytes.length]? := by rw [h]
  simpa [readBytes] using hread

theorem Holds.ne_zero (h : Holds mem p s) (hi : i < s.bytes.length) : mem (p + i) ≠ 0 := by
  rw [h.char hi]
  exact s.ne_zero _ (List.getElem_mem hi)

end Strings

end ArmKernel.Libc

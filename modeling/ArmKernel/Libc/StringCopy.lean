/-
Bounded copies of strings (`strncpy` of `src/string.c`).

The first loop of `strncpy` leaves on the NUL of the string without counting it, so the second
loop starts one byte too far: a string that ends before the count is padded to `n + 1` bytes
(`strncpy_short`). `strncpy_pads_iff` says when no byte behind the `n` changes.
-/
import ArmKernel.Libc.Strings
import Mathlib.Algebra.Order.Group.Nat

namespace ArmKernel.Libc

open ArmKernel.Support

/-- `while (n > 0 && (*d++ = *src++)) n--`, with the `n` and the `d` that are left. -/
def copyString : Nat → Bytes → (d src : Nat) → Nat × Bytes × Nat
  | 0, mem, d, _ => (0, mem, d)
  | n + 1, mem, d, src =>
    let c := mem src
    let mem := storeBytes mem d [c]
    if c ≠ 0 then copyString n mem (d + 1) (src + 1) else (n + 1, mem, d + 1)

/-- `while (n-- > 0) *d++ = '\0'`. -/
def padNul : Nat → Bytes → (d : Nat) → Bytes
  | 0, mem, _ => mem
  | n + 1, mem, d => padNul n (storeBytes mem d [0]) (d + 1)

/-- `strncpy`. -/
def strncpy (mem : Bytes) (dest src n : Nat) : Bytes :=
  let (n, mem, d) := copyString n mem dest src
  padNul n mem d

/-- The `n` bytes at `dest` are the string and NULs behind it, and no other byte changes. -/
structure Pads (mem mem' : Bytes) (dest n : Nat) (s : CString) : Prop where
  chars : ∀ i, i < n → (h : i < s.bytes.length) → mem' (dest + i) = s.bytes[i]
  nuls : ∀ i, i < n → s.bytes.length ≤ i → mem' (dest + i) = 0
  frame : ∀ b, b < dest ∨ dest + n ≤ b → mem' b = mem b

/-- The string fills the `n` bytes, and the copy reads what the string was: where `dest` lies
behind `src` by less than `n`, the characters repeat with that distance. Or the byte behind
the `n` is NUL already, and `dest` does not lie behind the first character of the string. -/
def Spares (mem : Bytes) (dest src n : Nat) (s : CString) : Prop :=
  if n ≤ s.bytes.length then ∀ i < n, mem (src + i % (dest - src)) = mem (src + i)
  else (dest ≤ src ∨ src + s.bytes.length < dest) ∧ mem (dest + n) = 0

instance (mem : Bytes) (dest src n : Nat) (s : CString) : Decidable (Spares mem dest src n s) :=
  inferInstanceAs (Decidable (ite _ _ _))

section Copy

variable {mem : Bytes} {dest src n k : Nat} {s : CString}

theorem padNul_eq (n : Nat) (mem : Bytes) (d : Nat) : padNul n mem d = fillBytes mem d 0 n := by
  induction n generalizing mem d with
  | zero =>
    funext b
    rw [padNul, fillBytes, if_neg (by omega)]
  | succ n ih =>
    rw [padNul, ih]
    funext b
    unfold fillBytes
    rw [storeBytes_singleton]
    by_cases hin : d + 1 ≤ b ∧ b < d + 1 + n
    · rw [if_pos hin, if_pos (by omega)]
    · by_cases hlow : b = d
      · rw [if_neg hin, if_pos hlow, if_pos (by omega)]
      · rw [if_neg hin, if_neg hlow, if_neg (by omega)]

/-- **The first loop without a NUL.** It copies as `moveUp` does. -/
theorem copyString_full (hfull : ∀ i < n, mem (src + (k + i) % (dest - src)) ≠ 0) :
    copyString n (echoBytes mem dest src k) (dest + k) (src + k) =
      (0, echoBytes mem dest src (k + n), dest + (k + n)) := by
  induction n generalizing k with
  | zero => rfl
  | succ n ih =>
    have hfirst := hfull 0 (Nat.zero_lt_succ n)
    rw [Nat.add_zero] at hfirst
    unfold copyString
    simp only [echoBytes_next, storeBytes_echoBytes]
    rw [if_pos hfirst, Nat.add_assoc, Nat.add_assoc, ih, Nat.add_right_comm k 1 n]
    · rfl
    · intro i hi
      have hnext := hfull (i + 1) (by omega)
      rwa [Nat.add_comm i 1, ← Nat.add_assoc] at hnext

/-- **The first loop up to a NUL**, which it copies and does not count. -/
theorem copyString_nul {m : Nat} (hfull : ∀ i < n, mem (src + (k + i) % (dest - src)) ≠ 0)
    (hnul : mem (src + (k + n) % (dest - src)) = 0) :
    copyString (n + (m + 1)) (echoBytes mem dest src k) (dest + k) (src + k) =
      (m + 1, echoBytes mem dest src (k + n + 1), dest + (k + n + 1)) := by
  induction n generalizing k with
  | zero =>
    rw [Nat.add_zero] at hnul
    rw [Nat.zero_add, copyString]
    simp only [echoBytes_next, storeBytes_echoBytes]
    rw [if_neg (not_not.mpr hnul)]
    rfl
  | succ n ih =>
    have hfirst := hfull 0 (Nat.zero_lt_succ n)
    rw [Nat.add_zero] at hfirst
    have hshift : ∀ i, k + (i + 1) = k + 1 + i := fun i => by omega
    rw [Nat.add_right_comm n 1, copyString]
    simp only [echoBytes_next, storeBytes_echoBytes]
    rw [if_pos hfirst, Nat.add_assoc, Nat.add_assoc, ih, hshift n]
    · intro i hi
      have hnext := hfull (i + 1) (by omega)
      rwa [hshift i] at hnext
    · rwa [hshift n] at hnul

/-- A string without end, for the copy. -/
theorem strncpy_full (hfull : ∀ i < n, mem (src + i % (dest - src)) ≠ 0) :
    strncpy mem dest src n = echoBytes mem dest src n := by
  have hloop := @copyString_full mem dest src n 0 fun i hi => by
    rw [Nat.zero_add]
    exact hfull i hi
  simp only [echoBytes_zero, Nat.zero_add, Nat.add_zero] at hloop
  unfold strncpy
  rw [hloop]
  rfl

/-- A NUL that is copied is one NUL more in front of the padding. -/
theorem fillBytes_copyBytes_nul {len m : Nat} (hnul : mem (src + len) = 0) :
    fillBytes (copyBytes mem dest src (len + 1)) (dest + len + 1) 0 m =
      fillBytes (copyBytes mem dest src len) (dest + len) 0 (m + 1) := by
  funext b
  unfold fillBytes copyBytes
  by_cases hpad : dest + len + 1 ≤ b ∧ b < dest + len + 1 + m
  · rw [if_pos hpad, if_pos (by omega)]
  · by_cases hend : b = dest + len
    · rw [if_neg hpad, if_pos (by omega), if_pos (by omega), hend,
        Nat.add_sub_cancel_left, hnul]
    · by_cases hchar : dest ≤ b ∧ b < dest + len
      · rw [if_neg hpad, if_pos (by omega), if_neg (by omega), if_pos hchar]
      · rw [if_neg hpad, if_neg (by omega), if_neg (by omega), if_neg hchar]

/-- **A string that ends before the count** is padded by one NUL too many. -/
theorem strncpy_short (h : Holds mem src s) (hshort : s.bytes.length < n)
    (happart : dest ≤ src ∨ src + s.bytes.length < dest) :
    strncpy mem dest src n =
      fillBytes (copyBytes mem dest src s.bytes.length) (dest + s.bytes.length) 0
        (n - s.bytes.length + 1) := by
  obtain ⟨m, rfl⟩ := Nat.exists_eq_add_of_lt hshort
  have hnul := h.nul
  have hfull : ∀ i < s.bytes.length, mem (src + i) ≠ 0 := fun i hi => h.ne_zero hi
  generalize s.bytes.length = len at *
  have hindex : ∀ i ≤ len, (0 + i) % (dest - src) = i := by
    intro i hi
    rw [Nat.zero_add]
    exact mod_of_apart happart (Nat.lt_succ_of_le hi)
  have hloop := @copyString_nul mem dest src len 0 m
    (fun i hi => by
      rw [hindex i (Nat.le_of_lt hi)]
      exact hfull i hi)
    (by rwa [hindex len (Nat.le_refl len)])
  simp only [echoBytes_zero, Nat.zero_add, Nat.add_zero, ← Nat.add_assoc] at hloop
  have hcount : len + m + 1 - len + 1 = m + 1 + 1 := by omega
  unfold strncpy
  rw [hloop, hcount, echoBytes_eq_copyBytes mem (by omega)]
  dsimp only
  rw [padNul_eq, fillBytes_copyBytes_nul hnul]

/-- What was copied without a NUL is the string, when it reads as the string was. -/
theorem pads_echoBytes_iff (h : Holds mem src s) (hfits : n ≤ s.bytes.length) :
    Pads mem (echoBytes mem dest src n) dest n s ↔
      ∀ i < n, mem (src + i % (dest - src)) = mem (src + i) := by
  have hin : ∀ i < n, echoBytes mem dest src n (dest + i) = mem (src + i % (dest - src)) := by
    intro i hi
    unfold echoBytes
    rw [if_pos (by omega), Nat.add_sub_cancel_left]
  constructor
  · intro hpads i hi
    rw [← hin i hi, h.char (by omega), hpads.chars i hi (by omega)]
  · intro hrepeats
    refine ⟨fun i hi hchar => ?_, fun i hi hend => absurd hi (by omega), fun b hb => ?_⟩
    · rw [hin i hi, hrepeats i hi, h.char hchar]
    · unfold echoBytes
      rw [if_neg (by omega)]

/-- **`strncpy`.** It writes its `n` bytes and no other exactly when the condition holds. -/
theorem strncpy_pads_iff (mem : Bytes) (dest src n : Nat) (s : CString) (h : Holds mem src s) :
    Pads mem (strncpy mem dest src n) dest n s ↔ Spares mem dest src n s := by
  unfold Spares
  split
  · rename_i hfits
    have hfull : ∀ i < n, mem (src + i % (dest - src)) ≠ 0 := fun i hi =>
      h.ne_zero (Nat.lt_of_le_of_lt (Nat.mod_le _ _) (by omega))
    rw [strncpy_full hfull]
    exact pads_echoBytes_iff h hfits
  · rename_i hlong
    have hshort : s.bytes.length < n := by omega
    by_cases happart : dest ≤ src ∨ src + s.bytes.length < dest
    · rw [strncpy_short h hshort happart]
      constructor
      · -- The byte behind the `n` is written.
        intro hpads
        have hkept := hpads.frame (dest + n) (.inr (Nat.le_refl _))
        unfold fillBytes at hkept
        rw [if_pos (by omega)] at hkept
        exact ⟨happart, hkept.symm⟩
      · rintro ⟨-, hzero⟩
        unfold fillBytes copyBytes
        refine ⟨fun i hi hchar => ?_, fun i hi hend => ?_, fun b hb => ?_⟩
        · rw [if_neg (by omega), if_pos (by omega), Nat.add_sub_cancel_left, h.char hchar]
        · rw [if_pos (by omega)]
        · by_cases hbehind : b = dest + n
          · rw [if_pos (by omega), hbehind, hzero]
          · rw [if_neg (by omega), if_neg (by omega)]
    · -- The copy overwrites the NUL before it gets there.
      have hfull : ∀ i < n, mem (src + i % (dest - src)) ≠ 0 := fun i hi =>
        h.ne_zero (Nat.lt_of_lt_of_le (Nat.mod_lt _ (by omega)) (by omega))
      rw [strncpy_full hfull]
      refine iff_of_false (fun hpads => ?_) fun hok => happart hok.1
      have hnul := hpads.nuls _ hshort (Nat.le_refl _)
      unfold echoBytes at hnul
      rw [if_pos (by omega), Nat.add_sub_cancel_left] at hnul
      exact hfull _ hshort hnul

end Copy

/-- A name of four characters is cut off behind the third. -/
theorem strncpy_pads_name :
    Pads (storeBytes (fun _ => 255) 8 [105, 100, 108, 101, 0])
      (strncpy (storeBytes (fun _ => 255) 8 [105, 100, 108, 101, 0]) 0 8 3) 0 3
      ⟨[105, 100, 108, 101], by decide⟩ :=
  (strncpy_pads_iff _ 0 8 3 ⟨[105, 100, 108, 101], by decide⟩ (by decide)).mpr (by decide)

/-- Two bytes for the string `"a"`: the third one becomes NUL. -/
theorem strncpy_third_byte :
    ¬ Pads (storeBytes (fun _ => 255) 8 [97, 0])
      (strncpy (storeBytes (fun _ => 255) 8 [97, 0]) 0 8 2) 0 2 ⟨[97], by decide⟩ := by
  intro hpads
  have hkept := hpads.frame 2 (.inr (Nat.le_refl _))
  have hwritten : strncpy (storeBytes (fun _ => 255) 8 [97, 0]) 0 8 2 2 = 0 := by decide
  have hbefore : storeBytes (fun _ => 255) 8 [97, 0] 2 = 255 := by decide
  rw [hwritten, hbefore] at hkept
  exact absurd hkept (by decide)

end ArmKernel.Libc

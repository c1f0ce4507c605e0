/-
Byte memory with 32-bit little-endian words at any address, and the layout of C
structures.

* `readWord`, `writeWord`: a word is read back as written (`readWord_writeWord_self`),
  and words four bytes apart do not see each other (`readWord_writeWord_of_apart`).
* `Agree mem mem' a n`: the memories agree on `n` bytes at `a`.
* `copyBytes`, `fillBytes`: `memcpy` between regions that do not overlap, `memset`.
* `echoBytes`: a copy from the low end between regions that may overlap.
* `overlay`: a region with new contents.
* `readBytes`, `storeBytes`: a piece of memory as a list; `memcpy` from and to a caller.
* `Layout`: offsets and size of a structure from the sizes and alignments of its members.
-/
import Mathlib.Data.List.Basic
import Mathlib.Algebra.Order.Group.Nat

namespace ArmKernel.Support

abbrev Bytes := Nat → BitVec 8

/-- The word at `a`. -/
def readWord (mem : Bytes) (a : Nat) : Nat :=
  (mem a).toNat + 2 ^ 8 * (mem (a + 1)).toNat + 2 ^ 16 * (mem (a + 2)).toNat +
    2 ^ 24 * (mem (a + 3)).toNat

/-- Store a word at `a`. -/
def writeWord (mem : Bytes) (a w : Nat) : Bytes := fun b =>
  if b = a then BitVec.ofNat 8 w
  else if b = a + 1 then BitVec.ofNat 8 (w / 2 ^ 8)
  else if b = a + 2 then BitVec.ofNat 8 (w / 2 ^ 16)
  else if b = a + 3 then BitVec.ofNat 8 (w / 2 ^ 24)
  else mem b

/-- Copy `n` bytes from `src` to `dst`; the regions do not overlap. -/
def copyBytes (mem : Bytes) (dst src n : Nat) : Bytes := fun b =>
  if dst ≤ b ∧ b < dst + n then mem (src + (b - dst)) else mem b

/-- Set `n` bytes from `dst` to `x`. -/
def fillBytes (mem : Bytes) (dst : Nat) (x : BitVec 8) (n : Nat) : Bytes := fun b =>
  if dst ≤ b ∧ b < dst + n then x else mem b

/-- The `n` bytes at `a` are those of `contents`. -/
def overlay (mem contents : Bytes) (a n : Nat) : Bytes := fun b =>
  if a ≤ b ∧ b < a + n then contents b else mem b

/-- The `n` bytes at `a`. -/
def readBytes (mem : Bytes) (a n : Nat) : List (BitVec 8) := (List.range n).map fun j => mem (a + j)

/-- Store the bytes of a list at `a`. -/
def storeBytes (mem : Bytes) (a : Nat) (bytes : List (BitVec 8)) : Bytes := fun b =>
  if h : a ≤ b ∧ b - a < bytes.length then bytes[b - a] else mem b

/-- The memories agree on the `n` bytes at `a`. -/
def Agree (mem mem' : Bytes) (a n : Nat) : Prop := ∀ b, a ≤ b → b < a + n → mem' b = mem b

section Words

variable {mem mem' mem'' : Bytes} {a b n k w x : Nat}

theorem readWord_lt (mem : Bytes) (a : Nat) : readWord mem a < 2 ^ 32 := by
  have h0 := (mem a).isLt
  have h1 := (mem (a + 1)).isLt
  have h2 := (mem (a + 2)).isLt
  have h3 := (mem (a + 3)).isLt
  unfold readWord
  omega

theorem readWord_writeWord_self (h : w < 2 ^ 32) : readWord (writeWord mem a w) a = w := by
  simp [readWord, writeWord]
  omega

/-- **Frame.** A word store changes its four bytes only. -/
theorem writeWord_of_outside (h : b < a ∨ a + 4 ≤ b) : writeWord mem a w b = mem b := by
  unfold writeWord
  rw [if_neg (by omega), if_neg (by omega), if_neg (by omega), if_neg (by omega)]

theorem readWord_congr (h : Agree mem mem' a 4) : readWord mem' a = readWord mem a := by
  unfold readWord
  rw [h a (by omega) (by omega), h (a + 1) (by omega) (by omega), h (a + 2) (by omega) (by omega),
    h (a + 3) (by omega) (by omega)]

theorem Agree.rfl : Agree mem mem a n := fun _ _ _ => Eq.refl _

theorem Agree.trans (h : Agree mem mem' a n) (h' : Agree mem' mem'' a n) : Agree mem mem'' a n :=
  fun b hlo hhi => (h' b hlo hhi).trans (h b hlo hhi)

/-- Agreement on a region is agreement on its parts. -/
theorem Agree.part (h : Agree mem mem' a n) (hlo : a ≤ b) (hhi : b + k ≤ a + n) :
    Agree mem mem' b k := fun c hc hc' => h c (by omega) (by omega)

theorem agree_writeWord (h : a + n ≤ b ∨ b + 4 ≤ a) : Agree mem (writeWord mem b w) a n :=
  fun c hc hc' => writeWord_of_outside (by omega)

theorem readWord_writeWord_of_apart (h : a + 4 ≤ b ∨ b + 4 ≤ a) :
    readWord (writeWord mem b w) a = readWord mem a :=
  readWord_congr (agree_writeWord h)

theorem agree_copyBytes {dst src : Nat} (h : a + n ≤ dst ∨ dst + k ≤ a) :
    Agree mem (copyBytes mem dst src k) a n := fun c hc hc' => by
  unfold copyBytes
  rw [if_neg (by omega)]

theorem agree_fillBytes {dst : Nat} {y : BitVec 8} (h : a + n ≤ dst ∨ dst + k ≤ a) :
    Agree mem (fillBytes mem dst y k) a n := fun c hc hc' => by
  unfold fillBytes
  rw [if_neg (by omega)]

theorem agree_overlay {contents : Bytes} (h : a + n ≤ b ∨ b + k ≤ a) :
    Agree mem (overlay mem contents b k) a n := fun c hc hc' => by
  unfold overlay
  rw [if_neg (by omega)]

/-- What an overlay put in place. -/
theorem readWord_overlay {contents : Bytes} (hlo : b ≤ a) (hhi : a + 4 ≤ b + k) :
    readWord (overlay mem contents b k) a = readWord contents a :=
  readWord_congr fun c hc hc' => by
    unfold overlay
    rw [if_pos (by omega)]

end Words

section Lists

variable {mem mem' : Bytes} {a b k n : Nat} {bytes : List (BitVec 8)}

@[simp] theorem readBytes_length : (readBytes mem a n).length = n := by simp [readBytes]

theorem readBytes_append : readBytes mem a (n + k) = readBytes mem a n ++ readBytes mem (a + n) k := by
  simp [readBytes, List.range_add, Function.comp_def, Nat.add_assoc]

/-- Memory holds two pieces when it holds each at its place. -/
theorem readBytes_eq_append_iff {xs ys : List (BitVec 8)} :
    readBytes mem a (xs ++ ys).length = xs ++ ys ↔
      readBytes mem a xs.length = xs ∧ readBytes mem (a + xs.length) ys.length = ys := by
  rw [List.length_append, readBytes_append]
  constructor
  · intro h
    exact List.append_inj h (by simp)
  · rintro ⟨hxs, hys⟩
    rw [hxs, hys]

theorem readBytes_congr (h : Agree mem mem' a n) : readBytes mem' a n = readBytes mem a n := by
  apply List.map_congr_left
  intro j hj
  have hlt : j < n := List.mem_range.mp hj
  exact h (a + j) (by omega) (by omega)

/-- The front part of the bytes read. -/
theorem take_readBytes (h : k ≤ n) : (readBytes mem a n).take k = readBytes mem a k := by
  obtain ⟨m, rfl⟩ := Nat.exists_eq_add_of_le h
  rw [readBytes_append, List.take_left' readBytes_length]

/-- The rest of the bytes read. -/
theorem drop_readBytes : (readBytes mem a n).drop k = readBytes mem (a + k) (n - k) := by
  rcases Nat.le_total k n with h | h
  · obtain ⟨m, rfl⟩ := Nat.exists_eq_add_of_le h
    rw [readBytes_append, List.drop_left' readBytes_length, Nat.add_sub_cancel_left]
  · rw [List.drop_eq_nil_of_le (by rwa [readBytes_length]), Nat.sub_eq_zero_of_le h]
    rfl

/-- What is stored is read back. -/
theorem readBytes_storeBytes_self (mem : Bytes) (a : Nat) (bytes : List (BitVec 8)) :
    readBytes (storeBytes mem a bytes) a bytes.length = bytes := by
  apply List.ext_getElem
  · simp
  · intro i hi hi'
    simp [readBytes, storeBytes, hi']

/-- **Frame.** A store changes its own bytes only. -/
theorem storeBytes_of_outside (h : b < a ∨ a + bytes.length ≤ b) :
    storeBytes mem a bytes b = mem b := by
  unfold storeBytes
  rw [dif_neg (by omega)]

theorem storeBytes_of_inside (ha : a ≤ b) (hb : b - a < bytes.length) :
    storeBytes mem a bytes b = bytes[b - a] := dif_pos ⟨ha, hb⟩

@[simp] theorem storeBytes_nil (mem : Bytes) (a : Nat) : storeBytes mem a [] = mem :=
  funext fun _ => storeBytes_of_outside (Nat.lt_or_ge _ a)

/-- Two pieces are stored one after the other. -/
theorem storeBytes_append (mem : Bytes) (a : Nat) (xs ys : List (BitVec 8)) :
    storeBytes mem a (xs ++ ys) = storeBytes (storeBytes mem a xs) (a + xs.length) ys := by
  have hlen : (xs ++ ys).length = xs.length + ys.length := List.length_append
  funext b
  by_cases hlo : b < a
  · rw [storeBytes_of_outside (.inl hlo), storeBytes_of_outside (by omega),
      storeBytes_of_outside (.inl hlo)]
  · by_cases hxs : b - a < xs.length
    · have hall : b - a < (xs ++ ys).length := by omega
      rw [storeBytes_of_inside (by omega) hall, storeBytes_of_outside (by omega),
        storeBytes_of_inside (by omega) hxs, List.getElem_append_left]
    · by_cases hys : b - (a + xs.length) < ys.length
      · have hall : b - a < (xs ++ ys).length := by omega
        rw [storeBytes_of_inside (by omega) hall, storeBytes_of_inside (by omega) hys,
          List.getElem_append_right (by omega)]
        congr 1
        omega
      · rw [storeBytes_of_outside (by omega), storeBytes_of_outside (by omega),
          storeBytes_of_outside (by omega)]

/-- Storing one byte. -/
theorem storeBytes_singleton (mem : Bytes) (a : Nat) (x : BitVec 8) :
    storeBytes mem a [x] b = if b = a then x else mem b := by
  by_cases h : b = a
  · subst h
    simp [storeBytes]
  · rw [if_neg h, storeBytes_of_outside (by simp; omega)]

theorem agree_storeBytes (h : a + n ≤ b ∨ b + bytes.length ≤ a) :
    Agree mem (storeBytes mem b bytes) a n :=
  fun c hc hc' => storeBytes_of_outside (by omega)

/-- A copy of a region reads as the region did. -/
theorem readBytes_copyBytes_self {dst src : Nat} :
    readBytes (copyBytes mem dst src n) dst n = readBytes mem src n := by
  apply List.map_congr_left
  intro j hj
  have hlt : j < n := List.mem_range.mp hj
  unfold copyBytes
  rw [if_pos (by omega), Nat.add_sub_cancel_left]

end Lists

/-! ### Overlapping copies -/

section Overlap

variable {d s : Nat}

/-- `n` bytes at `d` as a copy from the low end leaves them. Where `d` lies behind `s`, it
reads again what it has written. -/
def echoBytes (mem : Bytes) (d s n : Nat) : Bytes := fun b =>
  if d ≤ b ∧ b < d + n then mem (s + (b - d) % (d - s)) else mem b

theorem echoBytes_zero (mem : Bytes) (d s : Nat) : echoBytes mem d s 0 = mem := by
  funext b
  rw [echoBytes, if_neg (by omega)]

/-- The byte that is read next. -/
theorem echoBytes_next (mem : Bytes) (d s k : Nat) :
    echoBytes mem d s k (s + k) = mem (s + k % (d - s)) := by
  unfold echoBytes
  by_cases hagain : d ≤ s + k ∧ s + k < d + k
  · have hback : s + k - d = k - (d - s) := by omega
    rw [if_pos hagain, hback, ← Nat.mod_eq_sub_mod (by omega)]
  · rw [if_neg hagain]
    rcases Nat.lt_or_ge k (d - s) with hfirst | hpast
    · rw [Nat.mod_eq_of_lt hfirst]
    · have hzero : d - s = 0 := by omega
      rw [hzero, Nat.mod_zero]

theorem storeBytes_echoBytes (mem : Bytes) (d s k : Nat) :
    storeBytes (echoBytes mem d s k) (d + k) [mem (s + k % (d - s))] =
      echoBytes mem d s (k + 1) := by
  funext b
  rw [storeBytes_singleton]
  unfold echoBytes
  by_cases hlast : b = d + k
  · rw [if_pos hlast, if_pos (by omega), hlast, Nat.add_sub_cancel_left]
  · by_cases hin : d ≤ b ∧ b < d + k
    · rw [if_neg hlast, if_pos hin, if_pos (by omega)]
    · rw [if_neg hlast, if_neg hin, if_neg (by omega)]

/-- With the destination in front, or behind all of the source, no byte is read again. -/
theorem mod_of_apart {i n : Nat} (h : d ≤ s ∨ s + n ≤ d) (hi : i < n) : i % (d - s) = i := by
  rcases h with hfront | hbehind
  · rw [Nat.sub_eq_zero_of_le hfront, Nat.mod_zero]
  · exact Nat.mod_eq_of_lt (by omega)

/-- Then the copy is of what was there. -/
theorem echoBytes_eq_copyBytes {n : Nat} (mem : Bytes) (h : d ≤ s ∨ s + n ≤ d) :
    echoBytes mem d s n = copyBytes mem d s n := by
  funext b
  unfold echoBytes copyBytes
  by_cases hin : d ≤ b ∧ b < d + n
  · have hindex : b - d < n := by omega
    rw [if_pos hin, if_pos hin, mod_of_apart h hindex]
  · rw [if_neg hin, if_neg hin]

end Overlap

/-! ### Layout -/

/-- The size and the alignment of a type. -/
structure CType where
  size : Nat
  align : Nat

/-- Round up to a multiple of the alignment. -/
def roundUp (align x : Nat) : Nat := (x + (align - 1)) / align * align

/-- Offsets of the members of a structure, the first one from `a` upwards, and the end. -/
def layoutFrom (a : Nat) : List CType → List Nat × Nat
  | [] => ([], a)
  | t :: members =>
    let offset := roundUp t.align a
    let rest := layoutFrom (offset + t.size) members
    (offset :: rest.1, rest.2)

/-- `offsetof` of each member. -/
def offsets (members : List CType) : List Nat := (layoutFrom 0 members).1

/-- `sizeof` of the structure: its end, rounded up to the largest alignment. -/
def structSize (members : List CType) : Nat :=
  roundUp ((members.map CType.align).foldl max 1) (layoutFrom 0 members).2

end ArmKernel.Support

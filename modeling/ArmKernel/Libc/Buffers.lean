/-
Strings in buffers (the other functions of `src/string.c`).

`strlen`, `strcpy`, `strcat`, `strncat`, `strcmp`, `strchr`, `strrchr`, `memcpy`, `memcmp` and
`memset` on buffers that do not overlap, beside `strncpy`. A loop up to a NUL is counted by
`rounds`; it gives `none` when these are used up.

**Main results:**
* `strcatLoop_spec`, `strcmp_spec`, `strrchrLoop_spec`: what the loops leave;
* `strcat_self`: a string put behind itself has no end;
* `buffers_refine`: whatever calls are made on the buffers, in any order, as long as each result
  fits: every buffer holds what lists of characters say, no other byte changes, and the
  functions that compare and search answer as lists do.
-/
import ArmKernel.Libc.StringCopy
import ArmKernel.Support.Run
import Mathlib.Data.List.Basic

namespace ArmKernel.Libc

open ArmKernel.Support

/-! ### The source -/

/-- `while (*s) s++`: where `s` is left. -/
def findEnd : Nat → Bytes → Nat → Option Nat
  | 0, _, _ => none
  | r + 1, mem, s => if mem s ≠ 0 then findEnd r mem (s + 1) else some s

/-- `strlen`. -/
def strlen (rounds : Nat) (mem : Bytes) (str : Nat) : Option Nat :=
  (findEnd rounds mem str).map (· - str)

/-- `while ((*d++ = *src++))`. -/
def strcatLoop : Nat → Bytes → (d src : Nat) → Option Bytes
  | 0, _, _, _ => none
  | r + 1, mem, d, src =>
    let c := mem src
    let mem := storeBytes mem d [c]
    if c ≠ 0 then strcatLoop r mem (d + 1) (src + 1) else some mem

/-- `strcpy`. -/
def strcpy (rounds : Nat) (mem : Bytes) (dest src : Nat) : Option Bytes :=
  strcatLoop rounds mem dest src

/-- `strcat`. -/
def strcat (rounds : Nat) (mem : Bytes) (dest src : Nat) : Option Bytes :=
  (findEnd rounds mem dest).bind fun d => strcatLoop rounds mem d src

/-- `while (n-- > 0 && (*d = *src++)) d++`, with the `d` that is left. -/
def strncatLoop : Nat → Bytes → (d src : Nat) → Bytes × Nat
  | 0, mem, d, _ => (mem, d)
  | n + 1, mem, d, src =>
    let c := mem src
    let mem := storeBytes mem d [c]
    if c ≠ 0 then strncatLoop n mem (d + 1) (src + 1) else (mem, d)

/-- `strncat`. -/
def strncat (rounds : Nat) (mem : Bytes) (dest src n : Nat) : Option Bytes :=
  (findEnd rounds mem dest).map fun d =>
    let (mem, d) := strncatLoop n mem d src
    storeBytes mem d [0]

/-- `strcmp`. -/
def strcmp : Nat → Bytes → (s1 s2 : Nat) → Option Int
  | 0, _, _, _ => none
  | r + 1, mem, s1, s2 =>
    if mem s1 ≠ 0 ∧ mem s1 = mem s2 then strcmp r mem (s1 + 1) (s2 + 1)
    else some ((mem s1).toNat - (mem s2).toNat)

/-- `strchr`; the inner `none` is `NULL`. -/
def strchr : Nat → Bytes → (s : Nat) → (c : BitVec 8) → Option (Option Nat)
  | 0, _, _, _ => none
  | r + 1, mem, s, c =>
    if mem s ≠ 0 ∧ mem s ≠ c then strchr r mem (s + 1) c
    else some (if mem s = c then some s else none)

/-- The loop of `strrchr`. -/
def strrchrLoop : Nat → Bytes → (s : Nat) → (c : BitVec 8) → (found : Option Nat) →
    Option (Option Nat)
  | 0, _, _, _, _ => none
  | r + 1, mem, s, c, found =>
    if mem s ≠ 0 then strrchrLoop r mem (s + 1) c (if mem s = c then some s else found)
    else some found

/-- `strrchr`. -/
def strrchr (rounds : Nat) (mem : Bytes) (s : Nat) (c : BitVec 8) : Option (Option Nat) :=
  strrchrLoop rounds mem s c none

/-- `memcpy`: the loop of `memmove` from the low end. -/
def memcpy (mem : Bytes) (dest src n : Nat) : Bytes := moveUp n mem dest src

/-- `memcmp`. -/
def memcmp (mem : Bytes) : (s1 s2 n : Nat) → Int
  | _, _, 0 => 0
  | s1, s2, n + 1 =>
    if mem s1 ≠ mem s2 then (mem s1).toNat - (mem s2).toNat else memcmp mem (s1 + 1) (s2 + 1) n

/-- `memset`; `c` is an `int`. -/
def memset (c : BitVec 32) : Bytes → (s n : Nat) → Bytes
  | mem, _, 0 => mem
  | mem, s, n + 1 => memset c (storeBytes mem s [c.setWidth 8]) (s + 1) n

/-! ### Loops -/

section Loops

variable {mem : Bytes} {p d q n rounds : Nat} {c : BitVec 8} {xs ys : List (BitVec 8)}

/-- The bytes stand at `p`. -/
def BytesAt (mem : Bytes) (p : Nat) (xs : List (BitVec 8)) : Prop := readBytes mem p xs.length = xs

theorem bytesAt_append :
    BytesAt mem p (xs ++ ys) ↔ BytesAt mem p xs ∧ BytesAt mem (p + xs.length) ys :=
  readBytes_eq_append_iff

theorem bytesAt_cons : BytesAt mem p (c :: xs) ↔ mem p = c ∧ BytesAt mem (p + 1) xs := by
  rw [← List.singleton_append, bytesAt_append]
  refine and_congr_left fun _ => ?_
  simp [BytesAt, readBytes]

theorem BytesAt.congr {mem' : Bytes} (h : BytesAt mem p xs) (hsame : Agree mem mem' p xs.length) :
    BytesAt mem' p xs :=
  (readBytes_congr hsame).trans h

theorem bytesAt_storeBytes : BytesAt (storeBytes mem p xs) p xs :=
  readBytes_storeBytes_self mem p xs

theorem storeBytes_cons (mem : Bytes) (d : Nat) (c : BitVec 8) (xs : List (BitVec 8)) :
    storeBytes mem d (c :: xs) = storeBytes (storeBytes mem d [c]) (d + 1) xs :=
  storeBytes_append mem d [c] xs

/-- A store elsewhere. -/
theorem BytesAt.store (h : BytesAt mem p xs) (happart : p + xs.length ≤ q ∨ q + ys.length ≤ p) :
    BytesAt (storeBytes mem q ys) p xs :=
  h.congr (agree_storeBytes happart)

theorem holds_iff {s : CString} : Holds mem p s ↔ BytesAt mem p (s.bytes ++ [0]) := by
  rw [Holds, BytesAt, List.length_append]
  rfl

theorem findEnd_spec (h : BytesAt mem p (xs ++ [0])) (hx : 0 ∉ xs) (hr : xs.length < rounds) :
    findEnd rounds mem p = some (p + xs.length) := by
  induction xs generalizing p rounds with
  | nil =>
    obtain ⟨r, rfl⟩ := Nat.exists_eq_succ_of_ne_zero (Nat.ne_of_gt hr)
    have hnul := (bytesAt_cons.mp h).1
    rw [findEnd, if_neg (not_not.mpr hnul)]
    rfl
  | cons c xs ih =>
    obtain ⟨r, rfl⟩ := Nat.exists_eq_succ_of_ne_zero (Nat.ne_zero_of_lt hr)
    obtain ⟨hc, htail⟩ := bytesAt_cons.mp h
    have hne : mem p ≠ 0 := fun h0 => hx (by rw [← h0, hc]; exact List.mem_cons_self)
    rw [findEnd, if_pos hne, ih htail (fun hmem => hx (List.mem_cons_of_mem c hmem))
      (Nat.lt_of_succ_lt_succ hr), List.length_cons, Nat.add_assoc, Nat.add_comm 1]

theorem findEnd_eq_none (hne : ∀ j < rounds, mem (p + j) ≠ 0) : findEnd rounds mem p = none := by
  induction rounds generalizing p with
  | zero => rfl
  | succ r ih =>
    have hfirst : mem p ≠ 0 := hne 0 (Nat.zero_lt_succ r)
    rw [findEnd, if_pos hfirst, ih]
    intro j hj
    have hnext := hne (j + 1) (Nat.succ_lt_succ hj)
    rwa [Nat.add_comm j, ← Nat.add_assoc] at hnext

/-- A copy up to the NUL, to a place that it does not read later. -/
theorem strcatLoop_spec (h : BytesAt mem p (xs ++ [0])) (hx : 0 ∉ xs)
    (happart : d ≤ p ∨ p + xs.length < d) (hr : xs.length < rounds) :
    strcatLoop rounds mem d p = some (storeBytes mem d (xs ++ [0])) := by
  induction xs generalizing mem d p rounds with
  | nil =>
    obtain ⟨r, rfl⟩ := Nat.exists_eq_succ_of_ne_zero (Nat.ne_of_gt hr)
    have hnul := (bytesAt_cons.mp h).1
    simp only [strcatLoop, hnul]
    rfl
  | cons c xs ih =>
    obtain ⟨r, rfl⟩ := Nat.exists_eq_succ_of_ne_zero (Nat.ne_zero_of_lt hr)
    obtain ⟨hc, htail⟩ := bytesAt_cons.mp h
    have hne : c ≠ 0 := fun h0 => hx (h0 ▸ List.mem_cons_self)
    rw [List.length_cons] at happart
    have hkeep : BytesAt (storeBytes mem d [c]) (p + 1) (xs ++ [0]) := by
      refine BytesAt.store htail ?_
      rw [List.length_append, List.length_singleton, List.length_singleton]
      omega
    have hrest := ih hkeep (fun hmem => hx (List.mem_cons_of_mem c hmem)) (d := d + 1) (by omega)
      (Nat.lt_of_succ_lt_succ hr)
    simp only [strcatLoop, hc]
    rw [if_pos hne, hrest, List.cons_append, storeBytes_cons mem d c (xs ++ [0])]

/-- The end of a string moves away from a copy of the string behind itself. -/
theorem strcatLoop_self (m k : Nat) (hne : ∀ j < m, mem (p + j) ≠ 0) (hk : k < m) :
    strcatLoop rounds mem (p + m) (p + k) = none := by
  induction rounds generalizing mem m k with
  | zero => rfl
  | succ r ih =>
    have hchar := hne k hk
    rw [strcatLoop, if_pos hchar]
    refine ih (m + 1) (k + 1) (fun j hj => ?_) (Nat.succ_lt_succ hk)
    rw [storeBytes_singleton]
    split
    · exact hchar
    · exact hne j (by omega)

/-- `strcat` of a string to itself does not return, unless the string is empty. -/
theorem strcat_self {s : CString} (h : Holds mem p s) (hs : s.bytes ≠ []) :
    strcat rounds mem p p = none := by
  rw [strcat]
  by_cases hr : s.bytes.length < rounds
  · rw [findEnd_spec (holds_iff.mp h) s.noNul hr]
    exact strcatLoop_self _ 0 (fun j hj => h.ne_zero hj) (List.length_pos_iff.mpr hs)
  · rw [findEnd_eq_none fun j hj => h.ne_zero (by omega)]
    rfl

theorem strncatLoop_spec (h : BytesAt mem p (xs ++ [0])) (hx : 0 ∉ xs)
    (happart : d ≤ p ∨ p + xs.length < d) :
    storeBytes (strncatLoop n mem d p).1 (strncatLoop n mem d p).2 [0] =
      storeBytes mem d (xs.take n ++ [0]) := by
  induction n generalizing mem d p xs with
  | zero => rfl
  | succ n ih =>
    cases xs with
    | nil =>
      have hnul := (bytesAt_cons.mp h).1
      simp only [strncatLoop, hnul]
      funext b
      simp only [ne_eq, not_true_eq_false, if_false, List.take_nil, List.nil_append,
        storeBytes_singleton]
      split <;> rfl
    | cons c xs =>
      obtain ⟨hc, htail⟩ := bytesAt_cons.mp h
      have hne : c ≠ 0 := fun h0 => hx (h0 ▸ List.mem_cons_self)
      rw [List.length_cons] at happart
      have hkeep : BytesAt (storeBytes mem d [c]) (p + 1) (xs ++ [0]) := by
        refine BytesAt.store htail ?_
        rw [List.length_append, List.length_singleton, List.length_singleton]
        omega
      have hrest := ih hkeep (fun hmem => hx (List.mem_cons_of_mem c hmem)) (d := d + 1) (by omega)
      simp only [strncatLoop, hc]
      rw [if_pos hne, hrest, List.take_succ_cons, List.cons_append,
        storeBytes_cons mem d c (xs.take n ++ [0])]

/-- The order of two bytes is the sign of their difference. -/
theorem compare_sub (x y : BitVec 8) : compare ((x.toNat : Int) - y.toNat) 0 = compare x y := by
  show compareOfLessAndEq _ _ = compareOfLessAndEq x y
  have hlt : (x.toNat : Int) - y.toNat < 0 ↔ x < y := by
    rw [BitVec.lt_def]
    omega
  have heq : (x.toNat : Int) - y.toNat = 0 ↔ x = y := by
    rw [← BitVec.toNat_inj]
    omega
  simp only [compareOfLessAndEq, hlt, heq]

theorem compare_zero {x : BitVec 8} (hx : x ≠ 0) : compare 0 x = .lt ∧ compare x 0 = .gt := by
  revert hx
  revert x
  decide

/-- Two bytes that differ decide. -/
theorem compare_then {x y : BitVec 8} (h : x ≠ y) (o : Ordering) :
    (compare x y).then o = compare x y := by
  have hne : compare x y ≠ .eq := fun heq => h (Std.compare_eq_iff_eq.mp heq)
  cases hcompare : compare x y with
  | eq => exact absurd hcompare hne
  | lt => rfl
  | gt => rfl

/-- **`strcmp`** compares as lists of bytes are compared. -/
theorem strcmp_spec (hp : BytesAt mem p (xs ++ [0])) (hq : BytesAt mem q (ys ++ [0])) (hx : 0 ∉ xs)
    (hy : 0 ∉ ys) (hr : xs.length < rounds) :
    ∃ v, strcmp rounds mem p q = some v ∧ compare v 0 = List.compareLex compare xs ys := by
  induction xs generalizing p q ys rounds with
  | nil =>
    obtain ⟨r, rfl⟩ := Nat.exists_eq_succ_of_ne_zero (Nat.ne_of_gt hr)
    have hnul := (bytesAt_cons.mp hp).1
    refine ⟨_, by rw [strcmp, if_neg fun h => h.1 hnul], ?_⟩
    rw [compare_sub, hnul]
    cases ys with
    | nil =>
      rw [(bytesAt_cons.mp hq).1]
      rfl
    | cons d ys =>
      have hne : d ≠ 0 := fun h0 => hy (h0 ▸ List.mem_cons_self)
      rw [(bytesAt_cons.mp hq).1, (compare_zero hne).1, List.compareLex_nil_cons]
  | cons c xs ih =>
    obtain ⟨r, rfl⟩ := Nat.exists_eq_succ_of_ne_zero (Nat.ne_zero_of_lt hr)
    obtain ⟨hc, hxs⟩ := bytesAt_cons.mp hp
    have hcne : c ≠ 0 := fun h0 => hx (h0 ▸ List.mem_cons_self)
    cases ys with
    | nil =>
      have hnul := (bytesAt_cons.mp hq).1
      refine ⟨_, by rw [strcmp, if_neg fun h => h.1 (h.2.trans hnul)], ?_⟩
      rw [compare_sub, hc, hnul, (compare_zero hcne).2, List.compareLex_cons_nil]
    | cons d ys =>
      obtain ⟨hd, hys⟩ := bytesAt_cons.mp hq
      rw [strcmp, hc, hd, List.compareLex_cons_cons]
      by_cases heq : c = d
      · subst heq
        rw [if_pos ⟨hcne, rfl⟩, Std.compare_eq_iff_eq.mpr rfl, Ordering.eq_then]
        exact ih hxs hys (fun hmem => hx (List.mem_cons_of_mem c hmem))
          (fun hmem => hy (List.mem_cons_of_mem c hmem)) (Nat.lt_of_succ_lt_succ hr)
      · exact ⟨_, if_neg fun h => heq h.2, by rw [compare_sub, compare_then heq]⟩

/-- **`strchr`** finds the first one, the NUL among them. -/
theorem strchr_spec (hp : BytesAt mem p (xs ++ [0])) (hx : 0 ∉ xs) (hr : xs.length < rounds) :
    strchr rounds mem p c = some (((xs ++ [0]).idxOf? c).map (p + ·)) := by
  induction xs generalizing p rounds with
  | nil =>
    obtain ⟨r, rfl⟩ := Nat.exists_eq_succ_of_ne_zero (Nat.ne_of_gt hr)
    have hnul := (bytesAt_cons.mp hp).1
    rw [strchr, if_neg fun h => h.1 hnul, hnul, List.nil_append, List.idxOf?_cons]
    simp
  | cons x xs ih =>
    obtain ⟨r, rfl⟩ := Nat.exists_eq_succ_of_ne_zero (Nat.ne_zero_of_lt hr)
    obtain ⟨hfirst, htail⟩ := bytesAt_cons.mp hp
    have hne : x ≠ 0 := fun h0 => hx (h0 ▸ List.mem_cons_self)
    rw [strchr, hfirst, List.cons_append, List.idxOf?_cons]
    by_cases hc : x = c
    · simp [hc]
    · rw [if_pos ⟨hne, hc⟩, ih htail (fun hmem => hx (List.mem_cons_of_mem x hmem))
        (Nat.lt_of_succ_lt_succ hr)]
      simp [hc, Function.comp_def, Nat.add_assoc, Nat.add_comm 1]

/-- The last place of a character. -/
def lastIndex (c : BitVec 8) : List (BitVec 8) → Option Nat
  | [] => none
  | x :: xs => match lastIndex c xs with
    | some i => some (i + 1)
    | none => if x = c then some 0 else none

theorem strrchrLoop_spec {found : Option Nat} (hp : BytesAt mem p (xs ++ [0])) (hx : 0 ∉ xs)
    (hr : xs.length < rounds) :
    strrchrLoop rounds mem p c found = some (((lastIndex c xs).map (p + ·)).or found) := by
  induction xs generalizing p rounds found with
  | nil =>
    obtain ⟨r, rfl⟩ := Nat.exists_eq_succ_of_ne_zero (Nat.ne_of_gt hr)
    rw [strrchrLoop, if_neg (not_not.mpr (bytesAt_cons.mp hp).1)]
    rfl
  | cons x xs ih =>
    obtain ⟨r, rfl⟩ := Nat.exists_eq_succ_of_ne_zero (Nat.ne_zero_of_lt hr)
    obtain ⟨hfirst, htail⟩ := bytesAt_cons.mp hp
    have hne : x ≠ 0 := fun h0 => hx (h0 ▸ List.mem_cons_self)
    rw [strrchrLoop, hfirst, if_pos hne, ih htail (fun hmem => hx (List.mem_cons_of_mem x hmem))
      (Nat.lt_of_succ_lt_succ hr), lastIndex]
    cases lastIndex c xs with
    | none => by_cases hc : x = c <;> simp [hc]
    | some i => simp [Nat.add_assoc, Nat.add_comm 1]

/-- `memcmp` compares lists of one length. -/
theorem memcmp_spec (hlen : xs.length = ys.length) (hp : BytesAt mem p xs) (hq : BytesAt mem q ys) :
    compare (memcmp mem p q xs.length) 0 = List.compareLex compare xs ys := by
  induction xs generalizing p q ys with
  | nil =>
    cases List.length_eq_zero_iff.mp hlen.symm
    rfl
  | cons c xs ih =>
    obtain _ | ⟨d, ys⟩ := ys
    · cases hlen
    obtain ⟨hc, hxs⟩ := bytesAt_cons.mp hp
    obtain ⟨hd, hys⟩ := bytesAt_cons.mp hq
    rw [List.length_cons, memcmp, hc, hd, List.compareLex_cons_cons]
    by_cases heq : c = d
    · subst heq
      rw [if_neg (not_not.mpr rfl), Std.compare_eq_iff_eq.mpr rfl, Ordering.eq_then]
      exact ih (Nat.succ.inj hlen) hxs hys
    · rw [if_pos heq, compare_sub, compare_then heq]

theorem memset_eq (c : BitVec 32) (mem : Bytes) (p n : Nat) :
    memset c mem p n = fillBytes mem p (c.setWidth 8) n := by
  induction n generalizing mem p with
  | zero =>
    funext b
    rw [memset, fillBytes, if_neg (by omega)]
  | succ n ih =>
    rw [memset, ih]
    funext b
    unfold fillBytes
    by_cases hfirst : b = p
    · subst hfirst
      rw [if_neg (by omega), storeBytes_singleton, if_pos rfl, if_pos (by omega)]
    · by_cases hin : p ≤ b ∧ b < p + (n + 1)
      · rw [if_pos hin, if_pos (by omega)]
      · rw [if_neg hin, if_neg (by omega), storeBytes_singleton, if_neg hfirst]

end Loops

/-! ### Buffers -/

variable {ι : Type*}

/-- Buffers that do not overlap. -/
structure Buffers (ι : Type*) where
  base : ι → Nat
  size : ι → Nat
  apart : ∀ i j, i ≠ j → base i + size i ≤ base j ∨ base j + size j ≤ base i

/-- A call on buffers. -/
inductive StringCall (ι : Type*) where
  | strlen (i : ι)
  | strcpy (dest src : ι)
  | strncpy (dest src : ι) (n : Nat)
  | strcat (dest src : ι)
  | strncat (dest src : ι) (n : Nat)
  | strcmp (i j : ι)
  | strchr (i : ι) (c : BitVec 8)
  | strrchr (i : ι) (c : BitVec 8)
  | memcpy (dest src : ι) (n : Nat)
  | memcmp (i j : ι) (n : Nat)
  | memset (dest : ι) (c : BitVec 32) (n : Nat)

/-- What a call returns: of a comparison the sign, of a search the place in the buffer. -/
inductive Answer where
  | none
  | length (n : Nat)
  | order (o : Ordering)
  | place (i : Option Nat)
deriving DecidableEq

/-- The memory, and the answers so far. -/
structure BufferState where
  mem : Bytes
  answers : List Answer

/-- The source's functions on the memory. -/
def bufferStep (L : Buffers ι) (rounds : Nat) (s : BufferState) :
    StringCall ι → Option BufferState
  | .strlen i => (strlen rounds s.mem (L.base i)).map fun n =>
      ⟨s.mem, .length n :: s.answers⟩
  | .strcpy dest src => (strcpy rounds s.mem (L.base dest) (L.base src)).map fun mem =>
      ⟨mem, .none :: s.answers⟩
  | .strncpy dest src n =>
      some ⟨strncpy s.mem (L.base dest) (L.base src) n, .none :: s.answers⟩
  | .strcat dest src => (strcat rounds s.mem (L.base dest) (L.base src)).map fun mem =>
      ⟨mem, .none :: s.answers⟩
  | .strncat dest src n => (strncat rounds s.mem (L.base dest) (L.base src) n).map fun mem =>
      ⟨mem, .none :: s.answers⟩
  | .strcmp i j => (strcmp rounds s.mem (L.base i) (L.base j)).map fun v =>
      ⟨s.mem, .order (compare v 0) :: s.answers⟩
  | .strchr i c => (strchr rounds s.mem (L.base i) c).map fun found =>
      ⟨s.mem, .place (found.map (· - L.base i)) :: s.answers⟩
  | .strrchr i c => (strrchr rounds s.mem (L.base i) c).map fun found =>
      ⟨s.mem, .place (found.map (· - L.base i)) :: s.answers⟩
  | .memcpy dest src n =>
      some ⟨memcpy s.mem (L.base dest) (L.base src) n, .none :: s.answers⟩
  | .memcmp i j n =>
      some ⟨s.mem, .order (compare (memcmp s.mem (L.base i) (L.base j) n) 0) :: s.answers⟩
  | .memset dest c n => some ⟨memset c s.mem (L.base dest) n, .none :: s.answers⟩

end ArmKernel.Libc

namespace ArmKernel.Support.CString

/-! ### Lists of characters -/

theorem noNul_nil : (0 : BitVec 8) ∉ ([] : List (BitVec 8)) := List.not_mem_nil

/-- No characters. -/
def empty : CString := ⟨[], noNul_nil⟩

/-- One string behind another. -/
def append (s t : CString) : CString :=
  ⟨s.bytes ++ t.bytes, fun h => (List.mem_append.mp h).elim s.noNul t.noNul⟩

/-- The first characters. -/
def take (s : CString) (n : Nat) : CString :=
  ⟨s.bytes.take n, fun h => s.noNul (List.mem_of_mem_take h)⟩

/-- The characters behind the first. -/
def drop (s : CString) (n : Nat) : CString :=
  ⟨s.bytes.drop n, fun h => s.noNul (List.mem_of_mem_drop h)⟩

/-- One character over and over; none of NULs. -/
def fill (c : BitVec 8) (n : Nat) : CString :=
  if h : c = 0 then empty
  else ⟨List.replicate n c, fun hmem => h (List.eq_of_mem_replicate hmem).symm⟩

/-- The first `n` characters of `s` with those of `t` in their place, or all of `s` when its NUL is
among the `n`. -/
def overwrite (t s : CString) (n : Nat) : CString :=
  if s.bytes.length < n then s else (s.take n).append (t.drop n)

end ArmKernel.Support.CString

namespace ArmKernel.Libc

open ArmKernel.Support

variable {ι : Type*}

/-- The lists, and the answers so far. -/
structure ListState (ι : Type*) where
  contents : ι → CString
  answers : List Answer

section Lists

variable [DecidableEq ι]

/-- What a call does to the lists. -/
def StringCall.contents (contents : ι → CString) : StringCall ι → ι → CString
  | .strcpy dest src => Function.update contents dest (contents src)
  | .strncpy dest src n =>
      Function.update contents dest ((contents dest).overwrite (contents src) n)
  | .strcat dest src =>
      Function.update contents dest ((contents dest).append (contents src))
  | .strncat dest src n =>
      Function.update contents dest ((contents dest).append ((contents src).take n))
  | .memcpy dest src n =>
      Function.update contents dest ((contents dest).overwrite (contents src) n)
  | .memset dest c n => Function.update contents dest
      (if n = 0 then contents dest
        else if c.setWidth 8 = (0 : BitVec 8) then CString.empty
        else (CString.fill (c.setWidth 8) n).append ((contents dest).drop n))
  | _ => contents

/-- What a call answers. `strchr` finds the NUL, `strrchr` does not. -/
def StringCall.answer (contents : ι → CString) : StringCall ι → Answer
  | .strlen i => .length (contents i).bytes.length
  | .strcmp i j => .order (List.compareLex compare (contents i).bytes (contents j).bytes)
  | .strchr i c => .place (((contents i).bytes ++ [0]).idxOf? c)
  | .strrchr i c => .place (lastIndex c (contents i).bytes)
  | .memcmp i j n => .order (List.compareLex compare (((contents i).bytes ++ [0]).take n)
      (((contents j).bytes ++ [0]).take n))
  | _ => .none

/-- A call on the lists. -/
def ListState.perform (s : ListState ι) (call : StringCall ι) : ListState ι :=
  ⟨call.contents s.contents, call.answer s.contents :: s.answers⟩

end Lists

/-- The result fits into its buffer, with its NUL; the bytes that are read have been written; and
`strcat` is not given one string twice, unless it is empty. `strncpy` writes a NUL more than it
should. -/
def StringCall.Fits (L : Buffers ι) (contents : ι → CString) : StringCall ι → Prop
  | .strcpy dest src => (contents src).bytes.length < L.size dest
  | .strncpy dest src n => if (contents src).bytes.length < n then n < L.size dest
      else n ≤ (contents dest).bytes.length
  | .strcat dest src => (dest = src → (contents src).bytes = []) ∧
      (contents dest).bytes.length + (contents src).bytes.length < L.size dest
  | .strncat dest src n => (dest = src → (contents src).bytes = []) ∧
      (contents dest).bytes.length + min n (contents src).bytes.length < L.size dest
  | .memcpy dest src n => n ≤ L.size src ∧ if (contents src).bytes.length < n then n ≤ L.size dest
      else n ≤ (contents dest).bytes.length
  | .memcmp i j n => n ≤ (contents i).bytes.length + 1 ∧ n ≤ (contents j).bytes.length + 1
  | .memset dest c n => if c.setWidth 8 = (0 : BitVec 8) then n ≤ L.size dest
      else n ≤ (contents dest).bytes.length
  | _ => True

/-! ### The functions keep the lists -/

section Keeps

variable {L : Buffers ι} {mem mem' mem₀ : Bytes} {s : BufferState} {t : ListState ι}
  {i j dest src : ι} {n rounds : Nat} {d p : Nat} {xs : List (BitVec 8)}

/-- The bytes of one place at another. -/
theorem BytesAt.move (h : BytesAt mem p xs) (hsame : ∀ k < xs.length, mem' (d + k) = mem (p + k)) :
    BytesAt mem' d xs := by
  refine Eq.trans ?_ h
  exact List.map_congr_left fun k hk => hsame k (List.mem_range.mp hk)

/-- The memory holds the lists, and is as it was outside the buffers. -/
structure Represents (L : Buffers ι) (mem₀ : Bytes) (s : BufferState) (t : ListState ι) :
    Prop where
  holds : ∀ i, Holds s.mem (L.base i) (t.contents i)
  fits : ∀ i, (t.contents i).bytes.length < L.size i
  answers : s.answers = t.answers
  frame : ∀ b, (∀ i, b < L.base i ∨ L.base i + L.size i ≤ b) → s.mem b = mem₀ b

theorem Represents.reads (h : Represents L mem₀ s t) (i : ι) :
    BytesAt s.mem (L.base i) ((t.contents i).bytes ++ [0]) :=
  holds_iff.mp (h.holds i)

/-- A call that only reads. -/
theorem Represents.ask (h : Represents L mem₀ s t) (a : Answer) :
    Represents L mem₀ ⟨s.mem, a :: s.answers⟩ ⟨t.contents, a :: t.answers⟩ :=
  ⟨h.holds, h.fits, congrArg (a :: ·) h.answers, h.frame⟩

/-- A call that writes a string into its buffer. -/
theorem Represents.write [DecidableEq ι] (h : Represents L mem₀ s t) {str : CString}
    (mem' : Bytes) (hstr : BytesAt mem' (L.base dest) (str.bytes ++ [0]))
    (hlen : str.bytes.length < L.size dest)
    (hsame : ∀ b, b < L.base dest ∨ L.base dest + L.size dest ≤ b → mem' b = s.mem b) :
    Represents L mem₀ ⟨mem', .none :: s.answers⟩
      ⟨Function.update t.contents dest str, .none :: t.answers⟩ where
  holds i := by
    show Holds mem' (L.base i) (Function.update t.contents dest str i)
    by_cases heq : i = dest
    · subst heq
      rw [Function.update_self]
      exact holds_iff.mpr hstr
    · rw [Function.update_of_ne heq]
      refine holds_iff.mpr ((h.reads i).congr fun b hlo hhi => hsame b ?_)
      have hfits := h.fits i
      rw [List.length_append, List.length_singleton] at hhi
      rcases L.apart i dest heq with hapart | hapart
      · exact .inl (by omega)
      · exact .inr (by omega)
  fits i := by
    show (Function.update t.contents dest str i).bytes.length < L.size i
    by_cases heq : i = dest
    · subst heq
      rwa [Function.update_self]
    · rw [Function.update_of_ne heq]
      exact h.fits i
  answers := congrArg (Answer.none :: ·) h.answers
  frame b hb := (hsame b (hb dest)).trans (h.frame b hb)

/-- The destination of a copy does not lie in what is read later. -/
theorem Buffers.below_or_behind (L : Buffers ι) (i j : ι) :
    L.base i ≤ L.base j ∨ L.base j + L.size j ≤ L.base i := by
  by_cases heq : i = j
  · exact .inl (heq ▸ Nat.le_refl _)
  · rcases L.apart i j heq with hapart | hapart
    · exact .inl (by omega)
    · exact .inr hapart

/-- A copy of the first `n` bytes, the NUL among them or not. -/
theorem bytesAt_overwrite (h : Represents L mem₀ s t)
    (hcopy : ∀ k < n, k ≤ (t.contents src).bytes.length →
      mem' (L.base dest + k) = s.mem (L.base src + k))
    (hrest : ∀ b, L.base dest + n ≤ b → (t.contents src).bytes.length < n ∨ mem' b = s.mem b)
    (hfits : (t.contents src).bytes.length < n ∨ n ≤ (t.contents dest).bytes.length) :
    BytesAt mem' (L.base dest)
      (((t.contents dest).overwrite (t.contents src) n).bytes ++ [0]) := by
  have hsrc := h.reads src
  have hdest := h.reads dest
  unfold CString.overwrite
  split
  · next hlt =>
    refine hsrc.move fun k hk => hcopy k ?_ ?_ <;>
      rw [List.length_append, List.length_singleton] at hk <;> omega
  · next hlt =>
    have hn := hfits.resolve_left hlt
    have hlen : ((t.contents src).bytes.take n).length = n :=
      List.length_take_of_le (Nat.not_lt.mp hlt)
    have hhead : BytesAt s.mem (L.base src) ((t.contents src).bytes.take n) := by
      rw [← List.take_append_drop n (t.contents src).bytes, List.append_assoc] at hsrc
      exact (bytesAt_append.mp hsrc).1
    have htail : BytesAt s.mem (L.base dest + n) ((t.contents dest).bytes.drop n ++ [0]) := by
      rw [← List.take_append_drop n (t.contents dest).bytes, List.append_assoc] at hdest
      have hboth := (bytesAt_append.mp hdest).2
      rwa [List.length_take_of_le hn] at hboth
    show BytesAt mem' (L.base dest)
      ((t.contents src).bytes.take n ++ (t.contents dest).bytes.drop n ++ [0])
    rw [List.append_assoc, bytesAt_append, hlen]
    refine ⟨hhead.move fun k hk => hcopy k (by omega) (by omega), ?_⟩
    exact htail.congr fun b hlo _ => (hrest b hlo).resolve_left hlt

theorem memcpy_eq (mem : Bytes) (h : d ≤ p ∨ p + n ≤ d) :
    memcpy mem d p n = copyBytes mem d p n := by
  have hup := moveUp_echoBytes n 0 mem d p
  rw [echoBytes_zero, Nat.zero_add] at hup
  exact hup.trans (echoBytes_eq_copyBytes mem h)

/-- `strncpy` writes the first bytes, and NULs from the end of the string to one behind the
count. -/
theorem strncpy_bytes (h : Represents L mem₀ s t) (dest src : ι) (n : Nat) :
    (∀ k < n, k ≤ (t.contents src).bytes.length →
      strncpy s.mem (L.base dest) (L.base src) n (L.base dest + k) = s.mem (L.base src + k)) ∧
    ∀ b, b < L.base dest ∨
        L.base dest + (if (t.contents src).bytes.length < n then n + 1 else n) ≤ b →
      strncpy s.mem (L.base dest) (L.base src) n b = s.mem b := by
  have hholds := h.holds src
  have hfits := h.fits src
  have hplace := L.below_or_behind dest src
  by_cases hshort : (t.contents src).bytes.length < n
  · rw [if_pos hshort, strncpy_short hholds hshort (by omega)]
    unfold fillBytes copyBytes
    refine ⟨fun k hk hlen => ?_, fun b hb => ?_⟩
    · by_cases hend : k = (t.contents src).bytes.length
      · rw [if_pos (by omega), hend, hholds.nul]
      · rw [if_neg (by omega), if_pos (by omega), Nat.add_sub_cancel_left]
    · rw [if_neg (by omega), if_neg (by omega)]
  · have hfull : ∀ k < n, s.mem (L.base src + k % (L.base dest - L.base src)) ≠ 0 := by
      intro k hk
      have hle := Nat.mod_le k (L.base dest - L.base src)
      exact hholds.ne_zero (by omega)
    rw [if_neg hshort, strncpy_full hfull, echoBytes_eq_copyBytes s.mem (by omega)]
    unfold copyBytes
    refine ⟨fun k hk _ => ?_, fun b hb => ?_⟩
    · rw [if_pos (by omega), Nat.add_sub_cancel_left]
    · rw [if_neg (by omega)]

theorem length_overwrite (u v : CString) (h : u.bytes.length < n ∨ n ≤ v.bytes.length) :
    (v.overwrite u n).bytes.length =
      if u.bytes.length < n then u.bytes.length else v.bytes.length := by
  unfold CString.overwrite
  split
  · rfl
  · next hlt =>
    have hn := h.resolve_left hlt
    show (u.bytes.take n ++ v.bytes.drop n).length = v.bytes.length
    rw [List.length_append, List.length_take_of_le (Nat.not_lt.mp hlt), List.length_drop]
    omega

/-- `memset`: with NULs the string is gone, with others its first characters are. -/
theorem bytesAt_fill (h : Represents L mem₀ s t) {c : BitVec 32}
    (hfits : (StringCall.memset dest c n).Fits L t.contents) :
    let str := if n = 0 then t.contents dest
      else if c.setWidth 8 = (0 : BitVec 8) then CString.empty
      else (CString.fill (c.setWidth 8) n).append ((t.contents dest).drop n)
    BytesAt (memset c s.mem (L.base dest) n) (L.base dest) (str.bytes ++ [0]) ∧
      str.bytes.length < L.size dest := by
  intro str
  have hdest := h.reads dest
  have hlen := h.fits dest
  simp only [StringCall.Fits] at hfits
  by_cases hn : n = 0
  · have hstr : str = t.contents dest := if_pos hn
    rw [hstr, hn]
    exact ⟨hdest, hlen⟩
  by_cases hc : c.setWidth 8 = (0 : BitVec 8)
  · have hstr : str = CString.empty := (if_neg hn).trans (if_pos hc)
    rw [hstr, memset_eq, hc]
    exact ⟨bytesAt_cons.mpr ⟨if_pos (by omega), rfl⟩, Nat.zero_lt_of_lt hlen⟩
  · rw [if_neg hc] at hfits
    have hstr : str.bytes = List.replicate n (c.setWidth 8) ++ (t.contents dest).bytes.drop n := by
      have hfill : CString.fill (c.setWidth 8) n = ⟨_, _⟩ := dif_neg hc
      rw [show str = _ from (if_neg hn).trans (if_neg hc), hfill]
      rfl
    have htail : BytesAt s.mem (L.base dest + n) ((t.contents dest).bytes.drop n ++ [0]) := by
      rw [← List.take_append_drop n (t.contents dest).bytes, List.append_assoc] at hdest
      have hboth := (bytesAt_append.mp hdest).2
      rwa [List.length_take_of_le hfits] at hboth
    rw [hstr, memset_eq, List.append_assoc, bytesAt_append, List.length_replicate,
      List.length_append, List.length_replicate, List.length_drop]
    refine ⟨⟨?_, htail.congr fun b hlo _ => if_neg (by omega)⟩, by omega⟩
    refine List.ext_getElem (by simp [readBytes]) fun k hk _ => ?_
    simp only [readBytes, List.length_map, List.length_range, List.length_replicate] at hk
    simp only [readBytes, List.getElem_map, List.getElem_range, List.getElem_replicate]
    exact if_pos (by omega)

section Step

variable [DecidableEq ι]

/-- A string behind the end of another. -/
theorem represents_append (h : Represents L mem₀ s t) {u : CString}
    (hlen : (t.contents dest).bytes.length + u.bytes.length < L.size dest) :
    Represents L mem₀
      ⟨storeBytes s.mem (L.base dest + (t.contents dest).bytes.length) (u.bytes ++ [0]),
        .none :: s.answers⟩
      ⟨Function.update t.contents dest ((t.contents dest).append u), .none :: t.answers⟩ := by
  refine h.write _ ?_ ?_ ?_
  · show BytesAt _ _ ((t.contents dest).bytes ++ u.bytes ++ [0])
    rw [List.append_assoc, bytesAt_append]
    exact ⟨(bytesAt_append.mp (h.reads dest)).1.store (.inl (Nat.le_refl _)), bytesAt_storeBytes⟩
  · show ((t.contents dest).bytes ++ u.bytes).length < L.size dest
    rw [List.length_append]
    exact hlen
  · intro b hb
    refine storeBytes_of_outside ?_
    rw [List.length_append, List.length_singleton]
    omega

/-- `strcat` does not read what it writes. -/
theorem append_apart (h : Represents L mem₀ s t)
    (hself : dest = src → (t.contents src).bytes = []) :
    L.base dest + (t.contents dest).bytes.length ≤ L.base src ∨
      L.base src + (t.contents src).bytes.length <
        L.base dest + (t.contents dest).bytes.length := by
  have hdest := h.fits dest
  have hsrc := h.fits src
  by_cases heq : dest = src
  · have hempty := hself heq
    subst heq
    rw [hempty]
    exact .inl (Nat.le_refl _)
  · rcases L.apart dest src heq with hapart | hapart
    · exact .inl (by omega)
    · exact .inr (by omega)

theorem place_eq (base : Nat) (place : Option Nat) :
    (place.map (base + ·)).map (· - base) = place := by
  cases place with
  | none => rfl
  | some k => exact congrArg some (Nat.add_sub_cancel_left ..)

/-- **A call** on the memory does what it does on the lists. -/
theorem represents_step (h : Represents L mem₀ s t) (hr : ∀ i, L.size i ≤ rounds)
    (call : StringCall ι) (hfits : call.Fits L t.contents) :
    ∃ s', bufferStep L rounds s call = some s' ∧ Represents L mem₀ s' (t.perform call) := by
  have hrounds : ∀ i, (t.contents i).bytes.length < rounds :=
    fun i => Nat.lt_of_lt_of_le (h.fits i) (hr i)
  have hnul : ∀ i, 0 ∉ (t.contents i).bytes := fun i => (t.contents i).noNul
  have hend : ∀ i, findEnd rounds s.mem (L.base i) =
      some (L.base i + (t.contents i).bytes.length) :=
    fun i => findEnd_spec (h.reads i) (hnul i) (hrounds i)
  cases call with
  | strlen i =>
    refine ⟨_, by rw [bufferStep, strlen, hend, Option.map_some, Option.map_some], ?_⟩
    rw [Nat.add_sub_cancel_left]
    exact h.ask _
  | strcpy dest src =>
    have happart := L.below_or_behind dest src
    have hlen := h.fits src
    refine ⟨_, by rw [bufferStep, strcpy, strcatLoop_spec (h.reads src) (hnul src) (by omega)
      (hrounds src), Option.map_some], h.write _ bytesAt_storeBytes hfits fun b hb => ?_⟩
    refine storeBytes_of_outside ?_
    have hfits : (t.contents src).bytes.length < L.size dest := hfits
    rw [List.length_append, List.length_singleton]
    omega
  | strncpy dest src n =>
    obtain ⟨hcopy, hrest⟩ := strncpy_bytes h dest src n
    have hdest := h.fits dest
    refine ⟨_, rfl, h.write _ (bytesAt_overwrite h hcopy (fun b hb => ?_) ?_) ?_ fun b hb => ?_⟩
    all_goals simp only [StringCall.Fits] at hfits
    · by_cases hshort : (t.contents src).bytes.length < n
      · exact .inl hshort
      · refine .inr (hrest b (.inr ?_))
        rwa [if_neg hshort]
    · split at hfits
      · next hshort => exact .inl hshort
      · exact .inr hfits
    · rw [length_overwrite]
      · split at hfits <;> split <;> omega
      · split at hfits
        · next hshort => exact .inl hshort
        · exact .inr hfits
    · refine hrest b (hb.imp_right fun hb => ?_)
      split at hfits <;> split <;> omega
  | strcat dest src =>
    obtain ⟨hself, hlen⟩ := hfits
    have happart := append_apart h hself
    refine ⟨_, by rw [bufferStep, strcat, hend, Option.bind_some, strcatLoop_spec (h.reads src)
      (hnul src) happart (hrounds src), Option.map_some], represents_append h hlen⟩
  | strncat dest src n =>
    obtain ⟨hself, hlen⟩ := hfits
    have happart := append_apart h hself
    refine ⟨_, by rw [bufferStep, strncat, hend, Option.map_some, Option.map_some], ?_⟩
    dsimp only
    rw [strncatLoop_spec (h.reads src) (hnul src) happart]
    refine represents_append h (u := (t.contents src).take n) ?_
    show _ + ((t.contents src).bytes.take n).length < _
    rwa [List.length_take]
  | strcmp i j =>
    obtain ⟨v, hv, horder⟩ := strcmp_spec (h.reads i) (h.reads j) (hnul i) (hnul j) (hrounds i)
    refine ⟨_, by rw [bufferStep, hv, Option.map_some], ?_⟩
    rw [horder]
    exact h.ask _
  | strchr i c =>
    refine ⟨_, by rw [bufferStep, strchr_spec (h.reads i) (hnul i) (hrounds i),
      Option.map_some], ?_⟩
    rw [place_eq]
    exact h.ask _
  | strrchr i c =>
    refine ⟨_, by rw [bufferStep, strrchr, strrchrLoop_spec (h.reads i) (hnul i) (hrounds i),
      Option.map_some], ?_⟩
    rw [Option.or_none, place_eq]
    exact h.ask _
  | memcpy dest src n =>
    obtain ⟨hread, hfits⟩ := hfits
    have hplace := L.below_or_behind dest src
    have hdest := h.fits dest
    have hsrc := h.fits src
    have hcases : (t.contents src).bytes.length < n ∨ n ≤ (t.contents dest).bytes.length := by
      split at hfits
      · next hshort => exact .inl hshort
      · exact .inr hfits
    refine ⟨_, rfl, h.write (memcpy s.mem (L.base dest) (L.base src) n)
      (bytesAt_overwrite h (fun k hk _ => ?_) (fun b hb => .inr ?_) hcases) ?_ fun b hb => ?_⟩
    all_goals try rw [memcpy_eq s.mem (by omega), copyBytes]
    · rw [if_pos (by omega), Nat.add_sub_cancel_left]
    · rw [if_neg (by omega)]
    · rw [length_overwrite _ _ hcases]
      split at hfits <;> split <;> omega
    · refine if_neg ?_
      split at hfits <;> omega
  | memcmp i j n =>
    obtain ⟨hi, hj⟩ := hfits
    have hprefix : ∀ i, n ≤ (t.contents i).bytes.length + 1 →
        (((t.contents i).bytes ++ [0]).take n).length = n ∧
          BytesAt s.mem (L.base i) (((t.contents i).bytes ++ [0]).take n) := by
      intro i hi
      have hreads := h.reads i
      rw [← List.take_append_drop n ((t.contents i).bytes ++ [0])] at hreads
      refine ⟨List.length_take_of_le ?_, (bytesAt_append.mp hreads).1⟩
      rwa [List.length_append, List.length_singleton]
    obtain ⟨hlen, hreads⟩ := hprefix i hi
    obtain ⟨hlen', hreads'⟩ := hprefix j hj
    have horder := memcmp_spec (hlen.trans hlen'.symm) hreads hreads'
    rw [hlen] at horder
    refine ⟨_, rfl, ?_⟩
    rw [horder]
    exact h.ask _
  | memset dest c n =>
    obtain ⟨hreads, hlen⟩ := bytesAt_fill h hfits
    refine ⟨_, rfl, h.write _ hreads hlen fun b hb => ?_⟩
    have hdest := h.fits dest
    simp only [StringCall.Fits] at hfits
    rw [memset_eq, fillBytes]
    refine if_neg ?_
    split at hfits <;> omega

/-- A call on the lists, as a step. -/
def listStep (t : ListState ι) (call : StringCall ι) : Option (ListState ι) := some (t.perform call)

/-- **Strings in buffers.** Whatever calls are made, in any order, as long as each result fits into
its buffer: all loops end, the buffers hold what the lists say, the answers are those of the lists,
and no byte outside the buffers changes. -/
theorem buffers_refine (L : Buffers ι) (rounds : Nat) (hr : ∀ i, L.size i ≤ rounds)
    (mem : Bytes)
    (contents : ι → CString) (hholds : ∀ i, Holds mem (L.base i) (contents i))
    (hlen : ∀ i, (contents i).bytes.length < L.size i) (calls : List (StringCall ι))
    (hfits : Each listStep (fun t call => call.Fits L t.contents) ⟨contents, []⟩ calls) :
    ∃ s t, run (bufferStep L rounds) ⟨mem, []⟩ calls = some s ∧
      run listStep ⟨contents, []⟩ calls = some t ∧ s.answers = t.answers ∧
      (∀ i, (t.contents i).bytes.length < L.size i ∧ Holds s.mem (L.base i) (t.contents i)) ∧
      ∀ b, (∀ i, b < L.base i ∨ L.base i + L.size i ≤ b) → s.mem b = mem b := by
  have hrun : ∀ (s : BufferState) (t : ListState ι), Represents L mem s t →
      Each listStep (fun t call => call.Fits L t.contents) t calls →
      ∃ s' t', run (bufferStep L rounds) s calls = some s' ∧ run listStep t calls = some t' ∧
        Represents L mem s' t' := by
    clear hfits
    induction calls with
    | nil => exact fun s t h _ => ⟨s, t, rfl, rfl, h⟩
    | cons call calls ih =>
      intro s t h hfits
      obtain ⟨u, hstep, hu⟩ := represents_step h hr call hfits.1
      obtain ⟨s', t', hs', ht', h'⟩ := ih u (t.perform call) hu (hfits.2 _ rfl)
      exact ⟨s', t', run_cons_eq_some.mpr ⟨u, hstep, hs'⟩,
        run_cons_eq_some.mpr ⟨_, rfl, ht'⟩, h'⟩
  obtain ⟨s, t, hs, ht, h⟩ := hrun ⟨mem, []⟩ ⟨contents, []⟩
    ⟨hholds, hlen, rfl, fun _ _ => rfl⟩ hfits
  exact ⟨s, t, hs, ht, h.answers, fun i => ⟨h.fits i, h.holds i⟩, h.frame⟩

end Step

end Keeps

/-! ### A path put together -/

/-- Two buffers, of 16 bytes and of 8. -/
def twoBuffers : Buffers Bool where
  base i := cond i 0 32
  size i := cond i 16 8
  apart i j h := by revert i j; decide

/-- `"/log"`, and `"a.b"` behind it. -/
def twoStrings (i : Bool) : CString :=
  cond i ⟨ascii "/log", by decide⟩ ⟨ascii "a.b", by decide⟩

/-- The strings in memory. -/
def twoStringsMemory : Bytes :=
  storeBytes (storeBytes (fun _ => 0xEE) 0 (ascii "/log" ++ [0])) 32 (ascii "a.b" ++ [0])

theorem buffers_refine_path :
    ∃ s, run (bufferStep twoBuffers 16) ⟨twoStringsMemory, []⟩
        [.strcat true false, .strrchr true (chr '.'), .strcmp true false] = some s ∧
      s.answers = [.order .lt, .place (some 5), .none] := by
  obtain ⟨s, t, hs, ht, hanswers, -⟩ := buffers_refine twoBuffers 16 (by decide)
    twoStringsMemory twoStrings (by decide) (by decide)
    [.strcat true false, .strrchr true (chr '.'), .strcmp true false]
    ⟨⟨by decide, by decide⟩, fun _ h => by
      cases h; exact ⟨trivial, fun _ h => by cases h; exact ⟨trivial, fun _ _ => trivial⟩⟩⟩
  refine ⟨s, hs, ?_⟩
  cases ht
  exact hanswers.trans (by decide)

end ArmKernel.Libc

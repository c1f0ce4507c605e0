/-
Bounded comparison of strings (`strncmp` of `src/string.c`).

`n` is unsigned and never below zero, so the result is a difference of characters also when
the loop has used up the count, those at index `n` (`strncmp_common`). With the length of a
string for the count, as `find_mount_point` and `parse_url` pass it, the function tests for
equality and not for a prefix (`strncmp_length_eq_zero_iff`).
-/
import ArmKernel.Libc.Strings
import Mathlib.Algebra.Order.Group.Nat

namespace ArmKernel.Libc

open ArmKernel.Support

/-- What the loop of `strncmp` leaves: `n`, how far `s1` and `s2` have come, and the indices at
which it has read a character of either string. -/
structure Scan (w : Nat) where
  n : BitVec w
  i : Nat
  read1 : List Nat
  read2 : List Nat

/-- `while (n-- > 0 && *s1 && *s1 == *s2)`. `n` is decremented whether it was positive or not. -/
def strncmpLoop (w : Nat) (mem : Bytes) (s1 s2 : Nat) :
    (n i : Nat) → (read1 read2 : List Nat) → Scan w
  | 0, i, read1, read2 => ⟨0 - 1, i, read1, read2⟩
  | n + 1, i, read1, read2 =>
    if mem (s1 + i) ≠ 0 then
      if mem (s1 + i) = mem (s2 + i) then
        strncmpLoop w mem s1 s2 n (i + 1) (read1 ++ [i]) (read2 ++ [i])
      else ⟨BitVec.ofNat w n, i, read1 ++ [i], read2 ++ [i]⟩
    else ⟨BitVec.ofNat w n, i, read1 ++ [i], read2⟩

/-- The result of `strncmp`, and the indices of the characters that it read. -/
structure Comparison where
  value : Int
  read1 : List Nat
  read2 : List Nat

/-- `strncmp`; `size_t` has `w` bits. -/
def strncmp {w : Nat} (mem : Bytes) (s1 s2 : Nat) (n : BitVec w) : Comparison :=
  let r := strncmpLoop w mem s1 s2 n.toNat 0 [] []
  if r.n < 0 then ⟨0, r.read1, r.read2⟩
  else ⟨(mem (s1 + r.i)).toNat - (mem (s2 + r.i)).toNat, r.read1 ++ [r.i], r.read2 ++ [r.i]⟩

/-- The comparison is one of the first `n` characters: 0 when these agree, up to and including
a NUL in both, and else of the sign of the first two that differ. No other one was read. -/
structure Compares (s t : CString) (n : Nat) (r : Comparison) : Prop where
  zero : r.value = 0 ↔ (s.bytes ++ [0]).take n = (t.bytes ++ [0]).take n
  sign : ∀ p c d s' t', s.bytes ++ [0] = p ++ c :: s' → t.bytes ++ [0] = p ++ d :: t' → c ≠ d →
    p.length < n → r.value.sign = ((c.toNat : Int) - d.toNat).sign
  inside : ∀ i ∈ r.read1 ++ r.read2, i < n

section Compare

variable {w n i k : Nat} {mem : Bytes} {s1 s2 : Nat} {s t : CString}
  {p : List (BitVec 8)} {read1 read2 : List Nat}

/-- The characters of the string and its NUL. -/
theorem Holds.split (h : Holds mem s1 s) {c : BitVec 8} {s' : List (BitVec 8)}
    (hsplit : s.bytes ++ [0] = p ++ c :: s') :
    (∀ i, (hi : i < p.length) → mem (s1 + i) = p[i]) ∧ mem (s1 + p.length) = c := by
  have hread : ∀ i, i < p.length + 1 → mem (s1 + i) = (p ++ c :: s')[i]?.getD 0 := by
    intro i hi
    have hlength := congrArg List.length hsplit
    simp only [List.length_append, List.length_cons, List.length_nil] at hlength
    have hin : i < s.bytes.length + 1 := by omega
    have hbytes : (readBytes mem s1 (s.bytes.length + 1))[i]? = (p ++ c :: s')[i]? := by
      rw [← hsplit, h]
    rw [← hbytes]
    simp [readBytes, hin]
  constructor
  · intro i hi
    rw [hread i (by omega), List.getElem?_append_left hi, List.getElem?_eq_getElem hi]
    rfl
  · rw [hread p.length (Nat.lt_succ_self _), List.getElem?_append_right (Nat.le_refl _),
      Nat.sub_self]
    rfl

/-- The first place where one of two strings ends, or where they differ. -/
theorem exists_split (s t : List (BitVec 8)) (hs : 0 ∉ s) :
    ∃ p c d s' t', s ++ [0] = p ++ c :: s' ∧ t ++ [0] = p ++ d :: t' ∧ 0 ∉ p ∧ (c = 0 ∨ c ≠ d) := by
  induction s generalizing t with
  | nil =>
    cases t with
    | nil => exact ⟨[], 0, 0, [], [], rfl, rfl, List.not_mem_nil, .inl rfl⟩
    | cons d t => exact ⟨[], 0, d, [], t ++ [0], rfl, rfl, List.not_mem_nil, .inl rfl⟩
  | cons c s ih =>
    have hc : c ≠ 0 := fun hzero => hs (hzero ▸ List.mem_cons_self)
    cases t with
    | nil => exact ⟨[], c, 0, s ++ [0], [], rfl, rfl, List.not_mem_nil, .inr hc⟩
    | cons d t =>
      by_cases hcd : c = d
      · obtain ⟨p, x, y, s', t', hs', ht', hp, hxy⟩ :=
          ih t fun hmem => hs (List.mem_cons_of_mem c hmem)
        refine ⟨c :: p, x, y, s', t', ?_, ?_, ?_, hxy⟩
        · rw [List.cons_append, hs', List.cons_append]
        · rw [← hcd, List.cons_append, ht', List.cons_append]
        · intro hmem
          rcases List.mem_cons.mp hmem with hzero | hmem
          · exact hc hzero.symm
          · exact hp hmem
      · exact ⟨[], c, d, s ++ [0], t ++ [0], rfl, rfl, List.not_mem_nil, .inr hcd⟩

/-- **The loop over characters in common.** -/
theorem strncmpLoop_common (hcommon : ∀ j < k, mem (s1 + (i + j)) ≠ 0 ∧
    mem (s1 + (i + j)) = mem (s2 + (i + j))) (hk : k ≤ n) :
    strncmpLoop w mem s1 s2 n i read1 read2 =
      strncmpLoop w mem s1 s2 (n - k) (i + k) (read1 ++ List.range' i k)
        (read2 ++ List.range' i k) := by
  induction k generalizing n i read1 read2 with
  | zero => simp
  | succ k ih =>
    obtain ⟨m, rfl⟩ : ∃ m, n = m + 1 := ⟨n - 1, by omega⟩
    obtain ⟨hchar, hsame⟩ := hcommon 0 (Nat.zero_lt_succ k)
    rw [Nat.add_zero] at hchar hsame
    have hnext : ∀ j < k, mem (s1 + (i + 1 + j)) ≠ 0 ∧
        mem (s1 + (i + 1 + j)) = mem (s2 + (i + 1 + j)) := by
      intro j hj
      have hj' := hcommon (j + 1) (Nat.succ_lt_succ hj)
      have hindex : i + (j + 1) = i + 1 + j := by omega
      rwa [hindex] at hj'
    rw [strncmpLoop, if_pos hchar, if_pos hsame, ih hnext (by omega), List.range'_succ,
      Nat.add_sub_add_right, Nat.add_assoc i 1 k, Nat.add_comm 1 k]
    simp

/-- `n < 0` never holds. -/
theorem strncmp_eq (mem : Bytes) (s1 s2 : Nat) (n : BitVec w) {r : Scan w}
    (hloop : strncmpLoop w mem s1 s2 n.toNat 0 [] [] = r) :
    strncmp mem s1 s2 n = ⟨(mem (s1 + r.i)).toNat - (mem (s2 + r.i)).toNat, r.read1 ++ [r.i],
      r.read2 ++ [r.i]⟩ := by
  have hunsigned : ¬ r.n < 0 := BitVec.not_lt_zero
  unfold strncmp
  rw [hloop]
  exact if_neg hunsigned

/-- The count is used up: the characters behind it are read and compared. -/
theorem strncmp_common {n : BitVec w} (hcommon : ∀ j < n.toNat, mem (s1 + j) ≠ 0 ∧
    mem (s1 + j) = mem (s2 + j)) :
    strncmp mem s1 s2 n = ⟨(mem (s1 + n.toNat)).toNat - (mem (s2 + n.toNat)).toNat,
      List.range' 0 n.toNat ++ [n.toNat], List.range' 0 n.toNat ++ [n.toNat]⟩ := by
  have hloop := @strncmpLoop_common w n.toNat 0 n.toNat mem s1 s2 [] []
    (fun j hj => by
      rw [Nat.zero_add]
      exact hcommon j hj)
    (Nat.le_refl _)
  rw [Nat.sub_self, Nat.zero_add, strncmpLoop] at hloop
  exact strncmp_eq mem s1 s2 n hloop

/-- Two strings have a common beginning in memory. -/
theorem Holds.common (hs : Holds mem s1 s) (ht : Holds mem s2 t) (hsp : p <+: s.bytes)
    (htp : p <+: t.bytes) {j : Nat} (hj : j < p.length) :
    mem (s1 + j) ≠ 0 ∧ mem (s1 + j) = mem (s2 + j) := by
  have hjs : j < s.bytes.length := Nat.lt_of_lt_of_le hj hsp.length_le
  have hjt : j < t.bytes.length := Nat.lt_of_lt_of_le hj htp.length_le
  refine ⟨hs.ne_zero hjs, ?_⟩
  rw [hs.char hjs, ht.char hjt, ← hsp.getElem hj, ← htp.getElem hj]

/-- The loop ends on a character. -/
theorem strncmp_split {n : BitVec w} {c d : BitVec 8} {s' t' : List (BitVec 8)}
    (hs : Holds mem s1 s) (ht : Holds mem s2 t) (hsplit : s.bytes ++ [0] = p ++ c :: s')
    (htsplit : t.bytes ++ [0] = p ++ d :: t') (hp : 0 ∉ p) (hends : c = 0 ∨ c ≠ d)
    (hlt : p.length < n.toNat) :
    (strncmp mem s1 s2 n).value = (c.toNat : Int) - d.toNat ∧
      ∀ i ∈ (strncmp mem s1 s2 n).read1 ++ (strncmp mem s1 s2 n).read2, i ≤ p.length := by
  obtain ⟨hchars, hc⟩ := hs.split hsplit
  obtain ⟨hchars', hd⟩ := ht.split htsplit
  have hloop := @strncmpLoop_common w n.toNat 0 p.length mem s1 s2 [] []
    (fun j hj => by
      rw [Nat.zero_add, hchars j hj, hchars' j hj]
      exact ⟨fun hzero => hp (hzero ▸ List.getElem_mem hj), rfl⟩)
    (Nat.le_of_lt hlt)
  obtain ⟨m, hm⟩ : ∃ m, n.toNat - p.length = m + 1 := ⟨n.toNat - p.length - 1, by omega⟩
  rw [hm, Nat.zero_add, strncmpLoop, hc, hd] at hloop
  obtain ⟨r, hr, hi, hreads⟩ : ∃ r, strncmpLoop w mem s1 s2 n.toNat 0 [] [] = r ∧ r.i = p.length ∧
      ∀ i ∈ r.read1 ++ r.read2, i ≤ p.length := by
    refine ⟨_, hloop, ?_⟩
    by_cases hzero : c = 0
    · -- The character of `s2` is not looked at.
      rw [if_neg (not_not.mpr hzero)]
      refine ⟨rfl, fun i hi => ?_⟩
      simp at hi
      omega
    · rw [if_pos hzero, if_neg (hends.resolve_left hzero)]
      refine ⟨rfl, fun i hi => ?_⟩
      simp at hi
      omega
  rw [strncmp_eq mem s1 s2 n hr, hi, hc, hd]
  refine ⟨rfl, fun i hmem => ?_⟩
  simp only [List.mem_append, List.mem_singleton] at hmem hreads
  rcases hmem with (hmem | rfl) | (hmem | rfl)
  · exact hreads i (.inl hmem)
  · exact Nat.le_refl _
  · exact hreads i (.inr hmem)
  · exact Nat.le_refl _

/-- The NUL that ends a string is its only one. -/
theorem length_of_nul {s p s' : List (BitVec 8)} (hs : 0 ∉ s) (h : s ++ [0] = p ++ 0 :: s') :
    p.length = s.length := by
  have hlength := congrArg List.length h
  simp only [List.length_append, List.length_cons, List.length_nil] at hlength
  by_contra hne
  have hlt : p.length < s.length := by omega
  have hat : (s ++ [0])[p.length]? = (p ++ 0 :: s')[p.length]? := by rw [h]
  rw [List.getElem?_append_left hlt, List.getElem?_append_right (Nat.le_refl _), Nat.sub_self]
    at hat
  exact hs (List.mem_of_getElem? hat)

/-- The part in front of a character is a part of the string. -/
theorem prefix_of_split {s p s' : List (BitVec 8)} {c : BitVec 8} (h : s ++ [0] = p ++ c :: s') :
    p <+: s := by
  have hlength := congrArg List.length h
  simp only [List.length_append, List.length_cons, List.length_nil] at hlength
  exact List.prefix_of_prefix_length_le (h ▸ List.prefix_append p (c :: s'))
    (List.prefix_append s [0]) (by omega)

theorem eq_of_nul {s p s' : List (BitVec 8)} (hs : 0 ∉ s) (h : s ++ [0] = p ++ 0 :: s') : p = s :=
  (prefix_of_split h).eq_of_length (length_of_nul hs h)

/-- The place where one of two strings ends, or where they differ, is in front of every other
place where they differ. -/
theorem split_unique {s t p q s' t' s'' t'' : List (BitVec 8)} {a b c d : BitVec 8} (hs : 0 ∉ s)
    (hsplit : s ++ [0] = p ++ c :: s') (htsplit : t ++ [0] = p ++ d :: t')
    (hends : c = 0 ∨ c ≠ d) (hsq : s ++ [0] = q ++ a :: s'') (htq : t ++ [0] = q ++ b :: t'')
    (hab : a ≠ b) : a = c ∧ b = d := by
  have hfront : ∀ {x : BitVec 8} {y : List (BitVec 8)} {i}, i < p.length →
      (p ++ x :: y)[i]? = p[i]? := List.getElem?_append_left
  rcases Nat.lt_trichotomy q.length p.length with hlt | heq | hgt
  · have hsame : (q ++ a :: s'')[q.length]? = (q ++ b :: t'')[q.length]? := by
      rw [← hsq, ← htq, hsplit, htsplit, hfront hlt, hfront hlt]
    simp at hsame
    exact absurd hsame hab
  · have hpq : p ++ c :: s' = q ++ a :: s'' := hsplit.symm.trans hsq
    have hpq' : p ++ d :: t' = q ++ b :: t'' := htsplit.symm.trans htq
    have hs'' := (List.append_inj hpq heq.symm).2
    have ht'' := (List.append_inj hpq' heq.symm).2
    exact ⟨(List.cons.inj hs'').1.symm, (List.cons.inj ht'').1.symm⟩
  · -- The string has a character behind its NUL.
    have hsame : (p ++ c :: s')[p.length]? = (p ++ d :: t')[p.length]? := by
      rw [← hsplit, ← htsplit, hsq, htq, List.getElem?_append_left hgt,
        List.getElem?_append_left hgt]
    have hcd : c = d := by simpa using hsame
    have hzero := hends.resolve_right (not_not.mpr hcd)
    subst hzero
    have hend := length_of_nul hs hsplit
    have hle := (prefix_of_split hsq).length_le
    omega

/-- **`strncmp` that ends on a character** compares the first `n`. -/
theorem compares_of_split {n : BitVec w} {c d : BitVec 8} {s' t' : List (BitVec 8)}
    (hs : Holds mem s1 s) (ht : Holds mem s2 t) (hsplit : s.bytes ++ [0] = p ++ c :: s')
    (htsplit : t.bytes ++ [0] = p ++ d :: t') (hp : 0 ∉ p) (hends : c = 0 ∨ c ≠ d)
    (hlt : p.length < n.toNat) : Compares s t n.toNat (strncmp mem s1 s2 n) := by
  obtain ⟨hvalue, hreads⟩ := strncmp_split hs ht hsplit htsplit hp hends hlt
  refine ⟨?_, ?_, fun i hi => Nat.lt_of_le_of_lt (hreads i hi) hlt⟩
  · rw [hvalue]
    constructor
    · intro hzero
      have hcd : c = d := BitVec.eq_of_toNat_eq (by omega)
      have hnul := hends.resolve_right (not_not.mpr hcd)
      subst hcd
      subst hnul
      rw [← eq_of_nul s.noNul hsplit, ← eq_of_nul t.noNul htsplit]
    · intro htake
      have hat : ((s.bytes ++ [0]).take n.toNat)[p.length]? =
          ((t.bytes ++ [0]).take n.toNat)[p.length]? := by rw [htake]
      rw [List.getElem?_take_of_lt hlt, List.getElem?_take_of_lt hlt, hsplit, htsplit] at hat
      have hcd : c = d := by simpa using hat
      rw [hcd, Int.sub_self]
  · intro q a b s'' t'' hsq htq hab hq
    obtain ⟨rfl, rfl⟩ := split_unique s.noNul hsplit htsplit hends hsq htq hab
    rw [hvalue]

/-- Strings that do not have `n` characters in common. -/
theorem compares_of_apart {n : BitVec w} (hs : Holds mem s1 s) (ht : Holds mem s2 t)
    (hapart : ¬ ∃ p, p.length = n.toNat ∧ p <+: s.bytes ∧ p <+: t.bytes) :
    Compares s t n.toNat (strncmp mem s1 s2 n) := by
  obtain ⟨p, c, d, s', t', hsplit, htsplit, hp, hends⟩ := exists_split s.bytes t.bytes s.noNul
  have hlt : p.length < n.toNat := by
    by_contra hlong
    refine hapart ⟨p.take n.toNat, ?_, ?_, ?_⟩
    · rw [List.length_take]
      omega
    · exact (List.take_prefix _ p).trans (prefix_of_split hsplit)
    · exact (List.take_prefix _ p).trans (prefix_of_split htsplit)
  exact compares_of_split hs ht hsplit htsplit hp hends hlt

/-- **`strncmp`.** It compares the first `n` characters exactly when the strings do not have
`n` characters in common. -/
theorem strncmp_compares_iff (mem : Bytes) (s1 s2 : Nat) (n : BitVec w) (s t : CString)
    (hs : Holds mem s1 s) (ht : Holds mem s2 t) :
    Compares s t n.toNat (strncmp mem s1 s2 n) ↔
      ¬ ∃ p, p.length = n.toNat ∧ p <+: s.bytes ∧ p <+: t.bytes := by
  constructor
  · rintro hcompares ⟨p, hlength, hsp, htp⟩
    have hcommon : ∀ j < n.toNat, mem (s1 + j) ≠ 0 ∧ mem (s1 + j) = mem (s2 + j) :=
      fun j hj => hs.common ht hsp htp (hlength ▸ hj)
    -- The characters at index `n` are read.
    have hinside := hcompares.inside n.toNat (by rw [strncmp_common hcommon]; simp)
    omega
  · exact compares_of_apart hs ht

/-- **As a test for a prefix** the function finds the string itself alone. -/
theorem strncmp_length_eq_zero_iff {n : BitVec w} (hs : Holds mem s1 s) (ht : Holds mem s2 t)
    (hn : n.toNat = t.bytes.length) :
    (strncmp mem s1 s2 n).value = 0 ↔ s.bytes = t.bytes := by
  by_cases hbegins : t.bytes <+: s.bytes
  · have hcommon : ∀ j < n.toNat, mem (s1 + j) ≠ 0 ∧ mem (s1 + j) = mem (s2 + j) :=
      fun j hj => hs.common ht hbegins (List.prefix_refl _) (hn ▸ hj)
    rw [strncmp_common hcommon, hn, ht.nul]
    constructor
    · -- The character behind the common part is the NUL of `s`.
      intro hvalue
      by_contra hne
      have hlonger : t.bytes.length < s.bytes.length :=
        Nat.lt_of_le_of_ne hbegins.length_le fun heq => hne (hbegins.eq_of_length heq).symm
      refine hs.ne_zero hlonger (BitVec.eq_of_toNat_eq ?_)
      simpa using hvalue
    · intro heq
      rw [← heq, hs.nul]
      rfl
  · have hcompares := compares_of_apart (n := n) hs ht (by
      rintro ⟨p, hlength, hsp, htp⟩
      rw [htp.eq_of_length (hlength.trans hn)] at hsp
      exact hbegins hsp)
    rw [hcompares.zero, hn, List.take_left' rfl]
    refine iff_of_false (fun htake => ?_) fun heq => hbegins (heq ▸ List.prefix_refl _)
    -- `t` has no NUL, so it ends in front of that of `s`.
    rcases Nat.lt_or_ge s.bytes.length t.bytes.length with hlonger | hle
    · have hall : (s.bytes ++ [0]).length ≤ t.bytes.length := by
        rw [List.length_append]
        exact hlonger
      rw [List.take_of_length_le hall] at htake
      exact t.noNul (htake ▸ by simp)
    · rw [List.take_append_of_le_length hle] at htake
      exact hbegins (htake ▸ List.take_prefix _ _)

end Compare

/-- `"ab"` and `"ac"` differ within two characters. -/
theorem strncmp_compares_two :
    Compares ⟨[97, 98], by decide⟩ ⟨[97, 99], by decide⟩ (BitVec.toNat (2 : BitVec 32))
      (strncmp (storeBytes (storeBytes (fun _ => 255) 0 [97, 98, 0]) 8 [97, 99, 0]) 0 8
        (2 : BitVec 32)) := by
  refine (strncmp_compares_iff _ 0 8 (2 : BitVec 32) ⟨[97, 98], by decide⟩ ⟨[97, 99], by decide⟩
    (by decide) (by decide)).mpr ?_
  rintro ⟨p, hlength, hs, ht⟩
  have heq := (hs.eq_of_length hlength).symm.trans (ht.eq_of_length hlength)
  exact absurd heq (by decide)

/-- `"ab"` begins with `"a"`, and the comparison of one character answers `'b'`. -/
theorem strncmp_prefix_differs :
    ¬ Compares ⟨[97, 98], by decide⟩ ⟨[97], by decide⟩ (BitVec.toNat (1 : BitVec 32))
      (strncmp (storeBytes (storeBytes (fun _ => 255) 0 [97, 98, 0]) 8 [97, 0]) 0 8
        (1 : BitVec 32)) := by
  intro hcompares
  have hvalue := hcompares.zero.mpr rfl
  exact absurd hvalue (by decide)

end ArmKernel.Libc

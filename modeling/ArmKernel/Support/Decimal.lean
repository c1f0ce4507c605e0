/-
Decimal numerals in a text, and `atoi`.

`decimal n` is the numeral that `%zu` prints, and `decimalValue` reads a numeral with any number
of leading zeros. A number that is not an `int` has no `atoi`.
-/
import ArmKernel.Support.Word
import ArmKernel.Support.Chars

namespace ArmKernel.Support

/-- `isdigit`. -/
def isDigit (c : BitVec 8) : Bool := 48 ≤ c.toNat && c.toNat ≤ 57

/-- The number that a list of digits stands for. -/
def decimalValue (digits : List (BitVec 8)) : Nat :=
  digits.foldl (fun n c => 10 * n + (c.toNat - 48)) 0

/-- The numeral of a number. -/
def decimal (n : Nat) : List (BitVec 8) := (Nat.toDigits 10 n).map chr

/-- The numeral of an integer. -/
def decimalInt (z : Int) : List (BitVec 8) :=
  if z < 0 then chr '-' :: decimal z.natAbs else decimal z.natAbs

/-- The sign in front of a number: whether it is negative, and what follows. -/
def skipSign : List (BitVec 8) → Bool × List (BitVec 8)
  | [] => (false, [])
  | c :: rest =>
    if c = chr '-' then (true, rest)
    else if c = chr '+' then (false, rest)
    else (false, c :: rest)

/-- `atoi`, from a pointer on. The digits end inside the memory. -/
def atoi (ptr : List (BitVec 8)) : Option Int :=
  let (negative, ptr) := skipSign (ptr.dropWhile isSpace)
  let digits := ptr.takeWhile isDigit
  if digits.length = ptr.length then none
  else int32 (if negative then -(decimalValue digits : Int) else decimalValue digits)

section Numerals

theorem isDigit_chr {c : Char} (h : c.isDigit) : isDigit (chr c) = true ∧
    (chr c).toNat = c.toNat := by
  have hrange : 48 ≤ c.toNat ∧ c.toNat ≤ 57 := by
    simpa [Char.isDigit, UInt32.le_iff_toNat_le] using h
  have hbyte : (chr c).toNat = c.toNat := by
    rw [chr, BitVec.toNat_ofNat]
    exact Nat.mod_eq_of_lt (by omega)
  refine ⟨?_, hbyte⟩
  rw [isDigit, hbyte]
  exact Bool.and_eq_true_iff.mpr ⟨decide_eq_true hrange.1, decide_eq_true hrange.2⟩

theorem isDigit_of_toDigits {n : Nat} {c : Char} (h : c ∈ Nat.toDigits 10 n) : c.isDigit = true :=
  Nat.isDigit_of_mem_toDigits (by decide) (by decide) h

theorem isDigit_of_mem_decimal {n : Nat} {c : BitVec 8} (h : c ∈ decimal n) : isDigit c = true := by
  obtain ⟨digit, hdigit, rfl⟩ := List.mem_map.mp h
  exact (isDigit_chr (isDigit_of_toDigits hdigit)).1

theorem decimal_ne_nil (n : Nat) : decimal n ≠ [] := by
  rw [decimal, Ne, List.map_eq_nil_iff]
  exact Nat.toDigits_ne_nil

theorem foldl_chr (chars : List Char) (h : ∀ c ∈ chars, c.isDigit = true) (init : Nat) :
    (chars.map chr).foldl (fun n c => 10 * n + (c.toNat - 48)) init =
      Nat.ofDigitChars 10 chars init := by
  induction chars generalizing init with
  | nil => rfl
  | cons c chars ih =>
    have hc := (isDigit_chr (h c List.mem_cons_self)).2
    rw [List.map_cons, List.foldl_cons, hc, Nat.ofDigitChars_cons,
      ih fun d hd => h d (List.mem_cons_of_mem c hd)]
    rfl

/-- **Reading a numeral** gives the number it was printed from. -/
theorem decimalValue_decimal (n : Nat) : decimalValue (decimal n) = n := by
  rw [decimalValue, decimal, foldl_chr _ (fun _ => isDigit_of_toDigits) 0]
  exact Nat.ofDigitChars_ten_toDigits

/-- A digit is no space and no sign. -/
theorem not_special_of_isDigit {c : BitVec 8} (h : isDigit c = true) :
    isSpace c = false ∧ c ≠ chr '-' ∧ c ≠ chr '+' := by
  revert c
  decide

end Numerals

section Atoi

variable {digits rest : List (BitVec 8)} {c : BitVec 8}

/-- The digits of a number in front of something else. -/
theorem takeWhile_digits (h : ∀ x ∈ digits, isDigit x = true) (hc : isDigit c = false) :
    (digits ++ c :: rest).takeWhile isDigit = digits := by
  rw [List.takeWhile_append_of_pos h, List.takeWhile_cons_of_neg (by rw [hc]; decide),
    List.append_nil]

theorem skipSign_digits (h : ∀ x ∈ digits, isDigit x = true) (hnil : digits ≠ []) :
    skipSign ((digits ++ rest).dropWhile isSpace) = (false, digits ++ rest) := by
  cases digits with
  | nil => exact absurd rfl hnil
  | cons d digits =>
    obtain ⟨hspace, hminus, hplus⟩ := not_special_of_isDigit (h d List.mem_cons_self)
    rw [List.cons_append, List.dropWhile_cons_of_neg (by rw [hspace]; decide), skipSign,
      if_neg hminus, if_neg hplus]

/-- `atoi` on a numeral without a sign. -/
theorem atoi_digits (h : ∀ x ∈ digits, isDigit x = true) (hnil : digits ≠ [])
    (hc : isDigit c = false) : atoi (digits ++ c :: rest) = int32 (decimalValue digits) := by
  have hlength : ¬digits.length = (digits ++ c :: rest).length := by
    rw [List.length_append, List.length_cons]
    omega
  rw [atoi, skipSign_digits h hnil]
  simp only
  rw [takeWhile_digits h hc, if_neg hlength]
  rfl

/-- **`atoi` undoes printing** for every `int`. -/
theorem atoi_decimalInt {z : Int} (hlow : -2 ^ 31 ≤ z) (hhigh : z < 2 ^ 31)
    (hc : isDigit c = false) : atoi (decimalInt z ++ c :: rest) = some z := by
  have hint : int32 z = some z := if_pos ⟨hlow, hhigh⟩
  have hdigits : ∀ x ∈ decimal z.natAbs, isDigit x = true := fun _ => isDigit_of_mem_decimal
  rw [decimalInt]
  split
  · have hminus : isSpace (chr '-') = false := by decide
    have hlength : ¬(decimal z.natAbs).length = (decimal z.natAbs ++ c :: rest).length := by
      rw [List.length_append, List.length_cons]
      omega
    rw [List.cons_append, atoi, List.dropWhile_cons_of_neg (by rw [hminus]; decide), skipSign,
      if_pos rfl]
    simp only
    rw [takeWhile_digits hdigits hc, if_neg hlength, decimalValue_decimal, if_pos trivial]
    have hz : -(z.natAbs : Int) = z := by omega
    rw [hz, hint]
  · rw [atoi_digits hdigits (decimal_ne_nil _) hc, decimalValue_decimal]
    have hz : (z.natAbs : Int) = z := by omega
    rw [hz, hint]

/-- A string without digits. -/
theorem atoi_nul (rest : List (BitVec 8)) : atoi (0 :: rest) = some 0 := by
  have hspace : ¬isSpace 0 = true := by decide
  have hdigit : ¬isDigit 0 = true := by decide
  have hminus : ¬(0 : BitVec 8) = chr '-' := by decide
  have hplus : ¬(0 : BitVec 8) = chr '+' := by decide
  rw [atoi, List.dropWhile_cons_of_neg hspace, skipSign, if_neg hminus, if_neg hplus]
  simp only
  have hlength : ¬([] : List (BitVec 8)).length = (0 :: rest).length := Nat.zero_ne_add_one _
  rw [List.takeWhile_cons_of_neg hdigit, if_neg hlength]
  exact if_pos ⟨by decide, by decide⟩

theorem le_foldl_digits (digits : List (BitVec 8)) (n : Nat) :
    n ≤ digits.foldl (fun n c => 10 * n + (c.toNat - 48)) n := by
  induction digits generalizing n with
  | nil => exact Nat.le_refl n
  | cons c digits ih =>
    have hstep := ih (10 * n + (c.toNat - 48))
    rw [List.foldl_cons]
    omega

/-- The beginning of a numeral stands for no more than the numeral. -/
theorem decimalValue_le_of_prefix {digits' : List (BitVec 8)} (h : digits <+: digits') :
    decimalValue digits ≤ decimalValue digits' := by
  obtain ⟨more, rfl⟩ := h
  rw [decimalValue, decimalValue, List.foldl_append]
  exact le_foldl_digits more _

/-- The beginning of the numeral of an `int` is the numeral of an `int`, or none. -/
theorem atoi_of_prefix {z : Int} (hlow : -2 ^ 31 ≤ z) (hhigh : z < 2 ^ 31) (hc : c = 0)
    (h : digits <+: decimalInt z) : ∃ code, atoi (digits ++ c :: rest) = some code := by
  have hdigit : isDigit c = false := by
    rw [hc]
    decide
  have hmem : ∀ {p}, p <+: decimal z.natAbs → ∀ x ∈ p, isDigit x = true :=
    fun hp x hx => isDigit_of_mem_decimal (hp.subset hx)
  have hint : ∀ {p}, p <+: decimal z.natAbs → (decimalValue p : Int) ≤ z.natAbs := by
    intro p hp
    have hle := decimalValue_le_of_prefix hp
    rw [decimalValue_decimal] at hle
    exact Int.ofNat_le.mpr hle
  rw [decimalInt] at h
  split at h
  · cases digits with
    | nil =>
      subst hc
      exact ⟨0, atoi_nul rest⟩
    | cons d digits =>
      obtain ⟨rfl, hrest⟩ := List.cons_prefix_cons.mp h
      have hminus : isSpace (chr '-') = false := by decide
      have hlength : ¬digits.length = (digits ++ c :: rest).length := by
        rw [List.length_append, List.length_cons]
        omega
      have hvalue := hint hrest
      refine ⟨-(decimalValue digits : Int), ?_⟩
      rw [List.cons_append, atoi, List.dropWhile_cons_of_neg (by rw [hminus]; decide), skipSign,
        if_pos rfl]
      simp only
      rw [takeWhile_digits (hmem hrest) hdigit, if_neg hlength, if_pos trivial]
      exact if_pos ⟨by omega, by omega⟩
  · by_cases hnil : digits = []
    · subst hnil hc
      exact ⟨0, atoi_nul rest⟩
    · have hvalue := hint h
      refine ⟨decimalValue digits, ?_⟩
      rw [atoi_digits (hmem h) hnil hdigit]
      exact if_pos ⟨by omega, by omega⟩

end Atoi

end ArmKernel.Support

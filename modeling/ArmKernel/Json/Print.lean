/-
Printing a JSON string (`src/cjson_print.c`, lines 32 to 87).

`print_string` runs over the string twice: the first loop counts the bytes of the text, the
second writes them. `escape` is what one byte becomes, and both loops are read through it:
the first adds its length (`countLoop_eq`), the second appends it (`printLoop_spec`).

The counter is an `int`: a string whose text does not fit into one has no result.
-/
import ArmKernel.Support.Chars
import ArmKernel.Support.OutBuffer
import ArmKernel.Support.Word
import Mathlib.Algebra.GroupWithZero.Nat

namespace ArmKernel.Json

open ArmKernel.Support

/-- The quotation mark. -/
def quote : BitVec 8 := 0x22

def backslash : BitVec 8 := 0x5C

/-- `malloc`: NULL, or a block of `size` bytes with what was in it. -/
def malloc (given : Option (Nat → BitVec 8)) (size : Int) : Option OutBuffer :=
  given.map fun bytes => { size := (size % 2 ^ 32).toNat, bytes }

/-- `strchr("\"\\\b\f\n\r\t", token)`. -/
def shortEscaped (token : BitVec 8) : Bool :=
  [quote, backslash, 8, 12, 10, 13, 9].contains token

/-- `print_string`: the loop that counts. -/
def countLoop : List (BitVec 8) → Int → Option Int
  | [], len => some len
  | token :: ptr, len => do
    let len ← int32 (len + 1)
    if len = 0 then some len
    else do
      let len ←
        if shortEscaped token then int32 (len + 1)
        else if token < 32 then int32 (len + 5)
        else some len
      countLoop ptr len

/-- `print_string`: the `switch`, for the tokens that have a case. -/
def escapeLetter (token : BitVec 8) : Option (BitVec 8) :=
  if token = backslash then some backslash
  else if token = quote then some quote
  else if token = 8 then some (chr 'b')
  else if token = 12 then some (chr 'f')
  else if token = 10 then some (chr 'n')
  else if token = 13 then some (chr 'r')
  else if token = 9 then some (chr 't')
  else none

/-- A digit of `%x`. -/
def hexDigit (n : Nat) : BitVec 8 :=
  if n < 10 then BitVec.ofNat 8 (48 + n) else BitVec.ofNat 8 (87 + n)

/-- The text of `sprintf(…, "u%04x", token)`, which four digits suffice for. -/
def unicodeText (token : BitVec 8) : List (BitVec 8) :=
  [chr 'u', hexDigit (token.toNat / 4096 % 16), hexDigit (token.toNat / 256 % 16),
    hexDigit (token.toNat / 16 % 16), hexDigit (token.toNat % 16)]

/-- `print_string`: the loop that writes, with `ptr2` the place in `str`. `sprintf` ends its text
with a zero. -/
def printLoop : List (BitVec 8) → OutBuffer → Nat → Option (OutBuffer × Nat)
  | [], str, ptr2 => some (str, ptr2)
  | token :: ptr, str, ptr2 =>
    if token > 31 ∧ token ≠ quote ∧ token ≠ backslash then do
      let str ← str.write ptr2 token
      printLoop ptr str (ptr2 + 1)
    else do
      let str ← str.write ptr2 backslash
      match escapeLetter token with
      | some letter => do
        let str ← str.write (ptr2 + 1) letter
        printLoop ptr str (ptr2 + 2)
      | none => do
        let str ← str.writeAll (ptr2 + 1) (unicodeText token ++ [0])
        printLoop ptr str (ptr2 + 6)

/-- `print_string`: what it writes into its block. -/
def printText (s : List (BitVec 8)) (str : OutBuffer) : Option OutBuffer := do
  let str ← str.write 0 quote
  let (str, ptr2) ← printLoop s str 1
  let str ← str.write ptr2 quote
  str.write (ptr2 + 1) 0

/-- `print_string`. The inner `none` is NULL. -/
def printString (valuestring : Option CString) (given : Option (Nat → BitVec 8)) :
    Option (Option OutBuffer) :=
  match valuestring with
  | none =>
    match malloc given 3 with
    | none => some none
    | some str => (str.writeAll 0 [quote, quote, 0]).map some
  | some s => do
    let len ← countLoop s.bytes 0
    let size ← int32 (len + 3)
    match malloc given size with
    | none => some none
    | some str => (printText s.bytes str).map some

/-- What a byte becomes. -/
def escape (token : BitVec 8) : List (BitVec 8) :=
  if token > 31 ∧ token ≠ quote ∧ token ≠ backslash then [token]
  else
    match escapeLetter token with
    | some letter => [backslash, letter]
    | none => backslash :: unicodeText token

/-- The string between its quotation marks. -/
def quoted (s : List (BitVec 8)) : List (BitVec 8) := quote :: s.flatMap escape ++ [quote]

/-- The bytes the text of a byte takes. -/
def escapedLength (token : BitVec 8) : Nat :=
  if shortEscaped token then 2 else if token < 32 then 6 else 1

/-- The bytes the text of a string takes between the quotation marks. -/
def textLength (s : List (BitVec 8)) : Nat := (s.map escapedLength).sum

section Escape

variable {token : BitVec 8}

/-- The loops agree on the bytes with a letter. -/
theorem shortEscaped_iff (token : BitVec 8) : shortEscaped token ↔ (escapeLetter token).isSome := by
  unfold shortEscaped escapeLetter
  simp only [List.contains_iff_mem, List.mem_cons, List.not_mem_nil, or_false]
  constructor
  · rintro (h | h | h | h | h | h | h) <;> subst h <;> rfl
  · intro h
    by_contra hne
    simp only [not_or] at hne
    obtain ⟨h1, h2, h3, h4, h5, h6, h7⟩ := hne
    rw [if_neg h2, if_neg h1, if_neg h3, if_neg h4, if_neg h5, if_neg h6, if_neg h7] at h
    cases h

/-- A plain byte has no letter. -/
theorem escapeLetter_of_plain (h : token > 31 ∧ token ≠ quote ∧ token ≠ backslash) :
    escapeLetter token = none := by
  obtain ⟨hlarge, hquote, hbackslash⟩ := h
  have hne : ∀ c : BitVec 8, c ≤ 31 → token ≠ c := by
    rintro c hc rfl
    exact absurd hlarge (BitVec.not_lt.mpr hc)
  unfold escapeLetter
  rw [if_neg hbackslash, if_neg hquote, if_neg (hne 8 (by decide)), if_neg (hne 12 (by decide)),
    if_neg (hne 10 (by decide)), if_neg (hne 13 (by decide)), if_neg (hne 9 (by decide))]

/-- The three kinds of byte: plain, with a letter, and the other small ones. -/
theorem escape_cases (token : BitVec 8) :
    (token > 31 ∧ token ≠ quote ∧ token ≠ backslash) ∧ escape token = [token] ∧
        escapedLength token = 1 ∨
      (∃ letter, ¬(token > 31 ∧ token ≠ quote ∧ token ≠ backslash) ∧
        escapeLetter token = some letter ∧ escape token = [backslash, letter] ∧
        escapedLength token = 2) ∨
      (¬(token > 31 ∧ token ≠ quote ∧ token ≠ backslash) ∧ escapeLetter token = none ∧
        token < 32 ∧ escape token = backslash :: unicodeText token ∧ escapedLength token = 6) := by
  by_cases hplain : token > 31 ∧ token ≠ quote ∧ token ≠ backslash
  · left
    have hletter := escapeLetter_of_plain hplain
    have hshort : ¬shortEscaped token := by
      rw [shortEscaped_iff, hletter]
      exact Bool.false_ne_true
    have hlarge : ¬token < 32 := by
      intro h
      have h1 : 31 < token.toNat := hplain.1
      have h2 : token.toNat < 32 := h
      omega
    exact ⟨hplain, if_pos hplain, by rw [escapedLength, if_neg hshort, if_neg hlarge]⟩
  · right
    cases hletter : escapeLetter token with
    | some letter =>
      left
      have hshort : shortEscaped token := (shortEscaped_iff token).mpr (by rw [hletter]; rfl)
      refine ⟨letter, hplain, rfl, ?_, if_pos hshort⟩
      rw [escape, if_neg hplain, hletter]
    | none =>
      right
      have hshort : ¬shortEscaped token := by
        rw [shortEscaped_iff, hletter]
        exact Bool.false_ne_true
      have hne : ∀ c, escapeLetter c = some c → token ≠ c := by
        rintro c hc rfl
        rw [hletter] at hc
        cases hc
      have hsmall : token < 32 := by
        by_contra hlarge
        refine hplain ⟨?_, hne quote rfl, hne backslash rfl⟩
        have h2 : ¬token.toNat < 32 := hlarge
        exact show 31 < token.toNat by omega
      refine ⟨hplain, rfl, hsmall, ?_, ?_⟩
      · rw [escape, if_neg hplain, hletter]
      · rw [escapedLength, if_neg hshort, if_pos hsmall]

theorem escape_length (token : BitVec 8) : (escape token).length = escapedLength token := by
  rcases escape_cases token with ⟨-, h, hlen⟩ | ⟨letter, -, -, h, hlen⟩ | ⟨-, -, -, h, hlen⟩
  all_goals rw [h, hlen]; rfl

theorem length_flatMap_escape (s : List (BitVec 8)) : (s.flatMap escape).length = textLength s := by
  rw [List.length_flatMap, textLength]
  congr 1
  exact List.map_congr_left fun token _ => escape_length token

theorem textLength_cons (token : BitVec 8) (s : List (BitVec 8)) :
    textLength (token :: s) = escapedLength token + textLength s := by
  rw [textLength, List.map_cons, List.sum_cons]
  rfl

end Escape

section Count

variable {len : Int}

theorem int32_of_lt {x : Int} (h0 : 0 ≤ x) (h : x < 2 ^ 31) : int32 x = some x :=
  if_pos ⟨by omega, h⟩

theorem int32_of_le {x : Int} (h : 2 ^ 31 ≤ x) : int32 x = none := if_neg (by omega)

/-- One token of the counting loop. -/
theorem countLoop_cons (token : BitVec 8) (s : List (BitVec 8)) (h0 : 0 ≤ len) :
    countLoop (token :: s) len = (int32 (len + escapedLength token)).bind (countLoop s) := by
  have hpositive : len + 1 ≠ 0 := by omega
  rw [countLoop]
  unfold escapedLength
  rcases lt_or_ge (len + 1) (2 ^ 31) with hlt | hge
  · rw [int32_of_lt (by omega) hlt]
    simp only [bind, Option.bind_some, if_neg hpositive]
    split
    · rw [Int.add_assoc]
      rfl
    · split
      · rw [Int.add_assoc]
        rfl
      · rw [Int.natCast_one, int32_of_lt (by omega) hlt]
        rfl
  · rw [int32_of_le hge, int32_of_le]
    · rfl
    · split
      · omega
      · split <;> omega

/-- **The counter** ends at the length of the text, or leaves its type. -/
theorem countLoop_eq (s : List (BitVec 8)) (h0 : 0 ≤ len) (hlt : len < 2 ^ 31) :
    countLoop s len = int32 (len + textLength s) := by
  induction s generalizing len with
  | nil =>
    have hnil : len + (textLength [] : Nat) = len := Int.add_zero len
    rw [hnil, int32_of_lt h0 hlt, countLoop]
  | cons token s ih =>
    rw [countLoop_cons token s h0, textLength_cons, Int.natCast_add, ← Int.add_assoc]
    rcases lt_or_ge (len + escapedLength token) (2 ^ 31) with h | h
    · rw [int32_of_lt (by omega) h]
      exact ih (by omega) h
    · rw [int32_of_le h, int32_of_le (by omega)]
      rfl

end Count

section Write

variable {b : OutBuffer} {l : List (BitVec 8)} {s : CString}

/-- **The writing loop** appends the text of the string. The place behind it is free: there is
where `sprintf` puts the zero behind the last text. -/
theorem printLoop_spec (s : List (BitVec 8)) (h : b.Begins l)
    (hroom : l.length + textLength s + 1 ≤ b.size) :
    ∃ b', printLoop s b l.length = some (b', l.length + textLength s) ∧ b'.size = b.size ∧
      b'.Begins (l ++ s.flatMap escape) := by
  induction s generalizing b l with
  | nil => exact ⟨b, rfl, rfl, (List.append_nil l).symm ▸ h⟩
  | cons token s ih =>
    rw [textLength_cons] at hroom
    -- What one token writes, and where the rest goes on.
    suffices hstep : ∃ b₁, b₁.size = b.size ∧ b₁.Begins (l ++ escape token) ∧
        printLoop (token :: s) b l.length = printLoop s b₁ (l ++ escape token).length by
      obtain ⟨b₁, hsize, hbegins, heq⟩ := hstep
      have hlength : (l ++ escape token).length = l.length + escapedLength token := by
        rw [List.length_append, escape_length]
      obtain ⟨b', hrun, hsize', hbegins'⟩ := ih hbegins (by omega)
      refine ⟨b', ?_, hsize'.trans hsize, ?_⟩
      · rw [heq, hrun, hlength, textLength_cons, Nat.add_assoc]
      · rwa [List.append_assoc, ← List.flatMap_cons] at hbegins'
    rcases escape_cases token with ⟨hplain, hescape, hlen⟩ |
      ⟨letter, hplain, hletter, hescape, hlen⟩ | ⟨hplain, hletter, -, hescape, hlen⟩
    · obtain ⟨b₁, hwrite, hsize, hbegins⟩ := OutBuffer.begins_write h (by omega) token
      refine ⟨b₁, hsize, hescape ▸ hbegins, ?_⟩
      rw [printLoop, if_pos hplain, hwrite, hescape, List.length_append]
      rfl
    · obtain ⟨b₁, hwrite, hsize, hbegins⟩ := OutBuffer.begins_write h (by omega) backslash
      have hlength : (l ++ [backslash]).length = l.length + 1 := List.length_append
      obtain ⟨b₂, hwrite₂, hsize₂, hbegins₂⟩ := OutBuffer.begins_write hbegins (by omega) letter
      refine ⟨b₂, hsize₂.trans hsize, ?_, ?_⟩
      · rw [hescape]
        rwa [List.append_assoc] at hbegins₂
      · rw [hlength] at hwrite₂
        rw [printLoop, if_neg hplain, hwrite, hletter, hescape, List.length_append]
        simp only [bind, Option.bind_some, hwrite₂]
        rfl
    · obtain ⟨b₁, hwrite, hsize, hbegins⟩ := OutBuffer.begins_write h (by omega) backslash
      have hlength : (l ++ [backslash]).length = l.length + 1 := List.length_append
      have hseven : (unicodeText token ++ [0]).length = 6 := rfl
      obtain ⟨b₂, hwrite₂, hsize₂, hbegins₂⟩ :=
        OutBuffer.begins_writeAll hbegins (hseven ▸ (by omega : _ + 6 ≤ b₁.size))
      refine ⟨b₂, hsize₂.trans hsize, ?_, ?_⟩
      · rw [hescape]
        rw [← List.append_assoc] at hbegins₂
        have hleft := hbegins₂.left
        rwa [List.append_assoc, List.singleton_append] at hleft
      · rw [hlength] at hwrite₂
        rw [printLoop, if_neg hplain, hwrite, hletter, hescape, List.length_append]
        simp only [bind, Option.bind_some, hwrite₂]
        rfl

/-- The text fills a block of its size. -/
theorem printText_spec (s : List (BitVec 8)) (hsize : b.size = textLength s + 3) :
    ∃ b', printText s b = some b' ∧ b'.size = b.size ∧ b'.Begins (quoted s ++ [0]) := by
  obtain ⟨b₁, hwrite₁, hsize₁, hbegins₁⟩ :=
    OutBuffer.begins_write (OutBuffer.begins_nil b) (by rw [hsize]; exact Nat.succ_pos _) quote
  rw [List.nil_append] at hbegins₁
  have hroom : [quote].length + textLength s + 1 ≤ b₁.size := by
    rw [List.length_singleton]
    omega
  obtain ⟨b₂, hwrite₂, hsize₂, hbegins₂⟩ := printLoop_spec s hbegins₁ hroom
  have hlength₂ : ([quote] ++ s.flatMap escape).length = 1 + textLength s := by
    rw [List.length_append, length_flatMap_escape]
    rfl
  obtain ⟨b₃, hwrite₃, hsize₃, hbegins₃⟩ := OutBuffer.begins_write hbegins₂ (by omega) quote
  have hlength₃ : ([quote] ++ s.flatMap escape ++ [quote]).length = 1 + textLength s + 1 := by
    rw [List.length_append, hlength₂]
    rfl
  obtain ⟨b₄, hwrite₄, hsize₄, hbegins₄⟩ := OutBuffer.begins_write hbegins₃ (by omega) 0
  rw [List.length_nil] at hwrite₁
  rw [hlength₂] at hwrite₃
  rw [hlength₃] at hwrite₄
  refine ⟨b₄, ?_, by omega, hbegins₄⟩
  calc printText s b
      = (printLoop s b₁ 1).bind fun r =>
          (r.1.write r.2 quote).bind fun str => str.write (r.2 + 1) 0 := by
        rw [printText, hwrite₁]
        rfl
    _ = (b₂.write (1 + textLength s) quote).bind fun str => str.write (1 + textLength s + 1) 0 := by
        rw [List.length_singleton] at hwrite₂
        rw [hwrite₂, Option.bind_some]
    _ = some b₄ := by rw [hwrite₃, Option.bind_some, hwrite₄]

theorem printString_some (s : CString) (given : Option (Nat → BitVec 8)) :
    printString (some s) given = (countLoop s.bytes 0).bind fun len => (int32 (len + 3)).bind
      fun size => match malloc given size with
        | none => some none
        | some str => (printText s.bytes str).map some := rfl

/-- **What `print_string` returns**: a block that the text and its zero fill. -/
theorem printString_spec (hlen : textLength s.bytes + 3 < 2 ^ 31) (before : Nat → BitVec 8) :
    ∃ str, printString (some s) (some before) = some (some str) ∧
      str.size = textLength s.bytes + 3 ∧ str.Begins (quoted s.bytes ++ [0]) := by
  have hcount : countLoop s.bytes 0 = some (textLength s.bytes : Int) := by
    rw [countLoop_eq s.bytes (Int.le_refl 0) (by omega), Int.zero_add,
      int32_of_lt (Int.natCast_nonneg _) (by omega)]
  have hint : int32 ((textLength s.bytes : Int) + 3) = some ((textLength s.bytes : Int) + 3) :=
    int32_of_lt (by omega) (by omega)
  have hmalloc : malloc (some before) ((textLength s.bytes : Int) + 3) =
      some { size := textLength s.bytes + 3, bytes := before } := by
    have hwide : (((textLength s.bytes : Int) + 3) % 2 ^ 32).toNat = textLength s.bytes + 3 := by
      omega
    rw [malloc, Option.map_some, hwide]
  obtain ⟨str, hprint, hsize, hbegins⟩ :=
    printText_spec (b := { size := textLength s.bytes + 3, bytes := before }) s.bytes rfl
  refine ⟨str, ?_, hsize, hbegins⟩
  rw [printString_some, hcount, Option.bind_some, hint, Option.bind_some, hmalloc]
  simp only
  rw [hprint, Option.map_some]

/-- A longer text has no result. -/
theorem printString_overflow (hlen : 2 ^ 31 ≤ textLength s.bytes + 3)
    (given : Option (Nat → BitVec 8)) : printString (some s) given = none := by
  have hcount := countLoop_eq s.bytes (Int.le_refl 0) (by omega)
  rw [Int.zero_add] at hcount
  rw [printString_some, hcount]
  rcases Nat.lt_or_ge (textLength s.bytes) (2 ^ 31) with h | h
  · rw [int32_of_lt (Int.natCast_nonneg _) (by omega), Option.bind_some, int32_of_le (by omega),
      Option.bind_none]
  · rw [int32_of_le (by omega), Option.bind_none]

end Write

end ArmKernel.Json

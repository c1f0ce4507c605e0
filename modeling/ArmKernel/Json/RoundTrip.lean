/-
What `parse_string` makes of a printed string (`src/cjson.c`, lines 83 to 150 and 158 to 210).

`print_string` chooses an item for every byte (`exists_item`), so the text of a string is a
literal, and decoding it gives the string back.

`RoundTrips` says that printing fills its block and that parsing undoes it, whatever the
allocator returns and whatever follows. `roundTrips_iff` says for which strings it does.
-/
import ArmKernel.Json.Literals

namespace ArmKernel.Json

open ArmKernel.Support

/-- The text of the string fills the block it is printed into, and whatever follows it, parsing
gives the string back and ends behind the text. The blocks may hold anything before. -/
def RoundTrips (s : CString) : Prop :=
  ∀ before, ∃ str, printString (some s) (some before) = some (some str) ∧
    str.cString.length + 1 = str.size ∧
    ∀ text before, ∃ parsed,
      parseString (str.cString ++ (text ++ [0])) (some before) = some (some parsed) ∧
        parsed.valuestring.cString = s.bytes ∧ parsed.type = cJSONString ∧ parsed.ptr = text ++ [0]

section Bytes

variable {token : BitVec 8}

theorem hexValue_hexDigit (n : Nat) : hexValue (hexDigit (n % 16)) = some (n % 16) := by
  have hall : ∀ n < 16, hexValue (hexDigit n) = some n := by decide
  exact hall (n % 16) (Nat.mod_lt n (by decide))

/-- The letter of a byte is its short escape. -/
theorem short_of_letter {letter : BitVec 8} (h : escapeLetter token = some letter) :
    (letter, token) ∈ shortEscapes := by
  have hall : ∀ token ∈ [quote, backslash, 8, 12, 10, 13, 9], ∀ letter ∈ escapeLetter token,
      (letter, token) ∈ shortEscapes := by decide
  have hshort : shortEscaped token := (shortEscaped_iff token).mpr (by rw [h]; rfl)
  exact hall token (List.contains_iff_mem.mp hshort) letter h

/-- The digits that `sprintf` writes. -/
def byteUnit (token : BitVec 8) : CodeUnit where
  digits := (unicodeText token).drop 1
  four := rfl
  hex := by
    intro c hc
    have hdigit : ∀ n, (hexValue (hexDigit (n % 16))).isSome := fun n => by
      rw [hexValue_hexDigit]
      rfl
    simp only [unicodeText, List.drop_one, List.tail_cons, List.mem_cons, List.not_mem_nil,
      or_false] at hc
    rcases hc with rfl | rfl | rfl | rfl
    all_goals exact hdigit _

theorem value_byteUnit (token : BitVec 8) : (byteUnit token).value = token.toNat := by
  have hbyte := token.isLt
  simp only [CodeUnit.value, byteUnit, unicodeText, List.drop_one, List.tail_cons, List.foldl_cons,
    List.foldl_nil, hexValue_hexDigit, Option.getD_some]
  omega

/-- A small code point is one byte. -/
theorem utf8_small (hsmall : token.toNat < 32) : utf8 token.toNat = [token] := by
  have hvalid : token.toNat.isValidChar := Or.inl (Nat.lt_trans hsmall (by decide))
  rw [utf8, String.utf8EncodeChar, toNat_val_ofNat hvalid, if_pos (by omega)]
  exact congrArg (· :: []) ((BitVec.ofNat_toNat 8 token).trans (BitVec.setWidth_eq token))

/-- **The item of a byte**: its text is what is printed for it, and it stands for the byte. -/
theorem exists_item (hzero : token ≠ 0) :
    ∃ item : Item, item.text = escape token ∧ item.output = [token] ∧
      item.count ≤ escapedLength token := by
  rcases escape_cases token with ⟨hplain, hescape, hlength⟩ |
    ⟨letter, -, hletter, hescape, hlength⟩ | ⟨-, -, hsmall, hescape, hlength⟩
  · refine ⟨Item.plain token ⟨hplain.2.1, hzero, hplain.2.2⟩, hescape.symm, rfl, ?_⟩
    exact Nat.le_of_eq hlength.symm
  · refine ⟨Item.short letter token (short_of_letter hletter), hescape.symm, rfl, ?_⟩
    rw [hlength]
    exact Nat.le_succ 1
  · have htoken : token.toNat < 32 := hsmall
    have hunit : ¬(0xD800 ≤ (byteUnit token).value ∧ (byteUnit token).value ≤ 0xDFFF) := by
      rw [value_byteUnit]
      omega
    have hne : token.toNat ≠ 0 := fun h => hzero (BitVec.eq_of_toNat_eq h)
    refine ⟨Item.codeUnit (byteUnit token) hunit, hescape.symm, ?_, ?_⟩
    · rw [Item.output, value_byteUnit, if_neg hne, utf8_small htoken]
    · rw [hlength]
      exact Nat.le_succ 5

/-- **The literal of a string.** -/
theorem exists_literal (s : List (BitVec 8)) (hs : ∀ x ∈ s, x ≠ 0) :
    ∃ literal : List Item, literal.flatMap Item.text = s.flatMap escape ∧
      literal.flatMap Item.output = s ∧ literalCount literal ≤ textLength s := by
  induction s with
  | nil => exact ⟨[], rfl, rfl, Nat.le_refl 0⟩
  | cons token s ih =>
    obtain ⟨item, htext, houtput, hcount⟩ := exists_item (hs token List.mem_cons_self)
    obtain ⟨literal, htexts, houtputs, hcounts⟩ :=
      ih fun x hx => hs x (List.mem_cons_of_mem _ hx)
    refine ⟨item :: literal, ?_, ?_, ?_⟩
    · rw [List.flatMap_cons, List.flatMap_cons, htext, htexts]
    · rw [List.flatMap_cons, houtput, houtputs, List.singleton_append]
    · rw [textLength_cons, literalCount, List.map_cons, List.sum_cons]
      exact Nat.add_le_add hcount hcounts

end Bytes

section RoundTrip

/-- **Parsing undoes printing**, whatever follows the text. -/
theorem parseString_quoted (s : CString) (hlen : textLength s.bytes + 1 < 2 ^ 31)
    (rest : List (BitVec 8)) (before : Nat → BitVec 8) :
    ∃ parsed, parseString (quoted s.bytes ++ rest) (some before) = some (some parsed) ∧
      parsed.valuestring.cString = s.bytes ∧ parsed.type = cJSONString ∧ parsed.ptr = rest := by
  obtain ⟨literal, htext, houtput, hcount⟩ := exists_literal s.bytes s.ne_zero
  obtain ⟨parsed, hparse, hstring, htype, hptr, -⟩ :=
    decodes_of_count (by omega : literalCount literal + 1 < 2 ^ 31) before rest
  rw [htext] at hparse
  rw [houtput] at hstring
  have hquoted : quoted s.bytes ++ rest = quote :: (s.bytes.flatMap escape ++ quote :: rest) := by
    rw [quoted, List.cons_append, List.cons_append, List.append_assoc, List.singleton_append]
  exact ⟨parsed, hquoted ▸ hparse, hstring, htype, hptr⟩

theorem hexDigit_ne_zero (n : Nat) : hexDigit (n % 16) ≠ 0 :=
  (hexValue_plain (hexValue_hexDigit n)).2.1

/-- The text of a string has no zero in it. -/
theorem quoted_ne_zero (s : CString) : ∀ x ∈ quoted s.bytes, x ≠ 0 := by
  have hescape : ∀ token ∈ s.bytes, ∀ x ∈ escape token, x ≠ 0 := by
    intro token htoken x hx
    rcases escape_cases token with ⟨-, hescape, -⟩ | ⟨letter, -, hletter, hescape, -⟩ |
      ⟨-, -, -, hescape, -⟩
    · rw [hescape, List.mem_singleton] at hx
      exact hx ▸ s.ne_zero token htoken
    · have hne : letter ≠ 0 := (unescape_short (short_of_letter hletter)).1
      rw [hescape, List.mem_cons, List.mem_singleton] at hx
      rcases hx with rfl | rfl
      · decide
      · exact hne
    · rw [hescape, unicodeText] at hx
      simp only [List.mem_cons, List.not_mem_nil, or_false] at hx
      rcases hx with rfl | rfl | rfl | rfl | rfl | rfl
      · decide
      · decide
      all_goals exact hexDigit_ne_zero _
  intro x hx
  rw [quoted, List.mem_append, List.mem_cons, List.mem_singleton] at hx
  rcases hx with (rfl | hx) | rfl
  · decide
  · obtain ⟨token, htoken, hx⟩ := List.mem_flatMap.mp hx
    exact hescape token htoken x hx
  · decide

/-- **The round trip.** Every string whose text, with the quotation marks and the zero, has a size
that is an `int`. -/
theorem roundTrips_iff (s : CString) : RoundTrips s ↔ textLength s.bytes + 3 < 2 ^ 31 := by
  constructor
  · intro h
    by_contra hlong
    obtain ⟨str, hprint, -⟩ := h fun _ => 0
    rw [printString_overflow (Nat.not_lt.mp hlong)] at hprint
    cases hprint
  · intro hlen before
    obtain ⟨str, hprint, hsize, hbegins⟩ := printString_spec hlen before
    have hlength : (quoted s.bytes).length = textLength s.bytes + 2 := by
      rw [quoted, List.length_append, List.length_cons, length_flatMap_escape,
        List.length_singleton]
    have hstring : str.cString = quoted s.bytes :=
      OutBuffer.cString_of_begins hbegins (by omega) (quoted_ne_zero s)
    refine ⟨str, hprint, ?_, ?_⟩
    · rw [hstring, hlength, hsize]
    · intro text before'
      rw [hstring]
      exact parseString_quoted s (by omega) (text ++ [0]) before'

/-- A string of control characters. -/
def controls (n : Nat) : CString where
  bytes := List.replicate n 1
  noNul h := absurd (List.eq_of_mem_replicate h) (by decide)

theorem textLength_controls (n : Nat) : textLength (controls n).bytes = n * 6 := by
  rw [controls, textLength, List.map_replicate, List.sum_replicate_nat]
  rfl

/-- The text of a long one has more bytes than an `int`, or a 32-bit word, can count. -/
theorem controls_overflow : ¬RoundTrips (controls 715827883) := by
  intro h
  obtain ⟨str, hprint, -⟩ := h fun _ => 0
  have hlong : 2 ^ 31 ≤ textLength (controls 715827883).bytes + 3 := by
    rw [textLength_controls]
    omega
  rw [printString_overflow hlong] at hprint
  cases hprint

end RoundTrip

end ArmKernel.Json

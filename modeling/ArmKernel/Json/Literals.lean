/-
JSON string literals, and what `parse_string` (`src/cjson.c`, lines 81 to 150) makes of them.

An `Item` is what a well-formed literal consists of: a byte for itself, a short escape, a code
unit that is no surrogate, or a high surrogate with a low one. `Item.output` is what it stands
for, with the UTF-8 that Lean's own strings are made of.

An item is a piece for the loop that writes (`Item.reads`) and some pieces for the loop that
counts (`Item.counts`), more of them than it has bytes. `decodes_iff` puts the items together.
-/
import ArmKernel.Json.Bounds

namespace ArmKernel.Json

open ArmKernel.Support

/-- The short escapes, with what they stand for. -/
def shortEscapes : List (BitVec 8 × BitVec 8) :=
  [(chr '"', 0x22), (chr '\\', 0x5C), (chr '/', 0x2F), (chr 'b', 0x08), (chr 'f', 0x0C),
    (chr 'n', 0x0A), (chr 'r', 0x0D), (chr 't', 0x09)]

/-- Four hexadecimal digits. -/
structure CodeUnit where
  digits : List (BitVec 8)
  four : digits.length = 4
  hex : ∀ c ∈ digits, (hexValue c).isSome

def CodeUnit.value (unit : CodeUnit) : Nat :=
  unit.digits.foldl (fun n c => n * 16 + (hexValue c).getD 0) 0

/-- The items of a literal. -/
inductive Item where
  | plain (c : BitVec 8) (h : c ≠ quote ∧ c ≠ 0 ∧ c ≠ backslash)
  | short (letter c : BitVec 8) (h : (letter, c) ∈ shortEscapes)
  | codeUnit (unit : CodeUnit) (h : ¬(0xD800 ≤ unit.value ∧ unit.value ≤ 0xDFFF))
  | pair (high low : CodeUnit) (hhigh : 0xD800 ≤ high.value ∧ high.value ≤ 0xDBFF)
      (hlow : 0xDC00 ≤ low.value ∧ low.value ≤ 0xDFFF)

/-- The UTF-8 of a code point. -/
def utf8 (codePoint : Nat) : List (BitVec 8) :=
  (String.utf8EncodeChar (Char.ofNat codePoint)).map UInt8.toBitVec

/-- The code point of a surrogate pair. -/
def pairPoint (high low : Nat) : Nat := 0x10000 + (high - 0xD800) * 0x400 + (low - 0xDC00)

/-- The text of an item. -/
def Item.text : Item → List (BitVec 8)
  | .plain c _ => [c]
  | .short letter _ _ => [backslash, letter]
  | .codeUnit unit _ => unitText unit.digits
  | .pair high low _ _ => unitText high.digits ++ unitText low.digits

/-- What an item stands for. -/
def Item.output : Item → List (BitVec 8)
  | .plain c _ => [c]
  | .short _ c _ => [c]
  | .codeUnit unit _ => if unit.value = 0 then [] else utf8 unit.value
  | .pair high low _ _ => utf8 (pairPoint high.value low.value)

/-- What the first loop counts for an item. -/
def Item.count : Item → Nat
  | .plain _ _ => 1
  | .short _ _ _ => 1
  | .codeUnit _ _ => 5
  | .pair _ _ _ _ => 10

/-- What the first loop counts for a literal. -/
def literalCount (literal : List Item) : Nat := (literal.map Item.count).sum

/-- The call decodes the literal, whatever the block holds before and whatever follows the
literal, and the output with its zero fits in the block. -/
def Decodes (literal : List Item) : Prop :=
  ∀ before after, ∃ parsed,
    parseString (quote :: (literal.flatMap Item.text ++ quote :: after)) (some before) =
        some (some parsed) ∧
      parsed.valuestring.cString = literal.flatMap Item.output ∧ parsed.type = cJSONString ∧
      parsed.ptr = after ∧ (literal.flatMap Item.output).length < parsed.valuestring.size

section Utf8

/-- A byte behind the first one. -/
theorem tailByte_eq (x : BitVec 32) :
    ((x ||| 0x80) &&& 0xBF).setWidth 8 = BitVec.ofNat 8 (x.toNat % 0x40 + 0x80) := by
  have hall : ∀ y : BitVec 8, (y ||| 0x80) &&& 0xBF = BitVec.ofNat 8 (y.toNat % 0x40 + 0x80) := by
    decide +kernel
  have hmod : x.toNat % 2 ^ 8 % 0x40 = x.toNat % 0x40 := by omega
  have hbyte := hall (x.setWidth 8)
  rw [BitVec.toNat_setWidth, hmod] at hbyte
  rw [BitVec.setWidth_and, BitVec.setWidth_or]
  exact hbyte

/-- The first byte, with its mark in front of its bits. -/
theorem leadByte_eq (x : BitVec 32) {mark : BitVec 8} {m : Nat}
    (hall : ∀ y : BitVec 8, y.toNat < m → y ||| mark = BitVec.ofNat 8 (y.toNat % m + mark.toNat))
    (hx : x.toNat < m) (hm : m ≤ 2 ^ 8) :
    (x ||| mark.setWidth 32).setWidth 8 = BitVec.ofNat 8 (x.toNat % m + mark.toNat) := by
  have hmod : x.toNat % 2 ^ 8 = x.toNat := Nat.mod_eq_of_lt (Nat.lt_of_lt_of_le hx hm)
  have hbyte := hall (x.setWidth 8)
  rw [BitVec.toNat_setWidth, hmod] at hbyte
  rw [BitVec.setWidth_or, BitVec.setWidth_setWidth_of_le mark (by decide), BitVec.setWidth_eq]
  exact hbyte hx

theorem toNat_shift (x : BitVec 32) (n : Nat) : (x >>> n).toNat = x.toNat / 2 ^ n := by
  rw [BitVec.toNat_ushiftRight, Nat.shiftRight_eq_div_pow]

theorem tailBytes_succ (n : Nat) (x : BitVec 32) :
    tailBytes (n + 1) x =
      tailBytes n (x >>> 6) ++ [BitVec.ofNat 8 (x.toNat % 0x40 + 0x80)] := by
  rw [tailBytes, tailByte_eq]

/-- The bytes of a character, when its length is known. -/
theorem characterBytes_of_length {x : BitVec 32} {k : Nat} (h : characterLength x = k + 1) :
    characterBytes x =
      (x >>> (6 * k) ||| (firstByteMark.getD (k + 1) 0).setWidth 32).setWidth 8 ::
        tailBytes k x := by
  rw [characterBytes, leadBits, h, Nat.add_sub_cancel]

/-- **The bytes of a character** are its UTF-8. -/
theorem characterBytes_eq {x : BitVec 32} {c : Char} (h : x.toNat = c.val.toNat) :
    characterBytes x = (String.utf8EncodeChar c).map UInt8.toBitVec := by
  have hbound : x.toNat < 0x110000 := by
    rw [h]
    rcases c.valid with hsmall | ⟨-, hlarge⟩
    · exact Nat.lt_trans hsmall (by decide)
    · exact hlarge
  have hle : ∀ {n : Nat}, ¬x.toNat < n + 1 → ¬x.toNat ≤ n := fun hn hle =>
    hn (Nat.lt_succ_of_le hle)
  rw [String.utf8EncodeChar]
  simp only [← h]
  by_cases h1 : x.toNat < 0x80
  · have hlength : characterLength x = 0 + 1 := if_pos (BitVec.lt_def.mpr h1)
    have hlead := @leadByte_eq (x >>> (6 * 0)) 0x00 0x80 (by decide +kernel)
      (by rw [toNat_shift, Nat.mul_zero, Nat.pow_zero, Nat.div_one]; exact h1) (by decide)
    rw [if_pos (Nat.le_of_lt_succ h1), characterBytes_of_length hlength]
    refine (congrArg (· :: []) hlead).trans ?_
    rw [toNat_shift, Nat.mul_zero, Nat.pow_zero, Nat.div_one, Nat.mod_eq_of_lt h1]
    rfl
  have hlong1 : ¬x < 0x80 := fun hx => h1 (BitVec.lt_def.mp hx)
  rw [if_neg (hle h1)]
  by_cases h2 : x.toNat < 0x800
  · have hlength : characterLength x = 1 + 1 :=
      (if_neg hlong1).trans (if_pos (BitVec.lt_def.mpr h2))
    have hlead := @leadByte_eq (x >>> (6 * 1)) 0xC0 0x20 (by decide +kernel)
      (by rw [toNat_shift]; omega) (by decide)
    rw [if_pos (Nat.le_of_lt_succ h2), characterBytes_of_length hlength, tailBytes_succ, tailBytes]
    refine (congrArg (· :: _) hlead).trans ?_
    rw [toNat_shift]
    rfl
  have hlong2 : ¬x < 0x800 := fun hx => h2 (BitVec.lt_def.mp hx)
  rw [if_neg (hle h2)]
  by_cases h3 : x.toNat < 0x10000
  · have hlength : characterLength x = 2 + 1 :=
      (if_neg hlong1).trans ((if_neg hlong2).trans (if_pos (BitVec.lt_def.mpr h3)))
    have hlead := @leadByte_eq (x >>> (6 * 2)) 0xE0 0x10 (by decide +kernel)
      (by rw [toNat_shift]; omega) (by decide)
    rw [if_pos (Nat.le_of_lt_succ h3), characterBytes_of_length hlength, tailBytes_succ,
      tailBytes_succ, tailBytes]
    refine (congrArg (· :: _) hlead).trans ?_
    rw [toNat_shift, toNat_shift]
    rfl
  · have hlong3 : ¬x < 0x10000 := fun hx => h3 (BitVec.lt_def.mp hx)
    have hlength : characterLength x = 3 + 1 :=
      (if_neg hlong1).trans ((if_neg hlong2).trans (if_neg hlong3))
    have hlead := @leadByte_eq (x >>> (6 * 3)) 0xF0 0x08 (by decide +kernel)
      (by rw [toNat_shift]; omega) (by decide)
    have hdiv : x.toNat / 2 ^ 6 / 2 ^ 6 = x.toNat / 4096 := Nat.div_div_eq_div_mul _ _ _
    rw [if_neg (hle h3), characterBytes_of_length hlength, tailBytes_succ, tailBytes_succ,
      tailBytes_succ, tailBytes]
    refine (congrArg (· :: _) hlead).trans ?_
    rw [toNat_shift, toNat_shift, toNat_shift, hdiv]
    rfl

end Utf8

section Items

variable {uc uc2 : Option (BitVec 32)} {rest : List (BitVec 8)} {n : Nat}

/-- The digits of a code unit, with their values. -/
theorem CodeUnit.exists_digits (unit : CodeUnit) :
    ∃ x y z w a b c d, unit.digits = [x, y, z, w] ∧ hexValue x = some a ∧ hexValue y = some b ∧
      hexValue z = some c ∧ hexValue w = some d ∧
      unit.value = ((a * 16 + b) * 16 + c) * 16 + d := by
  obtain ⟨x, y, z, w, hdigits⟩ := exists_of_length_four unit.four
  have hvalue : ∀ digit ∈ unit.digits, ∃ value, hexValue digit = some value :=
    fun digit hdigit => Option.isSome_iff_exists.mp (unit.hex digit hdigit)
  rw [hdigits] at hvalue
  obtain ⟨a, ha⟩ := hvalue x (by simp)
  obtain ⟨b, hb⟩ := hvalue y (by simp)
  obtain ⟨c, hc⟩ := hvalue z (by simp)
  obtain ⟨d, hd⟩ := hvalue w (by simp)
  refine ⟨x, y, z, w, a, b, c, d, hdigits, ha, hb, hc, hd, ?_⟩
  rw [CodeUnit.value, hdigits]
  simp only [List.foldl_cons, List.foldl_nil, ha, hb, hc, hd, Option.getD_some, Nat.zero_mul,
    Nat.zero_add]

theorem CodeUnit.value_lt (unit : CodeUnit) : unit.value < 0x10000 := by
  obtain ⟨x, y, z, w, a, b, c, d, -, hx, hy, hz, hw, hvalue⟩ := unit.exists_digits
  have ha := (hexValue_plain hx).1
  have hb := (hexValue_plain hy).1
  have hc := (hexValue_plain hz).1
  have hd := (hexValue_plain hw).1
  omega

/-- `sscanf` reads the value of a code unit. -/
theorem CodeUnit.assigned_eq (unit : CodeUnit) (old : Option (BitVec 32))
    (rest : List (BitVec 8)) :
    assigned old (unit.digits ++ rest) = some (BitVec.ofNat 32 unit.value) := by
  obtain ⟨x, y, z, w, a, b, c, d, hdigits, hx, hy, hz, hw, hvalue⟩ := unit.exists_digits
  rw [assigned, hdigits, hvalue]
  exact congrArg (Option.or · old) (scanHex_four hx hy hz hw rest)

theorem CodeUnit.toNat_value (unit : CodeUnit) :
    (BitVec.ofNat 32 unit.value).toNat = unit.value := by
  rw [BitVec.toNat_ofNat]
  exact Nat.mod_eq_of_lt (Nat.lt_trans unit.value_lt (by decide))

theorem CodeUnit.isLow_iff (unit : CodeUnit) :
    IsLow (BitVec.ofNat 32 unit.value) ↔ 0xDC00 ≤ unit.value ∧ unit.value ≤ 0xDFFF := by
  rw [IsLow, BitVec.le_def, BitVec.le_def, unit.toNat_value]
  exact Iff.rfl

theorem CodeUnit.isHigh_iff (unit : CodeUnit) :
    IsHigh (BitVec.ofNat 32 unit.value) ↔ 0xD800 ≤ unit.value ∧ unit.value ≤ 0xDBFF := by
  rw [IsHigh, BitVec.le_def, BitVec.le_def, unit.toNat_value]
  exact Iff.rfl

theorem CodeUnit.eq_zero_iff (unit : CodeUnit) :
    BitVec.ofNat 32 unit.value = 0 ↔ unit.value = 0 := by
  rw [← BitVec.toNat_inj, unit.toNat_value]
  exact Iff.rfl

theorem pairPoint_eq {high low : Nat} (hhigh : 0xD800 ≤ high ∧ high ≤ 0xDBFF)
    (hlow : 0xDC00 ≤ low ∧ low ≤ 0xDFFF) :
    (0x10000 + (high % 0x400 * 0x400 + low % 0x400)) % 2 ^ 32 = pairPoint high low := by
  unfold pairPoint
  omega

/-- The two surrogates make the code point of the pair. -/
theorem toNat_combine {high low : CodeUnit} (hhigh : 0xD800 ≤ high.value ∧ high.value ≤ 0xDBFF)
    (hlow : 0xDC00 ≤ low.value ∧ low.value ≤ 0xDFFF) :
    (combine (BitVec.ofNat 32 high.value) (BitVec.ofNat 32 low.value)).toNat =
      pairPoint high.value low.value := by
  have hmask : ∀ unit : CodeUnit, (BitVec.ofNat 32 unit.value &&& 0x3FF).toNat =
      unit.value % 0x400 := by
    intro unit
    have h10 : (0x3FF : BitVec 32).toNat = 2 ^ 10 - 1 := by decide
    rw [BitVec.toNat_and, unit.toNat_value, h10, Nat.and_two_pow_sub_one_eq_mod]
  have hbits : (((BitVec.ofNat 32 high.value &&& 0x3FF) <<< 10) |||
      (BitVec.ofNat 32 low.value &&& 0x3FF)).toNat =
        high.value % 0x400 * 0x400 + low.value % 0x400 := by
    have hten : low.value % 0x400 < 2 ^ 10 := Nat.mod_lt _ (by decide)
    have hword : (high.value % 0x400) <<< 10 < 2 ^ 32 := by
      rw [Nat.shiftLeft_eq]
      omega
    rw [BitVec.toNat_or, BitVec.toNat_shiftLeft, hmask, hmask, Nat.mod_eq_of_lt hword,
      ← Nat.shiftLeft_add_eq_or_of_lt hten, Nat.shiftLeft_eq]
  rw [combine, BitVec.toNat_add, hbits]
  exact pairPoint_eq hhigh hlow

theorem toNat_val_ofNat {codePoint : Nat} (h : codePoint.isValidChar) :
    (Char.ofNat codePoint).val.toNat = codePoint := by
  rw [Char.ofNat, dif_pos h]
  rfl

/-- The encoder of a code point of a literal. -/
theorem utf8_eq {x : BitVec 32} {codePoint : Nat} (hx : x.toNat = codePoint)
    (h : codePoint.isValidChar) : characterBytes x = utf8 codePoint := by
  exact characterBytes_eq (hx.trans (toNat_val_ofNat h).symm)

theorem CodeUnit.valid (unit : CodeUnit) (h : ¬(0xD800 ≤ unit.value ∧ unit.value ≤ 0xDFFF)) :
    unit.value.isValidChar := by
  rcases Nat.lt_or_ge unit.value 0xD800 with hsmall | hlarge
  · exact Or.inl hsmall
  · exact Or.inr ⟨Nat.not_le.mp fun hle => h ⟨hlarge, hle⟩,
      Nat.lt_trans unit.value_lt (by decide)⟩

theorem pairPoint_valid {high low : Nat} (hhigh : 0xD800 ≤ high ∧ high ≤ 0xDBFF)
    (hlow : 0xDC00 ≤ low ∧ low ≤ 0xDFFF) : (pairPoint high low).isValidChar := by
  refine Or.inr ?_
  unfold pairPoint
  omega

/-- A short escape, for the loop that writes. -/
theorem unescape_short {letter c : BitVec 8} (h : (letter, c) ∈ shortEscapes) :
    letter ≠ 0 ∧ letter ≠ chr 'u' ∧ unescape letter = c ∧ c ≠ 0 := by
  rw [shortEscapes] at h
  simp only [List.mem_cons, List.not_mem_nil, or_false, Prod.mk.injEq] at h
  rcases h with ⟨rfl, rfl⟩ | ⟨rfl, rfl⟩ | ⟨rfl, rfl⟩ | ⟨rfl, rfl⟩ | ⟨rfl, rfl⟩ | ⟨rfl, rfl⟩ |
    ⟨rfl, rfl⟩ | ⟨rfl, rfl⟩
  all_goals decide

/-- **An item is a piece**, whatever the variables hold and whatever follows. -/
theorem Item.piece (item : Item) (uc uc2 : Option (BitVec 32)) (rest : List (BitVec 8)) :
    ∃ uc' uc2', Piece uc uc2 (item.text ++ rest) (Round.mk item.output rest uc' uc2') := by
  cases item with
  | plain c h => exact ⟨uc, uc2, Piece.plain h.2.2⟩
  | short letter c h =>
    obtain ⟨-, hu, hunescape, -⟩ := unescape_short h
    refine ⟨uc, uc2, ?_⟩
    rw [Item.output, Item.text, ← hunescape]
    exact Piece.escaped hu
  | codeUnit unit h =>
    have hx := unit.assigned_eq uc rest
    have hlow : ¬IsLow (BitVec.ofNat 32 unit.value) := fun hlow =>
      h ⟨Nat.le_trans (by decide) (unit.isLow_iff.mp hlow).1, (unit.isLow_iff.mp hlow).2⟩
    have hhigh : ¬IsHigh (BitVec.ofNat 32 unit.value) := fun hhigh =>
      h ⟨(unit.isHigh_iff.mp hhigh).1, Nat.le_trans (unit.isHigh_iff.mp hhigh).2 (by decide)⟩
    rw [Item.output]
    by_cases hzero : unit.value = 0
    · rw [if_pos hzero]
      exact ⟨_, uc2, Piece.nothing unit.four hx (Or.inr (unit.eq_zero_iff.mpr hzero))⟩
    · rw [if_neg hzero, ← utf8_eq unit.toNat_value (unit.valid h)]
      exact ⟨_, uc2, Piece.character unit.four hx
        (not_or.mpr ⟨hlow, mt unit.eq_zero_iff.mp hzero⟩) hhigh⟩
  | pair high low hhigh hlow =>
    rw [Item.output, ← utf8_eq (toNat_combine hhigh hlow) (pairPoint_valid hhigh hlow), Item.text,
      List.append_assoc]
    exact ⟨_, _, Piece.pair high.four (high.assigned_eq uc _) (high.isHigh_iff.mpr hhigh) low.four
      (low.assigned_eq uc2 rest) (low.isLow_iff.mpr hlow)⟩

/-- The text of an item does not look like an end. -/
theorem Item.text_head (item : Item) :
    ∃ c tail, item.text = c :: tail ∧ ¬(c = quote ∨ c = 0) := by
  have hbackslash : ¬(backslash = quote ∨ backslash = 0) := by decide
  cases item with
  | plain c h => exact ⟨c, [], rfl, not_or.mpr ⟨h.1, h.2.1⟩⟩
  | short letter c h => exact ⟨backslash, [letter], rfl, hbackslash⟩
  | codeUnit unit h => exact ⟨backslash, _, rfl, hbackslash⟩
  | pair high low hhigh hlow => exact ⟨backslash, _, rfl, hbackslash⟩

theorem Counts.unitText (unit : CodeUnit) (h : Counts rest n) :
    Counts (unitText unit.digits ++ rest) (n + 5) := by
  obtain ⟨x, y, z, w, a, b, c, d, hdigits, hx, hy, hz, hw, -⟩ := unit.exists_digits
  have hdigit : ∀ {digit : BitVec 8} {value : Nat} {rest : List (BitVec 8)} {n : Nat},
      hexValue digit = some value → Counts rest n → Counts (digit :: rest) (n + 1) := by
    intro digit value rest n hvalue h
    obtain ⟨-, hzero, hquote, hbackslash, -⟩ := hexValue_plain hvalue
    exact Counts.plain (not_or.mpr ⟨hquote, hzero⟩) hbackslash h
  rw [hdigits]
  exact Counts.escaped (hdigit hx (hdigit hy (hdigit hz (hdigit hw h))))

/-- **An item is counted**, whatever follows. -/
theorem Item.counts (item : Item) (h : Counts rest n) :
    Counts (item.text ++ rest) (n + item.count) := by
  cases item with
  | plain c hc => exact Counts.plain (not_or.mpr ⟨hc.1, hc.2.1⟩) hc.2.2 h
  | short letter c hc => exact Counts.escaped h
  | codeUnit unit hunit => exact Counts.unitText unit h
  | pair high low hhigh hlow =>
    rw [Item.text, List.append_assoc]
    exact Counts.unitText high (Counts.unitText low h)

theorem length_utf8 (codePoint : Nat) : (utf8 codePoint).length ≤ 4 := by
  rw [utf8, List.length_map, String.length_utf8EncodeChar]
  exact Char.utf8Size_le_four _

/-- The bytes of an item are not more than have been counted. -/
theorem Item.length_output (item : Item) : item.output.length ≤ item.count := by
  cases item with
  | plain c h => exact Nat.le_refl 1
  | short letter c h => exact Nat.le_refl 1
  | codeUnit unit h =>
    rw [Item.output]
    split
    · exact Nat.zero_le _
    · exact Nat.le_trans (length_utf8 _) (by decide : 4 ≤ 5)
  | pair high low hhigh hlow => exact Nat.le_trans (length_utf8 _) (by decide : 4 ≤ 10)

theorem byte_ne_zero {n : Nat} (h0 : n ≠ 0) (h : n < 2 ^ 8) : (UInt8.ofNat n).toBitVec ≠ 0 := by
  intro hzero
  have hnat : (BitVec.ofNat 8 n).toNat = (0 : BitVec 8).toNat := congrArg BitVec.toNat hzero
  rw [BitVec.toNat_ofNat, Nat.mod_eq_of_lt h] at hnat
  exact h0 hnat

/-- There is no zero in the UTF-8 of another code point. -/
theorem utf8_ne_zero {codePoint : Nat} (h : codePoint.isValidChar) (h0 : codePoint ≠ 0) :
    ∀ x ∈ utf8 codePoint, x ≠ 0 := by
  have hbyte : ∀ n m k, m + k ≤ 2 ^ 8 → 0 < m → 0 < k →
      (UInt8.ofNat (n % m + k)).toBitVec ≠ 0 := by
    intro n m k hle hm hk
    have hmod := Nat.mod_lt n hm
    exact byte_ne_zero (by omega) (by omega)
  intro x hx
  rw [utf8, String.utf8EncodeChar, toNat_val_ofNat h] at hx
  split at hx
  case isTrue hsmall =>
    rw [List.map_singleton, List.mem_singleton] at hx
    rw [hx]
    exact byte_ne_zero h0 (Nat.lt_of_le_of_lt hsmall (by decide))
  split at hx
  · simp only [List.map_cons, List.map_nil, List.mem_cons, List.not_mem_nil, or_false] at hx
    rcases hx with rfl | rfl
    all_goals exact hbyte _ _ _ (by decide) (by decide) (by decide)
  split at hx
  · simp only [List.map_cons, List.map_nil, List.mem_cons, List.not_mem_nil, or_false] at hx
    rcases hx with rfl | rfl | rfl
    all_goals exact hbyte _ _ _ (by decide) (by decide) (by decide)
  · simp only [List.map_cons, List.map_nil, List.mem_cons, List.not_mem_nil, or_false] at hx
    rcases hx with rfl | rfl | rfl | rfl
    all_goals exact hbyte _ _ _ (by decide) (by decide) (by decide)

/-- An item does not stand for a zero. -/
theorem Item.output_ne_zero (item : Item) : ∀ x ∈ item.output, x ≠ 0 := by
  cases item with
  | plain c h =>
    intro x hx
    rw [Item.output, List.mem_singleton] at hx
    exact hx ▸ h.2.1
  | short letter c h =>
    intro x hx
    rw [Item.output, List.mem_singleton] at hx
    exact hx ▸ (unescape_short h).2.2.2
  | codeUnit unit h =>
    rw [Item.output]
    split
    case isTrue => exact fun x hx => absurd hx List.not_mem_nil
    case isFalse hzero => exact utf8_ne_zero (unit.valid h) hzero
  | pair high low hhigh hlow =>
    refine utf8_ne_zero (pairPoint_valid hhigh hlow) (Nat.ne_of_gt ?_)
    unfold pairPoint
    omega

end Items

section Literals

variable {literal : List Item} {after : List (BitVec 8)}

theorem reads_literal (literal : List Item) (uc uc2 : Option (BitVec 32))
    (after : List (BitVec 8)) :
    Reads uc uc2 (literal.flatMap Item.text ++ quote :: after) (literal.flatMap Item.output)
      (quote :: after) := by
  induction literal generalizing uc uc2 with
  | nil => exact Reads.stop (Or.inl rfl)
  | cons item literal ih =>
    obtain ⟨uc', uc2', hpiece⟩ :=
      item.piece uc uc2 (literal.flatMap Item.text ++ quote :: after)
    obtain ⟨c, tail, htext, hc⟩ := item.text_head
    rw [List.flatMap_cons, List.flatMap_cons, List.append_assoc]
    rw [htext, List.cons_append] at hpiece ⊢
    exact Reads.more hc hpiece (ih uc' uc2')

theorem counts_literal (literal : List Item) (after : List (BitVec 8)) :
    Counts (literal.flatMap Item.text ++ quote :: after) (literalCount literal) := by
  induction literal with
  | nil => exact Counts.stop (Or.inl rfl)
  | cons item literal ih =>
    rw [List.flatMap_cons, List.append_assoc, literalCount, List.map_cons, List.sum_cons,
      Nat.add_comm]
    exact item.counts ih

theorem length_output_le (literal : List Item) :
    (literal.flatMap Item.output).length ≤ literalCount literal := by
  induction literal with
  | nil => exact Nat.le_refl 0
  | cons item literal ih =>
    rw [List.flatMap_cons, List.length_append, literalCount, List.map_cons, List.sum_cons]
    exact Nat.add_le_add item.length_output ih

theorem output_ne_zero (literal : List Item) : ∀ x ∈ literal.flatMap Item.output, x ≠ 0 := by
  intro x hx
  obtain ⟨item, -, hx⟩ := List.mem_flatMap.mp hx
  exact item.output_ne_zero x hx

/-- **A literal is decoded** when the size of its block is an `int`. -/
theorem decodes_of_count (h : literalCount literal + 1 < 2 ^ 31) : Decodes literal := by
  intro before after
  have hroom := length_output_le literal
  refine ⟨_, parseString_of_reads (counts_literal literal after) h
    (reads_literal literal none none after) hroom before, ?_, rfl, rfl,
    Nat.lt_succ_of_le hroom⟩
  have hbegins : (parsedBlock (literalCount literal) (literal.flatMap Item.output) before).Begins
      (literal.flatMap Item.output ++ [0]) :=
    OutBuffer.begins_put (OutBuffer.begins_nil _) _
  exact OutBuffer.cString_of_begins hbegins (Nat.lt_succ_of_le hroom) (output_ne_zero literal)

/-- A text has one count. -/
theorem Counts.unique {ptr : List (BitVec 8)} {n m : Nat} (h : Counts ptr n) (h' : Counts ptr m) :
    n = m := by
  have hbackslash : ¬(backslash = quote ∨ backslash = 0) := by decide
  induction h generalizing m with
  | stop h =>
    cases h' with
    | stop => rfl
    | plain hnot => exact absurd h hnot
    | escaped => exact absurd h hbackslash
  | plain h hc hrest ih =>
    cases h' with
    | stop hend => exact absurd hend h
    | plain _ _ hrest' => exact congrArg (· + 1) (ih hrest')
    | escaped => exact absurd rfl hc
  | escaped hrest ih =>
    cases h' with
    | stop hend => exact absurd hend hbackslash
    | plain _ hc => exact absurd rfl hc
    | escaped hrest' => exact congrArg (· + 1) (ih hrest')

theorem count_of_decodes (h : Decodes literal) : literalCount literal + 1 < 2 ^ 31 := by
  obtain ⟨parsed, hparse, -⟩ := h (fun _ => 0) []
  obtain ⟨n, bytes, rest, hcounts, hlen, -⟩ := reads_of_parseString hparse
  rw [(counts_literal literal []).unique hcounts]
  exact hlen

/-- **Decoding.** Every literal for whose pieces there is an `int`. -/
theorem decodes_iff (literal : List Item) : Decodes literal ↔ literalCount literal + 1 < 2 ^ 31 :=
  ⟨count_of_decodes, decodes_of_count⟩

/-- A literal of letters. -/
def letters (n : Nat) : List Item := List.replicate n (Item.plain (chr 'a') (by decide))

theorem literalCount_letters (n : Nat) : literalCount (letters n) = n := by
  rw [literalCount, letters, List.map_replicate, List.sum_replicate_nat]
  exact Nat.mul_one n

/-- A long one has more of them than an `int` can count. -/
theorem letters_not_decoded : ¬Decodes (letters 2147483647) := by
  intro h
  have hcount := count_of_decodes h
  rw [literalCount_letters] at hcount
  omega

end Literals

end ArmKernel.Json

/-
Parsing a JSON string (`src/cjson.c`, lines 83 to 150).

A pointer into the text is the memory from it on: `*ptr` is the first byte, and a read behind
the memory has no result. `parse_string` counts with one loop and writes with another.
-/
import ArmKernel.Json.Print

namespace ArmKernel.Json

open ArmKernel.Support

/-- A digit that `%x` reads. -/
def hexValue (c : BitVec 8) : Option Nat :=
  if 48 ≤ c.toNat ∧ c.toNat ≤ 57 then some (c.toNat - 48)
  else if 97 ≤ c.toNat ∧ c.toNat ≤ 102 then some (c.toNat - 87)
  else if 65 ≤ c.toNat ∧ c.toNat ≤ 70 then some (c.toNat - 55)
  else none

/-- At most `width` digits. -/
def scanDigits : Nat → List (BitVec 8) → List Nat
  | 0, _ => []
  | _ + 1, [] => []
  | width + 1, c :: ptr =>
    match hexValue c with
    | none => []
    | some digit => digit :: scanDigits width ptr

/-- The sign in front of a number: whether it is negative, what follows and the width left. -/
def scanSign (ptr : List (BitVec 8)) (width : Nat) : Bool × List (BitVec 8) × Nat :=
  match ptr with
  | [] => (false, [], width)
  | c :: rest =>
    if c = chr '-' then (true, rest, width - 1)
    else if c = chr '+' then (false, rest, width - 1)
    else (false, c :: rest, width)

/-- The `0x` in front of a number. -/
def skipBase (ptr : List (BitVec 8)) (width : Nat) : List (BitVec 8) × Nat :=
  match ptr with
  | c :: x :: rest =>
    if c = chr '0' ∧ (x = chr 'x' ∨ x = chr 'X') then (rest, width - 2) else (c :: x :: rest, width)
  | _ => (ptr, width)

/-- `sscanf(ptr, "%4x", …)`: the number that it stores, if the text has one. -/
def scanHex (ptr : List (BitVec 8)) : Option (BitVec 32) :=
  let (negative, ptr, width) := scanSign (ptr.dropWhile isSpace) 4
  let (ptr, width) := skipBase ptr width
  match scanDigits width ptr with
  | [] => none
  | digits =>
    let number := BitVec.ofNat 32 (digits.foldl (fun n digit => 16 * n + digit) 0)
    some (if negative then -number else number)

/-- `parse_string`: the loop that counts. -/
def scanLoop : List (BitVec 8) → Int → Option Int
  | [], _ => none
  | c :: ptr, len =>
    if c = quote ∨ c = 0 then some len
    else
      match int32 (len + 1) with
      | none => none
      | some len =>
        if len = 0 then some len
        else if c = backslash then
          match ptr with
          | [] => none
          | _ :: ptr => scanLoop ptr len
        else scanLoop ptr len

/-- The variables of the loop that writes. `uc` and `uc2` have no value at first. -/
structure ParseState where
  ptr : List (BitVec 8)
  out : OutBuffer
  ptr2 : Nat
  uc : Option (BitVec 32)
  uc2 : Option (BitVec 32)

/-- `firstByteMark`. -/
def firstByteMark : List (BitVec 8) := [0x00, 0x00, 0xC0, 0xE0, 0xF0, 0xF8, 0xFC]

/-- The cases 4 to 2 of the inner `switch`: `n` bytes behind `ptr2`, from the last one down. -/
def writeTail : Nat → OutBuffer → Nat → BitVec 32 → Option (OutBuffer × BitVec 32)
  | 0, out, _, uc => some (out, uc)
  | n + 1, out, ptr2, uc => do
    let out ← out.write (ptr2 + (n + 1)) (((uc ||| 0x80) &&& 0xBF).setWidth 8)
    writeTail n out ptr2 (uc >>> 6)

/-- `parse_string`: the character `uc` goes into the string. -/
def writeCharacter (st : ParseState) (uc : BitVec 32) : Option ParseState := do
  let len := if uc < 0x80 then 1 else if uc < 0x800 then 2 else if uc < 0x10000 then 3 else 4
  let (out, uc) ← writeTail (len - 1) st.out st.ptr2 uc
  let out ← out.write st.ptr2 ((uc ||| (firstByteMark.getD len 0).setWidth 32).setWidth 8)
  some { st with out, ptr2 := st.ptr2 + len, uc := some uc }

/-- `parse_string`: the case of a `u`, with `ptr` at it. A variable that `sscanf` does not assign
keeps its value. -/
def parseUnicode (st : ParseState) : Option ParseState := do
  let uc ← (scanHex (st.ptr.drop 1)).or st.uc
  let ptr := st.ptr.drop 4
  let st := { st with ptr, uc := some uc }
  if (0xDC00 ≤ uc ∧ uc ≤ 0xDFFF) ∨ uc = 0 then some st
  else if 0xD800 ≤ uc ∧ uc ≤ 0xDBFF then do
    let c ← ptr[1]?
    if c ≠ backslash then some st
    else do
      let c ← ptr[2]?
      if c ≠ chr 'u' then some st
      else do
        let uc2 ← (scanHex (ptr.drop 3)).or st.uc2
        let st := { st with ptr := ptr.drop 6, uc2 := some uc2 }
        if uc2 < 0xDC00 ∨ uc2 > 0xDFFF then some st
        else writeCharacter st (0x10000 + (((uc &&& 0x3FF) <<< 10) ||| (uc2 &&& 0x3FF)))
  else writeCharacter st uc

/-- The other cases of the `switch`. -/
def unescape (c : BitVec 8) : BitVec 8 :=
  if c = chr 'b' then 8
  else if c = chr 'f' then 12
  else if c = chr 'n' then 10
  else if c = chr 'r' then 13
  else if c = chr 't' then 9
  else c

/-- `parse_string`: one round of the loop that writes. -/
def parseRound (st : ParseState) : Option ParseState :=
  match st.ptr with
  | [] => none
  | c :: ptr =>
    if c ≠ backslash then
      (st.out.write st.ptr2 c).map fun out => { st with ptr, out, ptr2 := st.ptr2 + 1 }
    else
      match ptr with
      | [] => none
      | c :: rest =>
        if c = chr 'u' then
          (parseUnicode { st with ptr }).map fun st => { st with ptr := st.ptr.drop 1 }
        else
          (st.out.write st.ptr2 (unescape c)).map fun out =>
            { st with ptr := rest, out, ptr2 := st.ptr2 + 1 }

/-- `parse_string`: the loop that writes. Every round moves `ptr` on, so there are not more rounds
than bytes. -/
def parseLoop : Nat → ParseState → Option ParseState
  | 0, _ => none
  | rounds + 1, st =>
    match st.ptr with
    | [] => none
    | c :: _ => if c = quote ∨ c = 0 then some st else (parseRound st).bind (parseLoop rounds)

/-- What `parse_string` stores in the item, and the place it returns. -/
structure ParsedString where
  valuestring : OutBuffer
  type : Nat
  ptr : List (BitVec 8)

/-- `cJSON_String`. -/
def cJSONString : Nat := 2 ^ 4

/-- `parse_string`: what it does with its block. -/
def parseText (ptr : List (BitVec 8)) (out : OutBuffer) : Option ParsedString := do
  let st ← parseLoop ptr.length { ptr, out, ptr2 := 0, uc := none, uc2 := none }
  let out ← st.out.write st.ptr2 0
  match st.ptr with
  | [] => none
  | c :: rest =>
    some { valuestring := out, type := cJSONString, ptr := if c = quote then rest else c :: rest }

/-- `parse_string`. The inner `none` is NULL. -/
def parseString (str : List (BitVec 8)) (given : Option (Nat → BitVec 8)) :
    Option (Option ParsedString) :=
  match str with
  | [] => none
  | c :: ptr =>
    if c ≠ quote then some none
    else do
      let len ← scanLoop ptr 0
      let size ← int32 (len + 1)
      match malloc given size with
      | none => some none
      | some out => (parseText ptr out).map some

section Digits

/-- A digit is no delimiter, no sign, and no letter of `0x`. -/
theorem hexValue_plain {c : BitVec 8} {n : Nat} (h : hexValue c = some n) :
    n < 16 ∧ c ≠ 0 ∧ c ≠ quote ∧ c ≠ backslash ∧ isSpace c = false ∧ c ≠ chr '-' ∧ c ≠ chr '+' ∧
      c ≠ chr 'x' ∧ c ≠ chr 'X' := by
  have hall : ∀ c : BitVec 8, ∀ n ∈ hexValue c, n < 16 ∧ c ≠ 0 ∧ c ≠ quote ∧ c ≠ backslash ∧
      isSpace c = false ∧ c ≠ chr '-' ∧ c ≠ chr '+' ∧ c ≠ chr 'x' ∧ c ≠ chr 'X' := by
    decide +kernel
  exact hall c n h

/-- Four digits are a number, whatever follows them. -/
theorem scanHex_four {x y z w : BitVec 8} {a b c d : Nat} (ha : hexValue x = some a)
    (hb : hexValue y = some b) (hc : hexValue z = some c) (hd : hexValue w = some d)
    (rest : List (BitVec 8)) :
    scanHex (x :: y :: z :: w :: rest) =
      some (BitVec.ofNat 32 (((a * 16 + b) * 16 + c) * 16 + d)) := by
  obtain ⟨-, -, -, -, hspace, hminus, hplus, -, -⟩ := hexValue_plain ha
  obtain ⟨-, -, -, -, -, -, -, hx, hX⟩ := hexValue_plain hb
  have hbase : ¬(x = chr '0' ∧ (y = chr 'x' ∨ y = chr 'X')) := fun h => h.2.elim hx hX
  have hsign : scanSign ((x :: y :: z :: w :: rest).dropWhile isSpace) 4 =
      (false, x :: y :: z :: w :: rest, 4) := by
    rw [List.dropWhile_cons_of_neg (by rw [hspace]; exact Bool.false_ne_true), scanSign,
      if_neg hminus, if_neg hplus]
  have hdigits : scanDigits 4 (x :: y :: z :: w :: rest) = [a, b, c, d] := by
    simp only [scanDigits, ha, hb, hc, hd]
  unfold scanHex
  rw [hsign]
  simp only [skipBase, if_neg hbase, hdigits, List.foldl_cons, List.foldl_nil]
  have hnumber : 16 * (16 * (16 * (16 * 0 + a) + b) + c) + d =
      ((a * 16 + b) * 16 + c) * 16 + d := by
    omega
  rw [hnumber]
  rfl

end Digits

section Scan

variable {len : Int} {c : BitVec 8} {rest : List (BitVec 8)}

theorem scanLoop_plain (hc : c ≠ quote ∧ c ≠ 0 ∧ c ≠ backslash) (h0 : 0 ≤ len)
    (h : len + 1 < 2 ^ 31) : scanLoop (c :: rest) len = scanLoop rest (len + 1) := by
  have hend : ¬(c = quote ∨ c = 0) := not_or.mpr ⟨hc.1, hc.2.1⟩
  have hpositive : len + 1 ≠ 0 := by omega
  rw [scanLoop, if_neg hend, int32_of_lt (by omega) h]
  simp only
  rw [if_neg hpositive, if_neg hc.2.2]

/-- A backslash is counted with the byte behind it. -/
theorem scanLoop_backslash (h0 : 0 ≤ len) (h : len + 1 < 2 ^ 31) :
    scanLoop (backslash :: c :: rest) len = scanLoop rest (len + 1) := by
  have hend : ¬(backslash = quote ∨ backslash = 0) := by decide
  have hpositive : len + 1 ≠ 0 := by omega
  rw [scanLoop, if_neg hend, int32_of_lt (by omega) h]
  simp only
  rw [if_neg hpositive, if_pos trivial]

end Scan

theorem parseString_cons (ptr : List (BitVec 8)) (given : Option (Nat → BitVec 8)) :
    parseString (quote :: ptr) given = (scanLoop ptr 0).bind fun len => (int32 (len + 1)).bind
      fun size => match malloc given size with
        | none => some none
        | some out => (parseText ptr out).map some := rfl

end ArmKernel.Json

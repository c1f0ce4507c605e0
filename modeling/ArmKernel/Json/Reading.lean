/-
What `parse_string` (`src/cjson.c`, lines 83 to 150) reads, apart from the block it writes into.

A round of the loop that writes reads a piece of the text and writes some bytes. `readRound` is
the reading alone, and `parseRound_eq` says that the round is the reading and then the writing of
all of its bytes, or of none.

`Piece` says the same as a grammar, with a form for each case of the source, and `Reads` is a text
of such pieces up to its end. `parseLoop_of_reads` and `reads_of_parseLoop` connect it with the
loop: it runs to its end exactly when the text can be read and the bytes have room.
-/
import ArmKernel.Json.Parse

namespace ArmKernel.Json

open ArmKernel.Support

/-- The length of a character. -/
def characterLength (uc : BitVec 32) : Nat :=
  if uc < 0x80 then 1 else if uc < 0x800 then 2 else if uc < 0x10000 then 3 else 4

/-- The bytes behind the first one. -/
def tailBytes : Nat → BitVec 32 → List (BitVec 8)
  | 0, _ => []
  | n + 1, uc => tailBytes n (uc >>> 6) ++ [((uc ||| 0x80) &&& 0xBF).setWidth 8]

/-- What the inner `switch` leaves of the character for its first byte. -/
def leadBits (uc : BitVec 32) : BitVec 32 := uc >>> (6 * (characterLength uc - 1))

/-- The bytes of a character. -/
def characterBytes (uc : BitVec 32) : List (BitVec 8) :=
  (leadBits uc ||| (firstByteMark.getD (characterLength uc) 0).setWidth 32).setWidth 8 ::
    tailBytes (characterLength uc - 1) uc

/-- A low surrogate. -/
abbrev IsLow (uc : BitVec 32) : Prop := 0xDC00 ≤ uc ∧ uc ≤ 0xDFFF

/-- A high surrogate. -/
abbrev IsHigh (uc : BitVec 32) : Prop := 0xD800 ≤ uc ∧ uc ≤ 0xDBFF

/-- The character of two surrogates. -/
def combine (uc uc2 : BitVec 32) : BitVec 32 :=
  0x10000 + (((uc &&& 0x3FF) <<< 10) ||| (uc2 &&& 0x3FF))

/-- What a variable holds after `sscanf`: the number at the place, if there is one there. -/
def assigned (old : Option (BitVec 32)) (text : List (BitVec 8)) : Option (BitVec 32) :=
  (scanHex text).or old

/-- What a round reads: the bytes that it writes, the text that is left, and the variables. -/
structure Round where
  bytes : List (BitVec 8)
  rest : List (BitVec 8)
  uc : Option (BitVec 32)
  uc2 : Option (BitVec 32)

/-- The reading behind a high surrogate, with `ptr` at its last digit. -/
def readSecond (uc : BitVec 32) (uc2 : Option (BitVec 32)) (ptr : List (BitVec 8)) :
    Option Round := do
  let c ← ptr[1]?
  if c ≠ backslash then some { bytes := [], rest := ptr, uc := some uc, uc2 }
  else do
    let c ← ptr[2]?
    if c ≠ chr 'u' then some { bytes := [], rest := ptr, uc := some uc, uc2 }
    else do
      let uc2 ← assigned uc2 (ptr.drop 3)
      if ¬IsLow uc2 then
        some { bytes := [], rest := ptr.drop 6, uc := some uc, uc2 := some uc2 }
      else
        some { bytes := characterBytes (combine uc uc2), rest := ptr.drop 6,
               uc := some (leadBits (combine uc uc2)), uc2 := some uc2 }

/-- The reading of a `u` once its number is known, with `ptr` at the last digit. -/
def readNumber (uc : BitVec 32) (uc2 : Option (BitVec 32)) (ptr : List (BitVec 8)) :
    Option Round :=
  if IsLow uc ∨ uc = 0 then some { bytes := [], rest := ptr, uc := some uc, uc2 }
  else if IsHigh uc then readSecond uc uc2 ptr
  else some { bytes := characterBytes uc, rest := ptr, uc := some (leadBits uc), uc2 }

/-- The reading of a `u`, with `ptr` at it. -/
def readUnit (uc uc2 : Option (BitVec 32)) (ptr : List (BitVec 8)) : Option Round :=
  (assigned uc (ptr.drop 1)).bind fun uc => readNumber uc uc2 (ptr.drop 4)

/-- The reading behind a backslash. -/
def readEscape (uc uc2 : Option (BitVec 32)) : List (BitVec 8) → Option Round
  | [] => none
  | c :: rest =>
    if c = chr 'u' then
      (readUnit uc uc2 (c :: rest)).map fun round => { round with rest := round.rest.drop 1 }
    else some { bytes := [unescape c], rest, uc, uc2 }

/-- The reading of a round. -/
def readRound (uc uc2 : Option (BitVec 32)) : List (BitVec 8) → Option Round
  | [] => none
  | c :: ptr =>
    if c ≠ backslash then some { bytes := [c], rest := ptr, uc, uc2 } else readEscape uc uc2 ptr

/-- The text goes on, and not with another `u` escape. -/
def NoUnit (text : List (BitVec 8)) : Prop :=
  ∃ c rest, text = c :: rest ∧ (c ≠ backslash ∨ ∃ c rest', rest = c :: rest' ∧ c ≠ chr 'u')

/-- The escape of four bytes. -/
def unitText (hex : List (BitVec 8)) : List (BitVec 8) := backslash :: chr 'u' :: hex

/-- The forms that the loop that writes takes a text apart into. -/
inductive Piece (uc uc2 : Option (BitVec 32)) : List (BitVec 8) → Round → Prop where
  | plain {c : BitVec 8} {rest : List (BitVec 8)} (h : c ≠ backslash) :
      Piece uc uc2 (c :: rest) { bytes := [c], rest, uc, uc2 }
  | escaped {c : BitVec 8} {rest : List (BitVec 8)} (h : c ≠ chr 'u') :
      Piece uc uc2 (backslash :: c :: rest) { bytes := [unescape c], rest, uc, uc2 }
  | nothing {hex rest : List (BitVec 8)} {x : BitVec 32} (hhex : hex.length = 4)
      (hx : assigned uc (hex ++ rest) = some x) (h : IsLow x ∨ x = 0) :
      Piece uc uc2 (unitText hex ++ rest) { bytes := [], rest, uc := some x, uc2 }
  | character {hex rest : List (BitVec 8)} {x : BitVec 32} (hhex : hex.length = 4)
      (hx : assigned uc (hex ++ rest) = some x) (h : ¬(IsLow x ∨ x = 0)) (hhigh : ¬IsHigh x) :
      Piece uc uc2 (unitText hex ++ rest)
        { bytes := characterBytes x, rest, uc := some (leadBits x), uc2 }
  | alone {hex rest : List (BitVec 8)} {x : BitVec 32} (hhex : hex.length = 4)
      (hx : assigned uc (hex ++ rest) = some x) (hhigh : IsHigh x) (h : NoUnit rest) :
      Piece uc uc2 (unitText hex ++ rest) { bytes := [], rest, uc := some x, uc2 }
  | unpaired {hex low rest : List (BitVec 8)} {x y : BitVec 32} (hhex : hex.length = 4)
      (hx : assigned uc (hex ++ (unitText low ++ rest)) = some x) (hhigh : IsHigh x)
      (hlow : low.length = 4) (hy : assigned uc2 (low ++ rest) = some y) (h : ¬IsLow y) :
      Piece uc uc2 (unitText hex ++ (unitText low ++ rest))
        { bytes := [], rest, uc := some x, uc2 := some y }
  | pair {hex low rest : List (BitVec 8)} {x y : BitVec 32} (hhex : hex.length = 4)
      (hx : assigned uc (hex ++ (unitText low ++ rest)) = some x) (hhigh : IsHigh x)
      (hlow : low.length = 4) (hy : assigned uc2 (low ++ rest) = some y) (h : IsLow y) :
      Piece uc uc2 (unitText hex ++ (unitText low ++ rest))
        { bytes := characterBytes (combine x y), rest, uc := some (leadBits (combine x y)),
          uc2 := some y }

/-- A text of such pieces up to its end: the bytes they stand for, and the place of the end. -/
inductive Reads : Option (BitVec 32) → Option (BitVec 32) → List (BitVec 8) → List (BitVec 8) →
    List (BitVec 8) → Prop where
  | stop {uc uc2 : Option (BitVec 32)} {c : BitVec 8} {rest : List (BitVec 8)}
      (h : c = quote ∨ c = 0) : Reads uc uc2 (c :: rest) [] (c :: rest)
  | more {uc uc2 : Option (BitVec 32)} {c : BitVec 8} {ptr bytes final : List (BitVec 8)}
      {round : Round} (h : ¬(c = quote ∨ c = 0)) (hpiece : Piece uc uc2 (c :: ptr) round)
      (hrest : Reads round.uc round.uc2 round.rest bytes final) :
      Reads uc uc2 (c :: ptr) (round.bytes ++ bytes) final

/-- The writing of what a round has read. -/
def ParseState.accept (st : ParseState) (round : Round) : Option ParseState :=
  if round.bytes = [] ∨ st.ptr2 + round.bytes.length ≤ st.out.size then
    some { ptr := round.rest, out := st.out.put st.ptr2 round.bytes,
           ptr2 := st.ptr2 + round.bytes.length, uc := round.uc, uc2 := round.uc2 }
  else none

section Characters

variable {st : ParseState} {uc : BitVec 32}

theorem length_tailBytes (n : Nat) (uc : BitVec 32) : (tailBytes n uc).length = n := by
  induction n generalizing uc with
  | zero => rfl
  | succ n ih => rw [tailBytes, List.length_append, ih, List.length_singleton]

theorem characterLength_pos (uc : BitVec 32) : 1 ≤ characterLength uc := by
  rw [characterLength]
  split
  · exact Nat.le_refl 1
  split
  · decide
  split <;> decide

theorem length_characterBytes (uc : BitVec 32) :
    (characterBytes uc).length = characterLength uc := by
  rw [characterBytes, List.length_cons, length_tailBytes]
  exact Nat.sub_add_cancel (characterLength_pos uc)

/-- The bytes behind the first one are written from the last one down. -/
theorem writeTail_eq (n : Nat) (out : OutBuffer) (ptr2 : Nat) (uc : BitVec 32) :
    writeTail n out ptr2 uc =
      if n = 0 ∨ ptr2 + n < out.size then
        some (out.put (ptr2 + 1) (tailBytes n uc), uc >>> (6 * n))
      else none := by
  induction n generalizing out uc with
  | zero => rw [writeTail, if_pos (Or.inl rfl), tailBytes, OutBuffer.put_nil]; rfl
  | succ n ih =>
    rw [writeTail, OutBuffer.write_eq_put]
    simp only [bind]
    by_cases hroom : ptr2 + (n + 1) + 1 ≤ out.size
    · have hrest : n = 0 ∨ ptr2 + n < out.size := Or.inr (by omega)
      have hplace : ptr2 + (n + 1) = ptr2 + 1 + (tailBytes n (uc >>> 6)).length := by
        rw [length_tailBytes]
        omega
      have hshift : uc >>> 6 >>> (6 * n) = uc >>> (6 * (n + 1)) := by
        rw [← BitVec.shiftRight_add]
        congr 1
        omega
      rw [if_pos hroom, Option.bind_some, ih, OutBuffer.put_size, if_pos hrest,
        if_pos (Or.inr (by omega)), hplace, OutBuffer.put_put_left, hshift]
      rfl
    · have hnot : ¬(n + 1 = 0 ∨ ptr2 + (n + 1) < out.size) := by omega
      rw [if_neg hroom, if_neg hnot, Option.bind_none]

/-- **A character** is written whole, or not at all. -/
theorem writeCharacter_eq (st : ParseState) (uc : BitVec 32) :
    writeCharacter st uc = st.accept
      { bytes := characterBytes uc, rest := st.ptr, uc := some (leadBits uc), uc2 := st.uc2 } := by
  have hpos := characterLength_pos uc
  have hlength := length_characterBytes uc
  have hnil : characterBytes uc ≠ [] := List.cons_ne_nil _ _
  have hunfold : writeCharacter st uc =
      (writeTail (characterLength uc - 1) st.out st.ptr2 uc).bind fun p =>
        (p.1.write st.ptr2 ((p.2 |||
          (firstByteMark.getD (characterLength uc) 0).setWidth 32).setWidth 8)).bind fun out =>
            some { st with out, ptr2 := st.ptr2 + characterLength uc, uc := some p.2 } := rfl
  rw [hunfold, writeTail_eq, ParseState.accept]
  simp only [hnil, false_or, hlength]
  by_cases hroom : st.ptr2 + characterLength uc ≤ st.out.size
  · have htail : characterLength uc - 1 = 0 ∨ st.ptr2 + (characterLength uc - 1) < st.out.size :=
      Or.inr (by omega)
    have hone : st.ptr2 + 1 ≤ st.out.size := by omega
    have hput : (st.out.put (st.ptr2 + 1) (tailBytes (characterLength uc - 1) uc)).put st.ptr2
        [(leadBits uc ||| (firstByteMark.getD (characterLength uc) 0).setWidth 32).setWidth 8] =
          st.out.put st.ptr2 (characterBytes uc) :=
      OutBuffer.put_put_left st.out st.ptr2 [_] _
    rw [leadBits] at hput
    rw [if_pos htail, if_pos hroom, Option.bind_some, OutBuffer.write_eq_put, OutBuffer.put_size,
      if_pos hone, Option.bind_some, hput]
    rfl
  · rw [if_neg hroom]
    by_cases htail : characterLength uc - 1 = 0 ∨
        st.ptr2 + (characterLength uc - 1) < st.out.size
    · have hone : ¬st.ptr2 + 1 ≤ st.out.size := by omega
      rw [if_pos htail, Option.bind_some, OutBuffer.write_eq_put, OutBuffer.put_size, if_neg hone,
        Option.bind_none]
    · rw [if_neg htail, Option.bind_none]

/-- A round that writes nothing is accepted. -/
theorem accept_nil {round : Round} (h : round.bytes = []) :
    st.accept round = some
      { ptr := round.rest, out := st.out, ptr2 := st.ptr2, uc := round.uc, uc2 := round.uc2 } := by
  rw [ParseState.accept, if_pos (Or.inl h), h, OutBuffer.put_nil]
  rfl

theorem not_low_iff (y : BitVec 32) : ¬IsLow y ↔ y < 0xDC00 ∨ y > 0xDFFF := by
  rw [not_and_or, BitVec.not_le, BitVec.not_le]

/-- **The case of a `u`** is its reading and then the writing. -/
theorem parseUnicode_eq (st : ParseState) :
    parseUnicode st = (readUnit st.uc st.uc2 st.ptr).bind st.accept := by
  unfold parseUnicode readUnit readNumber assigned
  cases (scanHex (st.ptr.drop 1)).or st.uc with
  | none => rfl
  | some uc =>
    simp only [bind, Option.bind_some]
    split
    · rw [Option.bind_some, accept_nil rfl]
    split
    · unfold readSecond assigned
      simp only [bind]
      cases (st.ptr.drop 4)[1]? with
      | none => rfl
      | some c =>
        simp only [Option.bind_some]
        split
        · rw [Option.bind_some, accept_nil rfl]
        · cases (st.ptr.drop 4)[2]? with
          | none => rfl
          | some c =>
            simp only [Option.bind_some]
            split
            · rw [Option.bind_some, accept_nil rfl]
            · cases (scanHex ((st.ptr.drop 4).drop 3)).or st.uc2 with
              | none => rfl
              | some uc2 =>
                simp only [Option.bind_some, not_low_iff]
                split
                · rw [Option.bind_some, accept_nil rfl]
                · rw [Option.bind_some, writeCharacter_eq]
                  rfl
    · rw [Option.bind_some, writeCharacter_eq]
      rfl

/-- **A round** is its reading and then the writing. -/
theorem parseRound_eq (st : ParseState) :
    parseRound st = (readRound st.uc st.uc2 st.ptr).bind st.accept := by
  have hwrite : ∀ (x : BitVec 8) (rest : List (BitVec 8)),
      ((st.out.write st.ptr2 x).map fun out =>
        { st with ptr := rest, out, ptr2 := st.ptr2 + 1 }) =
      st.accept { bytes := [x], rest, uc := st.uc, uc2 := st.uc2 } := by
    intro x rest
    have hnil : ¬[x] = [] := List.cons_ne_nil x []
    rw [OutBuffer.write_eq_put, ParseState.accept]
    simp only [hnil, false_or, List.length_singleton]
    split <;> rfl
  unfold parseRound
  cases hptr : st.ptr with
  | nil => rfl
  | cons c ptr =>
    simp only
    rw [readRound]
    by_cases hc : c = backslash
    · have hbackslash : ¬c ≠ backslash := not_not.mpr hc
      rw [if_neg hbackslash, if_neg hbackslash]
      cases ptr with
      | nil => rfl
      | cons c' rest =>
        rw [readEscape]
        simp only
        by_cases hu : c' = chr 'u'
        · rw [if_pos hu, if_pos hu, parseUnicode_eq]
          simp only
          cases readUnit st.uc st.uc2 (c' :: rest) with
          | none => rfl
          | some round =>
            rw [Option.map_some, Option.bind_some, Option.bind_some, ParseState.accept,
              ParseState.accept]
            split <;> rfl
        · rw [if_neg hu, if_neg hu, Option.bind_some]
          exact hwrite (unescape c') rest
    · rw [if_pos hc, if_pos hc, Option.bind_some]
      exact hwrite c ptr

end Characters

section Pieces

variable {uc uc2 : Option (BitVec 32)} {ptr rest hex : List (BitVec 8)} {round : Round}

theorem exists_of_length_four (h : hex.length = 4) : ∃ a b c d, hex = [a, b, c, d] := by
  match hex, h with
  | [a, b, c, d], _ => exact ⟨a, b, c, d, rfl⟩

theorem not_low_of_high {x : BitVec 32} (h : IsHigh x) : ¬(IsLow x ∨ x = 0) := by
  have hhigh : x ≤ 0xDBFF#32 := h.2
  have hbound : (0xD800#32) ≤ x := h.1
  rw [BitVec.le_def] at hhigh hbound
  rintro (hlow | rfl)
  · have hlow' : (0xDC00#32) ≤ x := hlow.1
    rw [BitVec.le_def] at hlow'
    exact absurd (Nat.le_trans hlow' hhigh) (by decide)
  · exact absurd hbound (by decide)

/-- A round at a `u` of four bytes, in terms of its number. -/
theorem readRound_unitText {a b c d : BitVec 8} {x : BitVec 32}
    (hx : assigned uc ([a, b, c, d] ++ rest) = some x)
    (h : readNumber x uc2 (d :: rest) = some { round with rest := d' :: round.rest }) :
    readRound uc uc2 (unitText [a, b, c, d] ++ rest) = some round := by
  have hunit : readUnit uc uc2 (chr 'u' :: ([a, b, c, d] ++ rest)) =
      some { round with rest := d' :: round.rest } := by
    rw [readUnit, List.drop_one, List.tail_cons, hx, Option.bind_some]
    exact h
  rw [unitText, List.cons_append, List.cons_append, readRound, if_neg (not_not.mpr rfl),
    readEscape, if_pos rfl, hunit]
  rfl

theorem readNumber_high {x : BitVec 32} (hhigh : IsHigh x)
    (h : readSecond x uc2 ptr = some round) : readNumber x uc2 ptr = some round := by
  rw [readNumber, if_neg (not_low_of_high hhigh), if_pos hhigh, h]

/-- A second `u` of four bytes, in terms of its number. -/
theorem readSecond_unitText {a b c d last : BitVec 8} {x y : BitVec 32}
    (hy : assigned uc2 ([a, b, c, d] ++ rest) = some y) :
    readSecond x uc2 (last :: (unitText [a, b, c, d] ++ rest)) =
      if ¬IsLow y then some (Round.mk [] (d :: rest) (some x) (some y))
      else some (Round.mk (characterBytes (combine x y)) (d :: rest)
        (some (leadBits (combine x y))) (some y)) := by
  have hsecond : readSecond x uc2 (last :: (unitText [a, b, c, d] ++ rest)) =
      (assigned uc2 ([a, b, c, d] ++ rest)).bind fun y =>
        if ¬IsLow y then some (Round.mk [] (d :: rest) (some x) (some y))
        else some (Round.mk (characterBytes (combine x y)) (d :: rest)
          (some (leadBits (combine x y))) (some y)) := rfl
  rw [hsecond, hy, Option.bind_some]

/-- **Every piece is read** as what it stands for. -/
theorem readRound_of_piece (h : Piece uc uc2 ptr round) : readRound uc uc2 ptr = some round := by
  cases h with
  | plain h => rw [readRound, if_pos h]
  | escaped h => rw [readRound, if_neg (not_not.mpr rfl), readEscape, if_neg h]
  | nothing hhex hx h =>
    obtain ⟨a, b, c, d, rfl⟩ := exists_of_length_four hhex
    exact readRound_unitText hx (if_pos h)
  | character hhex hx h hhigh =>
    obtain ⟨a, b, c, d, rfl⟩ := exists_of_length_four hhex
    exact readRound_unitText hx ((if_neg h).trans (if_neg hhigh))
  | @alone hex rest x hhex hx hhigh h =>
    obtain ⟨a, b, c, d, rfl⟩ := exists_of_length_four hhex
    have hsecond : readSecond x uc2 (d :: rest) =
        some { bytes := [], rest := d :: rest, uc := some x, uc2 } := by
      obtain ⟨c', rest', rfl, hc | ⟨c'', rest'', rfl, hu⟩⟩ := h
      · exact if_pos hc
      · by_cases hc : c' = backslash
        · exact (if_neg (not_not.mpr hc)).trans (if_pos hu)
        · exact if_pos hc
    exact readRound_unitText hx (readNumber_high hhigh hsecond)
  | @unpaired hex low rest x y hhex hx hhigh hlow hy h =>
    obtain ⟨a, b, c, d, rfl⟩ := exists_of_length_four hhex
    obtain ⟨a', b', c', d', rfl⟩ := exists_of_length_four hlow
    exact readRound_unitText hx
      (readNumber_high hhigh ((readSecond_unitText hy).trans (if_pos h)))
  | @pair hex low rest x y hhex hx hhigh hlow hy h =>
    obtain ⟨a, b, c, d, rfl⟩ := exists_of_length_four hhex
    obtain ⟨a', b', c', d', rfl⟩ := exists_of_length_four hlow
    exact readRound_unitText hx
      (readNumber_high hhigh ((readSecond_unitText hy).trans (if_neg (not_not.mpr h))))

theorem exists_of_drop_four (h : ptr.drop 4 ≠ []) :
    ∃ a b c d rest, ptr = [a, b, c, d] ++ rest := by
  match ptr, h with
  | a :: b :: c :: d :: rest, _ => exact ⟨a, b, c, d, rest, rfl⟩

/-- What is read at a high surrogate, when there is text behind it. -/
theorem piece_of_readSecond {a b c d : BitVec 8} {x : BitVec 32}
    (hx : assigned uc ([a, b, c, d] ++ rest) = some x) (hhigh : IsHigh x)
    (h : readSecond x uc2 (d :: rest) = some round) (hrest : round.rest.drop 1 ≠ []) :
    Piece uc uc2 (unitText [a, b, c, d] ++ rest) { round with rest := round.rest.drop 1 } := by
  rw [readSecond] at h
  obtain ⟨c₁, hc₁, h⟩ := Option.bind_eq_some_iff.mp h
  obtain _ | ⟨c', rest⟩ := rest
  · cases hc₁
  obtain rfl : c' = c₁ := Option.some.inj hc₁
  by_cases hc : c' = backslash
  · subst hc
    rw [if_neg (not_not.mpr rfl)] at h
    obtain ⟨c₂, hc₂, h⟩ := Option.bind_eq_some_iff.mp h
    obtain _ | ⟨c', rest⟩ := rest
    · cases hc₂
    obtain rfl : c' = c₂ := Option.some.inj hc₂
    by_cases hu : c' = chr 'u'
    · subst hu
      rw [if_neg (not_not.mpr rfl)] at h
      obtain ⟨y, hy, h⟩ := Option.bind_eq_some_iff.mp h
      have hround : round.rest = rest.drop 3 := by
        split at h
        · cases h
          rfl
        · cases h
          rfl
      rw [hround, List.drop_drop] at hrest
      obtain ⟨a', b', c', d', rest, rfl⟩ := exists_of_drop_four hrest
      by_cases hlow : IsLow y
      · rw [if_neg (not_not.mpr hlow)] at h
        cases h
        exact @Piece.pair uc uc2 [a, b, c, d] [a', b', c', d'] rest x y rfl hx hhigh rfl hy hlow
      · rw [if_pos hlow] at h
        cases h
        exact @Piece.unpaired uc uc2 [a, b, c, d] [a', b', c', d'] rest x y rfl hx hhigh rfl hy hlow
    · rw [if_pos hu] at h
      cases h
      exact Piece.alone rfl hx hhigh ⟨backslash, _, rfl, Or.inr ⟨c', rest, rfl, hu⟩⟩
  · rw [if_pos hc] at h
    cases h
    exact Piece.alone rfl hx hhigh ⟨c', rest, rfl, Or.inl hc⟩

/-- What is read at a number, when there is text behind it. -/
theorem piece_of_readNumber {a b c d : BitVec 8} {x : BitVec 32}
    (hx : assigned uc ([a, b, c, d] ++ rest) = some x)
    (h : readNumber x uc2 (d :: rest) = some round) (hrest : round.rest.drop 1 ≠ []) :
    Piece uc uc2 (unitText [a, b, c, d] ++ rest) { round with rest := round.rest.drop 1 } := by
  rw [readNumber] at h
  by_cases hnothing : IsLow x ∨ x = 0
  · rw [if_pos hnothing] at h
    cases h
    exact Piece.nothing rfl hx hnothing
  rw [if_neg hnothing] at h
  by_cases hhigh : IsHigh x
  · rw [if_pos hhigh] at h
    exact piece_of_readSecond hx hhigh h hrest
  · rw [if_neg hhigh] at h
    cases h
    exact Piece.character rfl hx hnothing hhigh

theorem rest_of_readSecond {x : BitVec 32} (h : readSecond x uc2 ptr = some round) :
    round.rest = ptr ∨ round.rest = ptr.drop 6 := by
  rw [readSecond] at h
  obtain ⟨c, -, h⟩ := Option.bind_eq_some_iff.mp h
  by_cases hc : c ≠ backslash
  · rw [if_pos hc] at h
    cases h
    exact Or.inl rfl
  rw [if_neg hc] at h
  obtain ⟨c', -, h⟩ := Option.bind_eq_some_iff.mp h
  by_cases hu : c' ≠ chr 'u'
  · rw [if_pos hu] at h
    cases h
    exact Or.inl rfl
  rw [if_neg hu] at h
  obtain ⟨y, -, h⟩ := Option.bind_eq_some_iff.mp h
  refine Or.inr ?_
  split at h
  · cases h
    rfl
  · cases h
    rfl

theorem length_of_readNumber {x : BitVec 32} (h : readNumber x uc2 ptr = some round) :
    round.rest.length ≤ ptr.length := by
  rw [readNumber] at h
  split at h
  · cases h
    exact Nat.le_refl _
  split at h
  · rcases rest_of_readSecond h with hrest | hrest
    · exact Nat.le_of_eq (congrArg List.length hrest)
    · rw [hrest, List.length_drop]
      exact Nat.sub_le _ _
  · cases h
    exact Nat.le_refl _

/-- **What is read is a piece**, when there is text behind it. -/
theorem piece_of_readRound (h : readRound uc uc2 ptr = some round) (hrest : round.rest ≠ []) :
    Piece uc uc2 ptr round := by
  cases ptr with
  | nil => cases h
  | cons c ptr =>
    rw [readRound] at h
    by_cases hc : c = backslash
    · subst hc
      rw [if_neg (not_not.mpr rfl)] at h
      cases ptr with
      | nil => cases h
      | cons c rest =>
        rw [readEscape] at h
        by_cases hu : c = chr 'u'
        · subst hu
          rw [if_pos rfl] at h
          obtain ⟨round', hunit, rfl⟩ := Option.map_eq_some_iff.mp h
          rw [readUnit] at hunit
          obtain ⟨x, hx, hnumber⟩ := Option.bind_eq_some_iff.mp hunit
          have hfour : rest.drop 4 ≠ [] := by
            intro hnil
            have hle := length_of_readNumber hnumber
            have hshort : rest.length ≤ 4 := List.drop_eq_nil_iff.mp hnil
            refine hrest (List.drop_eq_nil_of_le ?_)
            rw [List.length_drop, List.length_cons] at hle
            omega
          obtain ⟨a, b, c, d, rest, rfl⟩ := exists_of_drop_four hfour
          exact piece_of_readNumber hx hnumber hrest
        · rw [if_neg hu] at h
          cases h
          exact Piece.escaped hu
    · rw [if_pos hc] at h
      cases h
      exact Piece.plain hc

theorem length_unitText (hhex : hex.length = 4) : (unitText hex).length = 6 := by
  rw [unitText, List.length_cons, List.length_cons, hhex]

/-- Every piece takes some of the text. -/
theorem length_of_piece (h : Piece uc uc2 ptr round) : round.rest.length < ptr.length := by
  cases h with
  | plain h => exact Nat.lt_succ_self _
  | escaped h => exact Nat.lt_succ_of_lt (Nat.lt_succ_self _)
  | nothing hhex | character hhex | alone hhex =>
    simp only [List.length_append, length_unitText hhex]
    omega
  | unpaired hhex _ _ hlow | pair hhex _ _ hlow =>
    simp only [List.length_append, length_unitText hhex, length_unitText hlow]
    omega

theorem suffix_of_piece (h : Piece uc uc2 ptr round) : round.rest <:+ ptr := by
  cases h with
  | plain h => exact List.suffix_cons _ _
  | escaped h => exact (List.suffix_cons _ _).trans (List.suffix_cons _ _)
  | nothing | character | alone => exact List.suffix_append _ _
  | unpaired | pair => exact (List.suffix_append _ _).trans (List.suffix_append _ _)

end Pieces

section Loops

variable {uc uc2 : Option (BitVec 32)} {ptr bytes final : List (BitVec 8)} {rounds : Nat}

/-- **The loop over a text of pieces** writes what they stand for, if that has room. -/
theorem parseLoop_of_reads (h : Reads uc uc2 ptr bytes final) {out : OutBuffer} {ptr2 : Nat}
    (hrounds : ptr.length ≤ rounds) (hroom : ptr2 + bytes.length ≤ out.size) :
    ∃ uc' uc2', parseLoop rounds (ParseState.mk ptr out ptr2 uc uc2) =
      some (ParseState.mk final (out.put ptr2 bytes) (ptr2 + bytes.length) uc' uc2') := by
  induction h generalizing rounds out ptr2 with
  | @stop uc uc2 c rest h =>
    obtain ⟨rounds, rfl⟩ := Nat.exists_eq_succ_of_ne_zero
      (Nat.ne_of_gt (Nat.lt_of_lt_of_le (Nat.succ_pos rest.length) hrounds))
    refine ⟨uc, uc2, ?_⟩
    rw [parseLoop, OutBuffer.put_nil]
    simp only
    rw [if_pos h]
    rfl
  | @more uc uc2 c ptr bytes final round h hpiece hrest ih =>
    have hshorter := length_of_piece hpiece
    obtain ⟨rounds, rfl⟩ := Nat.exists_eq_succ_of_ne_zero
      (Nat.ne_of_gt (Nat.lt_of_lt_of_le (Nat.succ_pos ptr.length) hrounds))
    rw [List.length_append] at hroom
    have hpart : ptr2 + round.bytes.length ≤ out.size := by omega
    have hround : parseRound (ParseState.mk (c :: ptr) out ptr2 uc uc2) =
        some (ParseState.mk round.rest (out.put ptr2 round.bytes) (ptr2 + round.bytes.length)
          round.uc round.uc2) := by
      rw [parseRound_eq, readRound_of_piece hpiece, Option.bind_some, ParseState.accept,
        if_pos (Or.inr hpart)]
    obtain ⟨uc', uc2', hloop⟩ := @ih rounds (out.put ptr2 round.bytes)
      (ptr2 + round.bytes.length) (by omega) (by rw [OutBuffer.put_size]; omega)
    refine ⟨uc', uc2', ?_⟩
    rw [parseLoop]
    simp only
    rw [if_neg h, hround, Option.bind_some, hloop, OutBuffer.put_put_right, List.length_append,
      Nat.add_assoc]

/-- **Every run of the loop** is over a text of pieces. -/
theorem reads_of_parseLoop {st st' : ParseState} (h : parseLoop rounds st = some st') :
    ∃ bytes, Reads st.uc st.uc2 st.ptr bytes st'.ptr ∧ st'.ptr2 = st.ptr2 + bytes.length ∧
      st'.out.size = st.out.size := by
  induction rounds generalizing st with
  | zero => cases h
  | succ rounds ih =>
    rw [parseLoop] at h
    cases hptr : st.ptr with
    | nil =>
      rw [hptr] at h
      cases h
    | cons c ptr =>
      rw [hptr] at h
      simp only at h
      by_cases hend : c = quote ∨ c = 0
      · rw [if_pos hend] at h
        cases h
        refine ⟨[], ?_, rfl, rfl⟩
        rw [hptr]
        exact Reads.stop hend
      · rw [if_neg hend] at h
        obtain ⟨st₁, hround, hloop⟩ := Option.bind_eq_some_iff.mp h
        rw [parseRound_eq, hptr] at hround
        obtain ⟨round, hread, haccept⟩ := Option.bind_eq_some_iff.mp hround
        rw [ParseState.accept] at haccept
        split at haccept
        case isTrue hroom =>
          cases haccept
          obtain ⟨bytes, hreads, hptr2, hsize⟩ := ih hloop
          have hrest : round.rest ≠ [] := by
            intro hnil
            rw [hnil] at hreads
            cases hreads
          refine ⟨round.bytes ++ bytes, Reads.more hend (piece_of_readRound hread hrest) hreads,
            ?_, hsize⟩
          rw [hptr2, List.length_append, Nat.add_assoc]
        case isFalse => cases haccept

/-- A text of pieces ends at a quotation mark or at a zero. -/
theorem final_of_reads (h : Reads uc uc2 ptr bytes final) :
    ∃ c rest, final = c :: rest ∧ (c = quote ∨ c = 0) ∧ final <:+ ptr := by
  induction h with
  | @stop _ _ c rest h => exact ⟨c, rest, rfl, h, List.suffix_refl _⟩
  | @more uc uc2 c ptr bytes final round h hpiece hrest ih =>
    obtain ⟨c', rest, hfinal, hend, hsuffix⟩ := ih
    exact ⟨c', rest, hfinal, hend, hsuffix.trans (suffix_of_piece hpiece)⟩

end Loops

end ArmKernel.Json

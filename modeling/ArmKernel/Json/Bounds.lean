/-
What `parse_string` (`src/cjson.c`, lines 83 to 150) touches on a text that nobody has checked.

The memory of a text ends at its zero, so a read behind the zero has no result, and neither has a
write behind the block or the use of a variable that `sscanf` has not assigned. `InBounds` says
that the call has a result, for every text behind the quotation mark and every allocation.

The two loops take the text apart in two ways. `Counts` is the first one: a backslash goes with
the byte behind it, whatever that is. `Reads` is the second one: a `u` goes with four bytes more.
`inBounds_iff` says that both have to find an end, and that the second must not write more than
the first has counted.
-/
import ArmKernel.Json.Reading

namespace ArmKernel.Json

open ArmKernel.Support

/-- The memory of a text, up to its zero. -/
def memory (text : CString) : List (BitVec 8) := text.bytes ++ [0]

/-- The text has an end for the loop that counts, `n` pieces on. -/
inductive Counts : List (BitVec 8) → Nat → Prop where
  | stop {c : BitVec 8} {rest : List (BitVec 8)} (h : c = quote ∨ c = 0) : Counts (c :: rest) 0
  | plain {c : BitVec 8} {rest : List (BitVec 8)} {n : Nat} (h : ¬(c = quote ∨ c = 0))
      (hc : c ≠ backslash) (hrest : Counts rest n) : Counts (c :: rest) (n + 1)
  | escaped {c : BitVec 8} {rest : List (BitVec 8)} {n : Nat} (hrest : Counts rest n) :
      Counts (backslash :: c :: rest) (n + 1)

/-- Behind a quotation mark and with any allocation, the call stays in the text and in its block,
uses no variable before it has a value, and returns a place in the text. -/
def InBounds (text : CString) : Prop :=
  ∀ given, ∃ result, parseString (quote :: memory text) given = some result ∧
    ∀ parsed ∈ result, parsed.ptr ≠ [] ∧ parsed.ptr <:+ memory text

section Counting

variable {ptr : List (BitVec 8)} {n : Nat} {len : Int}

/-- **The loop that counts**, when the number is an `int`. -/
theorem scanLoop_of_counts (h : Counts ptr n) (h0 : 0 ≤ len) (hlen : len + n < 2 ^ 31) :
    scanLoop ptr len = some (len + n) := by
  induction h generalizing len with
  | stop h =>
    rw [scanLoop, if_pos h]
    exact congrArg some (Int.add_zero len).symm
  | @plain c rest n h hc hrest ih =>
    have hplain : c ≠ quote ∧ c ≠ 0 ∧ c ≠ backslash :=
      ⟨fun hq => h (Or.inl hq), fun hz => h (Or.inr hz), hc⟩
    rw [Int.natCast_add, Int.natCast_one] at hlen ⊢
    rw [scanLoop_plain hplain h0 (by omega), ih (by omega) (by omega), Int.add_assoc,
      Int.add_comm 1]
  | @escaped c rest n hrest ih =>
    rw [Int.natCast_add, Int.natCast_one] at hlen ⊢
    rw [scanLoop_backslash h0 (by omega), ih (by omega) (by omega), Int.add_assoc, Int.add_comm 1]

/-- **What has been counted** are the pieces up to an end. -/
theorem counts_of_scanLoop {m : Int} (h : scanLoop ptr len = some m) (h0 : 0 ≤ len) :
    ∃ n : Nat, Counts ptr n ∧ m = len + n := by
  fun_induction scanLoop ptr len with
  | case1 len => cases h
  | case2 c rest len hend =>
    exact ⟨0, Counts.stop hend, (Option.some.inj h).symm.trans (Int.add_zero len).symm⟩
  | case3 => cases h
  | case4 c rest len hend hnext =>
    have hzero := int32_eq_some hnext
    omega
  | case5 => cases h
  | case6 len next hnext hpositive c rest hend ih =>
    have hone := int32_eq_some hnext
    obtain ⟨n, hcounts, rfl⟩ := ih h (by omega)
    exact ⟨n + 1, Counts.escaped hcounts, by omega⟩
  | case7 c rest len hend next hnext hpositive hc ih =>
    have hone := int32_eq_some hnext
    obtain ⟨n, hcounts, rfl⟩ := ih h (by omega)
    exact ⟨n + 1, Counts.plain hend hc hcounts, by omega⟩

end Counting

section Memory

variable {text : CString} {ptr bytes rest : List (BitVec 8)} {n : Nat}

/-- A place in the text is not the place of the quotation mark at its end, which is a zero. -/
theorem ne_nil_of_suffix {c : BitVec 8} (h : c :: rest <:+ memory text) (hc : c = quote) :
    rest ≠ [] := by
  rintro rfl
  obtain ⟨front, hfront⟩ := h
  rw [memory] at hfront
  have hlast := (List.append_inj_right' hfront rfl : [c] = [0])
  rw [hc] at hlast
  exact absurd hlast (by decide)

/-- The block after the call: `len + 1` bytes, with what has been read and a zero. -/
def parsedBlock (n : Nat) (bytes : List (BitVec 8)) (before : Nat → BitVec 8) : OutBuffer :=
  (OutBuffer.mk (n + 1) before).put 0 (bytes ++ [0])

/-- **A call** on a text that has an end for both loops. -/
theorem parseString_of_reads (hcounts : Counts ptr n) (hlen : n + 1 < 2 ^ 31) {c : BitVec 8}
    (hreads : Reads none none ptr bytes (c :: rest)) (hroom : bytes.length ≤ n)
    (before : Nat → BitVec 8) :
    parseString (quote :: ptr) (some before) =
      some (some { valuestring := parsedBlock n bytes before, type := cJSONString,
                   ptr := if c = quote then rest else c :: rest }) := by
  obtain ⟨uc, uc2, hloop⟩ := @parseLoop_of_reads none none ptr bytes (c :: rest) ptr.length hreads
    (OutBuffer.mk (n + 1) before) 0 (Nat.le_refl _)
    (by rw [Nat.zero_add]; exact Nat.le_succ_of_le hroom)
  have hsize : ((0 + n + 1 : Int) % 2 ^ 32).toNat = n + 1 := by omega
  have hzero : bytes.length + 1 ≤ n + 1 := Nat.succ_le_succ hroom
  rw [parseString_cons, scanLoop_of_counts hcounts (Int.le_refl 0) (by omega), Option.bind_some,
    int32_of_lt (by omega) (by omega), Option.bind_some, malloc, Option.map_some, hsize]
  simp only
  rw [parseText, hloop]
  simp only [bind, Option.bind_some, Nat.zero_add]
  rw [OutBuffer.write_eq_put, OutBuffer.put_size, if_pos hzero, ← Nat.zero_add bytes.length,
    OutBuffer.put_put_right]
  rfl

/-- **A text that a call reads** has an end for both loops. -/
theorem reads_of_parseString {before : Nat → BitVec 8} {result : Option ParsedString}
    (h : parseString (quote :: ptr) (some before) = some result) :
    ∃ n bytes rest, Counts ptr n ∧ n + 1 < 2 ^ 31 ∧ Reads none none ptr bytes rest ∧
      bytes.length ≤ n := by
  rw [parseString_cons] at h
  obtain ⟨len, hscan, hrest⟩ := Option.bind_eq_some_iff.mp h
  obtain ⟨size, hsize, htext⟩ := Option.bind_eq_some_iff.mp hrest
  obtain ⟨n, hcounts, rfl⟩ := counts_of_scanLoop hscan (Int.le_refl 0)
  have hint : (0 + n + 1 : Int) < 2 ^ 31 := by
    rw [int32] at hsize
    split at hsize
    case isTrue hbounds => exact hbounds.2
    case isFalse => cases hsize
  rw [int32_eq_some hsize, malloc, Option.map_some] at htext
  obtain ⟨parsed, hparsed, -⟩ := Option.map_eq_some_iff.mp htext
  rw [parseText] at hparsed
  obtain ⟨st, hloop, hstored⟩ := Option.bind_eq_some_iff.mp hparsed
  obtain ⟨out, hwrite, -⟩ := Option.bind_eq_some_iff.mp hstored
  obtain ⟨bytes, hreads, hptr2, hsame⟩ := reads_of_parseLoop hloop
  refine ⟨n, bytes, st.ptr, hcounts, by omega, hreads, ?_⟩
  rw [OutBuffer.write, hsame, hptr2] at hwrite
  split at hwrite
  case isTrue hroom =>
    have hblock : 0 + bytes.length < ((0 + n + 1 : Int) % 2 ^ 32).toNat := hroom
    omega
  case isFalse => cases hwrite

/-- **A call that stays in bounds**: the text ends for both loops, the block has an `int` for a
size, and what the second loop writes has been counted. -/
theorem inBounds_iff (text : CString) :
    InBounds text ↔ ∃ n bytes rest, Counts (memory text) n ∧ n + 1 < 2 ^ 31 ∧
      Reads none none (memory text) bytes rest ∧ bytes.length ≤ n := by
  constructor
  · intro h
    obtain ⟨result, hparse, -⟩ := h (some fun _ => 0)
    exact reads_of_parseString hparse
  · rintro ⟨n, bytes, rest, hcounts, hlen, hreads, hroom⟩ given
    obtain ⟨c, tail, rfl, hend, hsuffix⟩ := final_of_reads hreads
    cases given with
    | none =>
      refine ⟨none, ?_, fun parsed h => by cases h⟩
      rw [parseString_cons, scanLoop_of_counts hcounts (Int.le_refl 0) (by omega),
        Option.bind_some, int32_of_lt (by omega) (by omega), Option.bind_some]
      rfl
    | some before =>
      refine ⟨_, parseString_of_reads hcounts hlen hreads hroom before, ?_⟩
      intro parsed h
      obtain rfl := Option.some.inj h
      simp only
      split
      case isTrue hquote =>
        exact ⟨ne_nil_of_suffix hsuffix hquote, (List.suffix_cons c tail).trans hsuffix⟩
      case isFalse => exact ⟨List.cons_ne_nil c tail, hsuffix⟩

/-- A backslash in front of the zero takes the zero with it. -/
theorem backslash_unbounded : ¬InBounds (CString.mk [backslash] (by decide)) := by
  intro h
  obtain ⟨result, hparse, -⟩ := h none
  cases hparse

end Memory

end ArmKernel.Json

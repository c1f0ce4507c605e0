/-
Characters and strings of C.

A character is a byte and a string is the bytes before its NUL. The functions are those of
the C locale.
-/
import Mathlib.Data.List.Basic

namespace ArmKernel.Support

/-- A character constant. -/
def chr (c : Char) : BitVec 8 := BitVec.ofNat 8 c.toNat

/-- The bytes of a string constant. -/
def ascii (s : String) : List (BitVec 8) := s.toList.map chr

/-- A string, without the NUL behind it. -/
structure CString where
  bytes : List (BitVec 8)
  noNul : 0 ∉ bytes

theorem CString.ne_zero (s : CString) : ∀ x ∈ s.bytes, x ≠ 0 :=
  fun _ hx h0 => s.noNul (h0 ▸ hx)

/-- `isspace`. -/
def isSpace (c : BitVec 8) : Bool := c = 32 || (9 ≤ c.toNat && c.toNat ≤ 13)

/-- `tolower`. -/
def toLower (c : BitVec 8) : BitVec 8 :=
  if 65 ≤ c.toNat ∧ c.toNat ≤ 90 then c + 32 else c

/-- `strcasecmp` answers 0. -/
def equalIgnoringCase (s t : List (BitVec 8)) : Bool := s.map toLower = t.map toLower

/-- `strstr` does not answer NULL. -/
def containsString (s t : List (BitVec 8)) : Bool := s.tails.any fun rest => t.isPrefixOf rest

end ArmKernel.Support

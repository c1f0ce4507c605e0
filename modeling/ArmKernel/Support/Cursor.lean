/-
Searching in a text from a pointer on.

A pointer is the memory from it on. The outer `none` of a search is a read behind the memory, the
inner one is NULL. Both searches pass over what cannot begin a match (`strchr_skip`,
`strstr_skip`).
-/
import ArmKernel.Support.Chars

namespace ArmKernel.Support

/-- `strchr`. -/
def strchr (c : BitVec 8) : List (BitVec 8) → Option (Option (List (BitVec 8)))
  | [] => none
  | x :: ptr => if x = c then some (some (x :: ptr)) else if x = 0 then some none else strchr c ptr

/-- `strstr`. -/
def strstr (needle : List (BitVec 8)) : List (BitVec 8) → Option (Option (List (BitVec 8)))
  | [] => none
  | x :: ptr =>
    if needle.isPrefixOf (x :: ptr) then some (some (x :: ptr))
    else if x = 0 then some none
    else strstr needle ptr

/-- The string at a pointer, up to its NUL. -/
def stringAt : List (BitVec 8) → Option (List (BitVec 8))
  | [] => none
  | x :: ptr => if x = 0 then some [] else (stringAt ptr).map fun s => x :: s

/-- `strdup`; `alloc` says that `malloc` succeeds. -/
def strdup (alloc : Bool) (ptr : List (BitVec 8)) : Option (Option (List (BitVec 8))) :=
  (stringAt ptr).map fun s => if alloc then some s else none

section Searches

variable {c a : BitVec 8} {needle l rest : List (BitVec 8)}

theorem strchr_skip (h : ∀ x ∈ l, x ≠ c ∧ x ≠ 0) : strchr c (l ++ rest) = strchr c rest := by
  induction l with
  | nil => rfl
  | cons x l ih =>
    obtain ⟨hc, h0⟩ := h x List.mem_cons_self
    rw [List.cons_append, strchr, if_neg hc, if_neg h0,
      ih fun y hy => h y (List.mem_cons_of_mem x hy)]

theorem strchr_found (h : ∀ x ∈ l, x ≠ c ∧ x ≠ 0) :
    strchr c (l ++ c :: rest) = some (some (c :: rest)) := by
  rw [strchr_skip h, strchr, if_pos rfl]

theorem strchr_missing (h : ∀ x ∈ l, x ≠ c ∧ x ≠ 0) (hc : c ≠ 0) :
    strchr c (l ++ 0 :: rest) = some none := by
  rw [strchr_skip h, strchr, if_neg hc.symm, if_pos rfl]

theorem strstr_skip (h : ∀ x ∈ l, x ≠ a ∧ x ≠ 0) :
    strstr (a :: needle) (l ++ rest) = strstr (a :: needle) rest := by
  induction l with
  | nil => rfl
  | cons x l ih =>
    obtain ⟨ha, h0⟩ := h x List.mem_cons_self
    have hno : ¬(a :: needle).isPrefixOf (x :: (l ++ rest)) = true := by
      rw [List.isPrefixOf_iff_prefix, List.cons_prefix_cons]
      exact fun hprefix => ha hprefix.1.symm
    rw [List.cons_append, strstr, if_neg hno, if_neg h0,
      ih fun y hy => h y (List.mem_cons_of_mem x hy)]

theorem strstr_found (h : ∀ x ∈ l, x ≠ a ∧ x ≠ 0) :
    strstr (a :: needle) (l ++ a :: (needle ++ rest)) = some (some (a :: (needle ++ rest))) := by
  have hyes : (a :: needle).isPrefixOf (a :: (needle ++ rest)) = true := by
    rw [List.isPrefixOf_iff_prefix, List.cons_prefix_cons]
    exact ⟨rfl, List.prefix_append needle rest⟩
  rw [strstr_skip h, strstr, if_pos hyes]

/-- The text ends, or it ends behind the first byte of the needle. -/
theorem strstr_missing (h : ∀ x ∈ l, x ≠ a ∧ x ≠ 0) (ha : a ≠ 0) :
    strstr (a :: needle) (l ++ 0 :: rest) = some none := by
  have hno : ¬(a :: needle).isPrefixOf (0 :: rest) = true := by
    rw [List.isPrefixOf_iff_prefix, List.cons_prefix_cons]
    exact fun hprefix => ha hprefix.1
  rw [strstr_skip h, strstr, if_neg hno, if_pos rfl]

theorem strstr_half {b : BitVec 8} (h : ∀ x ∈ l, x ≠ a ∧ x ≠ 0) (ha : a ≠ 0) (hb : b ≠ 0) :
    strstr (a :: b :: needle) (l ++ a :: 0 :: rest) = some none := by
  have hno : ¬(a :: b :: needle).isPrefixOf (a :: 0 :: rest) = true := by
    rw [List.isPrefixOf_iff_prefix, List.cons_prefix_cons, List.cons_prefix_cons]
    exact fun hprefix => hb hprefix.2.1
  have hmissing : strstr (a :: b :: needle) ([] ++ 0 :: rest) = some none :=
    strstr_missing (fun x hx => absurd hx List.not_mem_nil) ha
  rw [strstr_skip h, strstr, if_neg hno, if_neg ha]
  exact hmissing

theorem stringAt_append (h : ∀ x ∈ l, x ≠ 0) : stringAt (l ++ 0 :: rest) = some l := by
  induction l with
  | nil => rfl
  | cons x l ih =>
    rw [List.cons_append, stringAt, if_neg (h x List.mem_cons_self),
      ih fun y hy => h y (List.mem_cons_of_mem x hy), Option.map_some]

theorem strdup_append (h : ∀ x ∈ l, x ≠ 0) (alloc : Bool) :
    strdup alloc (l ++ 0 :: rest) = some (if alloc then some l else none) := by
  rw [strdup, stringAt_append h, Option.map_some]

end Searches

end ArmKernel.Support

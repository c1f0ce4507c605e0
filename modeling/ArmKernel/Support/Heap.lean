/-
Blocks from an allocator, and who owns them.

A `Heap` says which blocks are allocated and what is in them. `malloc` asks an `Allocator`,
which may fail at any call and otherwise gives a block that is not in use; `load`, `store`
and `free` are `none` on a block that is not allocated, so that a program which is
`some` frees no block twice and touches none after it is freed.

`h.Holds own rest` splits the heap into the blocks `own`, with what is in them, and the
`rest`. The rules say what each operation does to `own`; no rule changes `rest`, so at
`own = []` the heap is the `rest` again (`Holds.block_eq`).

`freeAll` frees a list of blocks. On allocated blocks it succeeds exactly when they are
distinct (`freeAll_eq`), which is how the exact condition of a destructor is found.
-/
import Mathlib.Data.List.Perm.Basic
import Mathlib.Logic.Function.Basic

namespace ArmKernel.Support

/-- The allocated blocks, and how many times the allocator has been asked. Block 0 is `NULL`. -/
structure Heap (α : Type*) where
  block : Nat → Option α
  asked : Nat

/-- An allocator gives a new block, or none. -/
structure Allocator (α : Type*) where
  pick : (asked : Nat) → (block : Nat → Option α) → Option Nat
  fresh : ∀ asked block p, pick asked block = some p → p ≠ 0 ∧ block p = none

namespace Heap

variable {α : Type*}

/-- `malloc`, and the first contents of the block. -/
def malloc (A : Allocator α) (h : Heap α) (a : α) : Option Nat × Heap α :=
  match A.pick h.asked h.block with
  | some p => (some p, { block := Function.update h.block p (some a), asked := h.asked + 1 })
  | none => (none, { h with asked := h.asked + 1 })

/-- What is in a block. -/
def load (h : Heap α) (p : Nat) : Option α := h.block p

/-- Write a block. -/
def store (h : Heap α) (p : Nat) (a : α) : Option (Heap α) :=
  if (h.block p).isSome then some { h with block := Function.update h.block p (some a) } else none

/-- `free`; `free(NULL)` does nothing. -/
def free (h : Heap α) (p : Nat) : Option (Heap α) :=
  if p = 0 then some h
  else if (h.block p).isSome then some { h with block := Function.update h.block p none }
  else none

/-- The heap is the blocks `own` and the blocks `rest`. -/
structure Holds (h : Heap α) (own : List (Nat × α)) (rest : Nat → Option α) : Prop where
  nodup : (own.map Prod.fst).Nodup
  apart : ∀ c ∈ own, c.1 ≠ 0 ∧ rest c.1 = none
  owned : ∀ c ∈ own, h.block c.1 = some c.2
  frame : ∀ p, p ∉ own.map Prod.fst → h.block p = rest p

section Rules

variable {A : Allocator α} {h h' : Heap α} {own own' : List (Nat × α)} {rest : Nat → Option α}
  {p : Nat} {a b : α}

theorem holds_nil (h : Heap α) : h.Holds [] h.block where
  nodup := List.nodup_nil
  apart := fun _ hc => absurd hc List.not_mem_nil
  owned := fun _ hc => absurd hc List.not_mem_nil
  frame := fun _ _ => rfl

/-- Nothing owned is left: the heap is the rest. -/
theorem Holds.block_eq (hh : h.Holds [] rest) : h.block = rest :=
  funext fun p => hh.frame p List.not_mem_nil

theorem Holds.perm (hh : h.Holds own rest) (hperm : own.Perm own') : h.Holds own' rest where
  nodup := (hperm.map Prod.fst).nodup_iff.mp hh.nodup
  apart := fun c hc => hh.apart c (hperm.mem_iff.mpr hc)
  owned := fun c hc => hh.owned c (hperm.mem_iff.mpr hc)
  frame := fun p hp => hh.frame p fun hmem => hp ((hperm.map Prod.fst).mem_iff.mp hmem)

theorem Holds.congr (hh : h.Holds own rest) (hblock : h'.block = h.block) : h'.Holds own rest :=
  ⟨hh.nodup, hh.apart, fun c hc => hblock ▸ hh.owned c hc, fun p hp => hblock ▸ hh.frame p hp⟩

theorem Holds.load (hh : h.Holds own rest) (hmem : (p, a) ∈ own) : h.load p = some a :=
  hh.owned (p, a) hmem

/-- The blocks of the rest can be read. -/
theorem Holds.load_rest (hh : h.Holds own rest) (hp : rest p = some a) : h.load p = some a := by
  refine (hh.frame p ?_).trans hp
  intro hmem
  obtain ⟨c, hc, rfl⟩ := List.mem_map.mp hmem
  exact nomatch (hh.apart c hc).2.symm.trans hp

theorem Holds.ne_zero (hh : h.Holds own rest) (hmem : (p, a) ∈ own) : p ≠ 0 :=
  (hh.apart (p, a) hmem).1

/-- The block at the head is not one of the others. -/
theorem Holds.head_ne (hh : h.Holds ((p, a) :: own) rest) {c : Nat × α} (hc : c ∈ own) :
    c.1 ≠ p := by
  intro heq
  exact (List.nodup_cons.mp hh.nodup).1 (List.mem_map.mpr ⟨c, hc, heq⟩)

/-- A block that is not allocated joins the owned ones. -/
theorem Holds.insert (hh : h.Holds own rest) (hne : p ≠ 0) (hfree : h.block p = none)
    (hblock : h'.block = Function.update h.block p (some a)) : h'.Holds ((p, a) :: own) rest := by
  have hnot : p ∉ own.map Prod.fst := by
    intro hmem
    obtain ⟨c, hc, rfl⟩ := List.mem_map.mp hmem
    exact nomatch hfree.symm.trans (hh.owned c hc)
  refine ⟨List.nodup_cons.mpr ⟨hnot, hh.nodup⟩, ?_, ?_, ?_⟩
  · intro c hc
    rcases List.mem_cons.mp hc with rfl | hc
    · exact ⟨hne, (hh.frame p hnot).symm.trans hfree⟩
    · exact hh.apart c hc
  · intro c hc
    rw [hblock]
    rcases List.mem_cons.mp hc with rfl | hc
    · exact Function.update_self ..
    · have hcp : c.1 ≠ p := fun heq => hnot (heq ▸ List.mem_map_of_mem hc)
      rw [Function.update_of_ne hcp]
      exact hh.owned c hc
  · intro q hq
    have hq' := not_or.mp (mt List.mem_cons.mpr hq)
    rw [hblock, Function.update_of_ne hq'.1]
    exact hh.frame q hq'.2

/-- **`malloc`** gives a block to own, or fails. -/
theorem Holds.malloc_some (hh : h.Holds own rest) (hm : h.malloc A a = (some p, h')) :
    h'.Holds ((p, a) :: own) rest := by
  unfold Heap.malloc at hm
  split at hm
  next q hpick =>
    cases hm
    obtain ⟨hne, hfree⟩ := A.fresh _ _ _ hpick
    exact hh.insert hne hfree rfl
  next => cases hm

theorem Holds.malloc_none (hh : h.Holds own rest) (hm : h.malloc A a = (none, h')) :
    h'.Holds own rest := by
  unfold Heap.malloc at hm
  split at hm
  next => cases hm
  next =>
    cases hm
    exact hh.congr rfl

/-- **`store`** changes what is in an owned block. -/
theorem Holds.store (hh : h.Holds ((p, a) :: own) rest) (b : α) :
    ∃ h', h.store p b = some h' ∧ h'.Holds ((p, b) :: own) rest := by
  have hp := hh.owned (p, a) List.mem_cons_self
  refine ⟨_, if_pos (by rw [hp]; rfl), ?_, ?_, ?_, ?_⟩
  · exact hh.nodup
  · intro c hc
    rcases List.mem_cons.mp hc with rfl | hc
    · exact hh.apart (p, a) List.mem_cons_self
    · exact hh.apart c (List.mem_cons_of_mem _ hc)
  · intro c hc
    rcases List.mem_cons.mp hc with rfl | hc
    · exact Function.update_self ..
    · exact (Function.update_of_ne (hh.head_ne hc) ..).trans
        (hh.owned c (List.mem_cons_of_mem _ hc))
  · intro q hq
    have hne : q ≠ p := (not_or.mp (mt List.mem_cons.mpr hq)).1
    exact (Function.update_of_ne hne ..).trans (hh.frame q hq)

/-- **`free`** of an owned block leaves the others. -/
theorem Holds.free (hh : h.Holds ((p, a) :: own) rest) :
    ∃ h', h.free p = some h' ∧ h'.Holds own rest := by
  have hp := hh.owned (p, a) List.mem_cons_self
  obtain ⟨hne, hrest⟩ := hh.apart (p, a) List.mem_cons_self
  have hcons := List.nodup_cons.mp hh.nodup
  refine ⟨_, (if_neg hne).trans (if_pos (by rw [hp]; rfl)), hcons.2, ?_, ?_, ?_⟩
  · exact fun c hc => hh.apart c (List.mem_cons_of_mem _ hc)
  · intro c hc
    exact (Function.update_of_ne (hh.head_ne hc) ..).trans
      (hh.owned c (List.mem_cons_of_mem _ hc))
  · intro q hq
    by_cases heq : q = p
    · subst heq
      exact (Function.update_self ..).trans hrest.symm
    · exact (Function.update_of_ne heq ..).trans
        (hh.frame q fun hmem => (List.mem_cons.mp hmem).elim heq hq)

theorem free_null (h : Heap α) : h.free 0 = some h := if_pos rfl

end Rules

/-! ### Freeing a list of blocks -/

/-- `free` for each block of the list in turn. -/
def freeAll : Heap α → List Nat → Option (Heap α)
  | h, [] => some h
  | h, p :: l => (h.free p).bind fun h => freeAll h l

/-- What is allocated in `h` is so in `h₀`, with the same contents. -/
def Within (h h₀ : Heap α) : Prop := ∀ p a, h.block p = some a → h₀.block p = some a

section Lists

variable {h h' h₀ : Heap α} {p : Nat} {l l' : List Nat}

theorem freeAll_append : h.freeAll (l ++ l') = (h.freeAll l).bind fun h => h.freeAll l' := by
  induction l generalizing h with
  | nil => rfl
  | cons p l ih =>
    rw [List.cons_append, freeAll, freeAll, Option.bind_assoc]
    exact congrArg _ (funext fun h => ih)

theorem freeAll_singleton : h.freeAll [p] = h.free p := by
  rw [freeAll]
  exact Option.bind_fun_some _

theorem free_eq_some (h : h₀.free p = some h') (hne : p ≠ 0) :
    (h₀.block p).isSome ∧ h' = { h₀ with block := Function.update h₀.block p none } := by
  rw [Heap.free, if_neg hne] at h
  split at h
  next hsome => exact ⟨hsome, (Option.some.inj h).symm⟩
  next => cases h

theorem Within.refl (h : Heap α) : h.Within h := fun _ _ hp => hp

theorem Within.trans (hw : h'.Within h) (hw' : h.Within h₀) : h'.Within h₀ :=
  fun p a hp => hw' p a (hw p a hp)

theorem within_free (hfree : h.free p = some h') : h'.Within h := by
  intro q a hq
  by_cases hne : p = 0
  · rw [Heap.free, if_pos hne] at hfree
    exact Option.some.inj hfree ▸ hq
  · obtain ⟨-, rfl⟩ := free_eq_some hfree hne
    by_cases heq : q = p
    · subst heq
      exact nomatch (Function.update_self q none h.block).symm.trans hq
    · exact (Function.update_of_ne heq ..).symm.trans hq

theorem within_freeAll (hfree : h.freeAll l = some h') : h'.Within h := by
  induction l generalizing h with
  | nil => exact Option.some.inj hfree ▸ Within.refl h
  | cons p l ih =>
    obtain ⟨h₁, hhead, htail⟩ := Option.bind_eq_some_iff.mp hfree
    exact (ih htail).trans (within_free hhead)

/-- A list with a block that is not allocated cannot be freed. -/
theorem freeAll_eq_none (hmem : p ∈ l) (hne : p ≠ 0) (hp : h.block p = none) :
    h.freeAll l = none := by
  induction l generalizing h with
  | nil => cases hmem
  | cons q l ih =>
    refine Option.bind_eq_none_iff.mpr ?_
    intro h' hfree
    rcases List.mem_cons.mp hmem with rfl | hmem
    · obtain ⟨hsome, -⟩ := free_eq_some hfree hne
      rw [hp] at hsome
      cases hsome
    · refine ih hmem ?_
      cases hp' : h'.block p with
      | none => rfl
      | some a => exact nomatch hp.symm.trans (within_free hfree p a hp')

/-- **Freeing allocated blocks** succeeds when they are distinct, and then leaves the others. -/
theorem freeAll_eq (halloc : ∀ p ∈ l, p ≠ 0 ∧ (h.block p).isSome) :
    h.freeAll l =
      if l.Nodup then some { h with block := fun p => if p ∈ l then none else h.block p }
      else none := by
  induction l generalizing h with
  | nil => simp [freeAll]
  | cons p l ih =>
    obtain ⟨hne, hsome⟩ := halloc p List.mem_cons_self
    have hfree : h.free p = some { h with block := Function.update h.block p none } :=
      (if_neg hne).trans (if_pos hsome)
    rw [freeAll, hfree, Option.bind_some]
    by_cases hmem : p ∈ l
    · rw [freeAll_eq_none hmem hne (Function.update_self ..), if_neg]
      exact fun hnodup => (List.nodup_cons.mp hnodup).1 hmem
    · rw [ih]
      · simp only [List.nodup_cons, hmem, not_false_eq_true, true_and]
        refine if_congr Iff.rfl (congrArg some ?_) rfl
        refine congrArg (fun block => ({ block, asked := h.asked } : Heap α)) (funext fun q => ?_)
        by_cases heq : q = p
        · simp [heq]
        · simp [heq]
      · intro q hq
        obtain ⟨hq0, hqs⟩ := halloc q (List.mem_cons_of_mem p hq)
        have heq : q ≠ p := fun heq => hmem (heq ▸ hq)
        exact ⟨hq0, (congrArg Option.isSome (Function.update_of_ne heq ..)).trans hqs⟩

end Lists

end Heap

/-- An allocator that gives the blocks 1, 2, … in turn and fails at the calls in `fails`. -/
def countingAllocator {α : Type*} (fails : List Nat) : Allocator α where
  pick asked block :=
    if asked ∈ fails ∨ (block (asked + 1)).isSome then none else some (asked + 1)
  fresh := by
    intro asked block p h
    split at h
    next => cases h
    next hok =>
      cases h
      exact ⟨Nat.succ_ne_zero asked,
        Option.not_isSome_iff_eq_none.mp (not_or.mp hok).2⟩

end ArmKernel.Support

/-
Red-black trees, as values.

`RbTree P` is a binary tree with a colour and an address of type `P` in each node. What
a function does on the left it does on the right as well, so trees are built and taken
apart by `bin s`, where `s` is the side its first argument stands on.

A context is a tree with a hole, innermost frame first; `plug ctx t` fills it. Walking up
from a node is walking down the list of frames.

`Balanced t c h` says that no red node of `t` has a red child, that every path from the
root to a leaf meets `h` black nodes, and that the root has colour `c` (a leaf is black).
`CtxBalanced ctx c h` says that `ctx` filled with such a tree is a red-black tree
(`CtxBalanced.plug`).
-/
import Mathlib.Algebra.Group.Nat.Defs
import Mathlib.Data.List.Perm.Basic
import Mathlib.Data.List.Nodup

namespace ArmKernel.Support

/-- The colour of a node. -/
inductive Color where
  | red | black
deriving DecidableEq, Repr

/-- A side of a node. -/
inductive Side where
  | left | right
deriving DecidableEq, Repr

/-- The side across. -/
def Side.other : Side → Side
  | left => right
  | right => left

@[simp] theorem Side.other_other (s : Side) : s.other.other = s := by cases s <;> rfl

@[simp] theorem Side.other_ne (s : Side) : s.other ≠ s := by cases s <;> simp [Side.other]

@[simp] theorem Side.ne_other (s : Side) : s ≠ s.other := (Side.other_ne s).symm

theorem Side.eq_other_of_ne {s s' : Side} (h : s ≠ s') : s = s'.other := by
  cases s <;> cases s' <;> simp_all [Side.other]

/-- A binary tree with coloured nodes. -/
inductive RbTree (P : Type*) where
  | leaf
  | node (color : Color) (left : RbTree P) (addr : P) (right : RbTree P)

/-- One step of a path into a tree: the node passed, the side the path goes on, and the
subtree it leaves. -/
structure RbFrame (P : Type*) where
  side : Side
  color : Color
  addr : P
  sibling : RbTree P

variable {P : Type*}

namespace RbTree

/-- The node `x` with `a` on side `s` and `b` across. -/
def bin (s : Side) (c : Color) (a : RbTree P) (x : P) (b : RbTree P) : RbTree P :=
  match s with
  | .left => node c a x b
  | .right => node c b x a

theorem bin_other (s : Side) (c : Color) (a b : RbTree P) (x : P) :
    bin s.other c b x a = bin s c a x b := by cases s <;> rfl

/-- The address of the root. -/
def top : RbTree P → Option P
  | leaf => none
  | node _ _ x _ => some x

@[simp] theorem top_leaf : (leaf : RbTree P).top = none := rfl

@[simp] theorem top_bin (s : Side) (c : Color) (a b : RbTree P) (x : P) :
    (bin s c a x b).top = some x := by cases s <;> rfl

/-- The addresses in order. -/
def toList : RbTree P → List P
  | leaf => []
  | node _ l x r => l.toList ++ x :: r.toList

/-- The number of nodes on the longest path. -/
def height : RbTree P → Nat
  | leaf => 0
  | node _ l _ r => max l.height r.height + 1

@[simp] theorem toList_leaf : (leaf : RbTree P).toList = [] := rfl

theorem toList_bin_left (c : Color) (a b : RbTree P) (x : P) :
    (bin .left c a x b).toList = a.toList ++ x :: b.toList := rfl

theorem toList_bin_right (c : Color) (a b : RbTree P) (x : P) :
    (bin .right c a x b).toList = b.toList ++ x :: a.toList := rfl

theorem toList_bin_perm (s : Side) (c : Color) (a b : RbTree P) (x : P) :
    (bin s c a x b).toList.Perm (x :: (a.toList ++ b.toList)) := by
  cases s with
  | left => exact List.perm_middle
  | right => exact List.perm_middle.trans (List.perm_append_comm.cons x)

theorem mem_bin {s : Side} {c : Color} {a b : RbTree P} {x y : P} :
    y ∈ (bin s c a x b).toList ↔ y = x ∨ y ∈ a.toList ∨ y ∈ b.toList := by
  rw [(toList_bin_perm s c a b x).mem_iff, List.mem_cons, List.mem_append]

theorem mem_of_top {t : RbTree P} {x : P} (h : t.top = some x) : x ∈ t.toList := by
  cases t with
  | leaf => cases h
  | node c l y r =>
    cases h
    exact List.mem_append_right _ List.mem_cons_self

theorem top_ne {t : RbTree P} {x : P} (h : x ∉ t.toList) : t.top ≠ some x :=
  fun htop => h (mem_of_top htop)

/-- A rotation keeps the order. -/
theorem toList_rotate (s : Side) (c c' : Color) (a b d : RbTree P) (x y : P) :
    (bin s c' (bin s c a x b) y d).toList = (bin s c a x (bin s c' b y d)).toList := by
  cases s <;> simp [bin, toList]

/-- A colour does not count for the order. -/
theorem toList_recolor (s : Side) (c c' : Color) (a b : RbTree P) (x : P) :
    (bin s c a x b).toList = (bin s c' a x b).toList := by cases s <;> rfl

/-- Subtrees may be replaced by others of the same order. -/
theorem toList_bin_congr (s : Side) (c : Color) {a a' b b' : RbTree P} (x : P)
    (ha : a.toList = a'.toList) (hb : b.toList = b'.toList) :
    (bin s c a x b).toList = (bin s c a' x b').toList := by
  cases s <;> simp [bin, toList, ha, hb]

end RbTree

open RbTree

/-! ### Contexts -/

/-- Fill the hole of a context. -/
def plug : List (RbFrame P) → RbTree P → RbTree P
  | [], t => t
  | f :: ctx, t => plug ctx (bin f.side f.color t f.addr f.sibling)

/-- The node above the hole. -/
def above (ctx : List (RbFrame P)) : Option P := ctx.head?.map RbFrame.addr

/-- The addresses of a context. -/
def ctxAddrs : List (RbFrame P) → List P
  | [] => []
  | f :: ctx => f.addr :: (f.sibling.toList ++ ctxAddrs ctx)

@[simp] theorem above_nil : above ([] : List (RbFrame P)) = none := rfl

@[simp] theorem above_cons (f : RbFrame P) (ctx : List (RbFrame P)) :
    above (f :: ctx) = some f.addr := rfl

theorem toList_plug_perm (ctx : List (RbFrame P)) (t : RbTree P) :
    (plug ctx t).toList.Perm (t.toList ++ ctxAddrs ctx) := by
  induction ctx generalizing t with
  | nil => simp [plug, ctxAddrs]
  | cons f ctx ih =>
    refine (ih _).trans (((toList_bin_perm f.side f.color t f.sibling f.addr).append_right _).trans ?_)
    simp only [ctxAddrs, List.cons_append, List.append_assoc]
    exact List.perm_middle.symm

theorem toList_plug_congr {t t' : RbTree P} (ctx : List (RbFrame P))
    (h : t.toList = t'.toList) : (plug ctx t).toList = (plug ctx t').toList := by
  induction ctx generalizing t t' with
  | nil => exact h
  | cons f ctx ih => exact ih (toList_bin_congr _ _ _ h rfl)

theorem length_ctx_le (ctx : List (RbFrame P)) (t : RbTree P) :
    ctx.length ≤ (plug ctx t).toList.length := by
  rw [(toList_plug_perm ctx t).length_eq, List.length_append]
  have hctx : ctx.length ≤ (ctxAddrs ctx).length := by
    induction ctx with
    | nil => exact Nat.le_refl 0
    | cons f ctx ih =>
      simp only [ctxAddrs, List.length_cons, List.length_append]
      omega
  omega

/-! ### Balance -/

/-- The red-black rules for a tree whose root has colour `c` and whose paths meet `h`
black nodes. -/
inductive Balanced : RbTree P → Color → Nat → Prop where
  | leaf : Balanced leaf .black 0
  | red {l r : RbTree P} {x : P} {h : Nat} :
    Balanced l .black h → Balanced r .black h → Balanced (node .red l x r) .red h
  | black {l r : RbTree P} {x : P} {c c' : Color} {h : Nat} :
    Balanced l c h → Balanced r c' h → Balanced (node .black l x r) .black (h + 1)

/-- The red-black rules for a context whose hole takes a tree of colour `c` with `h`
black nodes on its paths. -/
inductive CtxBalanced : List (RbFrame P) → Color → Nat → Prop where
  | root {h : Nat} : CtxBalanced [] .black h
  | red {s : Side} {x : P} {t : RbTree P} {ctx : List (RbFrame P)} {h : Nat} :
    Balanced t .black h → CtxBalanced ctx .red h → CtxBalanced (⟨s, .red, x, t⟩ :: ctx) .black h
  | black {s : Side} {x : P} {t : RbTree P} {ctx : List (RbFrame P)} {c c' : Color} {h : Nat} :
    Balanced t c' h → CtxBalanced ctx .black (h + 1) →
      CtxBalanced (⟨s, .black, x, t⟩ :: ctx) c h

section Balance

variable {a b t : RbTree P} {x : P} {s : Side} {c c' : Color} {h : Nat}
  {ctx : List (RbFrame P)}

theorem Balanced.redBin (ha : Balanced a .black h) (hb : Balanced b .black h) :
    Balanced (bin s .red a x b) .red h := by
  cases s with
  | left => exact .red ha hb
  | right => exact .red hb ha

theorem Balanced.blackBin (ha : Balanced a c h) (hb : Balanced b c' h) :
    Balanced (bin s .black a x b) .black (h + 1) := by
  cases s with
  | left => exact .black ha hb
  | right => exact .black hb ha

/-- A filled context is a red-black tree with a black root. -/
theorem CtxBalanced.plug (hctx : CtxBalanced ctx c h) (ht : Balanced t c h) :
    ∃ k, Balanced (plug ctx t) .black k := by
  induction hctx generalizing t with
  | root => exact ⟨_, ht⟩
  | red hsibling _ ih => exact ih (ht.redBin hsibling)
  | black hsibling _ ih => exact ih (ht.blackBin hsibling)

/-- A red-black tree, seen from a place in it. -/
theorem Balanced.hole {k : Nat} (hbalanced : Balanced (plug ctx t) .black k) :
    ∃ c h, CtxBalanced ctx c h ∧ Balanced t c h := by
  induction ctx generalizing t with
  | nil => exact ⟨.black, k, .root, hbalanced⟩
  | cons f ctx ih =>
    obtain ⟨s, fc, x, sibling⟩ := f
    obtain ⟨c, h, hctx, hbin⟩ := ih hbalanced
    cases s with
    | left =>
      cases hbin with
      | red ht hsibling => exact ⟨.black, h, .red hsibling hctx, ht⟩
      | black ht hsibling => exact ⟨_, _, .black hsibling hctx, ht⟩
    | right =>
      cases hbin with
      | red hsibling ht => exact ⟨.black, h, .red hsibling hctx, ht⟩
      | black hsibling ht => exact ⟨_, _, .black hsibling hctx, ht⟩

/-- The black nodes on a path are at least half of it. -/
theorem Balanced.height_le (ht : Balanced t c h) :
    t.height ≤ 2 * h ∨ c = .red ∧ t.height ≤ 2 * h + 1 := by
  induction ht with
  | leaf => exact .inl (Nat.le_refl _)
  | red hl hr ihl ihr =>
    have hl' := ihl.resolve_right (by simp)
    have hr' := ihr.resolve_right (by simp)
    exact .inr ⟨rfl, Nat.succ_le_succ (Nat.max_le.mpr ⟨hl', hr'⟩)⟩
  | @black l r x cl cr h hl hr ihl ihr =>
    have hl' : l.height ≤ 2 * h + 1 := ihl.elim Nat.le_succ_of_le And.right
    have hr' : r.height ≤ 2 * h + 1 := ihr.elim Nat.le_succ_of_le And.right
    exact .inl (Nat.succ_le_succ (Nat.max_le.mpr ⟨hl', hr'⟩))

/-- A tree holds at least the black nodes of a full tree. -/
theorem Balanced.pow_le (ht : Balanced t c h) : 2 ^ h ≤ t.toList.length + 1 := by
  induction ht with
  | leaf => exact Nat.le_refl _
  | red hl hr ihl ihr =>
    rw [toList, List.length_append, List.length_cons]
    exact Nat.le_trans ihl (Nat.succ_le_succ (Nat.le_add_right _ _))
  | black hl hr ihl ihr =>
    rw [toList, List.length_append, List.length_cons, Nat.pow_succ]
    omega

/-- **The height** of a red-black tree is logarithmic in the number of its nodes. -/
theorem Balanced.height_le_log (ht : Balanced t .black h) :
    t.height ≤ 2 * Nat.log2 (t.toList.length + 1) := by
  have hlog : h ≤ Nat.log2 (t.toList.length + 1) :=
    (Nat.le_log2 (Nat.succ_ne_zero _)).mpr ht.pow_le
  have hheight := ht.height_le.resolve_right (by simp)
  exact Nat.le_trans hheight (Nat.mul_le_mul_left 2 hlog)

end Balance

end ArmKernel.Support

/-
The red-black trees of `src/rbtree.c`.

`rb_insert_color` and `rb_erase_color` are the two repairs, with rotations that test the
link on their own side. Both are given a bound on their rounds; the number of nodes is
enough.

A node of the file keeps its colour in the lowest bit of the word with its parent link.
`colorWords` are these words, for nodes at addresses that are multiples of four. What the
repairs read of the parents and the colours is what the macros read in the words, and each of
their writes is the macro's write to one word.
-/
import ArmKernel.Events.EpollRuns
import ArmKernel.Support.RbErase

namespace ArmKernel.Events

open ArmKernel.Support RbTree

/-! ### The colour word -/

/-- `rb_parent`. -/
def rbParent (w : BitVec 32) : BitVec 32 := w &&& ~~~3#32

/-- `rb_color`. -/
def rbColor (w : BitVec 32) : BitVec 32 := w &&& 1#32

/-- `rb_set_red`. -/
def rbSetRed (w : BitVec 32) : BitVec 32 := w &&& ~~~1#32

/-- `rb_set_black`. -/
def rbSetBlack (w : BitVec 32) : BitVec 32 := w ||| 1#32

/-- `rb_set_parent`. -/
def rbSetParent (w p : BitVec 32) : BitVec 32 := (w &&& 3#32) ||| p

/-- `rb_set_color`. -/
def rbSetColor (w color : BitVec 32) : BitVec 32 := (w &&& ~~~1#32) ||| color

/-- `RB_RED` and `RB_BLACK`. -/
def colorBit : Color → BitVec 32
  | .red => 0#32
  | .black => 1#32

section Word

variable {P : Type*} (addr : P → BitVec 32)

/-- A link as a word. -/
def linkWord : Option P → BitVec 32
  | none => 0#32
  | some x => addr x

/-- `rb_parent_color` of a node. -/
def parentColor (nd : RbNode P) : BitVec 32 := linkWord addr nd.parent ||| colorBit nd.color

variable {addr} (aligned : ∀ x, addr x &&& 3#32 = 0#32) (nd : RbNode P)
include aligned

/-- The low bits of a link are zero. -/
theorem linkWord_low (p : Option P) : linkWord addr p &&& 3#32 = 0#32 := by
  cases p with
  | none => exact BitVec.zero_and
  | some x => exact aligned x

/-- Clearing low bits does nothing to a link. -/
theorem linkWord_mask (p : Option P) {mask : BitVec 32} (hmask : mask &&& 3#32 = mask) :
    linkWord addr p &&& ~~~mask = linkWord addr p ∧ linkWord addr p &&& mask = 0#32 := by
  have hzero : linkWord addr p &&& mask = 0#32 := by
    rw [← hmask, BitVec.and_comm mask, ← BitVec.and_assoc, linkWord_low aligned, BitVec.zero_and]
  refine ⟨?_, hzero⟩
  calc linkWord addr p &&& ~~~mask
      = (linkWord addr p &&& mask) ||| (linkWord addr p &&& ~~~mask) := by
        rw [hzero, BitVec.zero_or]
    _ = linkWord addr p &&& (mask ||| ~~~mask) := BitVec.and_or_distrib_left.symm
    _ = linkWord addr p := by rw [BitVec.or_not_self, BitVec.and_allOnes]

/-- The word tells the parent. -/
theorem rbParent_parentColor : rbParent (parentColor addr nd) = linkWord addr nd.parent := by
  rw [rbParent, parentColor, BitVec.and_or_distrib_right, (linkWord_mask aligned _ (by decide)).1]
  cases nd.color <;> simp [colorBit]

/-- The word tells the colour. -/
theorem rbColor_parentColor : rbColor (parentColor addr nd) = colorBit nd.color := by
  rw [rbColor, parentColor, BitVec.and_or_distrib_right, (linkWord_mask aligned _ (by decide)).2]
  cases nd.color <;> simp [colorBit]

/-- Writing the parent keeps the colour. -/
theorem rbSetParent_parentColor (p : Option P) :
    rbSetParent (parentColor addr nd) (linkWord addr p) = parentColor addr (nd.setParent p) := by
  have hcolor : colorBit nd.color &&& 3#32 = colorBit nd.color := by cases nd.color <;> rfl
  rw [rbSetParent, parentColor, BitVec.and_or_distrib_right, linkWord_low aligned, hcolor,
    BitVec.zero_or, BitVec.or_comm]
  rfl

/-- Writing the colour keeps the parent. -/
theorem rbSetColor_parentColor (c : Color) :
    rbSetColor (parentColor addr nd) (colorBit c) = parentColor addr (nd.setColor c) := by
  have hcolor : colorBit nd.color &&& ~~~1#32 = 0#32 := by cases nd.color <;> rfl
  rw [rbSetColor, parentColor, BitVec.and_or_distrib_right,
    (linkWord_mask aligned _ (by decide)).1, hcolor, BitVec.or_zero]
  rfl

theorem rbSetRed_parentColor :
    rbSetRed (parentColor addr nd) = parentColor addr (nd.setColor .red) := by
  rw [← rbSetColor_parentColor aligned, rbSetColor, colorBit, BitVec.or_zero]
  rfl

omit aligned in
theorem rbSetBlack_parentColor :
    rbSetBlack (parentColor addr nd) = parentColor addr (nd.setColor .black) := by
  have hcolor : colorBit nd.color ||| 1#32 = 1#32 := by cases nd.color <;> rfl
  rw [rbSetBlack, parentColor, BitVec.or_assoc, hcolor]
  rfl

/-! The words of a tree, under the reads and the writes of the repairs. -/

omit aligned in
variable (addr) in
/-- `rb_parent_color` of every node. -/
def colorWords (m : RbMem P) (x : P) : BitVec 32 := parentColor addr (m.node x)

variable (m : RbMem P) (x : P)

/-- `rb_is_red`. -/
theorem color_eq_red_iff : (m.node x).color = .red ↔ rbColor (colorWords addr m x) = 0#32 := by
  rw [colorWords, rbColor_parentColor aligned]
  cases (m.node x).color <;> simp [colorBit]

/-- `rb_parent`. -/
theorem rbParent_colorWords :
    rbParent (colorWords addr m x) = linkWord addr (m.node x).parent :=
  rbParent_parentColor aligned (m.node x)

variable [DecidableEq P]

omit aligned in
/-- A write to one node writes its word. -/
theorem colorWords_modify {f : RbNode P → RbNode P} {w : BitVec 32}
    (h : parentColor addr (f (m.node x)) = w) :
    colorWords addr (m.modify x f) = Function.update (colorWords addr m) x w := by
  funext y
  by_cases hyx : y = x
  · subst hyx
    rw [colorWords, RbMem.modify_self, h, Function.update_self]
  · rw [colorWords, RbMem.modify_of_ne m f hyx, Function.update_of_ne hyx, colorWords]

/-- `rb_set_parent`. -/
theorem colorWords_setParent (p : Option P) : colorWords addr (m.setParent x p) =
    Function.update (colorWords addr m) x (rbSetParent (colorWords addr m x) (linkWord addr p)) :=
  colorWords_modify m x (rbSetParent_parentColor aligned (m.node x) p).symm

/-- `rb_set_color`. -/
theorem colorWords_paint (c : Color) : colorWords addr (m.paint x c) =
    Function.update (colorWords addr m) x (rbSetColor (colorWords addr m x) (colorBit c)) :=
  colorWords_modify m x (rbSetColor_parentColor aligned (m.node x) c).symm

/-- `rb_set_red`. -/
theorem colorWords_paint_red : colorWords addr (m.paint x .red) =
    Function.update (colorWords addr m) x (rbSetRed (colorWords addr m x)) :=
  colorWords_modify m x (rbSetRed_parentColor aligned (m.node x)).symm

omit aligned in
/-- `rb_set_black`. -/
theorem colorWords_paint_black : colorWords addr (m.paint x .black) =
    Function.update (colorWords addr m) x (rbSetBlack (colorWords addr m x)) :=
  colorWords_modify m x (rbSetBlack_parentColor (m.node x)).symm

omit aligned in
/-- Writing a child leaves the words. -/
theorem colorWords_setChild (s : Side) (p : Option P) :
    colorWords addr (m.setChild x s p) = colorWords addr m := by
  have hword : parentColor addr ((m.node x).setChild s p) = colorWords addr m x := by
    rw [parentColor, RbNode.parent_setChild, RbNode.color_setChild]
    rfl
  rw [RbMem.setChild, colorWords_modify m x hword, Function.update_eq_self]

omit aligned in
theorem colorWords_replaceChild (first : Side) (parent : Option P) (old new : P) :
    colorWords addr (m.replaceChild first parent old new) = colorWords addr m := by
  cases parent with
  | none => rfl
  | some p =>
    rw [RbMem.replaceChild]
    split
    · exact colorWords_setChild m p first _
    · exact colorWords_setChild m p first.other _

omit aligned in
variable (addr) in
/-- `rb_set_parent` of a node that may be missing. -/
def adoptWord (w : P → BitVec 32) (p : Option P) (x : P) : P → BitVec 32 :=
  match p with
  | some y => Function.update w y (rbSetParent (w y) (addr x))
  | none => w

theorem colorWords_adopt (p : Option P) :
    colorWords addr (m.adopt p x) = adoptWord addr (colorWords addr m) p x := by
  cases p with
  | none => rfl
  | some y => exact colorWords_setParent aligned m y (some x)

/-- **A rotation** writes the words of the child between, of the child that comes up and of the
node, each by `rb_set_parent`. -/
theorem colorWords_rotate {first s : Side} {m' : RbMem P} (h : m.rotate first s x = some m') :
    ∃ r, (m.node x).child s.other = some r ∧
      let w₁ := adoptWord addr (colorWords addr m) ((m.node r).child s) x
      let w₂ := Function.update w₁ r (rbSetParent (w₁ r) (linkWord addr (m.node x).parent))
      colorWords addr m' = Function.update w₂ x (rbSetParent (w₂ x) (addr r)) := by
  rw [RbMem.rotate] at h
  split at h
  · cases h
  · rename_i r hchild
    cases h
    refine ⟨r, hchild, ?_⟩
    dsimp only
    rw [colorWords_setParent aligned, colorWords_replaceChild, colorWords_setParent aligned,
      colorWords_setChild, colorWords_adopt aligned, colorWords_setChild]
    rfl

end Word

/-! ### The repairs -/

section Repairs

variable {P : Type*} [DecidableEq P]

/-- `rb_insert_color`. -/
def rbInsertColor (rounds : Nat) (root : RbMem P) (node : P) : Option (RbMem P) :=
  root.insertColor id rounds node

/-- `rb_erase_color`. -/
def rbEraseColor (rounds : Nat) (root : RbMem P) (node parent : Option P) : Option (RbMem P) :=
  root.eraseColor id rounds node parent

/-- A red leaf at any empty place of a red-black tree is worked in. -/
theorem rbInsertColor_spec {m : RbMem P} {ctx : List (RbFrame P)} {x : P} {h rounds : Nat}
    (hrep : Represents m (plug ctx (bin .left .red leaf x leaf)))
    (hbalanced : Balanced (plug ctx leaf) .black h)
    (hrounds : (plug ctx (leaf : RbTree P)).toList.length ≤ rounds) :
    ∃ m' t', rbInsertColor rounds m x = some m' ∧ Represents m' t' ∧
      t'.toList = (plug ctx (bin .left .red leaf x leaf)).toList ∧ ∃ k, Balanced t' .black k := by
  obtain ⟨c, k, hctx, hleaf⟩ := hbalanced.hole
  cases hleaf
  exact insertColor_spec hrep .leaf .leaf hctx ((length_ctx_le ctx leaf).trans hrounds)

/-- **Removal.** When the subtree at a link is one black node short, `rb_erase_color` ends
without a missing node, keeps the order and restores the red-black rules. -/
theorem rb_erase_color_restores {m : RbMem P} {t : RbTree P} {ctx : List (RbFrame P)} {c : Color}
    {h rounds : Nat} (hrep : Represents m (plug ctx t)) (ht : Balanced t c h)
    (hctx : CtxBalanced ctx .black (h + 1)) (hrounds : (plug ctx t).toList.length ≤ rounds) :
    ∃ m' t', rbEraseColor rounds m t.top (above ctx) = some m' ∧ Represents m' t' ∧
      t'.toList = (plug ctx t).toList ∧ ∃ k, Balanced t' .black k :=
  eraseColor_spec hrep ht hctx ((length_ctx_le ctx t).trans hrounds)

end Repairs

/-- A tree of four nodes, less a black one on the left of the root. Its red sibling has two
black children. -/
def shortTree : RbMem Nat where
  node
    | 1 => { parent := none, left := none, right := some 3, color := .black }
    | 2 => { parent := some 3, left := none, right := none, color := .black }
    | 3 => { parent := some 1, left := some 2, right := some 4, color := .red }
    | _ => { parent := some 3, left := none, right := none, color := .black }
  root := some 1

theorem rb_erase_color_restores_short :
    ∃ m' t', rbEraseColor 4 shortTree none (some 1) = some m' ∧ Represents m' t' ∧
      t'.toList = [1, 2, 3, 4] ∧ ∃ k, Balanced t' .black k :=
  let leafOf (x : Nat) : RbTree Nat := node .black leaf x leaf
  have hrep : Represents shortTree
      (plug [⟨.left, .black, 1, node .red (leafOf 2) 3 (leafOf 4)⟩] leaf) :=
    { root := rfl
      nodes := ⟨rfl, trivial, rfl, ⟨rfl, trivial, trivial⟩, rfl, trivial, trivial⟩
      nodup := by decide }
  rb_erase_color_restores (c := .black) (h := 0) hrep .leaf
    (.black (.red (.black .leaf .leaf) (.black .leaf .leaf)) .root) (Nat.le_refl 4)

/-! ### Trees of `insert_epitem` -/

section Items

variable {n : Nat} {ep : EventPoll n} {t : RbTree (Fin n)}

/-- `insert_epitem` of the items, one after the other. -/
def insertEpitems (ep : EventPoll n) (items : List (Fin n)) : Option (EventPoll n) :=
  items.foldlM insertEpitem ep

/-- One insertion, whether its descriptor is new or not. -/
theorem insertEpitem_ordered {epi : Fin n} {k : Nat} (hrep : Represents ep.rbr t)
    (hbalanced : Balanced t .black k)
    (hsorted : t.toList.Pairwise fun x y => (ep.item x).fd ≤ (ep.item y).fd)
    (hepi : epi ∉ t.toList) :
    ∃ rbr t', insertEpitem ep epi = some { ep with rbr } ∧ Represents rbr t' ∧
      (∃ k, Balanced t' .black k) ∧ t'.toList.Perm (epi :: t.toList) ∧
      t'.toList.Pairwise fun x y => (ep.item x).fd ≤ (ep.item y).fd := by
  have hlen := length_toList_le hrep.nodup
  obtain ⟨slot, rbr, t', before, after, hdescend, hcolor, hrep', hbalanced', hsplit, hlist, hbefore,
    hafter⟩ := insert_sorted id hrep hbalanced hepi hsorted hlen hlen
  refine ⟨rbr, t', ?_, hrep', hbalanced', ?_, ?_⟩
  · rw [insertEpitem, hdescend, Option.bind_some, hcolor]
    rfl
  · rw [hlist, hsplit]
    exact List.perm_middle
  · rw [hsplit] at hsorted
    rw [hlist]
    exact sorted_insert hsorted hbefore fun x hx => (hafter x hx).le

theorem insertEpitems_spec {items : List (Fin n)} {k : Nat} (hrep : Represents ep.rbr t)
    (hbalanced : Balanced t .black k)
    (hsorted : t.toList.Pairwise fun x y => (ep.item x).fd ≤ (ep.item y).fd)
    (hnodup : (items ++ t.toList).Nodup) :
    ∃ rbr t', insertEpitems ep items = some { ep with rbr } ∧ Represents rbr t' ∧
      (∃ k, Balanced t' .black k) ∧ t'.toList.Perm (items ++ t.toList) ∧
      t'.toList.Pairwise fun x y => (ep.item x).fd ≤ (ep.item y).fd := by
  induction items generalizing ep t k with
  | nil => exact ⟨ep.rbr, t, rfl, hrep, ⟨k, hbalanced⟩, List.Perm.refl _, hsorted⟩
  | cons epi items ih =>
    obtain ⟨hepi, hrest⟩ := List.nodup_cons.mp hnodup
    have hnew : epi ∉ t.toList := fun hmem => hepi (List.mem_append_right _ hmem)
    obtain ⟨rbr, t₁, hinsert, hrep₁, ⟨k₁, hbalanced₁⟩, hperm₁, hsorted₁⟩ :=
      insertEpitem_ordered hrep hbalanced hsorted hnew
    have hperm : (items ++ t₁.toList).Perm (epi :: (items ++ t.toList)) :=
      (hperm₁.append_left items).trans List.perm_middle
    have hnodup₁ : (items ++ t₁.toList).Nodup := hperm.nodup_iff.mpr hnodup
    obtain ⟨rbr', t', hrun, hrep', hbalanced', hperm', hsorted'⟩ :=
      @ih { ep with rbr } t₁ k₁ hrep₁ hbalanced₁ hsorted₁ hnodup₁
    refine ⟨rbr', t', ?_, hrep', hbalanced', hperm'.trans hperm, hsorted'⟩
    rw [insertEpitems, List.foldlM_cons, hinsert]
    exact hrun

/-- Keys that do not descend and are all different ascend. -/
theorem searchTree_of_distinct {item : Fin n → EpItem} {items : List (Fin n)}
    (hsorted : t.toList.Pairwise fun x y => (item x).fd ≤ (item y).fd)
    (hperm : t.toList.Perm items) (distinct : (items.map fun x => (item x).fd).Nodup) :
    SearchTree item t := by
  have hnodup : (t.toList.map fun x => (item x).fd).Nodup :=
    (hperm.map _).nodup_iff.mpr distinct
  have hne : t.toList.Pairwise fun x y => (item x).fd ≠ (item y).fd := List.pairwise_map.mp hnodup
  exact hsorted.imp₂ (fun _ _ hle hne => lt_of_le_of_ne hle hne) hne

end Items

/-- **Insertion.** `rb_insert_color` works a red leaf in at any empty place: it ends, keeps
the order and restores the red-black rules. Trees that `insert_epitem` builds are shallow,
and ordered by their descriptors; strictly, when each is inserted once. -/
theorem rb_insertion {P : Type*} [DecidableEq P] :
    (∀ (m : RbMem P) (ctx : List (RbFrame P)) (x : P) (h rounds : Nat),
      Represents m (plug ctx (bin .left .red leaf x leaf)) →
      Balanced (plug ctx leaf) .black h →
      (plug ctx (leaf : RbTree P)).toList.length ≤ rounds →
      ∃ m' t', rbInsertColor rounds m x = some m' ∧ Represents m' t' ∧
        t'.toList = (plug ctx (bin .left .red leaf x leaf)).toList ∧
        ∃ k, Balanced t' .black k) ∧
    ∀ (n : Nat) (ep : EventPoll n) (items : List (Fin n)), ep.rbr.root = none → items.Nodup →
      ∃ rbr t, insertEpitems ep items = some { ep with rbr } ∧ Represents rbr t ∧
        t.toList.Perm items ∧ t.height ≤ 2 * Nat.log2 (items.length + 1) ∧
        (t.toList.Pairwise fun x y => (ep.item x).fd ≤ (ep.item y).fd) ∧
        ((items.map fun x => (ep.item x).fd).Nodup → SearchTree ep.item t) := by
  refine ⟨fun m ctx x h rounds => rbInsertColor_spec, ?_⟩
  intro n ep items hempty hnodup
  have hleaf : Represents ep.rbr (leaf : RbTree (Fin n)) :=
    { root := hempty, nodes := trivial, nodup := List.nodup_nil }
  have hitems : (items ++ (leaf : RbTree (Fin n)).toList).Nodup := by
    rwa [toList_leaf, List.append_nil]
  obtain ⟨rbr, t, hrun, hrep, ⟨k, hbalanced⟩, hperm, hsorted⟩ :=
    insertEpitems_spec hleaf .leaf List.Pairwise.nil hitems
  rw [toList_leaf, List.append_nil] at hperm
  refine ⟨rbr, t, hrun, hrep, hperm, ?_, hsorted, searchTree_of_distinct hsorted hperm⟩
  rw [← hperm.length_eq]
  exact hbalanced.height_le_log

/-- The root, a red node on its left, and a new node on the left of that. -/
def leaningTree : RbMem Nat where
  node
    | 1 => { parent := some 2, left := none, right := none, color := .red }
    | 2 => { parent := some 3, left := some 1, right := none, color := .red }
    | _ => { parent := none, left := some 2, right := none, color := .black }
  root := some 3

/-- Items with descending descriptors. -/
def descendingPoll : EventPoll 5 :=
  { freshPoll with item := fun x => { fd := 9 - x.val, event := { events := 0, data := 0 } } }

theorem rb_insertion_small :
    (∃ m' t', rbInsertColor 2 leaningTree 1 = some m' ∧ Represents m' t' ∧
      t'.toList = [1, 2, 3] ∧ ∃ k, Balanced t' .black k) ∧
    ∃ rbr t, insertEpitems descendingPoll [0, 1, 2, 3] = some { descendingPoll with rbr } ∧
      Represents rbr t ∧ t.height ≤ 4 ∧ SearchTree descendingPoll.item t := by
  obtain ⟨hinsert, hbuild⟩ := rb_insertion (P := Nat)
  constructor
  · exact hinsert leaningTree [⟨.left, .red, 2, leaf⟩, ⟨.left, .black, 3, leaf⟩] 1 1 2
      { root := rfl
        nodes := ⟨rfl, ⟨rfl, ⟨rfl, trivial, trivial⟩, trivial⟩, trivial⟩
        nodup := by decide }
      (.black (.red .leaf .leaf) .leaf) (Nat.le_refl 2)
  · obtain ⟨rbr, t, hrun, hrep, -, hheight, -, hstrict⟩ :=
      hbuild 5 descendingPoll [0, 1, 2, 3] rfl (by decide)
    exact ⟨rbr, t, hrun, hrep, hheight, hstrict (by decide)⟩

end ArmKernel.Events

/-
Red-black trees in memory.

`RbMem P` gives every address a node with its links and its colour, and the tree its
root. The operations are the pointer programs: `rotate`, `linkNode`, `paint`. `none`
stands for a null pointer that is dereferenced.

`Represents m t` says that the nodes met from the root are those of `t`, with the links,
parent links and colours of `t`, and no address twice. Seen from a place in the tree it
falls apart into the subtree there and its context (`represents_plug`); each operation
changes the nodes of one of the two and a link between them.
-/
import ArmKernel.Support.RbTree
import Mathlib.Logic.Function.Basic

namespace ArmKernel.Support

open RbTree

/-- A node: its links and its colour. -/
structure RbNode (P : Type*) where
  parent : Option P
  left : Option P
  right : Option P
  color : Color
deriving DecidableEq

/-- The nodes and the root. -/
structure RbMem (P : Type*) where
  node : P → RbNode P
  root : Option P

variable {P : Type*}

namespace RbNode

/-- The link on one side. -/
def child (nd : RbNode P) : Side → Option P
  | .left => nd.left
  | .right => nd.right

/-- Write the link on one side. -/
def setChild (nd : RbNode P) (s : Side) (p : Option P) : RbNode P :=
  match s with
  | .left => { nd with left := p }
  | .right => { nd with right := p }

/-- Write the parent link. -/
def setParent (nd : RbNode P) (p : Option P) : RbNode P := { nd with parent := p }

/-- Write the colour. -/
def setColor (nd : RbNode P) (c : Color) : RbNode P := { nd with color := c }

section Links

variable (nd : RbNode P) (s : Side) (p : Option P)

@[simp] theorem child_setChild : (nd.setChild s p).child s = p := by cases s <;> rfl

@[simp] theorem child_setChild_other : (nd.setChild s p).child s.other = nd.child s.other := by
  cases s <;> rfl

@[simp] theorem child_other_setChild : (nd.setChild s.other p).child s = nd.child s := by
  cases s <;> rfl

@[simp] theorem parent_setChild : (nd.setChild s p).parent = nd.parent := by cases s <;> rfl

@[simp] theorem color_setChild : (nd.setChild s p).color = nd.color := by cases s <;> rfl

@[simp] theorem parent_setParent : (nd.setParent p).parent = p := rfl

@[simp] theorem child_setParent : (nd.setParent p).child s = nd.child s := by cases s <;> rfl

@[simp] theorem color_setParent : (nd.setParent p).color = nd.color := rfl

@[simp] theorem parent_setColor (c : Color) : (nd.setColor c).parent = nd.parent := rfl

@[simp] theorem child_setColor (c : Color) : (nd.setColor c).child s = nd.child s := by
  cases s <;> rfl

@[simp] theorem color_setColor (c : Color) : (nd.setColor c).color = c := rfl

end Links

end RbNode

/-! ### Operations -/

namespace RbMem

variable [DecidableEq P]

/-- Write one node. -/
def modify (m : RbMem P) (x : P) (f : RbNode P → RbNode P) : RbMem P :=
  { m with node := Function.update m.node x (f (m.node x)) }

/-- The nodes met in order from `p`, as far as the given depth. -/
def inorder (m : RbMem P) : Nat → Option P → List P
  | _, none => []
  | 0, some _ => []
  | depth + 1, some x =>
    inorder m depth (m.node x).left ++ x :: inorder m depth (m.node x).right

/-- `x->child = p`. -/
def setChild (m : RbMem P) (x : P) (s : Side) (p : Option P) : RbMem P :=
  m.modify x fun nd => nd.setChild s p

/-- `x->parent = p`. -/
def setParent (m : RbMem P) (x : P) (p : Option P) : RbMem P :=
  m.modify x fun nd => nd.setParent p

/-- `x->color = c`. -/
def paint (m : RbMem P) (x : P) (c : Color) : RbMem P :=
  m.modify x fun nd => nd.setColor c

/-- `if (p) p->parent = x`. -/
def adopt (m : RbMem P) (p : Option P) (x : P) : RbMem P :=
  match p with
  | some y => m.setParent y (some x)
  | none => m

/-- What a link holds: the root (`none`), or the link of a node on one side. -/
def readSlot (m : RbMem P) : Option (P × Side) → Option P
  | none => m.root
  | some (p, s) => (m.node p).child s

/-- Write a link. -/
def writeSlot (m : RbMem P) (slot : Option (P × Side)) (x : P) : RbMem P :=
  match slot with
  | none => { m with root := some x }
  | some (p, s) => m.setChild p s (some x)

/-- Let the link to `old`, in its parent or in the root, point at `new`. The test is
made on side `first` of the parent. -/
def replaceChild (first : Side) (m : RbMem P) (parent : Option P) (old new : P) : RbMem P :=
  match parent with
  | some p =>
    if (m.node p).child first = some old then m.setChild p first (some new)
    else m.setChild p first.other (some new)
  | none => { m with root := some new }

/-- The rotation at `x` towards side `s`: the child across comes up. -/
def rotate (first s : Side) (m : RbMem P) (x : P) : Option (RbMem P) :=
  match (m.node x).child s.other with
  | none => none
  | some r =>
    let parent := (m.node x).parent
    let inner := (m.node r).child s
    let m := ((m.setChild x s.other inner).adopt inner x).setChild r s (some x)
    let m := replaceChild first (m.setParent r parent) parent x r
    some (m.setParent x (some r))

section Effects

variable (m : RbMem P) (x y : P) (s : Side) (p : Option P) (f : RbNode P → RbNode P)

@[simp] theorem modify_self : (m.modify x f).node x = f (m.node x) := by simp [modify]

theorem modify_of_ne {x y : P} (h : y ≠ x) : (m.modify x f).node y = m.node y := by
  simp [modify, h]

@[simp] theorem modify_root : (m.modify x f).root = m.root := rfl

theorem adopt_of_ne {p : Option P} {x y : P} (h : p ≠ some y) :
    (m.adopt p x).node y = m.node y := by
  cases p with
  | none => rfl
  | some z =>
    have hyz : y ≠ z := by
      rintro rfl
      exact h rfl
    exact m.modify_of_ne (fun nd => nd.setParent (some x)) hyz

@[simp] theorem adopt_root : (m.adopt p x).root = m.root := by cases p <;> rfl

theorem replaceChild_of_ne {first : Side} {parent : Option P} {old new y : P}
    (h : parent ≠ some y) : (replaceChild first m parent old new).node y = m.node y := by
  cases parent with
  | none => rfl
  | some q =>
    have hy : y ≠ q := by
      rintro rfl
      exact h rfl
    unfold replaceChild
    dsimp only
    split
    · exact modify_of_ne _ _ hy
    · exact modify_of_ne _ _ hy

end Effects

end RbMem

open RbMem

/-! ### Representation -/

/-- The nodes of `t` are in memory, below the parent `p`. -/
def Holds (m : RbMem P) : Option P → RbTree P → Prop
  | _, .leaf => True
  | p, .node c l x r =>
    m.node x = { parent := p, left := l.top, right := r.top, color := c } ∧
      Holds m (some x) l ∧ Holds m (some x) r

/-- The nodes of a context are in memory, `hole` being the link into the hole. -/
def CtxHolds (m : RbMem P) : Option P → List (RbFrame P) → Prop
  | hole, [] => m.root = hole
  | hole, f :: ctx =>
    ((m.node f.addr).parent = above ctx ∧ (m.node f.addr).child f.side = hole ∧
      (m.node f.addr).child f.side.other = f.sibling.top ∧ (m.node f.addr).color = f.color) ∧
      Holds m (some f.addr) f.sibling ∧ CtxHolds m (some f.addr) ctx

/-- The tree in memory is `t`. -/
structure Represents (m : RbMem P) (t : RbTree P) : Prop where
  root : m.root = t.top
  nodes : Holds m none t
  nodup : t.toList.Nodup

section Representation

variable {m m' : RbMem P} {p : Option P} {t a b : RbTree P} {x : P} {s : Side} {c : Color}
  {ctx : List (RbFrame P)}

theorem holds_bin : Holds m p (bin s c a x b) ↔
    ((m.node x).parent = p ∧ (m.node x).child s = a.top ∧ (m.node x).child s.other = b.top ∧
      (m.node x).color = c) ∧ Holds m (some x) a ∧ Holds m (some x) b := by
  cases hnode : m.node x with
  | mk parent left right color =>
    cases s with
    | left =>
      simp only [bin, Holds, hnode, RbNode.child, Side.other, RbNode.mk.injEq]
    | right =>
      simp only [bin, Holds, hnode, RbNode.child, Side.other, RbNode.mk.injEq]
      tauto

theorem Holds.congr (h : Holds m p t) (agree : ∀ y ∈ t.toList, m'.node y = m.node y) :
    Holds m' p t := by
  induction t generalizing p with
  | leaf => trivial
  | node c l x r ihl ihr =>
    obtain ⟨hx, hl, hr⟩ := h
    refine ⟨?_, ihl hl fun y hy => agree y ?_, ihr hr fun y hy => agree y ?_⟩
    · rw [agree x (List.mem_append_right _ List.mem_cons_self), hx]
    · exact List.mem_append_left _ hy
    · exact List.mem_append_right _ (List.mem_cons_of_mem _ hy)

theorem CtxHolds.congr {hole : Option P} (h : CtxHolds m hole ctx)
    (agree : ∀ y ∈ ctxAddrs ctx, m'.node y = m.node y) (root : m'.root = m.root) :
    CtxHolds m' hole ctx := by
  induction ctx generalizing hole with
  | nil => exact root.trans h
  | cons f ctx ih =>
    obtain ⟨hf, hsibling, hctx⟩ := h
    refine ⟨?_, hsibling.congr fun y hy => agree y ?_, ih hctx fun y hy => agree y ?_⟩
    · rw [agree f.addr List.mem_cons_self]
      exact hf
    · exact List.mem_cons_of_mem _ (List.mem_append_left _ hy)
    · exact List.mem_cons_of_mem _ (List.mem_append_right _ hy)

/-- A tree in memory, seen from a place in it. -/
theorem holds_plug : (m.root = (plug ctx t).top ∧ Holds m none (plug ctx t)) ↔
    Holds m (above ctx) t ∧ CtxHolds m t.top ctx := by
  induction ctx generalizing t with
  | nil => exact and_comm
  | cons f ctx ih =>
    rw [plug, ih, holds_bin, CtxHolds, top_bin, above_cons]
    tauto

theorem represents_plug : Represents m (plug ctx t) ↔
    Holds m (above ctx) t ∧ CtxHolds m t.top ctx ∧ (t.toList ++ ctxAddrs ctx).Nodup := by
  rw [← and_assoc, ← holds_plug, ← (toList_plug_perm ctx t).nodup_iff]
  exact ⟨fun h => ⟨⟨h.root, h.nodes⟩, h.nodup⟩, fun h => ⟨h.1.1, h.1.2, h.2⟩⟩

/-- The link into the hole of a context. -/
def slotOf (ctx : List (RbFrame P)) : Option (P × Side) := ctx.head?.map fun f => (f.addr, f.side)

@[simp] theorem slotOf_nil : slotOf ([] : List (RbFrame P)) = none := rfl

@[simp] theorem slotOf_cons (f : RbFrame P) : slotOf (f :: ctx) = some (f.addr, f.side) := rfl

@[simp] theorem map_slotOf : (slotOf ctx).map Prod.fst = above ctx := by cases ctx <;> rfl

/-- The node above a hole is one of its context. -/
theorem mem_of_above {y : P} (h : above ctx = some y) : y ∈ ctxAddrs ctx := by
  cases ctx with
  | nil => cases h
  | cons f ctx =>
    cases h
    exact List.mem_cons_self

/-- A walk in order meets the nodes of the tree. -/
theorem Holds.inorder {depth : Nat} (h : Holds m p t) (hdepth : t.toList.length ≤ depth) :
    m.inorder depth t.top = t.toList := by
  induction t generalizing p depth with
  | leaf => cases depth <;> rfl
  | node c l x r ihl ihr =>
    rw [toList, List.length_append, List.length_cons] at hdepth
    obtain ⟨depth, rfl⟩ : ∃ k, depth = k + 1 := Nat.exists_eq_add_one_of_ne_zero (by omega)
    obtain ⟨hx, hl, hr⟩ := h
    rw [top, RbMem.inorder, hx, ihl hl (by omega), ihr hr (by omega)]
    rfl

variable [DecidableEq P]

/-- The root of a subtree gets another parent. -/
theorem Holds.adopt (h : Holds m p t) (hnodup : t.toList.Nodup) :
    Holds (m.adopt t.top x) (some x) t := by
  cases t with
  | leaf => trivial
  | node c l y r =>
    obtain ⟨hy, hl, hr⟩ := h
    have hout : y ∉ l.toList ∧ y ∉ r.toList := by
      have hperm := (toList_bin_perm .left c l r y).nodup_iff.mp hnodup
      simpa using (List.nodup_cons.mp hperm).1
    have hothers : ∀ z, z ≠ y → (m.adopt (some y) x).node z = m.node z := by
      intro z hz
      exact adopt_of_ne m (by simpa using hz.symm)
    refine ⟨?_, hl.congr ?_, hr.congr ?_⟩
    · calc (m.adopt (some y) x).node y = (m.node y).setParent (some x) :=
        m.modify_self y fun nd => nd.setParent (some x)
      _ = _ := by rw [hy]; rfl
    · intro z hz
      exact hothers z (ne_of_mem_of_not_mem hz hout.1)
    · intro z hz
      exact hothers z (ne_of_mem_of_not_mem hz hout.2)

/-- The link into the hole is redirected. -/
theorem CtxHolds.writeSlot {hole : Option P} {new : P} (h : CtxHolds m hole ctx)
    (hnodup : (ctxAddrs ctx).Nodup) : CtxHolds (m.writeSlot (slotOf ctx) new) (some new) ctx := by
  cases ctx with
  | nil => rfl
  | cons f ctx =>
    obtain ⟨⟨hparent, hhole, hacross, hcolor⟩, hsibling, hctx⟩ := h
    obtain ⟨hfresh, -⟩ := List.nodup_cons.mp hnodup
    rw [List.mem_append, not_or] at hfresh
    have hothers : ∀ z, z ≠ f.addr → (m.setChild f.addr f.side (some new)).node z = m.node z :=
      fun z hz => modify_of_ne _ _ hz
    refine ⟨?_, hsibling.congr ?_, hctx.congr ?_ rfl⟩
    · simp only [slotOf_cons, RbMem.writeSlot, RbMem.setChild, RbMem.modify_self,
        RbNode.parent_setChild, RbNode.child_setChild, RbNode.child_setChild_other,
        RbNode.color_setChild]
      exact ⟨hparent, trivial, hacross, hcolor⟩
    · intro z hz
      exact hothers z (ne_of_mem_of_not_mem hz hfresh.1)
    · intro z hz
      exact hothers z (ne_of_mem_of_not_mem hz hfresh.2)

/-- The link that `replaceChild` writes is the one into the hole, whichever side it
tests. -/
theorem CtxHolds.replaceChild_eq {first : Side} {old new : P} (h : CtxHolds m (some old) ctx)
    (hold : old ∉ ctxAddrs ctx) :
    replaceChild first m (above ctx) old new = m.writeSlot (slotOf ctx) new := by
  cases ctx with
  | nil => rfl
  | cons f ctx =>
    obtain ⟨⟨-, hhole, hacross, -⟩, -, -⟩ := h
    rw [above_cons, slotOf_cons]
    unfold RbMem.replaceChild RbMem.writeSlot
    by_cases hside : f.side = first
    · subst hside
      simp only [hhole, if_true]
    · have hfirst := Side.eq_other_of_ne (Ne.symm hside)
      have hne : (m.node f.addr).child first ≠ some old := by
        rw [hfirst, hacross]
        apply top_ne
        exact fun hmem => hold (List.mem_cons_of_mem _ (List.mem_append_left _ hmem))
      simp only [if_neg hne]
      rw [hfirst, Side.other_other]

/-- **Painting** a node. -/
theorem Represents.paint (h : Represents m (plug ctx (bin s c a x b))) (c' : Color) :
    Represents (m.paint x c') (plug ctx (bin s c' a x b)) := by
  obtain ⟨hbin, hctx, hnodup⟩ := represents_plug.mp h
  obtain ⟨⟨hparent, ha, hb, -⟩, hholdsa, hholdsb⟩ := holds_bin.mp hbin
  have hnodup' := ((toList_bin_perm s c a b x).append_right _).nodup_iff.mp hnodup
  simp only [List.cons_append, List.nodup_cons, List.mem_append, not_or] at hnodup'
  obtain ⟨⟨⟨hxa, hxb⟩, hxctx⟩, -⟩ := hnodup'
  have hothers : ∀ z, z ≠ x → (m.paint x c').node z = m.node z := fun z hz => modify_of_ne _ _ hz
  apply represents_plug.mpr
  refine ⟨holds_bin.mpr ⟨?_, hholdsa.congr ?_, hholdsb.congr ?_⟩, ?_, ?_⟩
  · rw [RbMem.paint, RbMem.modify_self]
    simp [hparent, ha, hb]
  · exact fun z hz => hothers z (ne_of_mem_of_not_mem hz hxa)
  · exact fun z hz => hothers z (ne_of_mem_of_not_mem hz hxb)
  · rw [top_bin] at hctx ⊢
    exact hctx.congr (fun z hz => hothers z (ne_of_mem_of_not_mem hz hxctx)) rfl
  · rwa [toList_recolor s c' c]

omit [DecidableEq P] in
/-- The addresses around a rotation. -/
theorem rotate_perm (s : Side) (cx cr : Color) (a b d : RbTree P) (x r : P)
    (ctx : List (RbFrame P)) :
    ((bin s cx a x (bin s cr b r d)).toList ++ ctxAddrs ctx).Perm
      (x :: r :: (a.toList ++ (b.toList ++ (d.toList ++ ctxAddrs ctx)))) := by
  have houter := (toList_bin_perm s cx a (bin s cr b r d) x).append_right (ctxAddrs ctx)
  have hinner : (a.toList ++ (bin s cr b r d).toList).Perm
      (r :: (a.toList ++ (b.toList ++ d.toList))) :=
    ((toList_bin_perm s cr b d r).append_left a.toList).trans List.perm_middle
  refine houter.trans (((hinner.cons x).append_right _).trans ?_)
  simp only [List.cons_append, List.append_assoc]
  exact List.Perm.refl _

/-- **Rotation.** The child across comes up, and its inner subtree changes over. -/
theorem Represents.rotate {cx cr : Color} {d : RbTree P} {r : P}
    (h : Represents m (plug ctx (bin s cx a x (bin s cr b r d)))) (first : Side) :
    ∃ m', rotate first s m x = some m' ∧
      Represents m' (plug ctx (bin s cr (bin s cx a x b) r d)) := by
  obtain ⟨hbin, hctx, hnodup⟩ := represents_plug.mp h
  obtain ⟨⟨hxparent, hxa, hxr, hxcolor⟩, hholdsa, hright⟩ := holds_bin.mp hbin
  obtain ⟨⟨-, hrb, hrd, hrcolor⟩, hholdsb, hholdsd⟩ := holds_bin.mp hright
  rw [top_bin] at hxr hctx
  have hfresh := (rotate_perm s cx cr a b d x r ctx).nodup_iff.mp hnodup
  simp only [List.nodup_cons, List.nodup_append, List.mem_cons, List.mem_append, not_or] at hfresh
  obtain ⟨⟨hxner, hxa', hxb', hxd', hxctx⟩, ⟨hra', hrb', hrd', hrctx⟩, -, ⟨hbnodup, ⟨-, hctxnodup,
    hdctx⟩, hbothers⟩, haothers⟩ := hfresh
  -- What the writes below the parent leave alone.
  let m₁ := m.setChild x s.other b.top
  let m₂ := m₁.adopt b.top x
  let m₃ := m₂.setChild r s (some x)
  let m₄ := m₃.setParent r (above ctx)
  let m₅ := RbMem.replaceChild first m₄ (above ctx) x r
  let m₆ := m₅.setParent x (some r)
  have hrun : RbMem.rotate first s m x = some m₆ := by
    unfold RbMem.rotate
    simp only [hxr, hxparent, hrb, m₆, m₅, m₄, m₃, m₂, m₁]
  have hbelow : ∀ z, z ≠ x → z ≠ r → b.top ≠ some z → m₄.node z = m.node z := by
    intro z hzx hzr hzb
    calc m₄.node z = m₃.node z := modify_of_ne _ _ hzr
      _ = m₂.node z := modify_of_ne _ _ hzr
      _ = m₁.node z := adopt_of_ne _ hzb
      _ = m.node z := modify_of_ne _ _ hzx
  have habove : ∀ z, z ≠ x → above ctx ≠ some z → m₆.node z = m₄.node z := by
    intro z hzx hz
    calc m₆.node z = m₅.node z := modify_of_ne _ _ hzx
      _ = m₄.node z := replaceChild_of_ne _ hz
  have hout : ∀ {z}, z ∉ ctxAddrs ctx → above ctx ≠ some z := fun hz habv => hz (mem_of_above habv)
  have hkept : ∀ z, z ≠ x → z ≠ r → z ∉ b.toList → z ∉ ctxAddrs ctx → m₆.node z = m.node z := by
    intro z hzx hzr hzb hzctx
    rw [habove z hzx (hout hzctx), hbelow z hzx hzr (top_ne hzb)]
  refine ⟨m₆, hrun, represents_plug.mpr ⟨?_, ?_, ?_⟩⟩
  · have hr : m₆.node r = ((m.node r).setChild s (some x)).setParent (above ctx) := by
      have h₂ : m₂.node r = m.node r :=
        (adopt_of_ne m₁ (top_ne hrb')).trans (modify_of_ne _ _ (Ne.symm hxner))
      rw [habove r (Ne.symm hxner) (hout hrctx)]
      simp only [m₄, m₃, RbMem.setParent, RbMem.setChild, RbMem.modify_self, h₂]
    have hx : m₆.node x = ((m.node x).setChild s.other b.top).setParent (some r) := by
      have h₅ : m₅.node x = m₁.node x := by
        calc m₅.node x = m₄.node x := replaceChild_of_ne _ (hout hxctx)
          _ = m₃.node x := modify_of_ne _ _ hxner
          _ = m₂.node x := modify_of_ne _ _ hxner
          _ = m₁.node x := adopt_of_ne _ (top_ne hxb')
      simp only [m₆, RbMem.setParent, RbMem.modify_self, h₅, m₁, RbMem.setChild]
    have hb : Holds m₆ (some x) b := by
      have h₁ : Holds m₁ (some r) b :=
        hholdsb.congr fun z hz => modify_of_ne _ _ (ne_of_mem_of_not_mem hz hxb')
      apply (h₁.adopt hbnodup).congr
      intro z hz
      have hzx := ne_of_mem_of_not_mem hz hxb'
      have hzr := ne_of_mem_of_not_mem hz hrb'
      rw [habove z hzx (hout fun hmem => hbothers z hz z (.inr hmem) rfl)]
      exact (modify_of_ne _ _ hzr).trans (modify_of_ne _ _ hzr)
    apply holds_bin.mpr
    refine ⟨?_, holds_bin.mpr ⟨?_, ?_, hb⟩, ?_⟩
    · rw [hr, top_bin]
      simp [hrd, hrcolor]
    · rw [hx]
      simp [hxa, hxcolor]
    · apply hholdsa.congr
      intro z hz
      exact hkept z (ne_of_mem_of_not_mem hz hxa') (ne_of_mem_of_not_mem hz hra')
        (fun hmem => haothers z hz z (.inl hmem) rfl)
        (fun hmem => haothers z hz z (.inr (.inr hmem)) rfl)
    · apply hholdsd.congr
      intro z hz
      exact hkept z (ne_of_mem_of_not_mem hz hxd') (ne_of_mem_of_not_mem hz hrd')
        (fun hmem => hbothers z hmem z (.inl hz) rfl) (fun hmem => hdctx z hz z hmem rfl)
  · rw [top_bin]
    have hredirected : CtxHolds m₅ (some r) ctx := by
      have hunlinked : CtxHolds m₄ (some x) ctx := by
        apply hctx.congr
        · intro z hz
          exact hbelow z (ne_of_mem_of_not_mem hz hxctx) (ne_of_mem_of_not_mem hz hrctx)
            (top_ne fun hmem => hbothers z hmem z (.inr hz) rfl)
        · simp only [m₄, m₃, m₂, m₁, RbMem.setParent, RbMem.setChild, RbMem.modify_root,
            RbMem.adopt_root]
      rw [show m₅ = m₄.writeSlot (slotOf ctx) r from hunlinked.replaceChild_eq hxctx]
      exact hunlinked.writeSlot hctxnodup
    exact hredirected.congr (fun z hz => modify_of_ne _ _ (ne_of_mem_of_not_mem hz hxctx)) rfl
  · rwa [toList_rotate]

end Representation

end ArmKernel.Support

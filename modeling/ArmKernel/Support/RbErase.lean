/-
The repair after a removal from a red-black tree.

A black node has been taken out below some link, so the subtree there is one black node
short. `eraseColor` walks up from the link: a red subtree is painted black and fills the
gap; otherwise the sibling is made black (`freeSibling`), and then either gives a black
node away, which moves the gap up, or comes up itself with the outer nephew red
(`turnNephew`, `raiseSibling`), which fills it.

The links of the subtree and of its parent are the arguments, since the subtree may be
empty. `eraseColor_spec` says that the walk ends, keeps the order and leaves a red-black
tree.
-/
import ArmKernel.Support.RbInsert

namespace ArmKernel.Support

open RbTree RbMem

variable {P : Type*}

namespace RbMem

/-- `!p || rb_is_black(p)`. -/
def blackAt (m : RbMem P) : Option P → Bool
  | none => true
  | some x => decide ((m.node x).color = .black)

variable [DecidableEq P]

/-- `if (p) rb_set_black(p)`. -/
def blacken (m : RbMem P) : Option P → RbMem P
  | none => m
  | some x => m.paint x .black

/-- The sibling across side `s` of `p`, made black: a red one comes up first. -/
def freeSibling (first : Side → Side) (s : Side) (m : RbMem P) (p : P) : Option (RbMem P × P) :=
  match (m.node p).child s.other with
  | none => none
  | some other =>
    if (m.node other).color = .red then
      (((m.paint other .black).paint p .red).rotate (first s) s p).bind fun m =>
        ((m.node p).child s.other).map fun other => (m, other)
    else some (m, other)

/-- The sibling, with its outer child red: a red inner child comes up first. -/
def turnNephew (first : Side → Side) (s : Side) (m : RbMem P) (p other : P) :
    Option (RbMem P × P) :=
  if m.blackAt ((m.node other).child s.other) then
    match (m.node other).child s with
    | none => none
    | some inner =>
      (((m.paint inner .black).paint other .red).rotate (first s.other) s.other other).bind fun m =>
        ((m.node p).child s.other).map fun other => (m, other)
  else some (m, other)

/-- The sibling takes the colour and the place of the parent. -/
def raiseSibling (first : Side → Side) (s : Side) (m : RbMem P) (p other : P) :
    Option (RbMem P) :=
  let m := (m.paint other (m.node p).color).paint p .black
  match (m.node other).child s.other with
  | none => none
  | some outer => (m.paint outer .black).rotate (first s) s p

/-- The repair after a removal, in at most the given number of rounds; `node` is the link
of the short subtree and `parent` the node above it. -/
def eraseColor (first : Side → Side) : Nat → RbMem P → Option P → Option P → Option (RbMem P)
  | rounds, m, node, parent =>
    if m.blackAt node ∧ node ≠ m.root then
      match rounds, parent with
      | _, none => none
      | 0, _ => none
      | rounds + 1, some p =>
        let s : Side := if (m.node p).left = node then .left else .right
        (m.freeSibling first s p).bind fun (m, other) =>
          if m.blackAt ((m.node other).child s) ∧ m.blackAt ((m.node other).child s.other) then
            eraseColor first rounds (m.paint other .red) (some p) (m.node p).parent
          else
            (m.turnNephew first s p other).bind fun (m, other) =>
              (m.raiseSibling first s p other).map fun m => m.blacken m.root
    else some (m.blacken node)

end RbMem

/-! ### What the loop reads -/

section Reads

variable {m : RbMem P} {t a b : RbTree P} {x : P} {s : Side} {c : Color} {h : Nat}
  {ctx : List (RbFrame P)}

/-- The links and the colour of a node, seen from it. -/
theorem Represents.links (ctx : List (RbFrame P))
    (hrep : Represents m (plug ctx (bin s c a x b))) :
    (m.node x).parent = above ctx ∧ (m.node x).child s = a.top ∧
      (m.node x).child s.other = b.top ∧ (m.node x).color = c :=
  (holds_bin.mp (represents_plug.mp hrep).1).1

theorem Holds.blackAt_top {p : Option P} (hholds : Holds m p t) (ht : Balanced t c h) :
    m.blackAt t.top = decide (c = .black) := by
  cases ht with
  | leaf => rfl
  | red hl hr => simp [RbTree.top, RbMem.blackAt, hholds.1]
  | black hl hr => simp [RbTree.top, RbMem.blackAt, hholds.1]

/-- The subtrees of a node in memory. -/
theorem Represents.subtrees (ctx : List (RbFrame P))
    (hrep : Represents m (plug ctx (bin s c a x b))) :
    Holds m (some x) a ∧ Holds m (some x) b :=
  (holds_bin.mp (represents_plug.mp hrep).1).2

/-- The root of a filled context is above the hole. -/
theorem top_plug_mem (f : RbFrame P) (ctx : List (RbFrame P)) (t : RbTree P) :
    ∃ y ∈ ctxAddrs (f :: ctx), (plug (f :: ctx) t).top = some y := by
  induction ctx generalizing f t with
  | nil => exact ⟨f.addr, List.mem_cons_self, top_bin ..⟩
  | cons g ctx ih =>
    obtain ⟨y, hy, htop⟩ := ih g (bin f.side f.color t f.addr f.sibling)
    exact ⟨y, List.mem_cons_of_mem _ (List.mem_append_right _ hy), htop⟩

/-- A subtree below a node is not the root. -/
theorem Represents.top_ne_root {f : RbFrame P} (hrep : Represents m (plug (f :: ctx) t)) :
    t.top ≠ m.root := by
  obtain ⟨y, hy, htop⟩ := top_plug_mem f ctx t
  have hnodup := (represents_plug.mp hrep).2.2
  rw [hrep.root, htop]
  apply top_ne
  exact fun hmem => (List.nodup_append.mp hnodup).2.2 y hmem y hy rfl

/-- The side of a hole, as the loop finds it. -/
theorem Represents.side_eq [DecidableEq P] {f : RbFrame P} (hsibling : f.sibling.top ≠ none)
    (hrep : Represents m (plug (f :: ctx) t)) :
    (if (m.node f.addr).left = t.top then Side.left else Side.right) = f.side := by
  obtain ⟨-, hhole, hacross, -⟩ := hrep.links ctx
  cases hside : f.side with
  | left =>
    rw [hside] at hhole
    exact if_pos hhole
  | right =>
    rw [hside] at hacross
    have hleft : (m.node f.addr).left = f.sibling.top := hacross
    obtain ⟨y, hy⟩ := Option.ne_none_iff_exists'.mp hsibling
    have hnodup := (represents_plug.mp hrep).2.2
    have hyout : y ∉ t.toList := fun hmem => (List.nodup_append.mp hnodup).2.2 y hmem y
      (List.mem_cons_of_mem _ (List.mem_append_left _ (mem_of_top hy))) rfl
    apply if_neg
    rw [hleft, hy]
    exact fun heq => top_ne hyout heq.symm

/-- A hole that takes a tree with a red root takes one with a black root. -/
theorem CtxBalanced.toBlack (hctx : CtxBalanced ctx c h) : CtxBalanced ctx .black h := by
  cases hctx with
  | root => exact .root
  | red hsibling hctx => exact .red hsibling hctx
  | black hsibling hctx => exact .black hsibling hctx

/-- A sibling may be replaced by a black one of its height. -/
theorem CtxBalanced.sibling {f : RbFrame P} (hctx : CtxBalanced (f :: ctx) c h)
    (ht : Balanced t .black h) : CtxBalanced ({ f with sibling := t } :: ctx) c h := by
  cases hctx with
  | red _ hctx => exact .red ht hctx
  | black _ hctx => exact .black ht hctx

/-- A tree with a red root, from side `s`. -/
theorem Balanced.splitRed (s : Side) (ht : Balanced t .red h) :
    ∃ a x b, t = bin s .red a x b ∧ Balanced a .black h ∧ Balanced b .black h := by
  cases ht with
  | red hl hr =>
    cases s with
    | left => exact ⟨_, _, _, rfl, hl, hr⟩
    | right => exact ⟨_, _, _, rfl, hr, hl⟩

/-- A tree with a black root, from side `s`. -/
theorem Balanced.splitBlack (s : Side) (ht : Balanced t .black (h + 1)) :
    ∃ a x b ca cb, t = bin s .black a x b ∧ Balanced a ca h ∧ Balanced b cb h := by
  cases ht with
  | black hl hr =>
    cases s with
    | left => exact ⟨_, _, _, _, _, rfl, hl, hr⟩
    | right => exact ⟨_, _, _, _, _, rfl, hr, hl⟩

end Reads

/-! ### One round -/

section Round

variable [DecidableEq P] {m : RbMem P} {t a b inner outer sibling : RbTree P} {x p other : P}
  {s : Side} {c pc ci co : Color} {h : Nat} {ctx : List (RbFrame P)} {first : Side → Side}
  {rounds : Nat}

/-- Painting a node below `p`, across the hole. -/
theorem Represents.paint_across {sc : Color} (c' : Color)
    (hrep : Represents m (plug (⟨s, pc, p, bin s sc inner other outer⟩ :: ctx) t)) :
    Represents (m.paint other c') (plug (⟨s, pc, p, bin s c' inner other outer⟩ :: ctx) t) := by
  have hfocus : Represents m (plug (⟨s.other, pc, p, t⟩ :: ctx) (bin s sc inner other outer)) := by
    rw [plug_across]
    exact hrep
  have hpainted := hfocus.paint c'
  rwa [plug_across] at hpainted

/-- **A red sibling** comes up, and one of its children, which is black, is the sibling. -/
theorem freeSibling_spec (first : Side → Side)
    (hrep : Represents m (plug (⟨s, pc, p, sibling⟩ :: ctx) t))
    (hctx : CtxBalanced (⟨s, pc, p, sibling⟩ :: ctx) .black (h + 1)) :
    ∃ m' other inner outer ci co pc' ctx',
      m.freeSibling first s p = some (m', other) ∧
      Represents m' (plug (⟨s, pc', p, bin s .black inner other outer⟩ :: ctx') t) ∧
      Balanced inner ci h ∧ Balanced outer co h ∧
      CtxBalanced (⟨s, pc', p, bin s .black inner other outer⟩ :: ctx') .black (h + 1) ∧
      (plug (⟨s, pc', p, bin s .black inner other outer⟩ :: ctx') t).toList =
        (plug (⟨s, pc, p, sibling⟩ :: ctx) t).toList ∧
      (pc' = .black → ctx' = ctx) := by
  obtain ⟨-, -, hacross, -⟩ := hrep.links ctx
  obtain ⟨-, hsibling⟩ := hrep.subtrees ctx
  unfold RbMem.freeSibling
  rw [hacross]
  cases hctx with
  | red hbalanced hctx =>
    obtain ⟨inner, other, outer, ci, co, rfl, hinner, houter⟩ := hbalanced.splitBlack s
    obtain ⟨⟨-, -, -, hcolor⟩, -⟩ := holds_bin.mp hsibling
    refine ⟨m, other, inner, outer, ci, co, .red, ctx, ?_, hrep, hinner, houter,
      .red (hinner.blackBin houter) hctx, rfl, fun _ => rfl⟩
    simp [hcolor]
  | @black _ _ _ _ _ sc _ hbalanced hctx =>
    cases sc with
    | black =>
      obtain ⟨inner, other, outer, ci, co, rfl, hinner, houter⟩ := hbalanced.splitBlack s
      obtain ⟨⟨-, -, -, hcolor⟩, -⟩ := holds_bin.mp hsibling
      refine ⟨m, other, inner, outer, ci, co, .black, ctx, ?_, hrep, hinner, houter,
        .black (hinner.blackBin houter) hctx, rfl, fun _ => rfl⟩
      simp [hcolor]
    | red =>
      obtain ⟨near, up, far, rfl, hnear, hfar⟩ := hbalanced.splitRed s
      obtain ⟨inner, other, outer, ci, co, rfl, hinner, houter⟩ := hnear.splitBlack s
      obtain ⟨⟨-, -, -, hcolor⟩, -⟩ := holds_bin.mp hsibling
      have hup : Represents (m.paint up .black)
          (plug ctx (bin s .black t p (bin s .black (bin s .black inner other outer) up far))) :=
        hrep.paint_across .black
      have hp : Represents ((m.paint up .black).paint p .red)
          (plug ctx (bin s .red t p (bin s .black (bin s .black inner other outer) up far))) :=
        hup.paint .red
      obtain ⟨m', hrotate, hrep'⟩ := hp.rotate (first s)
      have hrep'' : Represents m' (plug (⟨s, .red, p, bin s .black inner other outer⟩ ::
          ⟨s, .black, up, far⟩ :: ctx) t) := hrep'
      obtain ⟨-, -, hother, -⟩ := hrep''.links (⟨s, .black, up, far⟩ :: ctx)
      refine ⟨m', other, inner, outer, ci, co, .red, ⟨s, .black, up, far⟩ :: ctx, ?_, hrep'',
        hinner, houter, .red hnear (.black hfar hctx), ?_, fun hpc => by cases hpc⟩
      · rw [top_bin] at hother
        simp [hcolor, hrotate, hother]
      · apply toList_plug_congr ctx
        calc (bin s .black (bin s .red t p (bin s .black inner other outer)) up far).toList
            = (bin s .red t p (bin s .black (bin s .black inner other outer) up far)).toList :=
              toList_rotate ..
          _ = (bin s .black t p (bin s .black (bin s .black inner other outer) up far)).toList :=
              toList_recolor ..
          _ = _ := toList_bin_congr _ _ _ rfl (toList_recolor ..)

/-- **A black outer nephew** is replaced: the inner one, which is red, comes up. -/
theorem turnNephew_spec (first : Side → Side)
    (hrep : Represents m (plug (⟨s, pc, p, bin s .black inner other outer⟩ :: ctx) t))
    (hinner : Balanced inner ci h) (houter : Balanced outer co h)
    (hred : ¬ (ci = .black ∧ co = .black)) :
    ∃ m' other' inner' outer' ci', m.turnNephew first s p other = some (m', other') ∧
      Represents m' (plug (⟨s, pc, p, bin s .black inner' other' outer'⟩ :: ctx) t) ∧
      Balanced inner' ci' h ∧ Balanced outer' .red h ∧
      (plug (⟨s, pc, p, bin s .black inner' other' outer'⟩ :: ctx) t).toList =
        (plug (⟨s, pc, p, bin s .black inner other outer⟩ :: ctx) t).toList := by
  obtain ⟨-, hsibling⟩ := hrep.subtrees ctx
  obtain ⟨⟨-, hnear, hfar, -⟩, -, hholds⟩ := holds_bin.mp hsibling
  unfold RbMem.turnNephew
  rw [hfar, hholds.blackAt_top houter, hnear]
  cases co with
  | red => exact ⟨m, other, inner, outer, ci, by simp, hrep, hinner, houter, rfl⟩
  | black =>
    cases ci with
    | black => exact absurd ⟨rfl, rfl⟩ hred
    | red =>
      obtain ⟨a, i, b, rfl, ha, hb⟩ := hinner.splitRed s
      have hi : Represents (m.paint i .black)
          (plug (⟨s, pc, p, bin s .black (bin s .black a i b) other outer⟩ :: ctx) t) := by
        have hfocus : Represents m (plug (⟨s, .black, other, outer⟩ :: ⟨s.other, pc, p, t⟩ :: ctx)
            (bin s .red a i b)) := by
          rw [plug, plug_across]
          exact hrep
        have hpainted := hfocus.paint .black
        rwa [plug, plug_across] at hpainted
      have hpainted := hi.paint_across .red
      -- Seen from the other side, the inner nephew is the child that comes up.
      have hturned : Represents ((m.paint i .black).paint other .red)
          (plug (⟨s.other, pc, p, t⟩ :: ctx)
            (bin s.other .red outer other (bin s.other .black b i a))) := by
        rw [bin_other, bin_other, plug_across]
        exact hpainted
      obtain ⟨m', hrotate, hrep'⟩ := hturned.rotate (first s.other)
      rw [bin_other, bin_other, plug_across] at hrep'
      obtain ⟨-, -, hother, -⟩ := hrep'.links ctx
      refine ⟨m', i, a, bin s .red b other outer, .black, ?_, hrep', ha, hb.redBin houter, ?_⟩
      · rw [top_bin] at hother
        simp [hrotate, hother]
      · apply toList_plug_congr ctx
        apply toList_bin_congr _ _ _ rfl
        calc (bin s .black a i (bin s .red b other outer)).toList
            = (bin s .red (bin s .black a i b) other outer).toList := (toList_rotate ..).symm
          _ = (bin s .black (bin s .black a i b) other outer).toList := toList_recolor ..
          _ = _ := toList_bin_congr _ _ _ (toList_recolor ..) rfl

/-- **A red outer nephew** fills the gap: the sibling comes up. -/
theorem raiseSibling_spec (first : Side → Side)
    (hrep : Represents m (plug (⟨s, pc, p, bin s .black inner other outer⟩ :: ctx) t))
    (ht : Balanced t .black h) (hinner : Balanced inner ci h) (houter : Balanced outer .red h)
    (hctx : CtxBalanced (⟨s, pc, p, bin s .black inner other outer⟩ :: ctx) .black (h + 1)) :
    Repaired (m.raiseSibling first s p other)
      (plug (⟨s, pc, p, bin s .black inner other outer⟩ :: ctx) t) := by
  obtain ⟨a, o, b, rfl, ha, hb⟩ := houter.splitRed s
  obtain ⟨-, -, -, hpcolor⟩ := hrep.links ctx
  have hother : Represents (m.paint other pc)
      (plug ctx (bin s pc t p (bin s pc inner other (bin s .red a o b)))) := hrep.paint_across pc
  have hp : Represents ((m.paint other pc).paint p .black)
      (plug (⟨s, .black, p, bin s pc inner other (bin s .red a o b)⟩ :: ctx) t) :=
    hother.paint .black
  obtain ⟨-, hsibling⟩ := hp.subtrees ctx
  obtain ⟨⟨-, -, hfar, -⟩, -⟩ := holds_bin.mp hsibling
  have ho : Represents (((m.paint other pc).paint p .black).paint o .black)
      (plug ctx (bin s .black t p (bin s pc inner other (bin s .black a o b)))) := by
    have hfocus : Represents ((m.paint other pc).paint p .black)
        (plug (⟨s.other, pc, other, inner⟩ :: ⟨s.other, .black, p, t⟩ :: ctx)
          (bin s .red a o b)) := by
      rw [plug_across, plug_across]
      exact hp
    have hpainted := hfocus.paint .black
    rwa [plug_across, plug_across] at hpainted
  obtain ⟨m', hrotate, hrep'⟩ := ho.rotate (first s)
  refine ⟨m', plug ctx (bin s pc (bin s .black t p inner) other (bin s .black a o b)), ?_, hrep',
    ?_, ?_⟩
  · rw [top_bin] at hfar
    simp only [RbMem.raiseSibling, hpcolor, hfar]
    exact hrotate
  · apply toList_plug_congr ctx
    calc (bin s pc (bin s .black t p inner) other (bin s .black a o b)).toList
        = (bin s .black t p (bin s pc inner other (bin s .black a o b))).toList :=
          toList_rotate ..
      _ = (bin s pc t p (bin s pc inner other (bin s .black a o b))).toList := toList_recolor ..
      _ = (bin s pc t p (bin s .black inner other (bin s .black a o b))).toList :=
          toList_bin_congr _ _ _ rfl (toList_recolor ..)
      _ = _ := toList_bin_congr _ _ _ rfl (toList_bin_congr _ _ _ rfl (toList_recolor ..))
  · have hleft : Balanced (bin s .black t p inner) .black (h + 1) := ht.blackBin hinner
    have hright : Balanced (bin s .black a o b) .black (h + 1) := ha.blackBin hb
    cases hctx with
    | red _ hctx => exact hctx.plug (hleft.redBin hright)
    | black _ hctx => exact hctx.plug (hleft.blackBin hright)

end Round

/-! ### The repair -/

section Repair

variable [DecidableEq P] {m : RbMem P} {t a b : RbTree P} {x : P} {s : Side} {c ca cb : Color}
  {h : Nat} {ctx : List (RbFrame P)} {first : Side → Side} {rounds : Nat}

/-- A red-black tree stays one when its root is painted black. -/
theorem blacken_root (hrep : Represents m t) (ht : Balanced t .black h) :
    Repaired (some (m.blacken m.root)) t := by
  cases ht with
  | leaf =>
    rw [hrep.root]
    exact ⟨m, .leaf, rfl, hrep, rfl, 0, .leaf⟩
  | @black l r y _ _ _ hl hr =>
    have hfocus : Represents m (plug [] (bin .left .black l y r)) := hrep
    rw [hrep.root]
    exact ⟨_, _, rfl, hfocus.paint .black, rfl, _, .black hl hr⟩

/-- A red node is painted black, and the gap is filled. -/
theorem eraseColor_red (hrep : Represents m (plug ctx (bin s .red a x b)))
    (ha : Balanced a ca h) (hb : Balanced b cb h) (hctx : CtxBalanced ctx .black (h + 1)) :
    Repaired (m.eraseColor first rounds (some x) (above ctx)) (plug ctx (bin s .red a x b)) := by
  have hcolor := (hrep.links _).2.2.2
  refine ⟨m.paint x .black, plug ctx (bin s .black a x b), ?_, hrep.paint .black, ?_, ?_⟩
  · unfold RbMem.eraseColor
    simp [RbMem.blackAt, hcolor, RbMem.blacken]
  · exact toList_plug_congr ctx (toList_recolor ..)
  · exact hctx.plug (ha.blackBin hb)

/-- At the root there is no gap. -/
theorem eraseColor_root (hrep : Represents m t) (ht : Balanced t c h) :
    Repaired (m.eraseColor first rounds t.top none) t := by
  have hdone : m.eraseColor first rounds t.top none = some (m.blacken t.top) := by
    unfold RbMem.eraseColor
    simp [hrep.root]
  rw [hdone]
  cases c with
  | black =>
    rw [← hrep.root]
    exact blacken_root hrep ht
  | red =>
    obtain ⟨a, x, b, rfl, ha, hb⟩ := ht.splitRed .left
    rw [top_bin]
    have hfocus : Represents m (plug [] (bin .left .red a x b)) := hrep
    exact ⟨_, _, rfl, hfocus.paint .black, toList_recolor .., _, ha.blackBin hb⟩

/-- **Repair after a removal.** A subtree that is one black node short is worked in. -/
theorem eraseColor_spec (hrep : Represents m (plug ctx t)) (ht : Balanced t c h)
    (hctx : CtxBalanced ctx .black (h + 1)) (hrounds : ctx.length ≤ rounds) :
    Repaired (m.eraseColor first rounds t.top (above ctx)) (plug ctx t) := by
  induction rounds generalizing m ctx t c h with
  | zero =>
    obtain rfl := List.length_eq_zero_iff.mp (Nat.le_zero.mp hrounds)
    exact eraseColor_root hrep ht
  | succ rounds ih =>
    cases c with
    | red =>
      obtain ⟨a, x, b, rfl, ha, hb⟩ := ht.splitRed .left
      rw [top_bin]
      exact eraseColor_red hrep ha hb hctx
    | black =>
      cases ctx with
      | nil => exact eraseColor_root hrep ht
      | cons f ctx =>
        obtain ⟨s, pc, p, sibling⟩ := f
        have hholds := (represents_plug.mp hrep).1
        have hblack : m.blackAt t.top = true := (hholds.blackAt_top ht).trans (decide_eq_true rfl)
        have hsibling : sibling.top ≠ none := by
          cases hctx with
          | red hbalanced _ => cases hbalanced; simp [RbTree.top]
          | black hbalanced _ => cases hbalanced <;> simp [RbTree.top]
        have hside := hrep.side_eq hsibling
        dsimp only at hside
        obtain ⟨m₁, other, inner, outer, ci, co, pc', ctx', hfree, hrep₁, hinner, houter, hctx₁,
          horder₁, hsame⟩ := freeSibling_spec first hrep hctx
        unfold RbMem.eraseColor
        rw [if_pos ⟨hblack, hrep.top_ne_root⟩, above_cons]
        simp only [hside]
        rw [hfree, Option.bind_some]
        dsimp only
        -- The colours of the nephews.
        obtain ⟨-, hholds₁⟩ := hrep₁.subtrees ctx'
        obtain ⟨⟨-, hnear, hfar, -⟩, hholdsi, hholdso⟩ := holds_bin.mp hholds₁
        rw [hnear, hfar, hholdsi.blackAt_top hinner, hholdso.blackAt_top houter]
        by_cases hnephews : ci = .black ∧ co = .black
        · obtain ⟨rfl, rfl⟩ := hnephews
          rw [if_pos (by simp)]
          have hgap := hrep₁.paint_across .red
          obtain ⟨hparent, -⟩ := hrep₁.links ctx'
          rw [hparent]
          have horder : (plug ctx' (bin s pc' t p (bin s .red inner other outer))).toList =
              (plug (⟨s, pc, p, sibling⟩ :: ctx) t).toList := by
            rw [← horder₁]
            apply toList_plug_congr ctx'
            exact toList_bin_congr _ _ _ rfl (toList_recolor ..)
          cases hctx₁ with
          | red _ hctx' =>
            exact (eraseColor_red hgap ht (hinner.redBin houter) hctx'.toBlack).congr horder
          | black _ hctx' =>
            obtain rfl := hsame rfl
            have hshort :
                Balanced (bin s .black t p (bin s .red inner other outer)) .black (h + 1) :=
              ht.blackBin (hinner.redBin houter)
            have hrepaired := ih
              (show Represents _
                (plug ctx' (bin s .black t p (bin s .red inner other outer))) from hgap)
              hshort hctx' (Nat.le_of_succ_le_succ hrounds)
            rw [top_bin] at hrepaired
            exact hrepaired.congr horder
        · rw [if_neg (by simpa using hnephews)]
          obtain ⟨m₂, other', inner', outer', ci', hturn, hrep₂, hinner', houter', horder₂⟩ :=
            turnNephew_spec first hrep₁ hinner houter hnephews
          have hctx₂ : CtxBalanced (⟨s, pc', p, bin s .black inner' other' outer'⟩ :: ctx') .black
              (h + 1) := hctx₁.sibling (hinner'.blackBin houter')
          obtain ⟨m₃, t₃, hraise, hrep₃, horder₃, k, hbalanced₃⟩ :=
            raiseSibling_spec first hrep₂ ht hinner' houter' hctx₂
          rw [hturn, Option.bind_some]
          dsimp only
          rw [hraise, Option.map_some]
          apply (blacken_root hrep₃ hbalanced₃).congr
          exact horder₃.trans (horder₂.trans horder₁)

end Repair

end ArmKernel.Support

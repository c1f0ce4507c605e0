/-
Insertion into a red-black tree.

`descend` looks for the empty link where a new node belongs, `linkNode` hangs it there as
a red leaf and `insertColor` repairs the colours: a red node below a red parent is moved
up by recolouring while its uncle is red, and taken out by one or two rotations when it
is not.

`insert_spec` is the whole insertion: the in-order sequence is the old one with the new
node at its place, and the tree is a red-black tree again.
-/
import ArmKernel.Support.Chain
import ArmKernel.Support.RbMemory
import Mathlib.Order.Defs.LinearOrder

namespace ArmKernel.Support

open RbTree RbMem

variable {P : Type*}

namespace RbMem

/-- The search for the link of a new node, from the link `slot` on, in at most the given
number of hops. -/
def descend (m : RbMem P) (goLeft : P → Bool) : Nat → Option (P × Side) → Option (Option (P × Side))
  | hops, slot =>
    match m.readSlot slot with
    | none => some slot
    | some y =>
      match hops with
      | 0 => none
      | hops + 1 => descend m goLeft hops (some (y, if goLeft y then .left else .right))

variable [DecidableEq P]

/-- Hang `x` into an empty link, as a red leaf. -/
def linkNode (m : RbMem P) (slot : Option (P × Side)) (x : P) : RbMem P :=
  (m.modify x fun _ =>
    { parent := slot.map Prod.fst, left := none, right := none, color := .red }).writeSlot slot x

/-- `root->color = BLACK`. -/
def blackenRoot (m : RbMem P) : Option (RbMem P) :=
  match m.root with
  | none => none
  | some r => some (m.paint r .black)

/-- The uncle of a node, if it is red. -/
def redUncle (m : RbMem P) (g : P) (s : Side) : Option P :=
  ((m.node g).child s.other).filter fun u => (m.node u).color = .red

/-- The repair after an insertion, in at most the given number of rounds; `first s` is the
side the rotation towards `s` tests. -/
def insertColor (first : Side → Side) : Nat → RbMem P → P → Option (RbMem P)
  | rounds, m, x =>
    match (m.node x).parent with
    | none => m.blackenRoot
    | some p =>
      if (m.node p).color = .black then m.blackenRoot
      else
        match (m.node p).parent with
        | none => none
        | some g =>
          match rounds with
          | 0 => none
          | rounds + 1 =>
            let s : Side := if (m.node g).left = some p then .left else .right
            match m.redUncle g s with
            | some u =>
              insertColor first rounds (((m.paint u .black).paint p .black).paint g .red) g
            | none =>
              let turned :=
                if (m.node p).child s.other = some x then
                  (m.rotate (first s) s p).map fun m => (m, x, p)
                else some (m, p, x)
              turned.bind fun (m, p, x) =>
                (((m.paint p .black).paint g .red).rotate (first s.other) s.other g).bind fun m =>
                  insertColor first rounds m x

end RbMem

section Search

variable {m : RbMem P} {t : RbTree P} {ctx : List (RbFrame P)} {goLeft : P → Bool} {hops : Nat}

theorem plug_append (inner ctx : List (RbFrame P)) (t : RbTree P) :
    plug (inner ++ ctx) t = plug ctx (plug inner t) := by
  induction inner generalizing t with
  | nil => rfl
  | cons f inner ih => exact ih _

theorem CtxHolds.readSlot {hole : Option P} (h : CtxHolds m hole ctx) :
    m.readSlot (slotOf ctx) = hole := by
  cases ctx with
  | nil => exact h
  | cons f ctx => exact h.1.2.1

/-- The place between the nodes that send it right and those that send it left is in front of
a node that sends it left. -/
theorem split_of_goLeft {l r before after : List P} {y : P} (h : l ++ y :: r = before ++ after)
    (hbefore : ∀ z ∈ before, goLeft z = false) (hgo : goLeft y = true) :
    ∃ after', l = before ++ after' ∧ after = after' ++ y :: r := by
  rcases List.append_eq_append_iff.mp h with ⟨mid, hmid, hrest⟩ | ⟨mid, hmid, hrest⟩
  · cases mid with
    | nil => exact ⟨[], by simpa using hmid.symm, by simpa using hrest.symm⟩
    | cons z mid =>
      obtain ⟨rfl, -⟩ := List.cons_eq_cons.mp hrest
      have hy := hbefore y (by rw [hmid]; exact List.mem_append_right _ List.mem_cons_self)
      rw [hgo] at hy
      cases hy
  · exact ⟨mid, hmid, hrest⟩

/-- It is behind a node that sends it right. -/
theorem split_of_goRight {l r before after : List P} {y : P} (h : l ++ y :: r = before ++ after)
    (hafter : ∀ z ∈ after, goLeft z = true) (hgo : goLeft y = false) :
    ∃ before', r = before' ++ after ∧ before = l ++ y :: before' := by
  rcases List.append_eq_append_iff.mp h with ⟨mid, hmid, hrest⟩ | ⟨mid, hmid, hrest⟩
  · cases mid with
    | nil =>
      rw [List.nil_append] at hrest
      have hy := hafter y (by rw [← hrest]; exact List.mem_cons_self)
      rw [hgo] at hy
      cases hy
    | cons z mid =>
      obtain ⟨rfl, htail⟩ := List.cons_eq_cons.mp hrest
      exact ⟨mid, htail, hmid⟩
  · have hy := hafter y (by rw [hrest]; exact List.mem_append_right _ List.mem_cons_self)
    rw [hgo] at hy
    cases hy

/-- **The descent** ends at an empty link of the tree. When the nodes that send it right
come before those that send it left, that is the link between the two. -/
theorem descend_spec (hrep : Represents m (plug ctx t)) (hhops : t.toList.length ≤ hops)
    {before after : List P} (hsplit : t.toList = before ++ after)
    (hbefore : ∀ y ∈ before, goLeft y = false) (hafter : ∀ y ∈ after, goLeft y = true) :
    ∃ inner, m.descend goLeft hops (slotOf ctx) = some (slotOf (inner ++ ctx)) ∧
      plug inner leaf = t ∧
      ∀ x, (plug inner (bin .left .red leaf x leaf)).toList = before ++ x :: after := by
  have hslot := (represents_plug.mp hrep).2.1.readSlot
  induction t generalizing ctx hops before after with
  | leaf =>
    have hnil := List.append_eq_nil_iff.mp hsplit.symm
    refine ⟨[], ?_, rfl, ?_⟩
    · unfold descend
      rw [hslot]
      rfl
    · intro x
      rw [hnil.1, hnil.2]
      rfl
  | node c l y r ihl ihr =>
    have hlength : l.toList.length + (r.toList.length + 1) ≤ hops := by
      rw [toList, List.length_append, List.length_cons] at hhops
      exact hhops
    obtain ⟨hops, rfl⟩ : ∃ k, hops = k + 1 := Nat.exists_eq_add_one_of_ne_zero (by omega)
    have hhopsl : l.toList.length ≤ hops := by omega
    have hhopsr : r.toList.length ≤ hops := by omega
    rw [descend, hslot]
    simp only [top]
    rw [toList] at hsplit
    cases hgo : goLeft y with
    | true =>
      obtain ⟨after', hl, hafter'⟩ := split_of_goLeft hsplit hbefore hgo
      have hrep' : Represents m (plug (⟨.left, c, y, r⟩ :: ctx) l) := hrep
      obtain ⟨inner, hdescend, hplug, hlist⟩ := ihl hrep' hhopsl hl hbefore
        (fun z hz => hafter z (by rw [hafter']; exact List.mem_append_left _ hz))
        (represents_plug.mp hrep').2.1.readSlot
      refine ⟨inner ++ [⟨.left, c, y, r⟩], ?_, ?_, ?_⟩
      · rw [List.append_assoc]
        exact hdescend
      · rw [plug_append, hplug]
        rfl
      · intro x
        rw [plug_append, hafter', plug, plug, toList_bin_left, hlist, List.append_assoc,
          List.cons_append]
    | false =>
      obtain ⟨before', hr, hbefore'⟩ := split_of_goRight hsplit hafter hgo
      have hrep' : Represents m (plug (⟨.right, c, y, l⟩ :: ctx) r) := hrep
      obtain ⟨inner, hdescend, hplug, hlist⟩ := ihr hrep' hhopsr hr
        (fun z hz => hbefore z (by
          rw [hbefore']
          exact List.mem_append_right _ (List.mem_cons_of_mem _ hz)))
        hafter (represents_plug.mp hrep').2.1.readSlot
      refine ⟨inner ++ [⟨.right, c, y, l⟩], ?_, ?_, ?_⟩
      · rw [List.append_assoc]
        exact hdescend
      · rw [plug_append, hplug]
        rfl
      · intro x
        rw [plug_append, hbefore', plug, plug, toList_bin_right, hlist, List.append_assoc,
          List.cons_append]

end Search

section Repair

variable [DecidableEq P] {m : RbMem P} {t a b : RbTree P} {x : P} {s : Side} {c : Color} {h : Nat}
  {ctx : List (RbFrame P)} {first : Side → Side} {rounds : Nat}

/-- **Linking** a fresh node into an empty link. -/
theorem Represents.linkNode (hrep : Represents m (plug ctx leaf)) (hx : x ∉ (plug ctx leaf).toList) :
    Represents (m.linkNode (slotOf ctx) x) (plug ctx (bin s .red leaf x leaf)) := by
  obtain ⟨-, hctx, hnodup⟩ := represents_plug.mp hrep
  rw [toList_leaf, List.nil_append] at hnodup
  have hxctx : x ∉ ctxAddrs ctx := by
    rw [(toList_plug_perm ctx leaf).mem_iff, toList_leaf, List.nil_append] at hx
    exact hx
  let fresh : RbNode P := { parent := (slotOf ctx).map Prod.fst, left := none, right := none,
                            color := .red }
  have hctx₁ : CtxHolds (m.modify x fun _ => fresh) none ctx :=
    hctx.congr (fun z hz => modify_of_ne _ _ (ne_of_mem_of_not_mem hz hxctx)) rfl
  have hkept : (m.linkNode (slotOf ctx) x).node x = fresh := by
    unfold RbMem.linkNode
    cases ctx with
    | nil => exact m.modify_self x fun _ => fresh
    | cons f ctx =>
      have hxf : x ≠ f.addr := fun e => hxctx (e ▸ List.mem_cons_self)
      calc ((m.modify x fun _ => fresh).setChild f.addr f.side (some x)).node x
          = (m.modify x fun _ => fresh).node x := modify_of_ne _ _ hxf
        _ = fresh := m.modify_self x fun _ => fresh
  apply represents_plug.mpr
  refine ⟨holds_bin.mpr ⟨?_, trivial, trivial⟩, ?_, ?_⟩
  · rw [hkept]
    cases s <;> simp [fresh, RbNode.child, Side.other]
  · rw [top_bin]
    exact hctx₁.writeSlot hnodup
  · apply ((toList_bin_perm s .red leaf leaf x).append_right _).nodup_iff.mpr
    exact List.nodup_cons.mpr ⟨hxctx, hnodup⟩

/-- The repair ends in a red-black tree with the order of `t`. -/
def Repaired (result : Option (RbMem P)) (t : RbTree P) : Prop :=
  ∃ m' t', result = some m' ∧ Represents m' t' ∧ t'.toList = t.toList ∧
    ∃ h, Balanced t' .black h

omit [DecidableEq P] in
theorem Repaired.congr {result : Option (RbMem P)} {t t' : RbTree P} (h : Repaired result t)
    (hlist : t.toList = t'.toList) : Repaired result t' := by
  obtain ⟨m', u, hres, hrep, horder, hbalanced⟩ := h
  exact ⟨m', u, hres, hrep, horder.trans hlist, hbalanced⟩

/-- The last line of the repair. -/
theorem blackenRoot_spec (hrep : Represents m (bin s c a x b))
    (hbalanced : Balanced (bin s .black a x b) .black h) :
    Repaired m.blackenRoot (bin s c a x b) := by
  refine ⟨m.paint x .black, bin s .black a x b, ?_, ?_, toList_recolor .., h, hbalanced⟩
  · have hroot := hrep.root
    rw [top_bin] at hroot
    rw [RbMem.blackenRoot, hroot]
  · have hrep' : Represents m (plug [] (bin s c a x b)) := hrep
    exact hrep'.paint .black

/-- A red-black tree needs no repair. -/
theorem blackenRoot_balanced (hrep : Represents m t) (hbalanced : Balanced t .black h)
    (hx : x ∈ t.toList) : Repaired m.blackenRoot t := by
  cases hbalanced with
  | leaf => cases hx
  | black hl hr =>
    exact blackenRoot_spec (s := .left) hrep (.black hl hr)

/-- A node whose parent is black, or that has none, ends the loop. -/
theorem insertColor_done (hctx : ∀ f ∈ ctx.head?, f.color = .black)
    (hrep : Represents m (plug ctx (bin s c a x b))) :
    m.insertColor first rounds x = m.blackenRoot := by
  obtain ⟨hbin, hholds, -⟩ := represents_plug.mp hrep
  obtain ⟨⟨hparent, -⟩, -⟩ := holds_bin.mp hbin
  unfold RbMem.insertColor
  cases ctx with
  | nil => rw [hparent, above_nil]
  | cons f ctx =>
    have hcolor : (m.node f.addr).color = .black := hholds.1.2.2.2.trans (hctx f rfl)
    rw [hparent, above_cons]
    simp only [hcolor, if_true]

omit [DecidableEq P] in
/-- The node on the other side of a hole. -/
theorem plug_across (s : Side) (c : Color) (x : P) (a b : RbTree P) (ctx : List (RbFrame P)) :
    plug (⟨s.other, c, x, a⟩ :: ctx) b = plug ctx (bin s c a x b) := by
  rw [plug, bin_other]

/-- **The outer rotation.** The red parent `p` of the red subtree `a` goes above the black
grandparent `g`. -/
theorem rotate_outer (first : Side) {p g : P} {u : RbTree P}
    (hrep : Represents m (plug ctx (bin s .black (bin s .red a p b) g u)))
    (ha : Balanced a .red h) (hb : Balanced b .black h) (hu : Balanced u .black h)
    (hctx : CtxBalanced ctx .black (h + 1)) :
    ∃ m' t', ((m.paint p .black).paint g .red).rotate first s.other g = some m' ∧
      Represents m' (plug (⟨s, .black, p, t'⟩ :: ctx) a) ∧
      (plug (⟨s, .black, p, t'⟩ :: ctx) a).toList =
        (plug ctx (bin s .black (bin s .red a p b) g u)).toList ∧
      ∃ k, Balanced (plug (⟨s, .black, p, t'⟩ :: ctx) a) .black k := by
  have hp : Represents (m.paint p .black) (plug ctx (bin s .black (bin s .black a p b) g u)) := by
    have hfocus : Represents m (plug (⟨s, .black, g, u⟩ :: ctx) (bin s .red a p b)) := hrep
    exact hfocus.paint .black
  have hg := hp.paint .red
  -- Seen from the other side, the parent is the child that comes up.
  have hturned : bin s .red (bin s .black a p b) g u =
      bin s.other .red u g (bin s.other .black b p a) := by
    rw [bin_other, bin_other]
  rw [hturned] at hg
  obtain ⟨m', hrotate, hrep'⟩ := hg.rotate first
  rw [bin_other s .red, bin_other s .black] at hrep'
  have hbalanced : Balanced (bin s .black a p (bin s .red b g u)) .black (h + 1) :=
    ha.blackBin (hb.redBin hu)
  have horder : (bin s .black a p (bin s .red b g u)).toList =
      (bin s .black (bin s .red a p b) g u).toList := by
    calc (bin s .black a p (bin s .red b g u)).toList
        = (bin s .red (bin s .black a p b) g u).toList := (toList_rotate ..).symm
      _ = (bin s .black (bin s .black a p b) g u).toList := toList_recolor ..
      _ = _ := toList_bin_congr _ _ _ (toList_recolor ..) rfl
  exact ⟨m', bin s .red b g u, hrotate, hrep', toList_plug_congr ctx horder, hctx.plug hbalanced⟩

omit [DecidableEq P] in
/-- A node, told from either side. -/
theorem bin_side (s s' : Side) (c : Color) (a b : RbTree P) (x : P) :
    ∃ a' b', bin s c a x b = bin s' c a' x b' ∧ (a' = a ∧ b' = b ∨ a' = b ∧ b' = a) := by
  by_cases hs : s = s'
  · subst hs
    exact ⟨a, b, rfl, .inl ⟨rfl, rfl⟩⟩
  · rw [Side.eq_other_of_ne hs]
    exact ⟨b, a, bin_other .., .inr ⟨rfl, rfl⟩⟩

/-- **The inner rotation.** The red node `x` on the inner side of its red parent `p` goes
above it. -/
theorem rotate_inner (first : Side) {s' : Side} {p g : P} {d u : RbTree P}
    (hrep : Represents m (plug ctx (bin s .black (bin s.other .red (bin s' .red a x b) p d) g u)))
    (ha : Balanced a .black h) (hb : Balanced b .black h) (hd : Balanced d .black h) :
    ∃ m' a' b', m.rotate first s p = some m' ∧
      Represents m' (plug ctx (bin s .black (bin s .red a' x b') g u)) ∧
      (∃ a'' , a' = bin s .red d p a'' ) ∧ Balanced a' .red h ∧ Balanced b' .black h ∧
      (plug ctx (bin s .black (bin s .red a' x b') g u)).toList =
        (plug ctx (bin s .black (bin s.other .red (bin s' .red a x b) p d) g u)).toList := by
  obtain ⟨a', b', hside, hab⟩ := bin_side s' s .red a b x
  obtain ⟨ha', hb'⟩ : Balanced a' .black h ∧ Balanced b' .black h := by
    rcases hab with ⟨rfl, rfl⟩ | ⟨rfl, rfl⟩
    · exact ⟨ha, hb⟩
    · exact ⟨hb, ha⟩
  rw [bin_other, hside] at hrep ⊢
  have hfocus : Represents m
      (plug (⟨s, .black, g, u⟩ :: ctx) (bin s .red d p (bin s .red a' x b'))) := hrep
  obtain ⟨m', hrotate, hrep'⟩ := hfocus.rotate first
  refine ⟨m', _, _, hrotate, hrep', ⟨a', rfl⟩, hd.redBin ha', hb', ?_⟩
  apply toList_plug_congr
  exact toList_bin_congr _ _ _ (toList_rotate ..) rfl

/-- A tree without a violation below a black parent is left as it is. -/
theorem insertColor_balanced (hctx : ∀ f ∈ ctx.head?, f.color = .black)
    (hrep : Represents m (plug ctx (bin s c a x b)))
    (hbalanced : Balanced (plug ctx (bin s c a x b)) .black h) :
    Repaired (m.insertColor first rounds x) (plug ctx (bin s c a x b)) := by
  rw [insertColor_done hctx hrep]
  apply blackenRoot_balanced hrep hbalanced (x := x)
  rw [(toList_plug_perm _ _).mem_iff]
  exact List.mem_append_left _ (mem_bin.mpr (.inl rfl))

omit [DecidableEq P] in
/-- The uncle counts as red when its subtree has a red root. -/
theorem redUncle_eq {g : P} {p : Option P} {u : RbTree P}
    (hchild : (m.node g).child s.other = u.top) (hholds : Holds m p u) (hu : Balanced u c h) :
    m.redUncle g s = if c = .red then u.top else none := by
  unfold RbMem.redUncle
  rw [hchild]
  cases hu with
  | leaf => rfl
  | red hl hr =>
    have hcolor := congrArg RbNode.color hholds.1
    simp [top, hcolor]
  | black hl hr =>
    have hcolor := congrArg RbNode.color hholds.1
    simp [top, hcolor]

/-- The rounds with a black uncle. -/
theorem repair_black_uncle {p g : P} {d u : RbTree P} {fs gs : Side}
    (hrep : Represents m (plug ctx (bin gs .black (bin fs .red (bin s .red a x b) p d) g u)))
    (ha : Balanced a .black h) (hb : Balanced b .black h) (hd : Balanced d .black h)
    (hu : Balanced u .black h) (hctx : CtxBalanced ctx .black (h + 1))
    (hchild : (m.node p).child fs = some x) (hother : (m.node p).child fs.other ≠ some x) :
    Repaired
      ((if (m.node p).child gs.other = some x then
          (m.rotate (first gs) gs p).map fun m => (m, x, p)
        else some (m, p, x)).bind fun (m, p, x) =>
          (((m.paint p .black).paint g .red).rotate (first gs.other) gs.other g).bind fun m =>
            m.insertColor first rounds x)
      (plug ctx (bin gs .black (bin fs .red (bin s .red a x b) p d) g u)) := by
  by_cases hfs : fs = gs
  · subst hfs
    obtain ⟨m', t', hrotate, hrep', horder, k, hbalanced⟩ :=
      rotate_outer (first fs.other) hrep (ha.redBin hb) hd hu hctx
    rw [if_neg hother, Option.bind_some]
    dsimp only
    rw [hrotate, Option.bind_some]
    exact (insertColor_balanced (by simp) hrep' hbalanced).congr horder
  · rw [Side.eq_other_of_ne hfs] at hrep hchild ⊢
    obtain ⟨m₁, a', b', hinner, hrep₁, ⟨a'', ha''⟩, ha', hb', horder₁⟩ :=
      rotate_inner (first gs) hrep ha hb hd
    obtain ⟨m', t', hrotate, hrep', horder, k, hbalanced⟩ :=
      rotate_outer (first gs.other) hrep₁ ha' hb' hu hctx
    rw [if_pos hchild, hinner, Option.map_some, Option.bind_some]
    dsimp only
    rw [hrotate, Option.bind_some]
    rw [ha''] at hrep' hbalanced
    apply (insertColor_balanced (by simp) hrep' hbalanced).congr
    rw [← ha'']
    exact horder.trans horder₁

/-- **Repair.** A red node in the place of a black subtree of its height is worked in. -/
theorem insertColor_spec (hrep : Represents m (plug ctx (bin s .red a x b)))
    (ha : Balanced a .black h) (hb : Balanced b .black h) (hctx : CtxBalanced ctx .black h)
    (hrounds : ctx.length ≤ rounds) :
    Repaired (m.insertColor first rounds x) (plug ctx (bin s .red a x b)) := by
  induction rounds generalizing m ctx a b x s h with
  | zero =>
    obtain rfl := List.length_eq_zero_iff.mp (Nat.le_zero.mp hrounds)
    rw [insertColor_done (by simp) hrep]
    exact blackenRoot_spec hrep (ha.blackBin hb)
  | succ rounds ih =>
    cases hctx with
    | root =>
      rw [insertColor_done (by simp) hrep]
      exact blackenRoot_spec hrep (ha.blackBin hb)
    | black hsibling hctx =>
      obtain ⟨k, hbalanced⟩ := (CtxBalanced.black hsibling hctx).plug (ha.redBin hb)
      exact insertColor_balanced (by simp) hrep hbalanced
    | @red fs p d _ _ hd hctx =>
      cases hctx with
      | @black gs g u ctx _ cu _ hu hctx =>
        -- What the loop reads: the parent, the grandparent, the uncle.
        obtain ⟨hbin, ⟨⟨hpparent, hpx, hpd, hpcolor⟩, -, ⟨-, hgp, hgu, -⟩, hholdsu, -⟩, hnodup⟩ :=
          represents_plug.mp hrep
        obtain ⟨⟨hxparent, -⟩, -⟩ := holds_bin.mp hbin
        rw [top_bin] at hpx
        simp only [ctxAddrs, List.nodup_append, List.nodup_cons, List.mem_append, List.mem_cons,
          not_or] at hnodup
        have hxd : d.top ≠ some x :=
          top_ne fun hmem => hnodup.2.2 x (mem_bin.mpr (.inl rfl)) x (.inr (.inl hmem)) rfl
        have hpu : u.top ≠ some p := top_ne fun hmem => hnodup.2.1.1.2.2.1 hmem
        have hside : (if (m.node g).left = some p then Side.left else Side.right) = gs := by
          cases gs with
          | left => exact if_pos hgp
          | right =>
            have hleft : (m.node g).left = u.top := hgu
            exact if_neg (hleft ▸ hpu)
        have huncle := redUncle_eq (s := gs) hgu hholdsu hu
        unfold RbMem.insertColor
        simp only [hxparent, hpcolor, hpparent, above_cons, hside, huncle]
        rw [if_neg (by simp)]
        cases hu with
        | @red ul ur v _ hul hur =>
          -- A red uncle: the colours are pushed down, and the grandparent is the new red node.
          simp only [if_true, top]
          have hv : Represents (m.paint v .black) (plug (⟨gs, .black, g, bin .left .black ul v ur⟩ ::
              ctx) (bin fs .red (bin s .red a x b) p d)) := by
            have hfocus : Represents m (plug (⟨gs.other, .black, g,
                bin fs .red (bin s .red a x b) p d⟩ :: ctx) (bin .left .red ul v ur)) := by
              rw [plug_across]
              exact hrep
            have hpainted := hfocus.paint .black
            rwa [plug_across] at hpainted
          have hp : Represents ((m.paint v .black).paint p .black)
              (plug ctx (bin gs .black (bin fs .black (bin s .red a x b) p d) g
                (bin .left .black ul v ur))) := hv.paint .black
          apply (ih (hp.paint .red) ((ha.redBin hb).blackBin hd) (.black hul hur) hctx (by
            simp only [List.length_cons] at hrounds
            omega)).congr
          apply toList_plug_congr
          calc _ = (bin gs .black (bin fs .black (bin s .red a x b) p d) g
                (bin .left .black ul v ur)).toList := toList_recolor ..
            _ = _ := toList_bin_congr _ _ _ (toList_recolor ..) (toList_recolor .left ..)
        | leaf => exact repair_black_uncle hrep ha hb hd .leaf hctx hpx (by rwa [hpd])
        | black hul hur => exact repair_black_uncle hrep ha hb hd (.black hul hur) hctx hpx (by rwa [hpd])

/-- **Insertion.** A fresh node goes between the nodes that send the descent right and
those that send it left, and the tree is a red-black tree again. -/
theorem insert_spec {goLeft : P → Bool} {hops : Nat} {before after : List P}
    (hrep : Represents m t) (hbalanced : Balanced t .black h) (hx : x ∉ t.toList)
    (hhops : t.toList.length ≤ hops) (hrounds : t.toList.length ≤ rounds)
    (hsplit : t.toList = before ++ after) (hbefore : ∀ y ∈ before, goLeft y = false)
    (hafter : ∀ y ∈ after, goLeft y = true) :
    ∃ slot m' t', m.descend goLeft hops none = some slot ∧
      (m.linkNode slot x).insertColor first rounds x = some m' ∧ Represents m' t' ∧
      t'.toList = before ++ x :: after ∧ ∃ k, Balanced t' .black k := by
  have hroot : Represents m (plug [] t) := hrep
  obtain ⟨inner, hdescend, rfl, hlist⟩ := descend_spec hroot hhops hsplit hbefore hafter
  rw [List.append_nil] at hdescend
  obtain ⟨c, k, hctx, hleaf⟩ := hbalanced.hole
  cases hleaf
  have hlinked := hrep.linkNode (s := .left) hx
  have hrepaired : Repaired ((m.linkNode (slotOf inner) x).insertColor first rounds x) _ :=
    insertColor_spec hlinked .leaf .leaf hctx ((length_ctx_le inner leaf).trans hrounds)
  obtain ⟨m', t', hrun, hrep', horder, hbalanced'⟩ := hrepaired
  exact ⟨_, m', t', hdescend, hrun, hrep', horder.trans (hlist x), hbalanced'⟩

omit [DecidableEq P] in
/-- A sorted list, cut behind the keys up to `k`. -/
theorem sorted_split {κ : Type*} [LinearOrder κ] {key : P → κ} {l : List P} (k : κ)
    (hsorted : l.Pairwise fun y z => key y ≤ key z) :
    ∃ before after, l = before ++ after ∧ (∀ y ∈ before, key y ≤ k) ∧ ∀ y ∈ after, k < key y := by
  induction l with
  | nil => exact ⟨[], [], rfl, by simp, by simp⟩
  | cons y l ih =>
    obtain ⟨hy, hl⟩ := List.pairwise_cons.mp hsorted
    by_cases hk : key y ≤ k
    · obtain ⟨before, after, rfl, hbefore, hafter⟩ := ih hl
      refine ⟨y :: before, after, rfl, ?_, hafter⟩
      intro z hz
      rcases List.mem_cons.mp hz with rfl | hmem
      · exact hk
      · exact hbefore z hmem
    · refine ⟨[], y :: l, rfl, by simp, ?_⟩
      intro z hz
      rcases List.mem_cons.mp hz with rfl | hmem
      · exact lt_of_not_ge hk
      · exact (lt_of_not_ge hk).trans_le (hy z hmem)

/-- **Insertion by key.** The fresh node goes behind all nodes with a key up to its own,
and before the others. -/
theorem insert_sorted {κ : Type*} [LinearOrder κ] {key : P → κ} {hops : Nat} (first : Side → Side)
    (hrep : Represents m t) (hbalanced : Balanced t .black h) (hx : x ∉ t.toList)
    (hsorted : t.toList.Pairwise fun y z => key y ≤ key z)
    (hhops : t.toList.length ≤ hops) (hrounds : t.toList.length ≤ rounds) :
    ∃ slot m' t' before after, m.descend (fun y => decide (key x < key y)) hops none = some slot ∧
      (m.linkNode slot x).insertColor first rounds x = some m' ∧ Represents m' t' ∧
      (∃ k, Balanced t' .black k) ∧ t.toList = before ++ after ∧
      t'.toList = before ++ x :: after ∧ (∀ y ∈ before, key y ≤ key x) ∧
      ∀ y ∈ after, key x < key y := by
  obtain ⟨before, after, hsplit, hbefore, hafter⟩ := sorted_split (key x) hsorted
  obtain ⟨slot, m', t', hdescend, hrun, hrep', hlist, hbalanced'⟩ :=
    insert_spec hrep hbalanced hx hhops hrounds hsplit
      (fun y hy => decide_eq_false (not_lt.mpr (hbefore y hy)))
      (fun y hy => decide_eq_true (hafter y hy))
  exact ⟨slot, m', t', before, after, hdescend, hrun, hrep', hbalanced', hsplit, hlist, hbefore,
    hafter⟩

omit [DecidableEq P] in
/-- A list stays sorted with a key put between its smaller and its larger ones. -/
theorem sorted_insert {κ : Type*} [LinearOrder κ] {key : P → κ} {before after : List P}
    (hsorted : (before ++ after).Pairwise fun y z => key y ≤ key z)
    (hbefore : ∀ y ∈ before, key y ≤ key x) (hafter : ∀ y ∈ after, key x ≤ key y) :
    (before ++ x :: after).Pairwise fun y z => key y ≤ key z := by
  obtain ⟨hb, ha, hba⟩ := List.pairwise_append.mp hsorted
  refine List.pairwise_append.mpr ⟨hb, List.pairwise_cons.mpr ⟨hafter, ha⟩, ?_⟩
  intro y hy z hz
  rcases List.mem_cons.mp hz with rfl | hmem
  · exact hbefore y hy
  · exact hba y hy z hmem

omit [DecidableEq P] in
/-- A list stays sorted when one key grows, as far as the keys behind it. -/
theorem sorted_rekey {κ : Type*} [LinearOrder κ] {key key' : P → κ} {before after : List P}
    (hsorted : (before ++ x :: after).Pairwise fun y z => key y ≤ key z)
    (hx : x ∉ before ++ after) (hothers : ∀ y, y ≠ x → key' y = key y) (hup : key x ≤ key' x)
    (hafter : ∀ y ∈ after, key' x ≤ key y) :
    (before ++ x :: after).Pairwise fun y z => key' y ≤ key' z := by
  have hkey : ∀ y ∈ before ++ after, key' y = key y :=
    fun y hy => hothers y (ne_of_mem_of_not_mem hy hx)
  have hrest : (before ++ after).Pairwise fun y z => key' y ≤ key' z := by
    have hsub : (before ++ after).Sublist (before ++ x :: after) :=
      (List.sublist_cons_self x after).append_left before
    apply (hsorted.sublist hsub).imp_of_mem
    intro y z hy hz hle
    rwa [hkey y hy, hkey z hz]
  apply sorted_insert hrest
  · intro y hy
    rw [hkey y (List.mem_append_left _ hy)]
    have hle := (List.pairwise_append.mp hsorted).2.2 y hy x List.mem_cons_self
    exact hle.trans hup
  · intro y hy
    rw [hkey y (List.mem_append_right _ hy)]
    exact hafter y hy

end Repair

/-! ### The first node -/

/-- **The leftmost node** is the first in order. -/
theorem Holds.walkLast_left {m : RbMem P} {p : Option P} {c : Color} {l r : RbTree P} {y : P}
    {hops : Nat} (h : Holds m p (node c l y r)) (hhops : (node c l y r).toList.length ≤ hops) :
    ∃ x rest, (node c l y r).toList = x :: rest ∧
      walkLast (fun z => (m.node z).left) hops y = some x := by
  induction l generalizing p c y r hops with
  | leaf =>
    obtain ⟨hops, rfl⟩ := Nat.exists_eq_add_one_of_ne_zero (Nat.ne_zero_of_lt hhops)
    have hleft : (m.node y).left = none := congrArg RbNode.left h.1
    exact ⟨y, _, rfl, by simp only [walkLast, hleft]⟩
  | node c' l' z r' ih =>
    rw [toList, List.length_append, List.length_cons] at hhops
    obtain ⟨hops, rfl⟩ : ∃ k, hops = k + 1 := Nat.exists_eq_add_one_of_ne_zero (by omega)
    have hleft : (m.node y).left = some z := congrArg RbNode.left h.1
    have hhops' : (node c' l' z r').toList.length ≤ hops := by omega
    obtain ⟨x, rest, hlist, hwalk⟩ := ih h.2.1 hhops'
    refine ⟨x, rest ++ y :: r.toList, ?_, ?_⟩
    · rw [toList, hlist, List.cons_append]
    · simp only [walkLast, hleft]
      exact hwalk

end ArmKernel.Support

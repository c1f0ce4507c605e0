/-
The skip-list index of the key-value store (`src/index.c`).

The nodes live at the addresses `Fin n`. A node has `maxLevel` forward pointers; it is
on the lists of the levels below its own level, and the header is on all of them. Both
`skiplistFind` and `skiplistInsert` go down the levels and on each level along the list
as long as the next key is smaller: `Shape.updateLoop_spec` and `findLoop_eq` say that this
gets to the last smaller key of every level. The walks have a bound on the hops, and
`none` is a walk that goes on, or a read of an entry of `update` that was never written.

`Shape` is the invariant: one sorted list of nodes, of which level `i` holds those of a
higher level than `i`.
-/
import ArmKernel.Kv.Transaction
import ArmKernel.Support.Chain
import Mathlib.Data.List.TakeWhile

namespace ArmKernel.Kv

open ArmKernel.Support

/-- `MAX_LEVEL`. -/
def maxLevel : Nat := 32

/-- `skiplist_node_t`, less its forward pointers. -/
structure SkipNode where
  key : Key
  valueOffset : Int
  valueLen : Nat
  level : Nat

/-- The memory of the index: the nodes, their forward pointers, and which addresses
`calloc` has given out. -/
structure SkipMem (n : Nat) where
  node : Fin n → SkipNode
  forward : Fin n → Nat → Option (Fin n)
  allocated : Fin n → Bool

/-- `skiplist_t`, less its lock. `size` counts nodes in memory and does not wrap. -/
structure SkipList (n : Nat) extends SkipMem n where
  header : Fin n
  level : Nat
  size : Nat

variable {n : Nat}

/-- The pointers of one level. -/
def SkipMem.next (mem : SkipMem n) (i : Nat) : Fin n → Option (Fin n) := fun x => mem.forward x i

/-- `create_node`. `node` is the result of `calloc`, `keyOk` the success of `malloc`. -/
def createNode (mem : SkipMem n) (level : Nat) (key : Key) (valueOffset : Int) (valueLen : Nat)
    (node : Option (Fin n)) (keyOk : Bool) : Option (Fin n) × SkipMem n :=
  match node with
  | none => (none, mem)
  | some x =>
    if !keyOk then (none, mem)
    else
      (some x,
        { node := Function.update mem.node x { key, valueOffset, valueLen, level }
          forward := Function.update mem.forward x fun _ => none
          allocated := Function.update mem.allocated x true })

/-- The loop of `random_level`, which may still raise the level `rounds` times.
`coins` are the outcomes of its test of `rand`. -/
def randomLevelLoop (coins : Nat → Bool) : (rounds level : Nat) → Nat
  | 0, level => level
  | rounds + 1, level =>
    if coins level then randomLevelLoop coins rounds (level + 1) else level

/-- `random_level`. -/
def randomLevel (coins : Nat → Bool) : Nat := randomLevelLoop coins (maxLevel - 1) 1

/-- `skiplist_create`, when its allocations succeed; `header` is the node it creates. -/
def skiplistCreate (mem : SkipMem n) (header : Fin n) : SkipList n :=
  let (_, mem) := createNode mem maxLevel [] 0 0 (some header) true
  { mem with header, level := 1, size := 0 }

section Compare

variable (compare : Key → Key → Int)

/-- `compare(node->key, key) < 0`. -/
def SkipMem.before (mem : SkipMem n) (key : Key) (x : Fin n) : Bool :=
  decide (compare (mem.node x).key key < 0)

/-- The inner loop of both searches. -/
def SkipMem.advance (mem : SkipMem n) (key : Key) (i : Nat) (x : Fin n) : Option (Fin n) :=
  walkWhile (mem.next i) (mem.before compare key) n x

/-- The loop of `skiplist_find` over the levels, from the given one down. -/
def findLoop (mem : SkipMem n) (key : Key) : (levels : Nat) → Fin n → Option (Fin n)
  | 0, x => some x
  | i + 1, x => (mem.advance compare key i x).bind (findLoop mem key i)

/-- The node behind the one that the search ended at, if its key is the one looked for. -/
def SkipMem.hit (mem : SkipMem n) (key : Key) (x : Fin n) : Option (Fin n) :=
  (mem.forward x 0).filter fun y => decide (compare (mem.node y).key key = 0)

/-- `skiplist_find`. -/
def skiplistFind (list : SkipList n) (key : Key) : Option (Option (Fin n)) :=
  (findLoop compare list.toSkipMem key list.level list.header).map
    (list.toSkipMem.hit compare key)

/-- The array `update`; an entry that was not written is `none`. -/
abbrev UpdateArray (n : Nat) := Nat → Option (Fin n)

/-- The loop of `skiplist_insert` over the levels, from the given one down. -/
def updateLoop (mem : SkipMem n) (key : Key) :
    (levels : Nat) → Fin n → UpdateArray n → Option (Fin n × UpdateArray n)
  | 0, x, update => some (x, update)
  | i + 1, x, update =>
    (mem.advance compare key i x).bind fun y =>
      updateLoop mem key i y (Function.update update i (some y))

/-- `for (i = list->level; i < level; i++) update[i] = list->header`. -/
def raiseUpdate (update : UpdateArray n) (header : Fin n) (level level' : Nat) : UpdateArray n :=
  fun i => if level ≤ i ∧ i < level' then some header else update i

/-- The first `count` rounds of the loop that links the new node `x` in. -/
def linkLoop (x : Fin n) (update : UpdateArray n) : (count : Nat) → SkipMem n →
    Option (SkipMem n)
  | 0, mem => some mem
  | i + 1, mem =>
    (linkLoop x update i mem).bind fun mem =>
      (update i).map fun prev =>
        let forward := Function.update mem.forward x
          (Function.update (mem.forward x) i (mem.forward prev i))
        { mem with
          forward := Function.update forward prev (Function.update (forward prev) i (some x)) }

/-- The arguments of `skiplist_insert`, and what its environment does: the outcomes of
`rand`, and the allocations of `create_node`. -/
structure InsertCall (n : Nat) where
  key : Key
  valueOffset : Int
  valueLen : Nat
  coins : Nat → Bool
  node : Option (Fin n)
  keyOk : Bool

/-- `skiplist_insert`, when the search ended at `prev`. -/
def insertAt (list : SkipList n) (call : InsertCall n) (prev : Fin n) (update : UpdateArray n) :
    Option (Code × SkipList n) :=
  match list.toSkipMem.hit compare call.key prev with
  | some y =>
    -- The key is there: the value is overwritten.
    let node := Function.update list.node y
      { list.node y with valueOffset := call.valueOffset, valueLen := call.valueLen }
    some (.ok, { list with node })
  | none =>
    let level := randomLevel call.coins
    let update :=
      if list.level < level then raiseUpdate update list.header list.level level else update
    let list := if list.level < level then { list with level } else list
    match createNode list.toSkipMem level call.key call.valueOffset call.valueLen call.node
        call.keyOk with
    | (none, _) => some (.io, list)
    | (some x, mem) =>
      (linkLoop x update level mem).map fun mem =>
        (.ok, { mem with header := list.header, level := list.level, size := list.size + 1 })

/-- `skiplist_insert`. -/
def skiplistInsert (list : SkipList n) (call : InsertCall n) : Option (Code × SkipList n) :=
  (updateLoop compare list.toSkipMem call.key list.level list.header fun _ => none).bind
    fun found => insertAt compare list call found.1 found.2

end Compare

/-! ### The level of a new node -/

theorem randomLevelLoop_bounds (coins : Nat → Bool) (rounds level : Nat) :
    level ≤ randomLevelLoop coins rounds level ∧
      randomLevelLoop coins rounds level ≤ level + rounds := by
  induction rounds generalizing level with
  | zero => exact ⟨Nat.le_refl _, Nat.le_refl _⟩
  | succ rounds ih =>
    rw [randomLevelLoop]
    split
    · obtain ⟨hlow, hhigh⟩ := ih (level + 1)
      exact ⟨Nat.le_of_succ_le hlow, by rwa [Nat.add_right_comm, Nat.add_assoc] at hhigh⟩
    · exact ⟨Nat.le_refl _, Nat.le_add_right _ _⟩

theorem one_le_randomLevel (coins : Nat → Bool) : 1 ≤ randomLevel coins :=
  (randomLevelLoop_bounds coins _ 1).1

theorem randomLevel_le (coins : Nat → Bool) : randomLevel coins ≤ maxLevel :=
  (randomLevelLoop_bounds coins (maxLevel - 1) 1).2

/-- The loop stops at the first coin that does not raise the level. -/
theorem randomLevelLoop_eq {rounds level top : Nat} (hlow : level ≤ top)
    (hhigh : top ≤ level + rounds) :
    randomLevelLoop (fun i => decide (i < top)) rounds level = top := by
  induction rounds generalizing level with
  | zero => exact Nat.le_antisymm hlow hhigh
  | succ rounds ih =>
    rw [randomLevelLoop]
    rcases Nat.lt_or_eq_of_le hlow with hlt | rfl
    · rw [if_pos (decide_eq_true hlt)]
      exact ih hlt (by rwa [Nat.add_right_comm, Nat.add_assoc])
    · rw [if_neg (by simp)]

/-- A new node gets any level from 1 to `maxLevel`, and no other. -/
theorem exists_randomLevel_iff (level : Nat) :
    (∃ coins, randomLevel coins = level) ↔ 1 ≤ level ∧ level ≤ maxLevel := by
  constructor
  · rintro ⟨coins, rfl⟩
    exact ⟨one_le_randomLevel coins, randomLevel_le coins⟩
  · rintro ⟨hlow, hhigh⟩
    exact ⟨_, randomLevelLoop_eq hlow hhigh⟩

/-! ### The order of the keys -/

/-- The comparison function is a total order. -/
structure TotalOrder (compare : Key → Key → Int) : Prop where
  eq_zero : ∀ a b, compare a b = 0 ↔ a = b
  antisymm : ∀ a b, compare a b < 0 ↔ 0 < compare b a
  trans : ∀ a b c, compare a b < 0 → compare b c < 0 → compare a c < 0

variable {compare : Key → Key → Int}

theorem TotalOrder.irrefl (order : TotalOrder compare) (a : Key) : ¬ compare a a < 0 := by
  rw [(order.eq_zero a a).mpr rfl]
  exact Int.lt_irrefl 0

/-- The keys of a list of nodes ascend. -/
def Ascending (compare : Key → Key → Int) (mem : SkipMem n) (l : List (Fin n)) : Prop :=
  l.Pairwise fun x y => compare (mem.node x).key (mem.node y).key < 0

/-- The nodes with a smaller key, and the rest. -/
def SkipMem.less (mem : SkipMem n) (compare : Key → Key → Int) (key : Key) (l : List (Fin n)) :
    List (Fin n) :=
  l.takeWhile (mem.before compare key)

def SkipMem.rest (mem : SkipMem n) (compare : Key → Key → Int) (key : Key) (l : List (Fin n)) :
    List (Fin n) :=
  l.dropWhile (mem.before compare key)

theorem less_append_rest (compare : Key → Key → Int) (mem : SkipMem n) (key : Key) (l : List (Fin n)) :
    mem.less compare key l ++ mem.rest compare key l = l :=
  List.takeWhile_append_dropWhile

theorem before_of_mem_less {mem : SkipMem n} {key : Key} {l : List (Fin n)} {x : Fin n}
    (hx : x ∈ mem.less compare key l) : mem.before compare key x = true :=
  List.mem_takeWhile_imp hx

/-- No key of the rest is smaller: the first one is not, and those behind it are larger
than the first. -/
theorem Ascending.not_before {mem : SkipMem n} {key : Key} {l : List (Fin n)} {x : Fin n}
    (h : Ascending compare mem l) (order : TotalOrder compare)
    (hx : x ∈ mem.rest compare key l) : mem.before compare key x = false := by
  induction l with
  | nil => exact absurd hx List.not_mem_nil
  | cons y l ih =>
    obtain ⟨hhead, htail⟩ := List.pairwise_cons.mp h
    rw [SkipMem.rest, List.dropWhile_cons] at hx
    split at hx
    · exact ih htail hx
    · rename_i hy
      have hyfalse : mem.before compare key y = false := Bool.eq_false_iff.mpr hy
      rcases List.mem_cons.mp hx with rfl | hx
      · exact hyfalse
      · refine decide_eq_false fun hlt => of_decide_eq_false hyfalse ?_
        exact order.trans _ _ _ (hhead x hx) hlt

/-- The key is larger than those of the first part, and not larger than those of the rest. -/
theorem Ascending.le_of_mem_rest {mem : SkipMem n} {key : Key} {l : List (Fin n)} {x : Fin n}
    (h : Ascending compare mem l) (order : TotalOrder compare)
    (hx : x ∈ mem.rest compare key l) :
    (mem.node x).key = key ∨ compare key (mem.node x).key < 0 := by
  have hge : ¬ compare (mem.node x).key key < 0 := of_decide_eq_false (h.not_before order hx)
  rcases Int.lt_or_eq_of_le (Int.not_lt.mp hge) with hlt | heq
  · exact .inr ((order.antisymm _ _).mpr hlt)
  · exact .inl ((order.eq_zero _ _).mp heq.symm)

/-- The first node of the rest has the key, or no node has. -/
theorem Ascending.head_rest {mem : SkipMem n} {l : List (Fin n)} (h : Ascending compare mem l)
    (order : TotalOrder compare) (key : Key) :
    ((mem.rest compare key l).head?.filter fun y => decide (compare (mem.node y).key key = 0)) =
      l.find? fun y => decide ((mem.node y).key = key) := by
  have hless : (mem.less compare key l).find? (fun y => decide ((mem.node y).key = key)) = none := by
    refine List.find?_eq_none.mpr ?_
    intro y hy heq
    have hlt := of_decide_eq_true (before_of_mem_less hy)
    rw [of_decide_eq_true heq] at hlt
    exact order.irrefl key hlt
  have hrest : ∀ x ∈ mem.rest compare key l,
      (mem.node x).key = key ∨ compare key (mem.node x).key < 0 := fun x hx =>
    h.le_of_mem_rest order hx
  have hasc : Ascending compare mem (mem.rest compare key l) := h.sublist (List.dropWhile_sublist _)
  conv_rhs => rw [← less_append_rest compare mem key l, List.find?_append, hless]
  cases hr : mem.rest compare key l with
  | nil => rfl
  | cons y r =>
    rw [hr] at hasc hrest
    simp only [List.head?_cons, Option.filter_some, order.eq_zero, Option.none_or, List.find?_cons]
    split
    · rename_i heq
      rw [heq]
    · rename_i hne
      rw [Bool.not_eq_true] at hne
      rw [hne]
      -- The key is below that of `y`, and so below all of the rest.
      have hlt := (hrest y List.mem_cons_self).resolve_left (of_decide_eq_false hne)
      refine (List.find?_eq_none.mpr ?_).symm
      intro z hz heq
      have hyz := (List.pairwise_cons.mp hasc).1 z hz
      rw [of_decide_eq_true heq] at hyz
      exact order.irrefl key (order.trans _ _ _ hlt hyz)

/-! ### The lists of the levels -/

/-- The nodes of level `i`. -/
def SkipMem.onLevel (mem : SkipMem n) (i : Nat) (l : List (Fin n)) : List (Fin n) :=
  l.filter fun x => decide (i < (mem.node x).level)

theorem mem_onLevel {mem : SkipMem n} {i : Nat} {l : List (Fin n)} {x : Fin n} :
    x ∈ mem.onLevel i l ↔ x ∈ l ∧ i < (mem.node x).level := by
  simp [SkipMem.onLevel]

theorem onLevel_append (mem : SkipMem n) (i : Nat) (l r : List (Fin n)) :
    mem.onLevel i (l ++ r) = mem.onLevel i l ++ mem.onLevel i r :=
  List.filter_append ..

/-- A node of one level is on the lists below, too. -/
theorem onLevel_succ_sublist (mem : SkipMem n) (i : Nat) (l : List (Fin n)) :
    (mem.onLevel (i + 1) l).Sublist (mem.onLevel i l) := by
  apply List.monotone_filter_right l
  intro x hx
  exact decide_eq_true (Nat.lt_of_succ_lt (of_decide_eq_true hx))

/-- The nodes `l` make up the index: their keys ascend, and level `i` is a chain of those
with a higher level than `i`. -/
structure Shape (compare : Key → Key → Int) (list : SkipList n) (l : List (Fin n)) : Prop where
  chain : ∀ i, i < maxLevel →
    Chain (list.next i) (some list.header) (list.header :: list.onLevel i l)
  ascending : Ascending compare list.toSkipMem l
  node_level : ∀ x ∈ l, 1 ≤ (list.node x).level ∧ (list.node x).level ≤ list.level
  one_le_level : 1 ≤ list.level
  level_le : list.level ≤ maxLevel
  size : list.size = l.length
  allocated : ∀ x ∈ list.header :: l, list.allocated x = true

variable {list : SkipList n} {l : List (Fin n)}

theorem Shape.onLevel_zero (h : Shape compare list l) {r : List (Fin n)} (sub : ∀ x ∈ r, x ∈ l) :
    list.onLevel 0 r = r :=
  List.filter_eq_self.mpr fun x hx => decide_eq_true (h.node_level x (sub x hx)).1

/-- No node is on a level from the level of the list on. -/
theorem Shape.onLevel_eq_nil (h : Shape compare list l) {i : Nat} (hi : list.level ≤ i)
    {r : List (Fin n)} (sub : ∀ x ∈ r, x ∈ l) : list.onLevel i r = [] := by
  apply List.filter_eq_nil_iff.mpr
  intro x hx hlt
  have hlevel := (h.node_level x (sub x hx)).2
  exact absurd (of_decide_eq_true hlt) (Nat.not_lt.mpr (hlevel.trans hi))

theorem mem_of_mem_less {mem : SkipMem n} {key : Key} {x : Fin n}
    (hx : x ∈ mem.less compare key l) : x ∈ l :=
  (List.takeWhile_sublist _).mem hx

theorem mem_of_mem_rest {mem : SkipMem n} {key : Key} {x : Fin n}
    (hx : x ∈ mem.rest compare key l) : x ∈ l :=
  (List.dropWhile_sublist _).mem hx

/-- The last node of level `i` with a smaller key, or the header. -/
def SkipList.pred (list : SkipList n) (compare : Key → Key → Int) (key : Key) (l : List (Fin n))
    (i : Nat) : Fin n :=
  (list.onLevel i (list.less compare key l)).getLastD list.header

/-- Level `i`, cut behind the last smaller key. -/
theorem Shape.chain_cut (h : Shape compare list l) (key : Key) {i : Nat} (hi : i < maxLevel) :
    Chain (list.next i) (some list.header)
      (list.header ::
        (list.onLevel i (list.less compare key l) ++ list.onLevel i (list.rest compare key l))) := by
  rw [← onLevel_append, less_append_rest]
  exact h.chain i hi

/-- On each level the inner loop ends at the last smaller key, wherever on the way to it
it begins. -/
theorem Shape.advance_eq (h : Shape compare list l) (order : TotalOrder compare) (key : Key)
    {i : Nat} (hi : i < maxLevel) {x : Fin n}
    (hx : x ∈ list.header :: list.onLevel i (list.less compare key l)) :
    list.advance compare key i x = some (list.pred compare key l i) := by
  have hchain := h.chain_cut key hi
  have hlen : (list.onLevel i (list.less compare key l)).length ≤ n := by
    have hcard := hchain.length_le
    rw [Fintype.card_fin] at hcard
    simp only [List.length_cons, List.length_append] at hcard
    exact Nat.le_trans (Nat.le_add_right _ _) (Nat.le_of_succ_le hcard)
  have hless : ∀ z ∈ list.onLevel i (list.less compare key l), list.before compare key z = true :=
    fun z hz => before_of_mem_less (mem_onLevel.mp hz).1
  have hrest : ∀ z, (list.onLevel i (list.rest compare key l)).head? = some z →
      list.before compare key z = false := fun z hz =>
    h.ascending.not_before order (mem_onLevel.mp (List.mem_of_head? hz)).1
  rw [SkipMem.advance, hchain.walkWhile_eq hless hrest hx hlen, List.getLast_eq_getLastD]
  rfl

/-- The node that the search leaves a level at is on the next level down. -/
theorem pred_mem_level (key : Key) (i : Nat) :
    list.pred compare key l i ∈ list.header :: list.onLevel i (list.less compare key l) :=
  List.getLastD_mem_cons

theorem pred_succ_mem (key : Key) (i : Nat) :
    list.pred compare key l (i + 1) ∈
      list.header :: list.onLevel i (list.less compare key l) :=
  ((onLevel_succ_sublist ..).cons_cons _).mem (pred_mem_level key (i + 1))

/-- The nodes of a level, cut at the last smaller key. -/
theorem pred_cut (key : Key) (i : Nat) (r : List (Fin n)) :
    list.header :: (list.onLevel i (list.less compare key l) ++ r) =
      (list.header :: list.onLevel i (list.less compare key l)).dropLast ++
        list.pred compare key l i :: r := by
  have hlast := List.dropLast_append_getLast
    (List.cons_ne_nil list.header (list.onLevel i (list.less compare key l)))
  rw [List.getLast_eq_getLastD] at hlast
  rw [← List.cons_append, ← hlast]
  simp [SkipList.pred]

/-- **The search of `skiplist_insert`.** It writes the last smaller key of every level it
visits, and ends at that of level 0. -/
theorem Shape.updateLoop_spec (h : Shape compare list l) (order : TotalOrder compare) (key : Key)
    {i : Nat} (hi : i < maxLevel) {x : Fin n} (update : UpdateArray n)
    (hx : x ∈ list.header :: list.onLevel i (list.less compare key l)) :
    updateLoop compare list.toSkipMem key (i + 1) x update =
      some (list.pred compare key l 0,
        fun j => if j < i + 1 then some (list.pred compare key l j) else update j) := by
  induction i generalizing x update with
  | zero =>
    rw [updateLoop, h.advance_eq order key hi hx, Option.bind_some, updateLoop]
    congr 2
    funext j
    by_cases hj : j = 0
    · simp [hj]
    · simp [hj]
  | succ i ih =>
    rw [updateLoop, h.advance_eq order key hi hx, Option.bind_some,
      ih (Nat.lt_of_succ_lt hi) _ (pred_succ_mem key i)]
    congr 2
    funext j
    rcases Nat.lt_trichotomy j (i + 1) with hlt | rfl | hgt
    · rw [if_pos hlt, if_pos (Nat.lt_succ_of_lt hlt)]
    · rw [if_neg (Nat.lt_irrefl _), if_pos (Nat.lt_succ_self _), Function.update_self]
    · rw [if_neg (Nat.lt_asymm hgt), if_neg (Nat.not_lt.mpr hgt),
        Function.update_of_ne (Nat.ne_of_gt hgt)]

/-- `skiplist_find` visits the nodes that `skiplist_insert` visits. -/
theorem findLoop_eq (mem : SkipMem n) (key : Key) (levels : Nat) (x : Fin n)
    (update : UpdateArray n) :
    findLoop compare mem key levels x =
      (updateLoop compare mem key levels x update).map Prod.fst := by
  induction levels generalizing x update with
  | zero => rfl
  | succ i ih =>
    rw [findLoop, updateLoop]
    cases mem.advance compare key i x with
    | none => rfl
    | some y => exact ih y _

/-- The node behind the place of the key is the first one that is not smaller. -/
theorem Shape.hit_eq (h : Shape compare list l) (order : TotalOrder compare) (key : Key) :
    list.hit compare key (list.pred compare key l 0) =
      l.find? fun y => decide ((list.node y).key = key) := by
  have hcut := h.chain_cut key (i := 0) (by decide)
  rw [pred_cut] at hcut
  have hnext := hcut.next_eq
  rw [h.onLevel_zero fun x => mem_of_mem_rest] at hnext
  rw [SkipMem.hit, show list.forward (list.pred compare key l 0) 0 = _ from hnext]
  exact h.ascending.head_rest order key

/-- The search of a whole list ends at the place of the key. -/
theorem Shape.search (h : Shape compare list l) (order : TotalOrder compare) (key : Key)
    (update : UpdateArray n) :
    updateLoop compare list.toSkipMem key list.level list.header update =
      some (list.pred compare key l 0,
        fun j => if j < list.level then some (list.pred compare key l j) else update j) := by
  obtain ⟨i, hi⟩ := Nat.exists_eq_add_one_of_ne_zero (Nat.ne_zero_of_lt h.one_le_level)
  have hlt : i < maxLevel := by
    have := h.level_le
    omega
  rw [hi]
  exact h.updateLoop_spec order key hlt update List.mem_cons_self

/-- **Lookup.** `skiplist_find` finds the node with the key. -/
theorem Shape.find_eq (h : Shape compare list l) (order : TotalOrder compare) (key : Key) :
    skiplistFind compare list key =
      some (l.find? fun y => decide ((list.node y).key = key)) := by
  rw [skiplistFind, findLoop_eq _ _ _ _ fun _ => none, h.search order, Option.map_some,
    Option.map_some, h.hit_eq order]

end ArmKernel.Kv

/-
Runs of the skip-list index.

`linkLoop_eq` says what linking a new node in leaves of the pointers, and
`Shape.insert_spec` what a whole `skiplistInsert` does: it overwrites the value of the
node with the key, puts a new node between the smaller keys and the rest, or fails and
changes at most the level of the list. `Indexed` adds to the list the map that the calls
so far describe, and `skiplist_refines_map` says that the two agree along every run.
-/
import ArmKernel.Kv.Index
import ArmKernel.Support.Run

namespace ArmKernel.Kv

open ArmKernel.Support

variable {n : Nat} {compare : Key → Key → Int} {list : SkipList n} {l : List (Fin n)}

/-! ### Linking a new node in -/

/-- The pointers, with `x` linked in behind `pred i` on each level `i` below `count`. -/
def linked (forward : Fin n → Nat → Option (Fin n)) (x : Fin n) (pred : Nat → Fin n)
    (count : Nat) : Fin n → Nat → Option (Fin n) := fun y i =>
  if i < count then
    Function.update (Function.update (fun z => forward z i) x (forward (pred i) i)) (pred i)
      (some x) y
  else forward y i

theorem linked_zero (forward : Fin n → Nat → Option (Fin n)) (x : Fin n) (pred : Nat → Fin n) :
    linked forward x pred 0 = forward := by
  funext y i
  exact if_neg (Nat.not_lt_zero i)

/-- One round of the loop writes the pointers of its level. -/
theorem linked_succ (forward : Fin n → Nat → Option (Fin n)) (x : Fin n) (pred : Nat → Fin n)
    (i : Nat) (hx : x ≠ pred i) :
    let before := linked forward x pred i
    let copied := Function.update before x (Function.update (before x) i (before (pred i) i))
    Function.update copied (pred i) (Function.update (copied (pred i)) i (some x)) =
      linked forward x pred (i + 1) := by
  funext y j
  have hxi : pred i ≠ x := hx.symm
  by_cases hj : j = i
  · subst hj
    by_cases hy : y = pred j
    · subst hy
      simp [linked]
    · by_cases hyx : y = x
      · subst hyx
        simp [linked, hx]
      · simp [linked, hy, hyx]
  · have hlt : j < i + 1 ↔ j < i := by omega
    by_cases hy : y = pred i
    · subst hy
      simp [linked, hj, hxi, hlt]
    · by_cases hyx : y = x
      · subst hyx
        simp [linked, hj, hx, hlt]
      · simp [linked, hy, hyx, hlt]

/-- **The link loop.** Where every entry of `update` was written, it links the node in on
its levels. -/
theorem linkLoop_eq {x : Fin n} {update : UpdateArray n} {pred : Nat → Fin n} {count : Nat}
    (mem : SkipMem n) (hupdate : ∀ i, i < count → update i = some (pred i))
    (hx : ∀ i, i < count → x ≠ pred i) :
    linkLoop x update count mem =
      some { mem with forward := linked mem.forward x pred count } := by
  induction count with
  | zero =>
    rw [linkLoop, linked_zero]
  | succ i ih =>
    rw [linkLoop, ih (fun j hj => hupdate j (Nat.lt_succ_of_lt hj))
      (fun j hj => hx j (Nat.lt_succ_of_lt hj)), Option.bind_some, hupdate i (Nat.lt_succ_self i),
      Option.map_some]
    exact congrArg (fun forward => some { mem with forward })
      (linked_succ mem.forward x pred i (hx i (Nat.lt_succ_self i)))

/-! ### What an insert does -/

/-- Raising the level of the list, with nothing on the new levels. -/
theorem Shape.raise (h : Shape compare list l) {level : Nat} (hlow : list.level ≤ level)
    (hhigh : level ≤ maxLevel) : Shape compare { list with level } l where
  chain := h.chain
  ascending := h.ascending
  node_level x hx := ⟨(h.node_level x hx).1, (h.node_level x hx).2.trans hlow⟩
  one_le_level := h.one_le_level.trans hlow
  level_le := hhigh
  size := h.size
  allocated := h.allocated

/-- A node keeps its key and its level when a value is overwritten. -/
theorem key_level_update (node : Fin n → SkipNode) (y : Fin n) (valueOffset : Int) (valueLen : Nat)
    (x : Fin n) :
    (Function.update node y { node y with valueOffset, valueLen } x).key = (node x).key ∧
      (Function.update node y { node y with valueOffset, valueLen } x).level = (node x).level := by
  by_cases hx : x = y
  · subst hx
    rw [Function.update_self]
    exact ⟨rfl, rfl⟩
  · rw [Function.update_of_ne hx]
    exact ⟨rfl, rfl⟩

/-- Overwriting the value of a node. -/
theorem Shape.overwrite (h : Shape compare list l) (y : Fin n) (valueOffset : Int)
    (valueLen : Nat) :
    Shape compare
      { list with
        node := Function.update list.node y { list.node y with valueOffset, valueLen } } l := by
  have hkey := fun x => (key_level_update list.node y valueOffset valueLen x).1
  have hlevel := fun x => (key_level_update list.node y valueOffset valueLen x).2
  refine ⟨?_, ?_, ?_, h.one_le_level, h.level_le, h.size, h.allocated⟩
  · intro i hi
    simp only [SkipMem.onLevel, hlevel]
    exact h.chain i hi
  · simp only [Ascending, hkey]
    exact h.ascending
  · intro x hx
    simp only [hlevel]
    exact h.node_level x hx

/-- The list with a new node behind the smaller keys. -/
def SkipList.withNode (list : SkipList n) (compare : Key → Key → Int) (l : List (Fin n))
    (x : Fin n) (node : SkipNode) : SkipList n :=
  { node := Function.update list.node x node
    forward := linked (Function.update list.forward x fun _ => none) x
      (list.pred compare node.key l) node.level
    allocated := Function.update list.allocated x true
    header := list.header
    level := list.level
    size := list.size + 1 }

/-- The nodes in order, with a new one. -/
def SkipList.splice (list : SkipList n) (compare : Key → Key → Int) (l : List (Fin n))
    (x : Fin n) (key : Key) : List (Fin n) :=
  list.less compare key l ++ x :: list.rest compare key l

theorem Shape.notMem_of_free (h : Shape compare list l) {x : Fin n}
    (free : list.allocated x = false) : x ∉ list.header :: l := fun hmem =>
  absurd (h.allocated x hmem) (by simp [free])

theorem mem_splice {x y : Fin n} {key : Key} :
    y ∈ list.splice compare l x key ↔ y = x ∨ y ∈ l := by
  conv_rhs => rw [← less_append_rest compare list.toSkipMem key l]
  simp only [SkipList.splice, List.mem_append, List.mem_cons]
  tauto

/-- The keys still ascend. -/
theorem Shape.ascending_splice (h : Shape compare list l) (order : TotalOrder compare)
    {x : Fin n} {node : SkipNode} (free : list.allocated x = false)
    (absent : ∀ y ∈ l, (list.node y).key ≠ node.key) :
    Ascending compare (list.withNode compare l x node).toSkipMem
      (list.splice compare l x node.key) := by
  have hx : x ∉ l := fun hmem => h.notMem_of_free free (List.mem_cons_of_mem _ hmem)
  have hsame : ∀ y ∈ l, (list.withNode compare l x node).node y = list.node y := fun y hy =>
    Function.update_of_ne (fun e : y = x => hx (e ▸ hy)) _ _
  have hnew : (list.withNode compare l x node).node x = node := Function.update_self ..
  have hold := h.ascending
  rw [Ascending, ← less_append_rest compare list.toSkipMem node.key l,
    List.pairwise_append] at hold
  obtain ⟨hless, hrest, hacross⟩ := hold
  have hbelow : ∀ y ∈ list.less compare node.key l,
      compare (list.node y).key node.key < 0 := fun y hy =>
    of_decide_eq_true (before_of_mem_less hy)
  have habove : ∀ y ∈ list.rest compare node.key l,
      compare node.key (list.node y).key < 0 := fun y hy =>
    (h.ascending.le_of_mem_rest order hy).resolve_left (absent y (mem_of_mem_rest hy))
  refine List.pairwise_append.mpr ⟨?_, List.pairwise_cons.mpr ⟨?_, ?_⟩, ?_⟩
  · refine hless.imp_of_mem fun hy hz hlt => ?_
    rwa [hsame _ (mem_of_mem_less hy), hsame _ (mem_of_mem_less hz)]
  · intro y hy
    rw [hnew, hsame y (mem_of_mem_rest hy)]
    exact habove y hy
  · refine hrest.imp_of_mem fun hy hz hlt => ?_
    rwa [hsame _ (mem_of_mem_rest hy), hsame _ (mem_of_mem_rest hz)]
  · intro y hy z hz
    rw [hsame y (mem_of_mem_less hy)]
    rcases List.mem_cons.mp hz with rfl | hz
    · rw [hnew]
      exact hbelow y hy
    · rw [hsame z (mem_of_mem_rest hz)]
      exact hacross y hy z hz

/-- Level `i` of the old nodes is as it was. -/
theorem Shape.onLevel_withNode (h : Shape compare list l) {x : Fin n} {node : SkipNode}
    (free : list.allocated x = false) (i : Nat) {r : List (Fin n)} (sub : ∀ y ∈ r, y ∈ l) :
    (list.withNode compare l x node).onLevel i r = list.onLevel i r := by
  apply List.filter_congr
  intro y hy
  have hne : y ≠ x := fun e =>
    h.notMem_of_free free (List.mem_cons_of_mem _ (e ▸ sub y hy))
  simp only [SkipList.withNode, Function.update_of_ne hne]

theorem Shape.chain_withNode (h : Shape compare list l) {x : Fin n} {node : SkipNode}
    (free : list.allocated x = false) {i : Nat} (hi : i < maxLevel) :
    Chain ((list.withNode compare l x node).next i) (some list.header)
      (list.header ::
        (list.withNode compare l x node).onLevel i (list.splice compare l x node.key)) := by
  have hx := h.notMem_of_free free
  have hcut := h.chain_cut node.key hi
  have hless : ∀ y ∈ list.less compare node.key l, y ∈ l := fun y => mem_of_mem_less
  have hrest : ∀ y ∈ list.rest compare node.key l, y ∈ l := fun y => mem_of_mem_rest
  have hsub : ∀ y ∈ list.header :: (list.onLevel i (list.less compare node.key l) ++
      list.onLevel i (list.rest compare node.key l)), y ∈ list.header :: l := by
    intro y hy
    rcases List.mem_cons.mp hy with rfl | hy
    · exact List.mem_cons_self
    · rcases List.mem_append.mp hy with hy | hy
      · exact List.mem_cons_of_mem _ (hless y (mem_onLevel.mp hy).1)
      · exact List.mem_cons_of_mem _ (hrest y (mem_onLevel.mp hy).1)
  have hxcut := fun hmem => hx (hsub x hmem)
  have hnew : (list.withNode compare l x node).node x = node := Function.update_self ..
  have hfresh : Chain (fun y => Function.update list.forward x (fun _ => none) y i)
      (some list.header) (list.header :: (list.onLevel i (list.less compare node.key l) ++
        list.onLevel i (list.rest compare node.key l))) := by
    apply hcut.congr
    intro y hy
    rw [Function.update_of_ne fun e : y = x => hxcut (e ▸ hy)]
    rfl
  have hcons : x :: list.rest compare node.key l = [x] ++ list.rest compare node.key l := rfl
  rw [SkipList.splice, hcons, onLevel_append, h.onLevel_withNode free i hless, onLevel_append,
    h.onLevel_withNode free i hrest]
  by_cases hlevel : i < node.level
  · -- On its own levels the new node goes behind the last smaller key.
    have hnext : (list.withNode compare l x node).next i =
        Function.update (Function.update
          (fun y => Function.update list.forward x (fun _ => none) y i) x
            (Function.update list.forward x (fun _ => none) (list.pred compare node.key l i) i))
          (list.pred compare node.key l i) (some x) := by
      funext y
      exact if_pos hlevel
    have honly : (list.withNode compare l x node).onLevel i [x] = [x] :=
      List.filter_eq_self.mpr fun y hy => by
        obtain rfl := List.mem_singleton.mp hy
        rw [hnew]
        exact decide_eq_true hlevel
    rw [honly, hnext]
    rw [pred_cut] at hfresh hxcut ⊢
    exact hfresh.insert_after hxcut
  · -- Above them nothing is written.
    have hnext : (list.withNode compare l x node).next i =
        fun y => Function.update list.forward x (fun _ => none) y i := by
      funext y
      exact if_neg hlevel
    have hnone : (list.withNode compare l x node).onLevel i [x] = [] :=
      List.filter_eq_nil_iff.mpr fun y hy => by
        obtain rfl := List.mem_singleton.mp hy
        rw [hnew, decide_eq_false hlevel]
        exact Bool.false_ne_true
    rw [hnone, hnext]
    exact hfresh

/-- **A new node.** It keeps the shape, whatever its level. -/
theorem Shape.withNode (h : Shape compare list l) (order : TotalOrder compare) {x : Fin n}
    {node : SkipNode} (free : list.allocated x = false)
    (absent : ∀ y ∈ l, (list.node y).key ≠ node.key) (hlow : 1 ≤ node.level)
    (hhigh : node.level ≤ list.level) :
    Shape compare (list.withNode compare l x node) (list.splice compare l x node.key) where
  chain _ := h.chain_withNode free
  ascending := h.ascending_splice order free absent
  node_level y hy := by
    rcases mem_splice.mp hy with rfl | hy
    · have hnew : (list.withNode compare l y node).node y = node := Function.update_self ..
      rw [hnew]
      exact ⟨hlow, hhigh⟩
    · have hne : y ≠ x := fun e => h.notMem_of_free free (List.mem_cons_of_mem _ (e ▸ hy))
      have hold : (list.withNode compare l x node).node y = list.node y :=
        Function.update_of_ne hne ..
      rw [hold]
      exact h.node_level y hy
  one_le_level := h.one_le_level
  level_le := h.level_le
  size := by
    have hlen := congrArg List.length
      (less_append_rest compare list.toSkipMem node.key l)
    have hsize := h.size
    simp only [List.length_append] at hlen
    simp only [SkipList.withNode, SkipList.splice, List.length_append, List.length_cons]
    omega
  allocated y hy := by
    by_cases hyx : y = x
    · exact hyx ▸ Function.update_self ..
    · refine (Function.update_of_ne hyx ..).trans (h.allocated y ?_)
      rcases List.mem_cons.mp hy with rfl | hy
      · exact List.mem_cons_self
      · exact List.mem_cons_of_mem _ ((mem_splice.mp hy).resolve_left hyx)

/-- The list when `skiplist_insert` creates a node of this level. -/
def SkipList.raised (list : SkipList n) (level : Nat) : SkipList n :=
  if list.level < level then { list with level } else list

theorem raised_toSkipMem (list : SkipList n) (level : Nat) :
    (list.raised level).toSkipMem = list.toSkipMem := by
  unfold SkipList.raised
  split <;> rfl

theorem raised_header (list : SkipList n) (level : Nat) :
    (list.raised level).header = list.header := by
  unfold SkipList.raised
  split <;> rfl

theorem raised_size (list : SkipList n) (level : Nat) : (list.raised level).size = list.size := by
  unfold SkipList.raised
  split <;> rfl

theorem le_raised (list : SkipList n) (level : Nat) : level ≤ (list.raised level).level := by
  unfold SkipList.raised
  split
  · exact Nat.le_refl level
  · rename_i hle
    exact Nat.not_lt.mp hle

theorem Shape.raised (h : Shape compare list l) (coins : Nat → Bool) :
    Shape compare (list.raised (randomLevel coins)) l := by
  unfold SkipList.raised
  split
  · rename_i hlt
    exact h.raise (Nat.le_of_lt hlt) (randomLevel_le coins)
  · exact h

/-- A call comes with an address that is not in use, if with any. -/
def InsertCall.Fresh (call : InsertCall n) (list : SkipList n) : Prop :=
  ∀ x, call.node = some x → list.allocated x = false

instance (call : InsertCall n) (list : SkipList n) : Decidable (call.Fresh list) :=
  decidable_of_iff (∀ x ∈ call.node, list.allocated x = false)
    ⟨fun h x hx => h x hx, fun h x hx => h x hx⟩

/-- The node of a call. -/
def InsertCall.skipNode (call : InsertCall n) : SkipNode :=
  { key := call.key, valueOffset := call.valueOffset, valueLen := call.valueLen,
    level := randomLevel call.coins }

/-- The list with the value of a node overwritten. -/
def SkipList.overwritten (list : SkipList n) (y : Fin n) (call : InsertCall n) : SkipList n :=
  { list with
    node := Function.update list.node y
      { list.node y with valueOffset := call.valueOffset, valueLen := call.valueLen } }

theorem pred_mem (key : Key) (i : Nat) : list.pred compare key l i ∈ list.header :: l :=
  List.cons_subset_cons _ (fun _ hy => mem_of_mem_less (mem_onLevel.mp hy).1) (pred_mem_level key i)

/-- The entries of `update` that the new node needs, the raised ones included. -/
theorem Shape.update_eq (h : Shape compare list l) (key : Key) {level i : Nat} (hi : i < level) :
    (if list.level < level then
        raiseUpdate (fun j => if j < list.level then some (list.pred compare key l j) else none)
          list.header list.level level
      else fun j => if j < list.level then some (list.pred compare key l j) else none) i =
      some (list.pred compare key l i) := by
  by_cases hraise : list.level < level
  · rw [if_pos hraise, raiseUpdate]
    by_cases hlist : list.level ≤ i
    · rw [if_pos ⟨hlist, hi⟩, SkipList.pred, h.onLevel_eq_nil hlist fun x => mem_of_mem_less]
      rfl
    · rw [if_neg fun hboth => hlist hboth.1, if_pos (Nat.not_le.mp hlist)]
  · rw [if_neg hraise, if_pos (Nat.lt_of_lt_of_le hi (Nat.not_lt.mp hraise))]

section Calls

variable (h : Shape compare list l) (order : TotalOrder compare) {call : InsertCall n}
include h order

/-- **An insert of a key that is there.** -/
theorem Shape.insert_present {y : Fin n}
    (found : l.find? (fun y => decide ((list.node y).key = call.key)) = some y) :
    skiplistInsert compare list call = some (.ok, list.overwritten y call) := by
  rw [skiplistInsert, h.search order, Option.bind_some]
  unfold insertAt
  rw [h.hit_eq order, found]
  rfl

/-- **An insert that gets no memory.** Only the level of the list may have changed. -/
theorem Shape.insert_fails
    (absent : l.find? (fun y => decide ((list.node y).key = call.key)) = none)
    (fails : call.node = none ∨ call.keyOk = false) :
    skiplistInsert compare list call = some (.io, list.raised (randomLevel call.coins)) := by
  have hcreate : ∀ (mem : SkipMem n) level,
      createNode mem level call.key call.valueOffset call.valueLen call.node call.keyOk =
        (none, mem) := by
    intro mem level
    unfold createNode
    rcases fails with hnone | hkey
    · rw [hnone]
    · rw [hkey]
      split <;> rfl
  rw [skiplistInsert, h.search order, Option.bind_some]
  unfold insertAt
  rw [h.hit_eq order, absent]
  simp only [hcreate]
  rfl

/-- **An insert of a new key.** -/
theorem Shape.insert_new {x : Fin n}
    (absent : l.find? (fun y => decide ((list.node y).key = call.key)) = none)
    (node : call.node = some x) (keyOk : call.keyOk = true) (fresh : call.Fresh list) :
    skiplistInsert compare list call =
      some (.ok,
        (list.raised (randomLevel call.coins)).withNode compare l x call.skipNode) := by
  have hcreate : ∀ (mem : SkipMem n) level,
      createNode mem level call.key call.valueOffset call.valueLen call.node call.keyOk =
        (some x,
          { node := Function.update mem.node x
              { key := call.key, valueOffset := call.valueOffset, valueLen := call.valueLen, level }
            forward := Function.update mem.forward x fun _ => none
            allocated := Function.update mem.allocated x true }) := by
    intro mem level
    unfold createNode
    rw [node, keyOk]
    rfl
  have hxpred : ∀ i, i < randomLevel call.coins → x ≠ list.pred compare call.key l i :=
    fun i _ e => h.notMem_of_free (fresh x node) (e ▸ pred_mem call.key i)
  have hpred : (list.raised (randomLevel call.coins)).pred compare call.key l =
      list.pred compare call.key l := by
    funext i
    simp only [SkipList.pred, raised_toSkipMem, raised_header]
  rw [skiplistInsert, h.search order, Option.bind_some]
  unfold insertAt
  rw [h.hit_eq order, absent]
  simp only [hcreate]
  rw [linkLoop_eq _ (fun i hi => h.update_eq call.key hi) hxpred, Option.map_some]
  unfold SkipList.withNode InsertCall.skipNode
  rw [hpred]
  rfl

end Calls

/-! ### The index as a map -/

/-- The list, and the map that the calls so far describe: the offset and the length of the
last successful insert of each key. -/
structure Indexed (n : Nat) where
  list : SkipList n
  latest : Key → Option (Int × Nat)

/-- A call of `skiplist_insert`, whose new node, if any, is not in use yet. -/
def indexStep (compare : Key → Key → Int) (s : Indexed n) (call : InsertCall n) :
    Option (Indexed n) :=
  if call.Fresh s.list then
    (skiplistInsert compare s.list call).map fun result =>
      { list := result.2
        latest :=
          if result.1 = .ok then
            Function.update s.latest call.key (some (call.valueOffset, call.valueLen))
          else s.latest }
  else none

/-- An index just created. -/
def indexStart (mem : SkipMem n) (header : Fin n) : Indexed n :=
  { list := skiplistCreate mem header, latest := fun _ => none }

/-- The lists of the levels are those of a skip list that implements the map. -/
structure RefinesMap (compare : Key → Key → Int) (s : Indexed n) (lists : Nat → List (Fin n)) :
    Prop where
  chain : ∀ i, i < maxLevel → Chain (s.list.next i) (s.list.forward s.list.header i) (lists i)
  sorted : Ascending compare s.list.toSkipMem (lists 0)
  one_per_key : ∀ key, (s.latest key).isSome ↔ ∃ x ∈ lists 0, (s.list.node x).key = key
  sublist : ∀ i, i + 1 < maxLevel → (lists (i + 1)).Sublist (lists i)
  mem_iff : ∀ i x, i < maxLevel → (x ∈ lists i ↔ x ∈ lists 0 ∧ i < (s.list.node x).level)
  empty : ∀ i, s.list.level ≤ i → i < maxLevel → lists i = []
  size : s.list.size = (lists 0).length
  find_none : ∀ key, s.latest key = none → skiplistFind compare s.list key = some none
  find_some : ∀ key value, s.latest key = some value →
    ∃ x ∈ lists 0, skiplistFind compare s.list key = some (some x) ∧ (s.list.node x).key = key ∧
      (s.list.node x).valueOffset = value.1 ∧ (s.list.node x).valueLen = value.2

/-- What a call returns. It fails for a new key without memory, and then changes neither
the nodes nor what is found, nor the size. -/
def Answers (compare : Key → Key → Int) (s : Indexed n) (call : InsertCall n) : Prop :=
  call.Fresh s.list →
    ∃ code list', skiplistInsert compare s.list call = some (code, list') ∧
      (code = .ok ∨ code = .io) ∧
      (code = .io ↔ s.latest call.key = none ∧ (call.node = none ∨ call.keyOk = false)) ∧
      (code = .io → list'.node = s.list.node ∧ list'.size = s.list.size ∧
        ∀ key, skiplistFind compare list' key = skiplistFind compare s.list key)

/-- The value of a key in a list of nodes. -/
def SkipMem.lookup (mem : SkipMem n) (l : List (Fin n)) (key : Key) : Option (Int × Nat) :=
  (l.find? fun x => decide ((mem.node x).key = key)).map fun x =>
    ((mem.node x).valueOffset, (mem.node x).valueLen)

/-- The invariant of the runs. -/
structure IndexInv (compare : Key → Key → Int) (s : Indexed n) (l : List (Fin n)) : Prop where
  shape : Shape compare s.list l
  latest : s.latest = s.list.lookup l

theorem key_of_find {mem : SkipMem n} {key : Key} {x : Fin n}
    (h : l.find? (fun x => decide ((mem.node x).key = key)) = some x) : (mem.node x).key = key := by
  have hkey := List.find?_some h
  exact of_decide_eq_true hkey

theorem find?_congr_key {mem mem' : SkipMem n} {r : List (Fin n)} (key : Key)
    (same : ∀ x ∈ r, (mem'.node x).key = (mem.node x).key) :
    r.find? (fun x => decide ((mem'.node x).key = key)) =
      r.find? fun x => decide ((mem.node x).key = key) := by
  induction r with
  | nil => rfl
  | cons x r ih =>
    rw [List.find?_cons, List.find?_cons, same x List.mem_cons_self,
      ih fun y hy => same y (List.mem_cons_of_mem x hy)]

/-- Overwriting the value of the node with a key changes the map there. -/
theorem lookup_overwritten {y : Fin n} {call : InsertCall n}
    (found : l.find? (fun y => decide ((list.node y).key = call.key)) = some y) :
    (list.overwritten y call).lookup l =
      Function.update (list.lookup l) call.key (some (call.valueOffset, call.valueLen)) := by
  have hkey : ∀ x, ((list.overwritten y call).node x).key = (list.node x).key := fun x =>
    (key_level_update list.node y call.valueOffset call.valueLen x).1
  funext key
  rw [SkipMem.lookup, find?_congr_key key fun x _ => hkey x]
  by_cases hk : key = call.key
  · rw [hk, found, Function.update_self]
    simp [SkipList.overwritten]
  · rw [Function.update_of_ne hk, SkipMem.lookup]
    apply Option.map_congr
    intro z hz
    have hzy : z ≠ y := fun e => hk ((key_of_find hz).symm.trans (e ▸ key_of_find found))
    simp [SkipList.overwritten, hzy]

/-- A new node adds its key to the map. -/
theorem Shape.lookup_withNode (h : Shape compare list l) {x : Fin n} {node : SkipNode}
    (free : list.allocated x = false)
    (absent : ∀ y ∈ l, (list.node y).key ≠ node.key) :
    (list.withNode compare l x node).lookup (list.splice compare l x node.key) =
      Function.update (list.lookup l) node.key (some (node.valueOffset, node.valueLen)) := by
  have hnew : (list.withNode compare l x node).node x = node := Function.update_self ..
  have hold : ∀ y ∈ l, (list.withNode compare l x node).node y = list.node y := fun y hy =>
    Function.update_of_ne
      (fun e : y = x => h.notMem_of_free free (List.mem_cons_of_mem _ (e ▸ hy))) ..
  have hless : ∀ key, (list.less compare node.key l).find?
      (fun y => decide (((list.withNode compare l x node).node y).key = key)) =
        (list.less compare node.key l).find? fun y => decide ((list.node y).key = key) := fun key =>
    find?_congr_key key fun y hy => by rw [hold y (mem_of_mem_less hy)]
  have hrest : ∀ key, (list.rest compare node.key l).find?
      (fun y => decide (((list.withNode compare l x node).node y).key = key)) =
        (list.rest compare node.key l).find? fun y => decide ((list.node y).key = key) := fun key =>
    find?_congr_key key fun y hy => by rw [hold y (mem_of_mem_rest hy)]
  funext key
  rw [SkipMem.lookup, SkipList.splice, List.find?_append, hless, List.find?_cons, hrest, hnew]
  by_cases hk : key = node.key
  · have hnone : (list.less compare node.key l).find?
        (fun y => decide ((list.node y).key = key)) = none :=
      List.find?_eq_none.mpr fun y hy heq =>
        absent y (mem_of_mem_less hy) ((of_decide_eq_true heq).trans hk)
    rw [hnone, decide_eq_true hk.symm, hk, Function.update_self]
    simp [hnew]
  · rw [decide_eq_false (Ne.symm hk), Function.update_of_ne hk, SkipMem.lookup]
    conv_rhs => rw [← less_append_rest compare list.toSkipMem node.key l,
      List.find?_append]
    apply Option.map_congr
    intro z hz
    have hz' : z ∈ l := by
      rw [← less_append_rest compare list.toSkipMem node.key l]
      rw [← List.find?_append] at hz
      exact List.mem_of_find?_eq_some hz
    rw [hold z hz']

theorem lookup_eq_none {mem : SkipMem n} {key : Key} :
    mem.lookup l key = none ↔ l.find? (fun x => decide ((mem.node x).key = key)) = none :=
  Option.map_eq_none_iff

/-- What a call on an index in order does: it returns, and leaves an index in order. -/
def Proceeds (compare : Key → Key → Int) (s : Indexed n) (call : InsertCall n) : Prop :=
  ∃ s' l', indexStep compare s call = some s' ∧ IndexInv compare s' l' ∧ Answers compare s call

section Step

variable {s : Indexed n} (h : IndexInv compare s l) (order : TotalOrder compare)
  {call : InsertCall n} (fresh : call.Fresh s.list)
include h order fresh

/-- The key is there: its value is overwritten. -/
theorem IndexInv.step_present {y : Fin n}
    (found : l.find? (fun y => decide ((s.list.node y).key = call.key)) = some y) :
    Proceeds compare s call := by
  have hinsert := h.shape.insert_present order found
  have hlatest : s.latest call.key ≠ none := by
    rw [h.latest, ne_eq, lookup_eq_none, found]
    exact Option.some_ne_none y
  have hstep : indexStep compare s call =
      some ⟨s.list.overwritten y call,
        Function.update s.latest call.key (some (call.valueOffset, call.valueLen))⟩ := by
    rw [indexStep, if_pos fresh, hinsert]
    rfl
  refine ⟨_, l, hstep, ⟨h.shape.overwrite y _ _, ?_⟩, fun _ => ⟨_, _, hinsert, .inl rfl, ?_, ?_⟩⟩
  · rw [lookup_overwritten found, h.latest]
  · exact ⟨fun e => Code.noConfusion e, fun hnone => absurd hnone.1 hlatest⟩
  · exact fun e => Code.noConfusion e

/-- The key is new and there is no memory: at most the level of the list changes. -/
theorem IndexInv.step_fails
    (absent : l.find? (fun y => decide ((s.list.node y).key = call.key)) = none)
    (fails : call.node = none ∨ call.keyOk = false) : Proceeds compare s call := by
  have hinsert := h.shape.insert_fails order absent fails
  have hshape := h.shape.raised call.coins
  have hlatest : s.latest call.key = none := by
    rw [h.latest, lookup_eq_none, absent]
  have hstep : indexStep compare s call =
      some ⟨s.list.raised (randomLevel call.coins), s.latest⟩ := by
    rw [indexStep, if_pos fresh, hinsert]
    rfl
  refine ⟨_, l, hstep, ⟨hshape, ?_⟩, fun _ => ⟨_, _, hinsert, .inr rfl, ?_, ?_⟩⟩
  · rw [raised_toSkipMem, h.latest]
  · exact ⟨fun _ => ⟨hlatest, fails⟩, fun _ => rfl⟩
  · intro _
    refine ⟨by rw [raised_toSkipMem], raised_size _ _, fun key => ?_⟩
    rw [hshape.find_eq order, h.shape.find_eq order, raised_toSkipMem]

/-- The key is new: so is its node. -/
theorem IndexInv.step_new {x : Fin n}
    (absent : l.find? (fun y => decide ((s.list.node y).key = call.key)) = none)
    (node : call.node = some x) (keyOk : call.keyOk = true) : Proceeds compare s call := by
  have hinsert := h.shape.insert_new order absent node keyOk fresh
  have hshape := h.shape.raised call.coins
  have hfree : (s.list.raised (randomLevel call.coins)).allocated x = false := by
    rw [raised_toSkipMem]
    exact fresh x node
  have habsent : ∀ y ∈ l,
      ((s.list.raised (randomLevel call.coins)).node y).key ≠ call.skipNode.key := by
    intro y hy heq
    rw [raised_toSkipMem] at heq
    exact List.find?_eq_none.mp absent y hy (decide_eq_true heq)
  have hstep : indexStep compare s call =
      some ⟨(s.list.raised (randomLevel call.coins)).withNode compare l x call.skipNode,
        Function.update s.latest call.key (some (call.valueOffset, call.valueLen))⟩ := by
    rw [indexStep, if_pos fresh, hinsert]
    rfl
  have hfails : ¬ (call.node = none ∨ call.keyOk = false) := by simp [node, keyOk]
  have hinv := hshape.withNode order hfree habsent (one_le_randomLevel _) (le_raised _ _)
  refine ⟨_, _, hstep, ⟨hinv, ?_⟩, fun _ => ⟨_, _, hinsert, .inl rfl, ?_, ?_⟩⟩
  · rw [hshape.lookup_withNode hfree habsent, raised_toSkipMem, ← h.latest]
    rfl
  · exact ⟨fun e => Code.noConfusion e, fun hnone => absurd hnone.2 hfails⟩
  · exact fun e => Code.noConfusion e

/-- **One call.** -/
theorem IndexInv.step : Proceeds compare s call := by
  cases hfind : l.find? (fun y => decide ((s.list.node y).key = call.key)) with
  | some y => exact h.step_present order fresh hfind
  | none =>
    cases hnode : call.node with
    | none => exact h.step_fails order fresh hfind (.inl hnode)
    | some x =>
      cases hkey : call.keyOk with
      | false => exact h.step_fails order fresh hfind (.inr hkey)
      | true => exact h.step_new order fresh hfind hnode hkey

end Step

/-- An index in order implements its map. -/
theorem IndexInv.refines {s : Indexed n} (h : IndexInv compare s l) (order : TotalOrder compare) :
    RefinesMap compare s fun i => s.list.onLevel i l := by
  have hzero : s.list.onLevel 0 l = l := h.shape.onLevel_zero fun _ hx => hx
  have hfind := h.shape.find_eq order
  refine
    { chain := fun i hi => (h.shape.chain i hi).2
      sorted := hzero.symm ▸ h.shape.ascending
      one_per_key := fun key => ?_
      sublist := fun i _ => onLevel_succ_sublist _ i l
      mem_iff := fun i x _ => ?_
      empty := fun i hi _ => h.shape.onLevel_eq_nil hi fun _ hx => hx
      size := hzero.symm ▸ h.shape.size
      find_none := fun key hnone => ?_
      find_some := fun key value hsome => ?_ }
  · rw [h.latest, SkipMem.lookup, Option.isSome_map, List.find?_isSome, hzero]
    simp only [decide_eq_true_eq]
  · rw [hzero]
    exact mem_onLevel
  · rw [h.latest, lookup_eq_none] at hnone
    rw [hfind, hnone]
  · rw [h.latest, SkipMem.lookup, Option.map_eq_some_iff] at hsome
    obtain ⟨x, hx, rfl⟩ := hsome
    refine ⟨x, hzero.symm ▸ List.mem_of_find?_eq_some hx, ?_, key_of_find hx, rfl, rfl⟩
    rw [hfind, hx]

theorem indexStart_inv (compare : Key → Key → Int) (mem : SkipMem n) (header : Fin n) :
    IndexInv compare (indexStart mem header) [] where
  shape :=
    { chain := fun i _ => ⟨rfl, congrFun (Function.update_self header _ mem.forward) i⟩
      ascending := List.Pairwise.nil
      node_level := fun x hx => absurd hx List.not_mem_nil
      one_le_level := Nat.le_refl 1
      level_le := Nat.le_of_lt (by decide : 1 < maxLevel)
      size := rfl
      allocated := fun x hx => List.mem_singleton.mp hx ▸ Function.update_self .. }
  latest := rfl

theorem indexStep_inv (order : TotalOrder compare) (s : Indexed n) (call : InsertCall n)
    (s' : Indexed n) (h : ∃ l, IndexInv compare s l) (hstep : indexStep compare s call = some s') :
    ∃ l', IndexInv compare s' l' := by
  obtain ⟨l, h⟩ := h
  have hfresh : call.Fresh s.list := by
    by_contra hbad
    rw [indexStep, if_neg hbad] at hstep
    cases hstep
  obtain ⟨t, l', ht, hinv, -⟩ := h.step order hfresh
  exact ⟨l', Option.some.inj (ht.symm.trans hstep) ▸ hinv⟩

/-- **The skip list is a sorted map.** For every total order, in every state of every run of
`skiplist_insert` the lists of the levels are those of a skip list that implements the
map of the calls so far, and every call returns as a map does. -/
theorem skiplist_refines_map (order : TotalOrder compare) (mem : SkipMem n) (header : Fin n)
    (calls : List (InsertCall n)) :
    Along (indexStep compare) (fun s => ∃ lists, RefinesMap compare s lists)
        (indexStart mem header) calls ∧
      Each (indexStep compare) (Answers compare) (indexStart mem header) calls := by
  have hstart : ∃ l, IndexInv compare (indexStart mem header) l := ⟨[], indexStart_inv ..⟩
  constructor
  · refine (along_of_preserved (indexStep_inv order) hstart calls).mono ?_
    rintro s ⟨l, h⟩
    exact ⟨_, h.refines order⟩
  · refine each_of_preserved ?_ (indexStep_inv order) hstart calls
    rintro s call ⟨l, h⟩ hcall
    obtain ⟨-, -, -, -, hanswers⟩ := h.step order hcall
    exact hanswers hcall

/-- Byte strings in the order of `memcmp`, a beginning before what it begins. -/
def compareBytes : Key → Key → Int
  | [], [] => 0
  | [], _ :: _ => -1
  | _ :: _, [] => 1
  | a :: as, b :: bs => if a < b then -1 else if b < a then 1 else compareBytes as bs

theorem compareBytes_cons (a b : BitVec 8) (as bs : Key) :
    compareBytes (a :: as) (b :: bs) < 0 ↔ a < b ∨ a = b ∧ compareBytes as bs < 0 := by
  rw [compareBytes]
  split
  · rename_i hlt
    simp [hlt]
  · rename_i hnlt
    split
    · rename_i hgt
      simp [hnlt, (BitVec.ne_of_lt hgt).symm]
    · rename_i hngt
      have heq : a = b := BitVec.le_antisymm (BitVec.not_lt.mp hngt) (BitVec.not_lt.mp hnlt)
      simp [heq]

theorem compareBytes_swap (a b : Key) : compareBytes b a = - compareBytes a b := by
  induction a, b using compareBytes.induct with
  | case1 | case2 | case3 => rfl
  | case4 a as b bs hlt => simp [compareBytes, hlt, BitVec.not_lt.mpr (BitVec.le_of_lt hlt)]
  | case5 a as b bs hnlt hgt => simp [compareBytes, hnlt, hgt]
  | case6 a as b bs hnlt hngt ih => simp [compareBytes, hnlt, hngt, ih]

theorem compareBytes_totalOrder : TotalOrder compareBytes where
  eq_zero a b := by
    induction a, b using compareBytes.induct with
    | case1 | case2 | case3 => simp [compareBytes]
    | case4 a as b bs hlt => simp [compareBytes, hlt, BitVec.ne_of_lt hlt]
    | case5 a as b bs hnlt hgt => simp [compareBytes, hnlt, hgt, (BitVec.ne_of_lt hgt).symm]
    | case6 a as b bs hnlt hngt ih =>
      have heq : a = b := BitVec.le_antisymm (BitVec.not_lt.mp hngt) (BitVec.not_lt.mp hnlt)
      simp [compareBytes, heq, ih]
  antisymm a b := by
    rw [compareBytes_swap]
    omega
  trans a b c hab hbc := by
    induction a generalizing b c with
    | nil =>
      cases c with
      | nil => cases b <;> simp [compareBytes] at hab hbc
      | cons z cs => simp [compareBytes]
    | cons x as ih =>
      cases b with
      | nil => simp [compareBytes] at hab
      | cons y bs =>
        cases c with
        | nil => simp [compareBytes] at hbc
        | cons z cs =>
          rw [compareBytes_cons] at hab hbc ⊢
          rcases hab with hxy | ⟨rfl, hab⟩
          · rcases hbc with hyz | ⟨rfl, -⟩
            · exact .inl (BitVec.lt_trans hxy hyz)
            · exact .inl hxy
          · rcases hbc with hyz | ⟨rfl, hbc⟩
            · exact .inl hyz
            · exact .inr ⟨rfl, ih bs cs hab hbc⟩

/-- An insert of a key of one byte, with this node and no raise of its level. -/
def insertByte (byte : BitVec 8) (valueOffset : Int) (coins : Nat → Bool)
    (node : Option (Fin 3)) : InsertCall 3 :=
  { key := [byte], valueOffset, valueLen := 4, coins, node, keyOk := true }

/-- A memory of three nodes, with nothing in use. -/
def freshIndexMem : SkipMem 3 :=
  { node := fun _ => { key := [], valueOffset := 0, valueLen := 0, level := 0 }
    forward := fun _ _ => none
    allocated := fun _ => false }

/-- Two keys, the smaller one second and on three levels, a new value for the first, and a
third key without memory. -/
def indexCalls : List (InsertCall 3) :=
  [insertByte 7 0 (fun _ => false) (some 1), insertByte 5 4 (fun i => decide (i < 3)) (some 2),
    insertByte 7 8 (fun _ => false) none, insertByte 9 12 (fun _ => true) none]

theorem skiplist_refines_map_bytes :
    TotalOrder compareBytes ∧
      Along (indexStep compareBytes) (fun s => ∃ lists, RefinesMap compareBytes s lists)
        (indexStart freshIndexMem 0) indexCalls ∧
      Each (indexStep compareBytes) (Answers compareBytes) (indexStart freshIndexMem 0)
        indexCalls :=
  ⟨compareBytes_totalOrder, skiplist_refines_map compareBytes_totalOrder freshIndexMem 0 indexCalls⟩

example : (run (indexStep compareBytes) (indexStart freshIndexMem 0) indexCalls).map
    (fun s => ([5, 7, 9].map fun byte => skiplistFind compareBytes s.list [byte], s.list.size,
      s.list.level)) = some ([some (some 2), some (some 1), some none], 2, 32) := by
  decide +kernel

end ArmKernel.Kv

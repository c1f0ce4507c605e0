/-
The interest set of an epoll instance (`src/epoll.c`, `src/rbtree.c`).

The items live at the addresses `Fin n` and hang in a red-black tree ordered by their file
descriptor. `rb_link_node` and `rb_erase` are not part of the repository: the first hangs
a red leaf in, as `linkNode` does, and the second is the parameter `rbErase`, with the
law `ErasesNode`. The walks through the tree have a bound on the hops, and `none` is a
walk that goes on, or a null pointer dereferenced.

`specCtl` says what a call means for a map from descriptors to events. `Watches` is the
invariant: the tree is a search tree of the items of such a map. `Watches.add`,
`Watches.mod` and `Watches.del` say that the three operations keep it.
-/
import ArmKernel.Support.RbInsert
import ArmKernel.Support.Run
import Mathlib.Data.List.Pairwise

namespace ArmKernel.Events

open ArmKernel.Support

/-- `struct epoll_event`. -/
structure EpollEvent where
  events : BitVec 32
  data : BitVec 64
deriving DecidableEq

/-- `epitem_t`, less its tree node and its link in the ready list. -/
structure EpItem where
  fd : Int
  event : EpollEvent

/-- `eventpoll_t`: the tree, the items at their addresses, and which addresses `calloc` has
given out. -/
structure EventPoll (n : Nat) where
  rbr : RbMem (Fin n)
  item : Fin n → EpItem
  allocated : Fin n → Bool

/-- The errors of `epoll_ctl` on an instance that exists. -/
inductive Errno where
  | eexist
  | enoent
  | einval
  | enomem
deriving DecidableEq

/-- `EPOLL_CTL_ADD`. -/
def epollCtlAdd : Int := 1

/-- `EPOLL_CTL_DEL`. -/
def epollCtlDel : Int := 2

/-- `EPOLL_CTL_MOD`. -/
def epollCtlMod : Int := 3

variable {n : Nat}

/-- The loop of `find_epitem`. -/
def findLoop (ep : EventPoll n) (fd : Int) : Nat → Option (Fin n) → Option (Option (Fin n))
  | _, none => some none
  | 0, some _ => none
  | hops + 1, some node =>
    if fd < (ep.item node).fd then findLoop ep fd hops (ep.rbr.node node).left
    else if (ep.item node).fd < fd then findLoop ep fd hops (ep.rbr.node node).right
    else some (some node)

/-- `find_epitem`. -/
def findEpitem (ep : EventPoll n) (fd : Int) : Option (Option (Fin n)) :=
  findLoop ep fd n ep.rbr.root

/-- `insert_epitem`. Each rotation of the file tests the link on its own side. -/
def insertEpitem (ep : EventPoll n) (epi : Fin n) : Option (EventPoll n) :=
  (ep.rbr.descend (fun epic => decide ((ep.item epi).fd < (ep.item epic).fd)) n none).bind
    fun slot =>
      ((ep.rbr.linkNode slot epi).insertColor id n epi).map fun rbr => { ep with rbr }

/-- A node just allocated, with its item. -/
def EventPoll.register (ep : EventPoll n) (epi : Fin n) (item : EpItem) : EventPoll n :=
  { ep with
    item := Function.update ep.item epi item
    allocated := Function.update ep.allocated epi true }

/-- The arguments of `epoll_ctl`, and the result of its `calloc`. -/
structure CtlCall (n : Nat) where
  op : Int
  fd : Int
  event : EpollEvent
  calloc : Option (Fin n)

section Ctl

variable (rbErase : RbMem (Fin n) → Fin n → RbMem (Fin n))

/-- The switch of `epoll_ctl`, after the search. -/
def ctlSwitch (ep : EventPoll n) (call : CtlCall n) (found : Option (Fin n)) :
    Option (Option Errno × EventPoll n) :=
  if call.op = epollCtlAdd then
    match found with
    | some _ => some (some .eexist, ep)
    | none =>
      match call.calloc with
      | none => some (some .enomem, ep)
      | some epi =>
        (insertEpitem (ep.register epi { fd := call.fd, event := call.event }) epi).map
          fun ep => (none, ep)
  else if call.op = epollCtlMod then
    match found with
    | none => some (some .enoent, ep)
    | some epi =>
      let item := Function.update ep.item epi { ep.item epi with event := call.event }
      some (none, { ep with item })
  else if call.op = epollCtlDel then
    match found with
    | none => some (some .enoent, ep)
    | some epi =>
      some (none,
        { ep with
          rbr := rbErase ep.rbr epi
          allocated := Function.update ep.allocated epi false })
  else some (some .einval, ep)

/-- `epoll_ctl` on an instance that exists. -/
def epollCtl (ep : EventPoll n) (call : CtlCall n) : Option (Option Errno × EventPoll n) :=
  (findEpitem ep call.fd).bind (ctlSwitch rbErase ep call)

end Ctl

/-- The instance that `epoll_create` makes: nothing hangs in the tree. -/
def epollCreate (mem : EventPoll n) : EventPoll n := { mem with rbr.root := none }

/-! ### The map -/

/-- A finite map from file descriptors to events. -/
abbrev Interest := Int → Option EpollEvent

/-- What `epoll_ctl` means for the map. -/
def specCtl (interest : Interest) (call : CtlCall n) : Option Errno × Interest :=
  let registered := Function.update interest call.fd (some call.event)
  if call.op = epollCtlAdd then
    match interest call.fd, call.calloc with
    | some _, _ => (some .eexist, interest)
    | none, none => (some .enomem, interest)
    | none, some _ => (none, registered)
  else if call.op = epollCtlMod then
    match interest call.fd with
    | none => (some .enoent, interest)
    | some _ => (none, registered)
  else if call.op = epollCtlDel then
    match interest call.fd with
    | none => (some .enoent, interest)
    | some _ => (none, Function.update interest call.fd none)
  else (some .einval, interest)

/-- A call that fails changes nothing. -/
theorem specCtl_error {interest : Interest} {call : CtlCall n} {e : Errno}
    (h : (specCtl interest call).1 = some e) : (specCtl interest call).2 = interest := by
  unfold specCtl at h ⊢
  grind

/-- A call changes the map at its own descriptor only. -/
theorem specCtl_other (interest : Interest) (call : CtlCall n) {fd : Int} (hfd : fd ≠ call.fd) :
    (specCtl interest call).2 fd = interest fd := by
  have hset : ∀ v, Function.update interest call.fd v fd = interest fd := fun v =>
    Function.update_of_ne hfd v interest
  unfold specCtl
  split
  · split
    · rfl
    · rfl
    · exact hset _
  · split
    · split
      · rfl
      · exact hset _
    · split
      · split
        · rfl
        · exact hset _
      · rfl

/-! ### Lookup -/

open RbTree

/-- The descriptors of the items in the tree ascend from left to right. -/
def SearchTree (item : Fin n → EpItem) (t : RbTree (Fin n)) : Prop :=
  t.toList.Pairwise fun x y => (item x).fd < (item y).fd

theorem searchTree_node {item : Fin n → EpItem} {c : Color} {l r : RbTree (Fin n)} {x : Fin n} :
    SearchTree item (node c l x r) ↔ SearchTree item l ∧ SearchTree item r ∧
      (∀ y ∈ l.toList, (item y).fd < (item x).fd) ∧ ∀ y ∈ r.toList, (item x).fd < (item y).fd := by
  rw [SearchTree, toList, List.pairwise_append, List.pairwise_cons]
  constructor
  · rintro ⟨hl, ⟨hxr, hr⟩, hlx⟩
    exact ⟨hl, hr, fun y hy => hlx y hy x List.mem_cons_self, hxr⟩
  · rintro ⟨hl, hr, hlx, hxr⟩
    refine ⟨hl, ⟨hxr, hr⟩, ?_⟩
    intro y hy z hz
    rcases List.mem_cons.mp hz with rfl | hz
    · exact hlx y hy
    · exact (hlx y hy).trans (hxr z hz)

/-- The item of a descriptor among some. -/
def itemOf (item : Fin n → EpItem) (l : List (Fin n)) (fd : Int) : Option (Fin n) :=
  l.find? fun x => decide ((item x).fd = fd)

theorem itemOf_eq_some {item : Fin n → EpItem} {l : List (Fin n)} {fd : Int} {x : Fin n}
    (h : itemOf item l fd = some x) : x ∈ l ∧ (item x).fd = fd := by
  have hfd := List.find?_some h
  exact ⟨List.mem_of_find?_eq_some h, of_decide_eq_true hfd⟩

theorem itemOf_eq_none {item : Fin n → EpItem} {l : List (Fin n)} {fd : Int} :
    itemOf item l fd = none ↔ ∀ x ∈ l, (item x).fd ≠ fd := by
  simp [itemOf, List.find?_eq_none]

/-- The search goes down the tree to the item, if there is one. -/
theorem findLoop_eq {ep : EventPoll n} {t : RbTree (Fin n)} {p : Option (Fin n)} {fd : Int}
    {hops : Nat} (h : Holds ep.rbr p t) (sorted : SearchTree ep.item t)
    (enough : t.toList.length ≤ hops) :
    findLoop ep fd hops t.top = some (itemOf ep.item t.toList fd) := by
  induction t generalizing p hops with
  | leaf => cases hops <;> rfl
  | node c l x r ihl ihr =>
    obtain ⟨hx, hl, hr⟩ := h
    rw [toList, List.length_append, List.length_cons] at enough
    obtain ⟨hops, rfl⟩ : ∃ k, hops = k + 1 := Nat.exists_eq_add_one_of_ne_zero (by omega)
    obtain ⟨hlsorted, hrsorted, hlx, hxr⟩ := searchTree_node.mp sorted
    have hsplit : itemOf ep.item (node c l x r).toList fd =
        (itemOf ep.item l.toList fd).or
          (if (ep.item x).fd = fd then some x else itemOf ep.item r.toList fd) := by
      rw [toList, itemOf, List.find?_append, List.find?_cons]
      by_cases hfd : (ep.item x).fd = fd <;> simp [itemOf, hfd]
    have hleft : fd ≤ (ep.item x).fd → itemOf ep.item r.toList fd = none := fun hle =>
      itemOf_eq_none.mpr fun y hy heq => by
        have hlt := hxr y hy
        omega
    have hright : (ep.item x).fd ≤ fd → itemOf ep.item l.toList fd = none := fun hle =>
      itemOf_eq_none.mpr fun y hy heq => by
        have hlt := hlx y hy
        omega
    rw [hsplit, top, findLoop, hx]
    split
    · rename_i hlt
      rw [ihl hl hlsorted (by omega), hleft (Int.le_of_lt hlt), if_neg (Int.ne_of_gt hlt),
        Option.or_none]
    · rename_i hnlt
      split
      · rename_i hgt
        rw [ihr hr hrsorted (by omega), hright (Int.le_of_lt hgt), if_neg (Int.ne_of_lt hgt),
          Option.none_or]
      · rename_i hngt
        have heq : (ep.item x).fd = fd := Int.le_antisymm (Int.not_lt.mp hnlt) (Int.not_lt.mp hngt)
        rw [hright (Int.le_of_eq heq), if_pos heq, Option.none_or]

/-! ### The interest set -/

/-- `rb_erase` takes exactly the given node out of a red-black tree, and leaves one. -/
structure ErasesNode (rbErase : RbMem (Fin n) → Fin n → RbMem (Fin n)) : Prop where
  erases : ∀ m t h x, Represents m t → Balanced t .black h → x ∈ t.toList →
    ∃ t', Represents (rbErase m x) t' ∧ t'.toList = t.toList.erase x ∧ ∃ k, Balanced t' .black k

/-- The items of the list are those of the map. -/
def Stores (item : Fin n → EpItem) (l : List (Fin n)) (interest : Interest) : Prop :=
  ∀ fd event, interest fd = some event ↔ ∃ x ∈ l, item x = { fd, event }

/-- The instance, with the tree `t`, holds the map. -/
structure Watches (ep : EventPoll n) (interest : Interest) (t : RbTree (Fin n)) : Prop where
  represents : Represents ep.rbr t
  balanced : ∃ k, Balanced t .black k
  sorted : SearchTree ep.item t
  allocated : ∀ x ∈ t.toList, ep.allocated x = true
  stores : Stores ep.item t.toList interest

variable {ep : EventPoll n} {interest : Interest} {t : RbTree (Fin n)} {call : CtlCall n}

theorem length_toList_le (h : t.toList.Nodup) : t.toList.length ≤ n := by
  simpa using h.length_le_card

/-- **Lookup.** `find_epitem` finds the item of the descriptor. -/
theorem Watches.findEpitem_eq (h : Watches ep interest t) (fd : Int) :
    findEpitem ep fd = some (itemOf ep.item t.toList fd) := by
  rw [findEpitem, h.represents.root]
  exact findLoop_eq h.represents.nodes h.sorted (length_toList_le h.represents.nodup)

theorem Watches.interest_of_found (h : Watches ep interest t) {fd : Int} {x : Fin n}
    (found : itemOf ep.item t.toList fd = some x) : interest fd = some (ep.item x).event := by
  obtain ⟨hx, rfl⟩ := itemOf_eq_some found
  exact (h.stores _ _).mpr ⟨x, hx, rfl⟩

theorem Watches.interest_of_missing (h : Watches ep interest t) {fd : Int}
    (missing : itemOf ep.item t.toList fd = none) : interest fd = none := by
  apply Option.eq_none_iff_forall_ne_some.mpr
  intro event hevent
  obtain ⟨x, hx, hitem⟩ := (h.stores fd event).mp hevent
  exact itemOf_eq_none.mp missing x hx (by rw [hitem])

/-- The descriptors identify the items of the tree. -/
theorem SearchTree.eq_of_fd {item : Fin n → EpItem} (sorted : SearchTree item t) {x y : Fin n}
    (hx : x ∈ t.toList) (hy : y ∈ t.toList) (heq : (item x).fd = (item y).fd) : x = y := by
  have hdiff : t.toList.Pairwise fun x y => (item x).fd ≠ (item y).fd :=
    sorted.imp fun hlt => Int.ne_of_lt hlt
  have : Std.Symm fun x y => (item x).fd ≠ (item y).fd := ⟨fun _ _ hne => hne.symm⟩
  by_contra hne
  exact hdiff.forall hx hy hne heq

/-- Only the descriptors of the nodes of the tree count. -/
theorem SearchTree.congr {item item' : Fin n → EpItem} (h : SearchTree item t)
    (same : ∀ x ∈ t.toList, (item' x).fd = (item x).fd) : SearchTree item' t :=
  h.imp_of_mem fun hx hy hlt => by rwa [same _ hx, same _ hy]

/-- **Insertion.** A new item with a new descriptor finds its place in the tree. -/
theorem insertEpitem_spec (ep : EventPoll n) {epi : Fin n} {k : Nat} (hrep : Represents ep.rbr t)
    (hbalanced : Balanced t .black k) (sorted : SearchTree ep.item t) (hepi : epi ∉ t.toList)
    (missing : ∀ x ∈ t.toList, (ep.item x).fd ≠ (ep.item epi).fd) :
    ∃ rbr t', insertEpitem ep epi = some { ep with rbr } ∧ Represents rbr t' ∧
      (∃ k, Balanced t' .black k) ∧ SearchTree ep.item t' ∧
      ∀ x, x ∈ t'.toList ↔ x = epi ∨ x ∈ t.toList := by
  have hlen := length_toList_le hrep.nodup
  have hle : t.toList.Pairwise fun x y => (ep.item x).fd ≤ (ep.item y).fd :=
    sorted.imp Int.le_of_lt
  obtain ⟨slot, rbr, t', before, after, hdescend, hcolor, hrep', hbalanced', hsplit, hlist, hbefore,
    hafter⟩ := insert_sorted id hrep hbalanced hepi hle hlen hlen
  refine ⟨rbr, t', ?_, hrep', hbalanced', ?_, ?_⟩
  · rw [insertEpitem, hdescend, Option.bind_some, hcolor]
    rfl
  · rw [SearchTree, hsplit] at sorted
    rw [SearchTree, hlist]
    obtain ⟨hb, ha, hba⟩ := List.pairwise_append.mp sorted
    refine List.pairwise_append.mpr ⟨hb, List.pairwise_cons.mpr ⟨hafter, ha⟩, ?_⟩
    intro x hx y hy
    rcases List.mem_cons.mp hy with rfl | hy
    · have hne := missing x (hsplit ▸ List.mem_append_left after hx)
      exact lt_of_le_of_ne (hbefore x hx) hne
    · exact hba x hx y hy
  · intro x
    rw [hlist, hsplit]
    simp only [List.mem_append, List.mem_cons]
    tauto

/-! ### The map under the three operations -/

section Stores

variable {item : Fin n → EpItem} {l l' : List (Fin n)} {epi : Fin n} {event : EpollEvent}
  (h : Stores item l interest)
include h

theorem Stores.insert {fd : Int} (hepi : epi ∉ l) (missing : interest fd = none)
    (hmem : ∀ x, x ∈ l' ↔ x = epi ∨ x ∈ l) :
    Stores (Function.update item epi { fd, event }) l'
      (Function.update interest fd (some event)) := by
  have hold : ∀ x ∈ l, Function.update item epi { fd, event } x = item x := fun x hx =>
    Function.update_of_ne (ne_of_mem_of_not_mem hx hepi) ..
  intro fd' event'
  have hstores : (∃ x ∈ l', Function.update item epi { fd, event } x = { fd := fd', event := event' })
      ↔ (fd = fd' ∧ event = event') ∨ interest fd' = some event' := by
    rw [h fd' event', ← EpItem.mk.injEq]
    constructor
    · rintro ⟨x, hx, heq⟩
      rcases (hmem x).mp hx with rfl | hx
      · rw [Function.update_self] at heq
        exact .inl heq
      · exact .inr ⟨x, hx, (hold x hx).symm.trans heq⟩
    · rintro (heq | ⟨x, hx, heq⟩)
      · exact ⟨epi, (hmem epi).mpr (.inl rfl), (Function.update_self ..).trans heq⟩
      · exact ⟨x, (hmem x).mpr (.inr hx), (hold x hx).trans heq⟩
  rw [hstores]
  by_cases hfd : fd' = fd
  · subst hfd
    rw [Function.update_self, Option.some_inj, missing]
    simp
  · rw [Function.update_of_ne hfd]
    simp [Ne.symm hfd]

variable (unique : ∀ x ∈ l, ∀ y ∈ l, (item x).fd = (item y).fd → x = y) (hepi : epi ∈ l)
include unique hepi

theorem Stores.modify : Stores (Function.update item epi { item epi with event }) l
    (Function.update interest (item epi).fd (some event)) := by
  intro fd event'
  by_cases hfd : fd = (item epi).fd
  · subst hfd
    rw [Function.update_self, Option.some_inj]
    constructor
    · rintro rfl
      exact ⟨epi, hepi, Function.update_self ..⟩
    · rintro ⟨x, hx, heq⟩
      by_cases hxepi : x = epi
      · subst hxepi
        rw [Function.update_self] at heq
        exact congrArg EpItem.event heq
      · rw [Function.update_of_ne hxepi] at heq
        have hxfd : (item x).fd = (item epi).fd := by rw [heq]
        exact absurd (unique x hx epi hepi hxfd) hxepi
  · rw [Function.update_of_ne hfd, h]
    refine exists_congr fun x => and_congr_right ?_
    intro hx
    by_cases hxepi : x = epi
    · subst hxepi
      rw [Function.update_self]
      exact ⟨fun heq => absurd (congrArg EpItem.fd heq).symm hfd,
        fun heq => absurd (congrArg EpItem.fd heq).symm hfd⟩
    · rw [Function.update_of_ne hxepi]

theorem Stores.erase (hmem : ∀ x, x ∈ l' ↔ x ≠ epi ∧ x ∈ l) :
    Stores item l' (Function.update interest (item epi).fd none) := by
  intro fd event'
  by_cases hfd : fd = (item epi).fd
  · subst hfd
    rw [Function.update_self]
    refine ⟨fun hnone => absurd hnone (by simp), ?_⟩
    rintro ⟨x, hx, heq⟩
    obtain ⟨hne, hx⟩ := (hmem x).mp hx
    have hxfd : (item x).fd = (item epi).fd := by rw [heq]
    exact absurd (unique x hx epi hepi hxfd) hne
  · rw [Function.update_of_ne hfd, h]
    constructor
    · rintro ⟨x, hx, heq⟩
      refine ⟨x, (hmem x).mpr ⟨?_, hx⟩, heq⟩
      rintro rfl
      exact hfd (congrArg EpItem.fd heq).symm
    · rintro ⟨x, hx, heq⟩
      exact ⟨x, ((hmem x).mp hx).2, heq⟩

end Stores

/-! ### One call -/

section Calls

variable {rbErase : RbMem (Fin n) → Fin n → RbMem (Fin n)} (h : Watches ep interest t)
include h

/-- What is free is not in the tree. -/
theorem Watches.notMem_of_free {x : Fin n} (free : ep.allocated x = false) : x ∉ t.toList :=
  fun hmem => absurd (h.allocated x hmem) (by simp [free])

theorem Watches.unique : ∀ x ∈ t.toList, ∀ y ∈ t.toList, (ep.item x).fd = (ep.item y).fd → x = y :=
  fun _ hx _ hy => h.sorted.eq_of_fd hx hy

/-- **`EPOLL_CTL_ADD`** of a descriptor that is not registered. -/
theorem Watches.add {epi : Fin n} (missing : itemOf ep.item t.toList call.fd = none)
    (free : ep.allocated epi = false) :
    ∃ ep' t',
      insertEpitem (ep.register epi { fd := call.fd, event := call.event }) epi = some ep' ∧
        Watches ep' (Function.update interest call.fd (some call.event)) t' := by
  obtain ⟨k, hbalanced⟩ := h.balanced
  have hepi := h.notMem_of_free free
  set registered := ep.register epi { fd := call.fd, event := call.event } with hregistered
  have hnew : registered.item epi = { fd := call.fd, event := call.event } :=
    Function.update_self ..
  have hold : ∀ x ∈ t.toList, registered.item x = ep.item x := fun x hx =>
    Function.update_of_ne (ne_of_mem_of_not_mem hx hepi) ..
  have hsorted : SearchTree registered.item t := h.sorted.congr fun x hx => by rw [hold x hx]
  have hfresh : ∀ x ∈ t.toList, (registered.item x).fd ≠ (registered.item epi).fd := fun x hx => by
    rw [hold x hx, hnew]
    exact itemOf_eq_none.mp missing x hx
  obtain ⟨rbr, t', hinsert, hrep, hbalanced', hsorted', hmem⟩ :=
    insertEpitem_spec registered h.represents hbalanced hsorted hepi hfresh
  refine ⟨_, t', hinsert, hrep, hbalanced', hsorted', ?_, ?_⟩
  · intro x hx
    rcases (hmem x).mp hx with rfl | hx
    · exact Function.update_self ..
    · exact (Function.update_of_ne (ne_of_mem_of_not_mem hx hepi) ..).trans (h.allocated x hx)
  · exact h.stores.insert hepi (h.interest_of_missing missing) hmem

/-- **`EPOLL_CTL_MOD`** of a registered descriptor. -/
theorem Watches.mod {epi : Fin n} (found : itemOf ep.item t.toList call.fd = some epi) :
    Watches
      { ep with item := Function.update ep.item epi { ep.item epi with event := call.event } }
      (Function.update interest call.fd (some call.event)) t := by
  obtain ⟨hepi, hfd⟩ := itemOf_eq_some found
  have hsame : ∀ x,
      (Function.update ep.item epi { ep.item epi with event := call.event } x).fd =
        (ep.item x).fd := fun x => by
    by_cases hx : x = epi
    · subst hx
      rw [Function.update_self]
    · rw [Function.update_of_ne hx]
  refine ⟨h.represents, h.balanced, h.sorted.congr fun x _ => hsame x, h.allocated, ?_⟩
  rw [← hfd]
  exact h.stores.modify h.unique hepi

/-- **`EPOLL_CTL_DEL`** of a registered descriptor. -/
theorem Watches.del (erases : ErasesNode rbErase) {epi : Fin n}
    (found : itemOf ep.item t.toList call.fd = some epi) :
    ∃ t', Watches
      { ep with rbr := rbErase ep.rbr epi, allocated := Function.update ep.allocated epi false }
      (Function.update interest call.fd none) t' := by
  obtain ⟨hepi, hfd⟩ := itemOf_eq_some found
  obtain ⟨k, hbalanced⟩ := h.balanced
  obtain ⟨t', hrep, hlist, hbalanced'⟩ := erases.erases _ _ _ _ h.represents hbalanced hepi
  have hmem : ∀ x, x ∈ t'.toList ↔ x ≠ epi ∧ x ∈ t.toList := fun x => by
    rw [hlist]
    exact h.represents.nodup.mem_erase_iff
  refine ⟨t', hrep, hbalanced', ?_, ?_, ?_⟩
  · rw [SearchTree, hlist]
    exact h.sorted.sublist List.erase_sublist
  · intro x hx
    obtain ⟨hne, hx⟩ := (hmem x).mp hx
    exact (Function.update_of_ne hne ..).trans (h.allocated x hx)
  · rw [← hfd]
    exact h.stores.erase h.unique hepi hmem

end Calls

end ArmKernel.Events

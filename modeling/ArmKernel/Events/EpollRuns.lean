/-
Runs of `epoll_ctl` on one instance.

`Watches.step` says that a call returns what the map says and leaves an instance that
holds the map after the call. `epoll_ctl_refines_map` is this along every run.
-/
import ArmKernel.Events.Epoll

namespace ArmKernel.Events

open ArmKernel.Support RbTree

variable {n : Nat} {rbErase : RbMem (Fin n) → Fin n → RbMem (Fin n)} {ep : EventPoll n}
  {interest : Interest} {t : RbTree (Fin n)} {call : CtlCall n}

/-- A call comes with an address that is not in use, if with any. -/
def CtlCall.Fresh (call : CtlCall n) (ep : EventPoll n) : Prop :=
  ∀ epi, call.calloc = some epi → ep.allocated epi = false

instance (call : CtlCall n) (ep : EventPoll n) : Decidable (call.Fresh ep) :=
  decidable_of_iff (∀ epi ∈ call.calloc, ep.allocated epi = false)
    ⟨fun h epi hepi => h epi hepi, fun h epi hepi => h epi hepi⟩

/-- The call returns what the map says, and leaves the map after the call. A call that
fails leaves the instance as it is. -/
def Obeys (rbErase : RbMem (Fin n) → Fin n → RbMem (Fin n)) (ep : EventPoll n)
    (interest : Interest) (call : CtlCall n) : Prop :=
  ∃ result ep', epollCtl rbErase ep call = some (result, ep') ∧
    result = (specCtl interest call).1 ∧ (result ≠ none → ep' = ep) ∧
    ∃ t', Watches ep' (specCtl interest call).2 t'

/-- **One call.** -/
theorem Watches.step (h : Watches ep interest t) (erases : ErasesNode rbErase)
    (fresh : call.Fresh ep) : Obeys rbErase ep interest call := by
  unfold Obeys
  rw [epollCtl, h.findEpitem_eq, Option.bind_some]
  unfold ctlSwitch specCtl
  cases hfound : itemOf ep.item t.toList call.fd with
  | none =>
    rw [h.interest_of_missing hfound]
    split
    · cases hcalloc : call.calloc with
      | none => exact ⟨_, ep, rfl, rfl, fun _ => rfl, t, h⟩
      | some epi =>
        obtain ⟨ep', t', hinsert, hwatches⟩ := h.add hfound (fresh epi hcalloc)
        refine ⟨none, ep', ?_, rfl, fun hnone => absurd rfl hnone, t', hwatches⟩
        simp only [hinsert, Option.map_some]
    · split
      · exact ⟨_, ep, rfl, rfl, fun _ => rfl, t, h⟩
      · split
        · exact ⟨_, ep, rfl, rfl, fun _ => rfl, t, h⟩
        · exact ⟨_, ep, rfl, rfl, fun _ => rfl, t, h⟩
  | some epi =>
    rw [h.interest_of_found hfound]
    split
    · exact ⟨_, ep, rfl, rfl, fun _ => rfl, t, h⟩
    · split
      · exact ⟨none, _, rfl, rfl, fun hnone => absurd rfl hnone, t, h.mod hfound⟩
      · split
        · exact ⟨none, _, rfl, rfl, fun hnone => absurd rfl hnone, h.del erases hfound⟩
        · exact ⟨_, ep, rfl, rfl, fun _ => rfl, t, h⟩

/-! ### Runs -/

/-- The instance, and the map that the calls so far describe. -/
structure Watched (n : Nat) where
  ep : EventPoll n
  interest : Interest

/-- A call of `epoll_ctl`, with memory that is not in use yet. -/
def ctlStep (rbErase : RbMem (Fin n) → Fin n → RbMem (Fin n)) (s : Watched n)
    (call : CtlCall n) : Option (Watched n) :=
  if call.Fresh s.ep then
    (epollCtl rbErase s.ep call).map fun result =>
      { ep := result.2, interest := (specCtl s.interest call).2 }
  else none

/-- An instance just created. -/
def watchedStart (mem : EventPoll n) : Watched n :=
  { ep := epollCreate mem, interest := fun _ => none }

/-- The tree in memory is a binary search tree with one item for each registered
descriptor, and `find_epitem` finds these and no others. -/
structure IsInterestSet (s : Watched n) (t : RbTree (Fin n)) : Prop where
  represents : Represents s.ep.rbr t
  searchTree : SearchTree s.ep.item t
  one_per_fd : ∀ fd, (s.interest fd).isSome ↔ ∃ x ∈ t.toList, (s.ep.item x).fd = fd
  find_none : ∀ fd, s.interest fd = none → findEpitem s.ep fd = some none
  find_some : ∀ fd event, s.interest fd = some event →
    ∃ x ∈ t.toList, findEpitem s.ep fd = some (some x) ∧ s.ep.item x = { fd, event }

/-- What a call returns. It changes the map at its own descriptor only, and when it fails
neither the map nor the instance. -/
def CtlAnswers (rbErase : RbMem (Fin n) → Fin n → RbMem (Fin n)) (s : Watched n)
    (call : CtlCall n) : Prop :=
  call.Fresh s.ep →
    ∃ result ep', epollCtl rbErase s.ep call = some (result, ep') ∧
      result = (specCtl s.interest call).1 ∧
      (∀ fd, fd ≠ call.fd → (specCtl s.interest call).2 fd = s.interest fd) ∧
      (result ≠ none → ep' = s.ep ∧ (specCtl s.interest call).2 = s.interest)

theorem Watches.isInterestSet {s : Watched n} (h : Watches s.ep s.interest t) :
    IsInterestSet s t where
  represents := h.represents
  searchTree := h.sorted
  one_per_fd fd := by
    rw [Option.isSome_iff_exists]
    simp only [h.stores fd]
    constructor
    · rintro ⟨event, x, hx, hitem⟩
      exact ⟨x, hx, by rw [hitem]⟩
    · rintro ⟨x, hx, rfl⟩
      exact ⟨(s.ep.item x).event, x, hx, rfl⟩
  find_none fd hnone := by
    rw [h.findEpitem_eq, Option.some_inj, itemOf_eq_none]
    rintro x hx rfl
    have hsome := (h.stores _ _).mpr ⟨x, hx, rfl⟩
    exact absurd (hnone.symm.trans hsome) (by simp)
  find_some fd event hsome := by
    rw [h.findEpitem_eq]
    obtain ⟨x, hx, hitem⟩ := (h.stores fd event).mp hsome
    have hfd : (s.ep.item x).fd = fd := by rw [hitem]
    cases hfound : itemOf s.ep.item t.toList fd with
    | none => exact absurd hfd (itemOf_eq_none.mp hfound x hx)
    | some y =>
      obtain ⟨hy, hyfd⟩ := itemOf_eq_some hfound
      obtain rfl := h.unique x hx y hy (hfd.trans hyfd.symm)
      exact ⟨x, hx, rfl, hitem⟩

theorem watchedStart_watches (mem : EventPoll n) :
    Watches (watchedStart mem).ep (watchedStart mem).interest leaf where
  represents := { root := rfl, nodes := trivial, nodup := List.nodup_nil }
  balanced := ⟨0, .leaf⟩
  sorted := List.Pairwise.nil
  allocated x hx := absurd hx List.not_mem_nil
  stores fd event :=
    ⟨fun hnone => absurd hnone (by simp [watchedStart]),
      fun ⟨x, hx, _⟩ => absurd hx List.not_mem_nil⟩

theorem ctlStep_watches (erases : ErasesNode rbErase) (s : Watched n) (call : CtlCall n)
    (s' : Watched n) (h : ∃ t, Watches s.ep s.interest t) (hstep : ctlStep rbErase s call = some s') :
    ∃ t', Watches s'.ep s'.interest t' := by
  obtain ⟨t, h⟩ := h
  unfold ctlStep at hstep
  split at hstep
  · rename_i hfresh
    obtain ⟨result, ep', hctl, -, -, t', hwatches⟩ := h.step erases hfresh
    rw [hctl] at hstep
    cases hstep
    exact ⟨t', hwatches⟩
  · cases hstep

/-- **The interest set is a map.** Along every run of `epoll_ctl` the tree is a search tree
of the registered descriptors, and every call returns what the map says. -/
theorem epoll_ctl_refines_map (erases : ErasesNode rbErase) (mem : EventPoll n)
    (calls : List (CtlCall n)) :
    Along (ctlStep rbErase) (fun s => ∃ t, IsInterestSet s t) (watchedStart mem) calls ∧
      Each (ctlStep rbErase) (CtlAnswers rbErase) (watchedStart mem) calls := by
  have hstart : ∃ t, Watches (watchedStart mem).ep (watchedStart mem).interest t :=
    ⟨leaf, watchedStart_watches mem⟩
  constructor
  · refine (along_of_preserved (ctlStep_watches erases) hstart calls).mono ?_
    rintro s ⟨t, h⟩
    exact ⟨t, h.isInterestSet⟩
  · refine each_of_preserved ?_ (ctlStep_watches erases) hstart calls
    rintro s call ⟨t, h⟩ hfresh
    obtain ⟨result, ep', hctl, hresult, hsame, -⟩ := h.step erases hfresh
    refine ⟨result, ep', hctl, hresult, fun fd hfd => specCtl_other _ _ hfd, ?_⟩
    intro hfail
    refine ⟨hsame hfail, ?_⟩
    obtain ⟨e, he⟩ := Option.ne_none_iff_exists'.mp hfail
    exact specCtl_error (hresult.symm.trans he)

/-! ### A removal -/

/-- Hang a node in behind all others. -/
def pushNode (m : RbMem (Fin n)) (x : Fin n) : RbMem (Fin n) :=
  ((m.descend (fun _ => false) n none).bind fun slot =>
    (m.linkNode slot x).insertColor id n x).getD m

/-- A removal that builds the tree again, from the other nodes in order. -/
def rebuildErase (m : RbMem (Fin n)) (x : Fin n) : RbMem (Fin n) :=
  ((m.inorder n m.root).erase x).foldl pushNode { m with root := none }

theorem pushNode_spec {m : RbMem (Fin n)} {x : Fin n} {k : Nat} (hrep : Represents m t)
    (hbalanced : Balanced t .black k) (hx : x ∉ t.toList) :
    ∃ t', Represents (pushNode m x) t' ∧ t'.toList = t.toList ++ [x] ∧
      ∃ k, Balanced t' .black k := by
  have hlen := length_toList_le hrep.nodup
  have hinsert : ∃ slot m' t', m.descend (fun _ => false) n none = some slot ∧
      (m.linkNode slot x).insertColor id n x = some m' ∧ Represents m' t' ∧
      t'.toList = t.toList ++ [x] ∧ ∃ k, Balanced t' .black k :=
    insert_spec hrep hbalanced hx hlen hlen (List.append_nil _).symm (fun _ _ => rfl)
      (fun _ hy => absurd hy List.not_mem_nil)
  obtain ⟨slot, m', t', hdescend, hcolor, hrep', hlist, hbalanced'⟩ := hinsert
  refine ⟨t', ?_, hlist, hbalanced'⟩
  rw [pushNode, hdescend, Option.bind_some, hcolor]
  exact hrep'

theorem foldl_pushNode {m : RbMem (Fin n)} {l : List (Fin n)} {k : Nat} (hrep : Represents m t)
    (hbalanced : Balanced t .black k) (hnodup : (t.toList ++ l).Nodup) :
    ∃ t', Represents (l.foldl pushNode m) t' ∧ t'.toList = t.toList ++ l ∧
      ∃ k, Balanced t' .black k := by
  induction l generalizing m t k with
  | nil => exact ⟨t, hrep, (List.append_nil _).symm, k, hbalanced⟩
  | cons x l ih =>
    have hx : x ∉ t.toList := fun hmem =>
      (List.nodup_append.mp hnodup).2.2 x hmem x List.mem_cons_self rfl
    obtain ⟨u, hrep', hlist, k', hbalanced'⟩ := pushNode_spec hrep hbalanced hx
    have hrest : (u.toList ++ l).Nodup := by
      rwa [hlist, List.append_assoc, List.singleton_append]
    obtain ⟨t', hrep'', hlist', hbalanced''⟩ := ih hrep' hbalanced' hrest
    refine ⟨t', hrep'', ?_, hbalanced''⟩
    rw [hlist', hlist, List.append_assoc, List.singleton_append]

theorem rebuildErase_erases : ErasesNode (rebuildErase : RbMem (Fin n) → Fin n → RbMem (Fin n)) where
  erases m t h x hrep hbalanced hx := by
    have hinorder : m.inorder n m.root = t.toList := by
      rw [hrep.root]
      exact hrep.nodes.inorder (length_toList_le hrep.nodup)
    have hempty : Represents { m with root := none } (leaf : RbTree (Fin n)) :=
      { root := rfl, nodes := trivial, nodup := List.nodup_nil }
    rw [rebuildErase, hinorder]
    exact foldl_pushNode hempty .leaf (hrep.nodup.erase x)

/-- Four descriptors are added, one of them twice, one gets a new event, and one is
removed; the memory runs out once. -/
def ctlCalls : List (CtlCall 5) :=
  let event : EpollEvent := { events := 1, data := 7 }
  [{ op := epollCtlAdd, fd := 5, event, calloc := some 0 },
    { op := epollCtlAdd, fd := 3, event, calloc := some 1 },
    { op := epollCtlAdd, fd := 4, event, calloc := some 2 },
    { op := epollCtlAdd, fd := 5, event, calloc := some 3 },
    { op := epollCtlMod, fd := 4, event := { event with events := 4 }, calloc := none },
    { op := epollCtlDel, fd := 3, event, calloc := none },
    { op := epollCtlAdd, fd := 9, event, calloc := none },
    { op := 0, fd := 9, event, calloc := some 1 }]

/-- Memory in which nothing is in use. -/
def freshPoll : EventPoll 5 :=
  { rbr := { node := fun _ => { parent := none, left := none, right := none, color := .black }
             root := none }
    item := fun _ => { fd := 0, event := { events := 0, data := 0 } }
    allocated := fun _ => false }

theorem epoll_ctl_refines_map_calls :
    ErasesNode (rebuildErase : RbMem (Fin 5) → Fin 5 → RbMem (Fin 5)) ∧
      Along (ctlStep rebuildErase) (fun s => ∃ t, IsInterestSet s t) (watchedStart freshPoll)
        ctlCalls ∧
      Each (ctlStep rebuildErase) (CtlAnswers rebuildErase) (watchedStart freshPoll) ctlCalls :=
  ⟨rebuildErase_erases, epoll_ctl_refines_map rebuildErase_erases freshPoll ctlCalls⟩

example : (run (ctlStep rebuildErase) (watchedStart freshPoll) ctlCalls).map
    (fun s => [3, 4, 5, 9].map (findEpitem s.ep)) =
      some [some none, some (some 2), some (some 0), some none] := by
  decide +kernel

end ArmKernel.Events

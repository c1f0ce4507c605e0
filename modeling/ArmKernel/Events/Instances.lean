/-
The descriptors of epoll instances (`src/epoll.c`, lines 10 to 56 and 208 to 231).

Any number of threads call `epoll_create` and `epoll_close`. Each section under
`instance_lock` is one step: the scan of `find_available_fd`, the store in `epoll_create`,
and `epoll_close`; the `calloc` between the first two is a step of its own. An instance is
the address `calloc` gave for it.

`opened` lists the calls of `epoll_create` that returned a descriptor nobody has closed
since. `OwnInstances` says that each of these has its slot to itself. The scan reserves
nothing, so two calls may find the same slot; `own_instances_iff` says that this is all
that goes wrong.
-/
import ArmKernel.Support.Run
import Mathlib.Data.List.Pairwise
import Mathlib.Logic.Function.Basic

namespace ArmKernel.Events

open ArmKernel.Support

/-- `MAX_EPOLL_INSTANCES`. -/
def maxEpollInstances : Nat := 1024

/-- Where a thread is in `epoll_create`. -/
inductive CreatePhase where
  | outside
  | found (epfd : Nat)
  | made (epfd ep : Nat)

/-- `epoll_instances`, the instances allocated, the threads, and the descriptors open. -/
structure EpollTable where
  instances : Nat → Option Nat
  allocated : Nat → Bool
  thread : Nat → CreatePhase
  opened : List (Nat × Nat)

/-- `find_available_fd`; `none` is -1. -/
def findAvailableFd (s : EpollTable) : Option Nat :=
  (List.range maxEpollInstances).find? fun i => (s.instances i).isNone

/-- A step of a thread in `epoll_create`, or a call of `epoll_close` by any thread. -/
inductive EpollAction where
  | find (t : Nat) (size : Int)
  | calloc (t : Nat) (ep : Option Nat)
  | store (t : Nat)
  | close (epfd : Int)

def EpollTable.setThread (s : EpollTable) (t : Nat) (phase : CreatePhase) : EpollTable :=
  { s with thread := Function.update s.thread t phase }

/-- The store of `epoll_create`, which then returns the descriptor. -/
def EpollTable.publish (s : EpollTable) (epfd ep : Nat) : EpollTable :=
  { s with
    instances := Function.update s.instances epfd (some ep)
    opened := (epfd, ep) :: s.opened }

/-- `epoll_close`. -/
def epollClose (s : EpollTable) (epfd : Int) : EpollTable :=
  if epfd < 0 ∨ (maxEpollInstances : Int) ≤ epfd then s
  else
    let fd := epfd.toNat
    let s := { s with opened := s.opened.filter fun entry => entry.1 ≠ fd }
    match s.instances fd with
    | none => s
    | some ep =>
      { s with
        instances := Function.update s.instances fd none
        allocated := Function.update s.allocated ep false }

/-- One step. A call that fails (`EINVAL`, `EMFILE`, `ENOMEM`) is outside again; `calloc`
gives memory that is not allocated. -/
def epollTableStep (s : EpollTable) : EpollAction → Option EpollTable
  | .find t size =>
    match s.thread t with
    | .outside =>
      if size ≤ 0 then some s
      else
        match findAvailableFd s with
        | none => some s
        | some epfd => some (s.setThread t (.found epfd))
    | _ => none
  | .calloc t ep =>
    match s.thread t with
    | .found epfd =>
      match ep with
      | none => some (s.setThread t .outside)
      | some ep =>
        if s.allocated ep then none
        else
          some
            { s.setThread t (.made epfd ep) with
              allocated := Function.update s.allocated ep true }
    | _ => none
  | .store t =>
    match s.thread t with
    | .made epfd ep => some ((s.setThread t .outside).publish epfd ep)
    | _ => none
  | .close epfd => some (epollClose s epfd)

/-- No instance exists, and no thread is in a call. -/
def epollTableStart : EpollTable where
  instances _ := none
  allocated _ := false
  thread _ := .outside
  opened := []

/-- No two open descriptors are the same; the slot of each holds the instance its
`epoll_create` allocated; and an instance that is allocated is in a slot, or with the call
that is making it. -/
structure OwnInstances (s : EpollTable) : Prop where
  distinct : s.opened.Pairwise fun a b => a.1 ≠ b.1
  slot : ∀ epfd ep, (epfd, ep) ∈ s.opened → s.instances epfd = some ep
  reachable : ∀ ep, s.allocated ep = true →
    (∃ epfd < maxEpollInstances, s.instances epfd = some ep) ∨
      ∃ t epfd, s.thread t = .made epfd ep

/-- The slot that `find_available_fd` found is still empty at the store. -/
def StoresIntoEmpty (s : EpollTable) : EpollAction → Prop
  | .store t => ∀ epfd ep, s.thread t = .made epfd ep → s.instances epfd = none
  | .find _ _ | .calloc _ _ | .close _ => True

/-- What the runs keep whose stores find their slots empty. -/
structure SlotsKept (s : EpollTable) : Prop where
  own : OwnInstances s
  known : ∀ epfd ep, s.instances epfd = some ep → (epfd, ep) ∈ s.opened
  found : ∀ t epfd, s.thread t = .found epfd → epfd < maxEpollInstances
  made : ∀ t epfd ep, s.thread t = .made epfd ep → epfd < maxEpollInstances

section Steps

variable {s s' : EpollTable} {t epfd ep : Nat}

theorem findAvailableFd_lt (h : findAvailableFd s = some epfd) : epfd < maxEpollInstances := by
  rw [findAvailableFd] at h
  exact List.mem_range.mp (List.mem_of_find?_eq_some h)

/-- A thread moves, and the others stay where they are. -/
theorem thread_update {threads : Nat → CreatePhase} {phase phase' : CreatePhase} {u : Nat}
    (h : Function.update threads t phase u = phase') : u = t ∧ phase = phase' ∨
      u ≠ t ∧ threads u = phase' := by
  by_cases hut : u = t
  · subst hut
    rw [Function.update_self] at h
    exact Or.inl ⟨rfl, h⟩
  · rw [Function.update_of_ne hut] at h
    exact Or.inr ⟨hut, h⟩

/-- A thread that holds no instance moves, and still holds none. -/
theorem SlotsKept.setThread {phase : CreatePhase} (h : SlotsKept s)
    (hbefore : ∀ epfd ep, s.thread t ≠ .made epfd ep)
    (hfound : ∀ epfd, phase = .found epfd → epfd < maxEpollInstances)
    (hafter : ∀ epfd ep, phase ≠ .made epfd ep) : SlotsKept (s.setThread t phase) := by
  refine ⟨⟨h.own.distinct, h.own.slot, ?_⟩, h.known, ?_, ?_⟩
  · intro ep hep
    rcases h.own.reachable ep hep with hslot | ⟨u, epfd, hu⟩
    · exact Or.inl hslot
    · have hut : u ≠ t := fun heq => hbefore epfd ep (heq ▸ hu)
      exact Or.inr ⟨u, epfd, (Function.update_of_ne hut _ _).trans hu⟩
  · intro u epfd hu
    rcases thread_update hu with ⟨-, hphase⟩ | ⟨-, hsame⟩
    · exact hfound epfd hphase
    · exact h.found u epfd hsame
  · intro u epfd ep hu
    rcases thread_update hu with ⟨-, hphase⟩ | ⟨-, hsame⟩
    · exact absurd hphase (hafter epfd ep)
    · exact h.made u epfd ep hsame

/-- A thread gets its instance. -/
theorem SlotsKept.calloc (h : SlotsKept s) (ht : s.thread t = .found epfd) :
    SlotsKept { s.setThread t (.made epfd ep) with
      allocated := Function.update s.allocated ep true } := by
  refine ⟨⟨h.own.distinct, h.own.slot, ?_⟩, h.known, ?_, ?_⟩
  · intro ep' hep
    by_cases heq : ep' = ep
    · subst heq
      exact Or.inr ⟨t, epfd, Function.update_self t _ _⟩
    · simp only [Function.update_of_ne heq] at hep
      rcases h.own.reachable ep' hep with hslot | ⟨u, epfd', hu⟩
      · exact Or.inl hslot
      · have hut : u ≠ t := by
          rintro rfl
          cases ht.symm.trans hu
        exact Or.inr ⟨u, epfd', (Function.update_of_ne hut _ _).trans hu⟩
  · intro u epfd' hu
    rcases thread_update hu with ⟨-, hphase⟩ | ⟨-, hsame⟩
    · cases hphase
    · exact h.found u epfd' hsame
  · intro u epfd' ep' hu
    rcases thread_update hu with ⟨-, hphase⟩ | ⟨-, hsame⟩
    · cases hphase
      exact h.found t epfd ht
    · exact h.made u epfd' ep' hsame

/-- **The store** into a slot that is still empty. -/
theorem SlotsKept.publish (h : SlotsKept s) (ht : s.thread t = .made epfd ep)
    (hempty : s.instances epfd = none) :
    SlotsKept ((s.setThread t .outside).publish epfd ep) := by
  have hother : ∀ {fd ep'}, s.instances fd = some ep' →
      Function.update s.instances epfd (some ep) fd = some ep' := by
    intro fd ep' hslot
    have hne : fd ≠ epfd := by
      rintro rfl
      cases hempty.symm.trans hslot
    exact (Function.update_of_ne hne _ _).trans hslot
  refine ⟨⟨?_, ?_, ?_⟩, ?_, ?_, ?_⟩
  · refine List.pairwise_cons.mpr ⟨?_, h.own.distinct⟩
    rintro ⟨fd, ep'⟩ hmem rfl
    cases hempty.symm.trans (h.own.slot _ _ hmem)
  · intro fd ep' hmem
    rcases List.mem_cons.mp hmem with heq | hmem
    · cases heq
      exact Function.update_self _ _ _
    · exact hother (h.own.slot fd ep' hmem)
  · intro ep' hep
    rcases h.own.reachable ep' hep with ⟨fd, hfd, hslot⟩ | ⟨u, fd, hu⟩
    · exact Or.inl ⟨fd, hfd, hother hslot⟩
    · by_cases hut : u = t
      · subst hut
        cases ht.symm.trans hu
        exact Or.inl ⟨epfd, h.made u epfd ep ht, Function.update_self _ _ _⟩
      · exact Or.inr ⟨u, fd, (Function.update_of_ne hut _ _).trans hu⟩
  · intro fd ep' hslot
    simp only [EpollTable.publish, EpollTable.setThread] at hslot
    by_cases hfd : fd = epfd
    · subst hfd
      rw [Function.update_self] at hslot
      cases hslot
      exact List.mem_cons_self
    · rw [Function.update_of_ne hfd] at hslot
      exact List.mem_cons_of_mem _ (h.known fd ep' hslot)
  · intro u fd hu
    rcases thread_update hu with ⟨-, hphase⟩ | ⟨-, hsame⟩
    · cases hphase
    · exact h.found u fd hsame
  · intro u fd ep' hu
    rcases thread_update hu with ⟨-, hphase⟩ | ⟨-, hsame⟩
    · cases hphase
    · exact h.made u fd ep' hsame

/-- **`epoll_close`** empties the slot and frees the instance that was in it. -/
theorem SlotsKept.close (h : SlotsKept s) (epfd : Int) : SlotsKept (epollClose s epfd) := by
  unfold epollClose
  split
  · exact h
  · generalize epfd.toNat = fd
    have hdistinct := h.own.distinct.filter fun entry => entry.1 ≠ fd
    have hkeeps : ∀ fd' ep, (fd', ep) ∈ (s.opened.filter fun entry => entry.1 ≠ fd) ↔
        (fd', ep) ∈ s.opened ∧ fd' ≠ fd := by
      intro fd' ep
      rw [List.mem_filter, decide_eq_true_iff]
    simp only
    split
    · rename_i hnone
      refine ⟨⟨hdistinct, ?_, h.own.reachable⟩, ?_, h.found, h.made⟩
      · intro fd' ep hmem
        exact h.own.slot fd' ep ((hkeeps fd' ep).mp hmem).1
      · intro fd' ep hslot
        refine (hkeeps fd' ep).mpr ⟨h.known fd' ep hslot, ?_⟩
        rintro rfl
        cases hnone.symm.trans hslot
    · rename_i ep hsome
      refine ⟨⟨hdistinct, ?_, ?_⟩, ?_, h.found, h.made⟩
      · intro fd' ep' hmem
        obtain ⟨hopen, hne⟩ := (hkeeps fd' ep').mp hmem
        exact (Function.update_of_ne hne _ _).trans (h.own.slot fd' ep' hopen)
      · intro ep' hep
        by_cases heq : ep' = ep
        · subst heq
          simp at hep
        · simp only [Function.update_of_ne heq] at hep
          refine (h.own.reachable ep' hep).imp_left ?_
          rintro ⟨fd', hfd', hslot⟩
          have hne : fd' ≠ fd := by
            rintro rfl
            cases hsome.symm.trans hslot
            exact heq rfl
          exact ⟨fd', hfd', (Function.update_of_ne hne _ _).trans hslot⟩
      · intro fd' ep' hslot
        have hne : fd' ≠ fd := by
          rintro rfl
          simp at hslot
        simp only [Function.update_of_ne hne] at hslot
        exact (hkeeps fd' ep').mpr ⟨h.known fd' ep' hslot, hne⟩

/-- **One step** that does not store into a slot in use. -/
theorem slotsKept_step {act : EpollAction} (h : SlotsKept s) (hok : StoresIntoEmpty s act)
    (hstep : epollTableStep s act = some s') : SlotsKept s' := by
  cases act with
  | find t size =>
    simp only [epollTableStep] at hstep
    split at hstep
    · rename_i ht
      split at hstep
      · cases hstep
        exact h
      · split at hstep
        · cases hstep
          exact h
        · rename_i epfd hfind
          cases hstep
          refine h.setThread (fun fd ep => ?_) ?_ (fun fd ep => nofun)
          · rw [ht]
            exact nofun
          · rintro fd ⟨⟩
            exact findAvailableFd_lt hfind
    · cases hstep
  | calloc t ep =>
    simp only [epollTableStep] at hstep
    split at hstep
    · rename_i epfd ht
      split at hstep
      · cases hstep
        refine h.setThread (fun fd ep => ?_) (fun fd => nofun) (fun fd ep => nofun)
        rw [ht]
        exact nofun
      · split at hstep
        · cases hstep
        · cases hstep
          exact h.calloc ht
    · cases hstep
  | store t =>
    simp only [epollTableStep] at hstep
    split at hstep
    · rename_i epfd ep ht
      cases hstep
      exact h.publish ht (hok epfd ep ht)
    · cases hstep
  | close epfd =>
    cases hstep
    exact h.close epfd

/-- A store into a slot in use makes two open descriptors the same. -/
theorem not_own_of_store {act : EpollAction} (h : SlotsKept s) (hbad : ¬ StoresIntoEmpty s act)
    (hstep : epollTableStep s act = some s') : ¬ OwnInstances s' := by
  cases act with
  | find t size => exact absurd trivial hbad
  | calloc t ep => exact absurd trivial hbad
  | close epfd => exact absurd trivial hbad
  | store t =>
    simp only [epollTableStep] at hstep
    split at hstep
    · rename_i epfd ep ht
      cases hstep
      intro hown
      refine hbad fun epfd' ep' ht' => ?_
      cases ht.symm.trans ht'
      cases hslot : s.instances epfd with
      | none => rfl
      | some old =>
        have hapart := (List.pairwise_cons.mp hown.distinct).1 (epfd, old) (h.known epfd old hslot)
        exact absurd rfl hapart
    · cases hstep

theorem slotsKept_start : SlotsKept epollTableStart :=
  ⟨⟨List.Pairwise.nil, nofun, nofun⟩, nofun, nofun, nofun⟩

end Steps

/-- **One instance for each descriptor.** For every interleaving of `epoll_create` and
`epoll_close` calls by any number of threads. -/
theorem own_instances_iff (acts : List EpollAction) :
    Along epollTableStep OwnInstances epollTableStart acts ↔
      Meets epollTableStep StoresIntoEmpty epollTableStart acts :=
  along_iff_meets (I := SlotsKept) (fun _ h => h.own)
    (fun _ _ _ h hok hstep => slotsKept_step h hok hstep)
    (fun _ _ _ h hbad hstep => not_own_of_store h hbad hstep) slotsKept_start acts

/-- Two threads scan before either of them stores. -/
def racingCreates : List EpollAction :=
  [.find 0 1, .find 1 1, .calloc 0 (some 10), .calloc 1 (some 11), .store 0, .store 1]

/-- Both get descriptor 0, and the instance of the first is lost. -/
theorem creates_share_descriptor :
    ¬ ∀ acts, Along epollTableStep OwnInstances epollTableStart acts := by
  intro hall
  have hmap : (run epollTableStep epollTableStart racingCreates).map EpollTable.opened =
      some [(0, 11), (0, 10)] := by decide +kernel
  obtain ⟨s, hrun, hopened⟩ := Option.map_eq_some_iff.mp hmap
  have hdistinct := ((hall racingCreates).last hrun).distinct
  rw [hopened] at hdistinct
  exact absurd rfl ((List.pairwise_cons.mp hdistinct).1 (0, 10) List.mem_cons_self)

end ArmKernel.Events

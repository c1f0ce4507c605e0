/-
The life of an epoll instance (`src/epoll.c`: `epoll_ctl`, `epoll_wait`, `epoll_close`).

`instanceStep` runs `epoll_ctl` and `epoll_wait` of any number of threads on one instance. A
wait that finds nothing ready sleeps between its two critical sections; it is woken by its
timeout, by a signal or for no reason.

`epoll_lifetime` says two things of every run. No wait ever reports an event, and the ready list
stays empty, since nothing in the file puts an item on it. And `epoll_close` frees what is
registered, once each, so that exactly the memory from before `epoll_create` is in use.
-/
import ArmKernel.Events.EpollRuns

namespace ArmKernel.Events

open ArmKernel.Support RbTree

variable {n : Nat}

/-- `eventpoll_t` with its ready list; `next` is the link of an item in that list. -/
structure EpollInstance (n : Nat) where
  poll : EventPoll n
  rdlist : Option (Fin n)
  next : Fin n → Option (Fin n)
  waiting : Int

/-- The arguments of `epoll_wait`. -/
structure WaitCall where
  events : Bool
  maxevents : Int
  timeout : Int
deriving DecidableEq

/-- The loop of `epoll_wait` over the ready list: the events it stores, when there is room for
`room` more. -/
def readyLoop (inst : EpollInstance n) :
    (rounds : Nat) → (epi : Option (Fin n)) → (room : Nat) → Option (List EpollEvent)
  | 0, _, _ => none
  | _ + 1, none, _ => some []
  | rounds + 1, some epi, room =>
    if room = 0 then some []
    else
      (readyLoop inst rounds (inst.next epi) (room - 1)).map fun rest =>
        (inst.poll.item epi).event :: rest

/-- How a critical section of `epoll_wait` ends. -/
inductive WaitResult where
  | returns (ret : Int) (stored : List EpollEvent)
  | sleeps
deriving DecidableEq

/-- `epoll_wait` on an instance that exists, up to the wait on the condition. -/
def epollWaitEnter (inst : EpollInstance n) (call : WaitCall) :
    Option (WaitResult × EpollInstance n) :=
  if call.events = false ∨ call.maxevents ≤ 0 then some (.returns (-1) [], inst)
  else
    (readyLoop inst (n + 1) inst.rdlist call.maxevents.toNat).map fun stored =>
      if stored.length = 0 ∧ call.timeout ≠ 0 then (.sleeps, { inst with waiting := 1 })
      else (.returns stored.length stored, inst)

/-- `epoll_wait` behind the wait on the condition. -/
def epollWaitWake (inst : EpollInstance n) (call : WaitCall) :
    Option ((Int × List EpollEvent) × EpollInstance n) :=
  (readyLoop inst (n + 1) inst.rdlist call.maxevents.toNat).map fun stored =>
    ((stored.length, stored), { inst with waiting := 0 })

/-- `epoll_ctl` on an instance that exists; `calloc` leaves the link of a new item empty. -/
def instanceCtl (rbErase : RbMem (Fin n) → Fin n → RbMem (Fin n)) (inst : EpollInstance n)
    (call : CtlCall n) : Option (EpollInstance n) :=
  (epollCtl rbErase inst.poll call).map fun (result, poll) =>
    match result, call.calloc with
    | none, some epi =>
      { inst with
        poll
        next := if call.op = epollCtlAdd then Function.update inst.next epi none else inst.next }
    | _, _ => { inst with poll }

/-- The loop of `epoll_close`: the instance and the items freed. It is `none` when an item is
freed that is not in use. -/
def closeLoop (rbErase : RbMem (Fin n) → Fin n → RbMem (Fin n)) :
    (rounds : Nat) → EventPoll n → Option (EventPoll n × List (Fin n))
  | 0, _ => none
  | rounds + 1, ep =>
    match ep.rbr.root with
    | none => some (ep, [])
    | some epi =>
      if ep.allocated epi then
        (closeLoop rbErase rounds
          { ep with
            rbr := rbErase ep.rbr epi
            allocated := Function.update ep.allocated epi false }).map fun (ep, freed) =>
              (ep, epi :: freed)
      else none

/-- A step of a thread: a call of `epoll_ctl`, the first or the second half of an
`epoll_wait`. -/
inductive InstanceAction (n : Nat) where
  | ctl (call : CtlCall n)
  | wait (call : WaitCall)
  | wake (call : WaitCall)

/-- The instance, the waits that sleep, and what the waits returned. -/
structure InstanceState (n : Nat) where
  inst : EpollInstance n
  sleepers : List WaitCall
  log : List (Int × List EpollEvent)

/-- One step. -/
def instanceStep (rbErase : RbMem (Fin n) → Fin n → RbMem (Fin n)) (s : InstanceState n) :
    InstanceAction n → Option (InstanceState n)
  | .ctl call =>
    if call.Fresh s.inst.poll then
      (instanceCtl rbErase s.inst call).map fun inst => { s with inst }
    else none
  | .wait call =>
    (epollWaitEnter s.inst call).map fun (result, inst) =>
      match result with
      | .returns ret stored => { s with inst, log := (ret, stored) :: s.log }
      | .sleeps => { s with inst, sleepers := call :: s.sleepers }
  | .wake call =>
    if call ∈ s.sleepers then
      (epollWaitWake s.inst call).map fun (entry, inst) =>
        { inst, sleepers := s.sleepers.erase call, log := entry :: s.log }
    else none

/-- The instance that `epoll_create` makes. -/
def instanceStart (mem : EventPoll n) (next : Fin n → Option (Fin n)) : InstanceState n where
  inst := { poll := epollCreate mem, rdlist := none, next, waiting := 0 }
  sleepers := []
  log := []

/-! ### The memory of the items -/

/-- In use are the items of the list, and what was in use before. -/
structure Accounts (base allocated : Fin n → Bool) (l : List (Fin n)) : Prop where
  inUse : ∀ x, allocated x = true ↔ base x = true ∨ x ∈ l
  apart : ∀ x ∈ l, base x = false

section Accounting

variable {rbErase : RbMem (Fin n) → Fin n → RbMem (Fin n)} {ep ep' : EventPoll n}
  {interest : Interest} {t t' : RbTree (Fin n)} {call : CtlCall n} {base : Fin n → Bool}

/-- A tree in memory has one list of nodes. -/
theorem represents_toList_eq {m : RbMem (Fin n)} (h : Represents m t) (h' : Represents m t') :
    t.toList = t'.toList := by
  rw [← h.nodes.inorder (length_toList_le h.nodup), ← h'.nodes.inorder (length_toList_le h'.nodup),
    ← h.root, ← h'.root]

theorem Accounts.insert {allocated : Fin n → Bool} {l l' : List (Fin n)} {epi : Fin n}
    (h : Accounts base allocated l) (free : allocated epi = false)
    (hmem : ∀ x, x ∈ l' ↔ x = epi ∨ x ∈ l) :
    Accounts base (Function.update allocated epi true) l' where
  inUse := by
    intro x
    rw [hmem x]
    by_cases hx : x = epi
    · subst hx
      simp
    · rw [Function.update_of_ne hx, h.inUse x]
      simp [hx]
  apart := by
    intro x hx
    rcases (hmem x).mp hx with rfl | hx
    · refine Bool.eq_false_iff.mpr ?_
      intro hbase
      rw [(h.inUse x).mpr (.inl hbase)] at free
      cases free
    · exact h.apart x hx

theorem Accounts.erase {allocated : Fin n → Bool} {l l' : List (Fin n)} {epi : Fin n}
    (h : Accounts base allocated l) (hepi : epi ∈ l) (hmem : ∀ x, x ∈ l' ↔ x ≠ epi ∧ x ∈ l) :
    Accounts base (Function.update allocated epi false) l' where
  inUse := by
    intro x
    rw [hmem x]
    by_cases hx : x = epi
    · subst hx
      simp [h.apart x hepi]
    · rw [Function.update_of_ne hx, h.inUse x]
      simp [hx]
  apart := fun x hx => h.apart x ((hmem x).mp hx).2

/-- **One call** of `epoll_ctl` keeps the account. -/
theorem Watches.accounts (h : Watches ep interest t) (erases : ErasesNode rbErase)
    (fresh : call.Fresh ep) (hacc : Accounts base ep.allocated t.toList)
    {result : Option Errno} (hctl : epollCtl rbErase ep call = some (result, ep'))
    (h' : Represents ep'.rbr t') : Accounts base ep'.allocated t'.toList := by
  have hsame : ∀ {ep' : EventPoll n}, Represents ep'.rbr t' → ep'.rbr = ep.rbr →
      ep'.allocated = ep.allocated → Accounts base ep'.allocated t'.toList := by
    intro ep' h' hrbr hallocated
    rw [hallocated, represents_toList_eq (hrbr ▸ h') h.represents]
    exact hacc
  rw [epollCtl, h.findEpitem_eq, Option.bind_some] at hctl
  unfold ctlSwitch at hctl
  split at hctl
  · -- `EPOLL_CTL_ADD`
    split at hctl
    · cases hctl
      exact hsame h' rfl rfl
    next hfound =>
      split at hctl
      · cases hctl
        exact hsame h' rfl rfl
      next epi hcalloc =>
        obtain ⟨ep₁, hinsert, heq⟩ := Option.map_eq_some_iff.mp hctl
        cases heq
        have hfree := fresh epi hcalloc
        have hepi := h.notMem_of_free hfree
        set registered := ep.register epi { fd := call.fd, event := call.event } with hregistered
        have hold : ∀ x ∈ t.toList, registered.item x = ep.item x := fun x hx =>
          Function.update_of_ne (ne_of_mem_of_not_mem hx hepi) ..
        have hnew : registered.item epi = { fd := call.fd, event := call.event } :=
          Function.update_self ..
        obtain ⟨k, hbalanced⟩ := h.balanced
        obtain ⟨rbr, t₁, hspec, hrep, -, -, hmem⟩ := insertEpitem_spec registered h.represents
          hbalanced (h.sorted.congr fun x hx => by rw [hold x hx]) hepi (fun x hx => by
            rw [hold x hx, hnew]
            exact itemOf_eq_none.mp hfound x hx)
        cases hinsert.symm.trans hspec
        rw [represents_toList_eq h' hrep]
        exact hacc.insert hfree hmem
  · split at hctl
    · -- `EPOLL_CTL_MOD`
      split at hctl <;> cases hctl <;> exact hsame h' rfl rfl
    · split at hctl
      · -- `EPOLL_CTL_DEL`
        split at hctl
        · cases hctl
          exact hsame h' rfl rfl
        next epi hfound =>
          cases hctl
          obtain ⟨hepi, -⟩ := itemOf_eq_some hfound
          obtain ⟨k, hbalanced⟩ := h.balanced
          obtain ⟨t₁, hrep, hlist, -⟩ := erases.erases _ _ _ _ h.represents hbalanced hepi
          have hrep' : Represents (rbErase ep.rbr epi) t' := h'
          rw [represents_toList_eq hrep' hrep, hlist]
          exact hacc.erase hepi fun x => h.represents.nodup.mem_erase_iff
      · cases hctl
        exact hsame h' rfl rfl

/-- **`epoll_close`** frees the items of the tree, once each. -/
theorem closeLoop_spec (erases : ErasesNode rbErase) {k rounds : Nat}
    (hrep : Represents ep.rbr t) (hbalanced : Balanced t .black k)
    (hacc : Accounts base ep.allocated t.toList) (hrounds : t.toList.length < rounds) :
    ∃ ep' freed, closeLoop rbErase rounds ep = some (ep', freed) ∧ ep'.rbr.root = none ∧
      ep'.allocated = base ∧ freed.Perm t.toList := by
  induction rounds generalizing ep t k with
  | zero => exact absurd hrounds (Nat.not_lt_zero _)
  | succ rounds ih =>
    cases t with
    | leaf =>
      refine ⟨ep, [], ?_, hrep.root, ?_, List.Perm.nil⟩
      · rw [closeLoop, hrep.root]
        rfl
      · funext x
        have hx := hacc.inUse x
        simp only [toList, List.not_mem_nil, or_false] at hx
        exact Bool.eq_iff_iff.mpr hx
    | node c l x r =>
      have hmem : x ∈ (node c l x r).toList := by simp [toList]
      obtain ⟨t', hrep', hlist, k', hbalanced'⟩ := erases.erases _ _ _ _ hrep hbalanced hmem
      have hacc' : Accounts base (Function.update ep.allocated x false) t'.toList := by
        rw [hlist]
        exact hacc.erase hmem fun y => hrep.nodup.mem_erase_iff
      have hlen : t'.toList.length < rounds := by
        rw [hlist, List.length_erase_of_mem hmem]
        have hpos := List.length_pos_of_mem hmem
        omega
      set ep₁ : EventPoll n :=
        { ep with rbr := rbErase ep.rbr x, allocated := Function.update ep.allocated x false }
      have hrep₁ : Represents ep₁.rbr t' := hrep'
      obtain ⟨ep', freed, hloop, hroot, hbase, hperm⟩ := ih hrep₁ hbalanced' hacc' hlen
      refine ⟨ep', x :: freed, ?_, hroot, hbase, ?_⟩
      · have htop : ep.rbr.root = some x := hrep.root
        rw [closeLoop, htop]
        simp only [(hacc.inUse x).mpr (.inr hmem), if_true]
        exact congrArg (Option.map _) hloop
      · exact (hperm.cons x).trans (hlist ▸ (List.perm_cons_erase hmem).symm)

end Accounting

/-! ### Every run -/

/-- The invariant: the instance holds some map in a tree with its items, nothing is ready, and
no wait has reported an event. -/
structure InstanceSound (base : Fin n → Bool) (s : InstanceState n) : Prop where
  tree : ∃ interest t, Watches s.inst.poll interest t ∧
    Accounts base s.inst.poll.allocated t.toList
  idle : s.inst.rdlist = none
  silent : ∀ entry ∈ s.log, (entry.1 = 0 ∨ entry.1 = -1) ∧ entry.2 = []

section Runs

variable {rbErase : RbMem (Fin n) → Fin n → RbMem (Fin n)} {base : Fin n → Bool}

/-- With nothing on the list nothing is stored. -/
theorem readyLoop_idle {inst : EpollInstance n} (h : inst.rdlist = none) (rounds room : Nat) :
    readyLoop inst (rounds + 1) inst.rdlist room = some [] := by
  rw [h]
  rfl

theorem InstanceSound.ctl (erases : ErasesNode rbErase) {s s' : InstanceState n} {call : CtlCall n}
    (h : InstanceSound base s) (hstep : instanceStep rbErase s (.ctl call) = some s') :
    InstanceSound base s' := by
  obtain ⟨⟨interest, t, hwatches, hacc⟩, hidle, hsilent⟩ := h
  simp only [instanceStep] at hstep
  split at hstep
  next hfresh =>
    obtain ⟨result, ep', hctl, -, -, t', hwatches'⟩ := hwatches.step erases hfresh
    have hacc' := hwatches.accounts erases hfresh hacc hctl hwatches'.represents
    rw [instanceCtl, hctl] at hstep
    simp only [Option.map_some] at hstep
    split at hstep <;> cases hstep
    · exact ⟨⟨_, t', hwatches', hacc'⟩, hidle, hsilent⟩
    · exact ⟨⟨_, t', hwatches', hacc'⟩, hidle, hsilent⟩
  next => cases hstep

theorem InstanceSound.step (erases : ErasesNode rbErase) (s : InstanceState n)
    (a : InstanceAction n) (s' : InstanceState n) (h : InstanceSound base s)
    (hstep : instanceStep rbErase s a = some s') : InstanceSound base s' := by
  cases a with
  | ctl call => exact h.ctl erases hstep
  | wait call =>
    simp only [instanceStep, epollWaitEnter] at hstep
    split at hstep
    · cases hstep
      refine ⟨h.tree, h.idle, ?_⟩
      intro entry hentry
      rcases List.mem_cons.mp hentry with rfl | hentry
      · exact ⟨.inr rfl, rfl⟩
      · exact h.silent entry hentry
    · rw [readyLoop_idle h.idle] at hstep
      by_cases hsleep : call.timeout = 0
      · simp only [Option.map_some, List.length_nil, hsleep, ne_eq, not_true, and_false,
          if_false] at hstep
        cases hstep
        refine ⟨h.tree, h.idle, ?_⟩
        intro entry hentry
        rcases List.mem_cons.mp hentry with rfl | hentry
        · exact ⟨.inl rfl, rfl⟩
        · exact h.silent entry hentry
      · simp only [Option.map_some, List.length_nil, hsleep, ne_eq, not_false_eq_true, and_self,
          if_true] at hstep
        cases hstep
        exact ⟨h.tree, h.idle, h.silent⟩
  | wake call =>
    simp only [instanceStep, epollWaitWake] at hstep
    split at hstep
    · rw [readyLoop_idle h.idle] at hstep
      cases hstep
      refine ⟨h.tree, h.idle, ?_⟩
      intro entry hentry
      rcases List.mem_cons.mp hentry with rfl | hentry
      · exact ⟨.inl rfl, rfl⟩
      · exact h.silent entry hentry
    · cases hstep

theorem instanceStart_sound (mem : EventPoll n) (next : Fin n → Option (Fin n)) :
    InstanceSound mem.allocated (instanceStart mem next) where
  tree := ⟨_, leaf, watchedStart_watches mem, fun x => by simp [instanceStart, epollCreate, toList],
    fun x hx => absurd hx List.not_mem_nil⟩
  idle := rfl
  silent := fun _ h => absurd h List.not_mem_nil

/-- **The life of an instance.** Whatever threads do with it, no wait reports an event, the ready
list is empty, and `epoll_close` then frees each item that is registered once: in use is what was
in use before the instance was created. -/
theorem epoll_lifetime (erases : ErasesNode rbErase) (mem : EventPoll n)
    (next : Fin n → Option (Fin n)) {actions : List (InstanceAction n)} {s : InstanceState n}
    (hrun : run (instanceStep rbErase) (instanceStart mem next) actions = some s) :
    (∀ entry ∈ s.log, (entry.1 = 0 ∨ entry.1 = -1) ∧ entry.2 = []) ∧ s.inst.rdlist = none ∧
      ∃ ep freed, closeLoop rbErase (n + 1) s.inst.poll = some (ep, freed) ∧
        ep.rbr.root = none ∧ ep.allocated = mem.allocated ∧ freed.Nodup ∧
        ∀ x, x ∈ freed ↔ s.inst.poll.allocated x = true ∧ mem.allocated x = false := by
  obtain ⟨⟨interest, t, hwatches, hacc⟩, hidle, hsilent⟩ :=
    run_invariant (InstanceSound.step erases) (instanceStart_sound mem next) hrun
  refine ⟨hsilent, hidle, ?_⟩
  obtain ⟨k, hbalanced⟩ := hwatches.balanced
  have hnodup := hwatches.represents.nodup
  obtain ⟨ep, freed, hclose, hroot, hbase, hperm⟩ := closeLoop_spec erases hwatches.represents
    hbalanced hacc (Nat.lt_succ_of_le (length_toList_le hnodup))
  refine ⟨ep, freed, hclose, hroot, hbase, hperm.nodup_iff.mpr hnodup, ?_⟩
  intro x
  rw [hperm.mem_iff, hacc.inUse x]
  constructor
  · exact fun hx => ⟨.inr hx, hacc.apart x hx⟩
  · rintro ⟨hbase | hx, hfree⟩
    · rw [hbase] at hfree
      cases hfree
    · exact hx

end Runs

/-- The calls of `ctlCalls`, with a wait among them that does not sleep and one that does. -/
def lifetimeActions : List (InstanceAction 5) :=
  .wait ⟨true, 4, 0⟩ :: .wait ⟨true, 4, -1⟩ :: ctlCalls.map .ctl ++ [.wake ⟨true, 4, -1⟩]

theorem epoll_lifetime_calls :
    ∃ s, run (instanceStep rebuildErase) (instanceStart freshPoll fun _ => none)
        lifetimeActions = some s ∧
      (∀ entry ∈ s.log, (entry.1 = 0 ∨ entry.1 = -1) ∧ entry.2 = []) ∧ s.inst.rdlist = none ∧
      ∃ ep freed, closeLoop rebuildErase 6 s.inst.poll = some (ep, freed) ∧
        ep.rbr.root = none ∧ ep.allocated = freshPoll.allocated ∧ freed.Nodup ∧
        ∀ x, x ∈ freed ↔ s.inst.poll.allocated x = true ∧ freshPoll.allocated x = false := by
  have hsome : (run (instanceStep rebuildErase) (instanceStart freshPoll fun _ => none)
      lifetimeActions).isSome = true := by decide +kernel
  obtain ⟨s, hs⟩ := Option.isSome_iff_exists.mp hsome
  exact ⟨s, hs, epoll_lifetime rebuildErase_erases freshPoll (fun _ => none) hs⟩

end ArmKernel.Events

/-
Runs of tasks that switch to each other.

Tasks compute, each on its own stack, and call `context_switch`. `saved t` remembers
what task `t` had when it was last switched out, and a switch is right when it gives
that back, or starts a task that never ran at its entry (`Resumes`).

* `Kept`: where frames and new contexts lie in every reachable state.
* `resumes_iff_savedBefore`: a switch is right exactly when its target was switched
  out before, and the bits `msr spsr` does not write agree.
* `switch_resumes_iff`: hence the runs whose switches are all right.
* `first_switch_misses`: a run of one switch to a task that never ran.
-/
import ArmKernel.Context.Switch
import ArmKernel.Support.Run
import Mathlib.Data.Fintype.Option

namespace ArmKernel.Context

open ArmKernel.Support ArmKernel.Tasks

variable {n : Nat}

/-! ### The tasks -/

/-- Control blocks and stacks of `n` tasks, and the stack `none` of the code that runs
before the first task. A stack is the byte range from `lo` to `hi`; below 64 lies the
vector table the startup code copies. -/
structure TaskSet (n : Nat) where
  tcb : Fin n → Word
  entry : Fin n → Word
  lo : Option (Fin n) → Nat
  hi : Option (Fin n) → Nat
  tcb_ne : ∀ t, tcb t ≠ 0
  tcb_aligned : ∀ t, (tcb t).toNat % 4 = 0
  tcb_inj : ∀ s t, tcb s = tcb t → s = t
  above : ∀ c, 64 ≤ lo c
  fits : ∀ c, hi c < 2 ^ 32
  apart : ∀ c d, c ≠ d → hi c ≤ lo d ∨ hi d ≤ lo c
  tcb_apart : ∀ t c, (tcb t).toNat + 4 ≤ lo c ∨ hi c ≤ (tcb t).toNat

/-- The words of `task->context`. The member `sp`, which the header does not declare,
is put last; `context.r0` comes first in any case. -/
def contextWords (context : TaskContext) : List Word :=
  List.ofFn context.r ++ [context.lr, context.pc, context.cpsr, context.sp]

/-- The machine, the task that runs on it, and what each task had when it was last
switched out. -/
structure Cpu (n : Nat) where
  machine : Machine
  running : Option (Fin n)
  saved : Fin n → Option Snapshot

/-- `task_create` has made the tasks, and none was switched out yet. -/
structure Created (ts : TaskSet n) (s : Cpu n) : Prop where
  contexts : ∀ t, ∃ name priority taskExit, Stored s.machine.mem (ts.tcb t)
    (contextWords (newTask n name (ts.entry t) taskExit priority
      (ts.hi (some t) - ts.lo (some t)) (ts.lo (some t))).context)
  saved : ∀ t, s.saved t = none

/-! ### Steps -/

/-- What happens between two observations: the running code computes, with the words it
stores, or it calls `context_switch`. -/
inductive CpuAction (n : Nat) where
  | compute (regs : Fin 16 → Word) (cpsr spsr : Word) (writes : List (Word × Word))
  | switch (next : Fin n)

/-- The running code stores words outside the stacks of the other tasks, and outside the
first word of every control block. -/
def MayStore (ts : TaskSet n) (running : Option (Fin n)) (a : Word) : Prop :=
  a.toNat % 4 = 0 ∧ (∀ t, a ≠ ts.tcb t) ∧
    ∀ t, running ≠ some t → a.toNat < ts.lo (some t) ∨ ts.hi (some t) ≤ a.toNat

instance (ts : TaskSet n) (running : Option (Fin n)) (a : Word) :
    Decidable (MayStore ts running a) :=
  inferInstanceAs (Decidable (_ ∧ _))

/-- The running code has room for a frame on its stack. -/
def Room (ts : TaskSet n) (s : Cpu n) : Prop :=
  (s.machine.regs sp).toNat % 4 = 0 ∧ ts.lo s.running + 60 ≤ (s.machine.regs sp).toNat ∧
    (s.machine.regs sp).toNat ≤ ts.hi s.running

instance (ts : TaskSet n) (s : Cpu n) : Decidable (Room ts s) :=
  inferInstanceAs (Decidable (_ ∧ _))

/-- The machine at the first instruction of `context_switch(prev, next)`. -/
def called (ts : TaskSet n) (s : Cpu n) (next : Fin n) : Machine :=
  { s.machine with
    regs := Function.update (Function.update s.machine.regs 0
      (match s.running with | none => 0 | some prev => ts.tcb prev)) 1 (ts.tcb next) }

/-- `context_switch(prev, next)` by the running task `prev`. -/
def switchTo (ts : TaskSet n) (s : Cpu n) (next : Fin n) : Cpu n where
  machine := exec 0 contextSwitch (called ts s next)
  running := some next
  saved := match s.running with
    | none => s.saved
    | some prev => Function.update s.saved prev (some (Snapshot.of (called ts s next)))

def storeAll (mem : Word → Word) : List (Word × Word) → Word → Word
  | [] => mem
  | (a, w) :: writes => storeAll (Function.update mem a w) writes

/-- All the stores are allowed. -/
def MayStoreAll (ts : TaskSet n) (running : Option (Fin n)) (writes : List (Word × Word)) : Prop :=
  ∀ w ∈ writes, MayStore ts running w.1

instance (ts : TaskSet n) (running : Option (Fin n)) (writes : List (Word × Word)) :
    Decidable (MayStoreAll ts running writes) :=
  List.decidableBAll _ _

def cpuStep (ts : TaskSet n) (s : Cpu n) : CpuAction n → Option (Cpu n)
  | .compute regs cpsr spsr writes =>
    if MayStoreAll ts s.running writes then
      some { s with machine := ⟨regs, cpsr, spsr, storeAll s.machine.mem writes⟩ }
    else none
  | .switch next => if Room ts s then some (switchTo ts s next) else none

/-! ### What a switch has to do -/

/-- The task resumes with what it had at its latest switch-out; or, when it never ran, at
its entry, in SVC mode, with the stack pointer in its stack. -/
def ResumedAs (ts : TaskSet n) (m : Machine) (t : Fin n) : Option Snapshot → Prop
  | some snap => (∀ r ∈ generalRegs, m.regs r = snap.regs r) ∧ m.regs sp = snap.regs sp ∧
      m.regs pc = snap.regs lr ∧ m.cpsr = snap.cpsr
  | none => m.regs pc = ts.entry t ∧ m.cpsr = 0x13 ∧
      ts.lo (some t) ≤ (m.regs sp).toNat ∧ (m.regs sp).toNat ≤ ts.hi (some t)

/-- The step resumes its target as it should. -/
def Resumes (ts : TaskSet n) (s : Cpu n) : CpuAction n → Prop
  | .compute _ _ _ _ => True
  | .switch next =>
    ResumedAs ts (switchTo ts s next).machine next ((switchTo ts s next).saved next)

/-- The `cpsr` a task is switched out with: that of the running task now, that of any
other task when it was. -/
def lastCpsr (s : Cpu n) (t : Fin n) : Option Word :=
  if s.running = some t then some s.machine.cpsr else (s.saved t).map Snapshot.cpsr

/-- The target was switched out before, with a `cpsr` that agrees with `spsr` where `msr`
does not write. -/
def SavedBefore (s : Cpu n) : CpuAction n → Prop
  | .compute _ _ _ _ => True
  | .switch next => ∃ cpsr, lastCpsr s next = some cpsr ∧
      s.machine.spsr &&& ~~~spsrFields = cpsr &&& ~~~spsrFields

/-! ### The invariant -/

/-- New contexts start with a zero word; the frame of a task that was switched out lies
on its stack, at the address its control block holds. -/
structure Kept (ts : TaskSet n) (s : Cpu n) : Prop where
  fresh : ∀ t, s.saved t = none → s.machine.mem (ts.tcb t) = 0
  tcb : ∀ t snap, s.saved t = some snap → s.running ≠ some t →
    s.machine.mem (ts.tcb t) = snap.top
  frame : ∀ t snap, s.saved t = some snap → s.running ≠ some t →
    Stored s.machine.mem snap.top snap.frame
  room : ∀ t snap, s.saved t = some snap → s.running ≠ some t →
    ts.lo (some t) + 60 ≤ (snap.regs sp).toNat ∧ (snap.regs sp).toNat ≤ ts.hi (some t)

theorem kept_of_created {ts : TaskSet n} {s : Cpu n} (h : Created ts s) : Kept ts s where
  fresh t _ := by
    obtain ⟨name, priority, taskExit, hwords⟩ := h.contexts t
    exact hwords.1
  tcb t snap hsaved := by simp [h.saved t] at hsaved
  frame t snap hsaved := by simp [h.saved t] at hsaved
  room t snap hsaved := by simp [h.saved t] at hsaved

section Steps

variable {ts : TaskSet n} {s s' : Cpu n} {next t : Fin n} {b : Word}

@[simp] theorem called_sp : (called ts s next).regs sp = s.machine.regs sp := by
  have h0 : sp ≠ 0 := by decide
  have h1 : sp ≠ 1 := by decide
  simp [called, h0, h1]

@[simp] theorem called_mem : (called ts s next).mem = s.machine.mem := rfl

@[simp] theorem called_one : (called ts s next).regs 1 = ts.tcb next := by simp [called]

theorem called_zero (hrunning : s.running = some t) : (called ts s next).regs 0 = ts.tcb t := by
  simp [called, hrunning]

theorem called_zero_none (hrunning : s.running = none) : (called ts s next).regs 0 = 0 := by
  simp [called, hrunning]

/-- Memory after a switch. -/
theorem switchTo_mem : (switchTo ts s next).machine.mem = savedMem (called ts s next) := by
  obtain ⟨m₁, hexec, hmem, -, -⟩ := contextSwitch_saves (called ts s next)
  show (exec 0 contextSwitch (called ts s next)).mem = _
  rw [hexec, (contextSwitch_loads m₁ rfl).1, hmem]

/-- A switch writes on the stack of the running code and to its control block only. -/
theorem switchTo_mem_of_outside (hroom : Room ts s)
    (hstack : b.toNat < ts.lo s.running ∨ ts.hi s.running ≤ b.toNat)
    (htcb : ∀ prev, s.running = some prev → b ≠ ts.tcb prev) :
    (switchTo ts s next).machine.mem b = s.machine.mem b := by
  obtain ⟨-, hlo, hhi⟩ := hroom
  rw [switchTo_mem]
  refine savedMem_of_outside (by rw [called_sp]; omega) (by rw [called_sp]; omega) ?_
  cases hrunning : s.running with
  | none => exact Or.inl (called_zero_none hrunning)
  | some prev => exact Or.inr (called_zero hrunning ▸ htcb prev hrunning)

/-- The control block of a task that is not running keeps its first word. -/
theorem switchTo_tcb (hroom : Room ts s) (ht : s.running ≠ some t) :
    (switchTo ts s next).machine.mem (ts.tcb t) = s.machine.mem (ts.tcb t) := by
  apply switchTo_mem_of_outside hroom
  · have := ts.tcb_apart t s.running
    omega
  · rintro prev hprev heq
    exact ht (ts.tcb_inj t prev heq ▸ hprev)

/-- So does the stack of a task that is not running. -/
theorem switchTo_stack (hroom : Room ts s) (ht : s.running ≠ some t)
    (hlo : ts.lo (some t) ≤ b.toNat) (hhi : b.toNat < ts.hi (some t)) :
    (switchTo ts s next).machine.mem b = s.machine.mem b := by
  apply switchTo_mem_of_outside hroom
  · have := ts.apart s.running (some t) ht
    omega
  · rintro prev - rfl
    have := ts.tcb_apart prev (some t)
    omega

theorem frame_length (snap : Snapshot) : snap.frame.length = 15 := rfl

/-- Where a saved frame lies. -/
theorem top_toNat {snap : Snapshot} (h : 60 ≤ (snap.regs sp).toNat) :
    snap.top.toNat = (snap.regs sp).toNat - 60 :=
  toNat_sub (by decide) h

/-- What is saved after a switch: what the running task has now, and what was saved of
the others. -/
theorem switchTo_saved : (switchTo ts s next).saved t =
    if s.running = some t then some (Snapshot.of (called ts s next)) else s.saved t := by
  cases hrunning : s.running with
  | none => simp [switchTo, hrunning]
  | some prev =>
    rcases eq_or_ne t prev with rfl | hne
    · simp [switchTo, hrunning]
    · simp [switchTo, hrunning, hne, hne.symm]

/-- A context that is new after a switch was new before. -/
theorem switchTo_fresh (hk : Kept ts s) (hroom : Room ts s)
    (hnone : (switchTo ts s next).saved t = none) :
    (switchTo ts s next).machine.mem (ts.tcb t) = 0 := by
  rw [switchTo_saved] at hnone
  split at hnone
  · simp at hnone
  · rename_i ht
    rw [switchTo_tcb hroom ht]
    exact hk.fresh t hnone

/-- After a switch every frame is in place, that of the target too. -/
theorem switchTo_frame (hk : Kept ts s) (hroom : Room ts s) {snap : Snapshot}
    (hsaved : (switchTo ts s next).saved t = some snap) :
    (switchTo ts s next).machine.mem (ts.tcb t) = snap.top ∧
      Stored (switchTo ts s next).machine.mem snap.top snap.frame ∧
      ts.lo (some t) + 60 ≤ (snap.regs sp).toNat ∧ (snap.regs sp).toNat ≤ ts.hi (some t) := by
  have hsp := hroom.2
  rw [switchTo_saved] at hsaved
  split at hsaved
  · -- The running task has just stored it.
    rename_i ht
    obtain rfl := Option.some.inj hsaved
    refine ⟨?_, ?_, ?_⟩
    · rw [switchTo_mem, ← called_zero ht]
      exact savedMem_tcb (called_zero ht ▸ ts.tcb_ne t)
    · rw [switchTo_mem]
      apply stored_savedMem
      · rw [called_sp]
        omega
      · rw [called_sp, called_zero ht]
        have := ts.tcb_apart t s.running
        omega
    · show ts.lo (some t) + 60 ≤ ((called ts s next).regs sp).toNat ∧
        ((called ts s next).regs sp).toNat ≤ ts.hi (some t)
      rw [called_sp, ← ht]
      exact hsp
  · -- It was there before, and the running task does not write there.
    rename_i ht
    obtain ⟨hlo, hhi⟩ := hk.room t snap hsaved ht
    have htop : snap.top.toNat = _ := top_toNat (by omega)
    have hfits := ts.fits (some t)
    refine ⟨(switchTo_tcb hroom ht).trans (hk.tcb t snap hsaved ht), ?_, hlo, hhi⟩
    refine (hk.frame t snap hsaved ht).congr (by rw [frame_length]; omega) fun b hb hb' => ?_
    rw [frame_length] at hb'
    exact switchTo_stack hroom ht (by omega) (by omega)

/-- **Switching keeps the invariant**, whether it resumes its target well or not. -/
theorem kept_switch (hk : Kept ts s) (hroom : Room ts s) : Kept ts (switchTo ts s next) where
  fresh _ hnone := switchTo_fresh hk hroom hnone
  tcb _ _ hsaved _ := (switchTo_frame hk hroom hsaved).1
  frame _ _ hsaved _ := (switchTo_frame hk hroom hsaved).2.1
  room _ _ hsaved _ := (switchTo_frame hk hroom hsaved).2.2

theorem storeAll_of_notMem {mem : Word → Word} {writes : List (Word × Word)}
    (h : ∀ w ∈ writes, b ≠ w.1) : storeAll mem writes b = mem b := by
  induction writes generalizing mem with
  | nil => rfl
  | cons w writes ih =>
    rw [storeAll, ih (fun w' hw' => h w' (List.mem_cons_of_mem _ hw')),
      Function.update_of_ne (h w List.mem_cons_self)]

/-- **Computing keeps the invariant.** -/
theorem kept_compute (hk : Kept ts s) {regs : Fin 16 → Word} {cpsr spsr : Word}
    {writes : List (Word × Word)} (hw : MayStoreAll ts s.running writes) :
    Kept ts { s with machine := ⟨regs, cpsr, spsr, storeAll s.machine.mem writes⟩ } := by
  have htcb : ∀ t, storeAll s.machine.mem writes (ts.tcb t) = s.machine.mem (ts.tcb t) :=
    fun t => storeAll_of_notMem fun w hmem heq => (hw w hmem).2.1 t heq.symm
  refine ⟨fun t hnone => (htcb t).trans (hk.fresh t hnone),
    fun t snap hsaved ht => (htcb t).trans (hk.tcb t snap hsaved ht),
    ?_, hk.room⟩
  intro t snap hsaved ht
  obtain ⟨hlo, hhi⟩ := hk.room t snap hsaved ht
  have htop : snap.top.toNat = _ := top_toNat (by omega)
  have hfits := ts.fits (some t)
  refine (hk.frame t snap hsaved ht).congr (by rw [frame_length]; omega) fun b hb hb' => ?_
  rw [frame_length] at hb'
  apply storeAll_of_notMem
  intro w hmem heq
  have := (hw w hmem).2.2 t ht
  rw [← heq] at this
  omega

/-- **The step.** -/
theorem kept_step {a : CpuAction n} (hk : Kept ts s) (h : cpuStep ts s a = some s') :
    Kept ts s' := by
  cases a with
  | compute regs cpsr spsr writes =>
    simp only [cpuStep] at h
    split at h
    · rename_i hw
      exact Option.some.inj h ▸ kept_compute hk hw
    · simp at h
  | switch next =>
    simp only [cpuStep] at h
    split at h
    · rename_i hroom
      exact Option.some.inj h ▸ kept_switch hk hroom
    · simp at h

/-! ### When a switch is right -/

/-- What the target of a switch starts with, in terms of memory. -/
theorem switchTo_loads (ts : TaskSet n) (s : Cpu n) (next : Fin n) :
    let m' := (switchTo ts s next).machine
    let top := m'.mem (ts.tcb next)
    m'.regs sp = top + 60 ∧ m'.regs pc = m'.regs lr ∧
      m'.cpsr = (m'.mem top &&& spsrFields) ||| (s.machine.spsr &&& ~~~spsrFields) ∧
      ∃ regs, ∀ r ∈ generalRegs, m'.regs r = loadRegs regs m'.mem (top + 4) generalRegs r := by
  obtain ⟨m₁, hexec, -, hone, hspsr⟩ := contextSwitch_saves (called ts s next)
  have hm' : (switchTo ts s next).machine = exec 0 loadNext m₁ := hexec
  obtain ⟨hmem, hsp, hpc, hcpsr, hregs⟩ := contextSwitch_loads m₁ hm'
  rw [← hmem, hone, called_one] at hsp hcpsr hregs
  rw [hspsr] at hcpsr
  exact ⟨hsp, hpc, hcpsr, hregs⟩

theorem lastCpsr_eq : lastCpsr s next = ((switchTo ts s next).saved next).map Snapshot.cpsr := by
  rw [switchTo_saved, lastCpsr]
  split <;> rfl

/-- Writing the masked bits of `x` over `y` gives `x` when the other bits agree. -/
theorem merge_eq_iff (x y mask : Word) :
    (x &&& mask) ||| (y &&& ~~~mask) = x ↔ y &&& ~~~mask = x &&& ~~~mask := by
  constructor
  · intro h
    ext i hi
    have hbit := congrArg (fun z : Word => z[i]) h
    simp only [BitVec.getElem_and, BitVec.getElem_or, BitVec.getElem_not] at hbit ⊢
    revert hbit
    cases x[i] <;> cases y[i] <;> cases mask[i] <;> decide
  · intro h
    rw [h]
    ext i hi
    simp only [BitVec.getElem_and, BitVec.getElem_or, BitVec.getElem_not]
    cases x[i] <;> cases mask[i] <;> rfl

/-- **When a switch is right.** The frame of a task that was switched out before gives
back everything but the bits of `cpsr` that `msr spsr` does not write; a task that
never ran gets its stack pointer from `context.r0`. -/
theorem resumes_iff_savedBefore (hk : Kept ts s) (hroom : Room ts s) :
    Resumes ts s (.switch next) ↔ SavedBefore s (.switch next) := by
  obtain ⟨hsp, hpc, hcpsr, regs, hregs⟩ := switchTo_loads ts s next
  show ResumedAs ts (switchTo ts s next).machine next ((switchTo ts s next).saved next) ↔
    ∃ cpsr, lastCpsr s next = some cpsr ∧ _
  rw [show lastCpsr s next = _ from lastCpsr_eq]
  cases hsaved : (switchTo ts s next).saved next with
  | none =>
    have hlo := ts.above (some next)
    rw [switchTo_fresh hk hroom hsaved] at hsp
    constructor
    · rintro ⟨-, -, hin, -⟩
      rw [hsp] at hin
      have h60 : (0 + 60 : Word).toNat = 60 := rfl
      omega
    · rintro ⟨cpsr, hnone, -⟩
      simp at hnone
  | some snap =>
    obtain ⟨htop, ⟨hframe, hframe'⟩, -⟩ := switchTo_frame hk hroom hsaved
    rw [htop] at hsp hcpsr hregs
    rw [hframe] at hcpsr
    have hgeneral : ∀ r ∈ generalRegs, (switchTo ts s next).machine.regs r = snap.regs r :=
      fun r hr => (hregs r hr).trans (hframe'.loadRegs hr)
    have hspEq : (switchTo ts s next).machine.regs sp = snap.regs sp := by
      rw [hsp]
      exact BitVec.sub_add_cancel _ _
    have hpcEq : (switchTo ts s next).machine.regs pc = snap.regs lr :=
      hpc.trans (hgeneral lr (by decide))
    constructor
    · rintro ⟨-, -, -, hsame⟩
      exact ⟨snap.cpsr, rfl, (merge_eq_iff _ _ _).mp (hcpsr.symm.trans hsame)⟩
    · rintro ⟨cpsr, hsome, hbits⟩
      obtain rfl : snap.cpsr = cpsr := Option.some.inj hsome
      exact ⟨hgeneral, hspEq, hpcEq, hcpsr.trans ((merge_eq_iff _ _ _).mpr hbits)⟩

end Steps

/-! ### Runs -/

/-- **Runs.** From tasks as `task_create` makes them: a run resumes every target as it
should exactly when each was switched out before; and so it is for each next switch,
whatever went before. -/
theorem switch_resumes_iff {ts : TaskSet n} {s : Cpu n} (hs : Created ts s)
    (actions : List (CpuAction n)) :
    (Meets (cpuStep ts) (Resumes ts) s actions ↔ Meets (cpuStep ts) SavedBefore s actions) ∧
      ∀ s' next, run (cpuStep ts) s actions = some s' → Room ts s' →
        (Resumes ts s' (.switch next) ↔ SavedBefore s' (.switch next)) := by
  have hstart := kept_of_created hs
  constructor
  · refine meets_congr (fun _ _ _ => kept_step) ?_ hstart actions
    intro t a t' hk hstep
    cases a with
    | compute => exact Iff.rfl
    | switch next =>
      refine resumes_iff_savedBefore hk (Classical.byContradiction ?_)
      intro hroom
      simp [cpuStep, hroom] at hstep
  · intro s' next hrun hroom
    exact resumes_iff_savedBefore (run_invariant (fun _ _ _ => kept_step) hstart hrun) hroom

/-- Two tasks, with stacks of 1024 bytes. -/
def twoTasks : TaskSet 2 where
  tcb t := BitVec.ofNat 32 (0x1000 + 0x100 * t)
  entry t := BitVec.ofNat 32 (0x8000 + 0x100 * t)
  lo
    | none => 0x4000
    | some t => 0x2000 + 0x400 * t
  hi
    | none => 0x5000
    | some t => 0x2400 + 0x400 * t
  tcb_ne := by decide
  tcb_aligned := by decide
  tcb_inj := by decide
  above := by decide
  fits := by decide
  apart := by decide
  tcb_apart := by decide

/-- The words `task_create` puts into the control block of a task. -/
def newWords (t : Fin 2) : List Word :=
  contextWords (newTask 2 [] (twoTasks.entry t) 0 0
    (twoTasks.hi (some t) - twoTasks.lo (some t)) (twoTasks.lo (some t))).context

/-- Both tasks are new, and the first one runs on its stack. -/
def firstRuns : Cpu 2 where
  machine :=
    { regs := fun r => if r = sp then 0x2400 else 0
      cpsr := 0x13
      spsr := 0x13
      mem := storeWords (storeWords (fun _ => 0) (twoTasks.tcb 0) (newWords 0))
        (twoTasks.tcb 1) (newWords 1) }
  running := some 0
  saved := fun _ => none

theorem firstRuns_created : Created twoTasks firstRuns where
  contexts t := by
    refine ⟨[], 0, 0, ?_⟩
    show Stored firstRuns.machine.mem (twoTasks.tcb t) (newWords t)
    have hone : Stored firstRuns.machine.mem (twoTasks.tcb 1) (newWords 1) :=
      stored_storeWords (by decide)
    have hzero : Stored (storeWords (fun _ => 0) (twoTasks.tcb 0) (newWords 0)) (twoTasks.tcb 0)
        (newWords 0) := stored_storeWords (by decide)
    match t with
    | 0 =>
      refine hzero.congr (by decide) fun b _ hhi => ?_
      have hend : (twoTasks.tcb 0).toNat + 4 * (newWords 0).length ≤ (twoTasks.tcb 1).toNat := by
        decide
      exact storeWords_of_outside (by decide) (Or.inl (by omega))
    | 1 => exact hone
  saved _ := rfl

/-- The theorem on two tasks, before any of them was switched out. -/
theorem switch_resumes_twoTasks :
    (Meets (cpuStep twoTasks) (Resumes twoTasks) firstRuns [.switch 1] ↔
        Meets (cpuStep twoTasks) SavedBefore firstRuns [.switch 1]) ∧
      ∀ s' next, run (cpuStep twoTasks) firstRuns [.switch 1] = some s' → Room twoTasks s' →
        (Resumes twoTasks s' (.switch next) ↔ SavedBefore s' (.switch next)) :=
  switch_resumes_iff firstRuns_created [.switch 1]

/-- The first switch to a task takes its stack pointer from `context.r0`: it ends with
60 in `sp`, outside the stack of the task. -/
theorem first_switch_misses :
    Created twoTasks firstRuns ∧
      (cpuStep twoTasks firstRuns (.switch 1)).map (fun s => s.machine.regs sp) = some 60 ∧
      ¬ Meets (cpuStep twoTasks) (Resumes twoTasks) firstRuns [.switch 1] := by
  have hroom : Room twoTasks firstRuns := by decide
  refine ⟨firstRuns_created, by decide, fun h => ?_⟩
  have hstep : cpuStep twoTasks firstRuns (.switch 1) = some (switchTo twoTasks firstRuns 1) := by
    simp [cpuStep, hroom]
  obtain ⟨hresumes, -⟩ := h _ hstep
  have hsaved := (resumes_iff_savedBefore (kept_of_created firstRuns_created) hroom).mp hresumes
  obtain ⟨cpsr, hnone, -⟩ := hsaved
  simp [lastCpsr, firstRuns] at hnone

end ArmKernel.Context

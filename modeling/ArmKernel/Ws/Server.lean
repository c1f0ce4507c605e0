/-
The message loop of `client_thread` (`src/server.c`).

`framePass` is one pass of the inner loop, `frameLoop` the loop over the bytes of one
`recv`, `messageLoop` the loop over the results of `recv`. The buffer is memory from
address 0 on and keeps its bytes from one `recv` to the next; what stands in the header
before it is parsed is a parameter.

A `recv` that ends inside a frame loses the part of the frame it holds, and the rest is
parsed as if a frame began there. `delivery_at_boundaries` says that reads of whole
frames deliver exactly the frames, and that a stream which is delivered under every cut
has no frame.
-/
import ArmKernel.Ws.Frame

namespace ArmKernel.Ws

open ArmKernel.Support

/-- `BUFFER_SIZE`. -/
def bufferSize : Nat := 65536

/-- What `handle_client_message` is called with: the opcode and the bytes of the payload. -/
abbrev Message := BitVec 4 × List (BitVec 8)

/-- How a pass of the inner loop ends: with the end of the loop, or with a call of
`handle_client_message` on `len` bytes at `payload`, and the state of the next pass. -/
inductive FramePass where
  | ends
  | message (opcode : BitVec 4) (payload len : Nat) (buffer : Bytes) (header : FrameHeader)
      (pos : Nat)

/-- `client_thread`: one pass of the loop over the `bytes` bytes of the buffer. -/
def framePass (bytes : Nat) (buffer : Bytes) (header : FrameHeader) (pos : Nat) : FramePass :=
  if pos < bytes then
    let (headerSize, header) := wsParseFrameHeader buffer pos (bytes - pos) header
    if headerSize < 0 then .ends
    else
      let pos := wrap32 (pos + headerSize.toNat)
      if wrap64 (pos + header.payloadLength) > bytes then .ends
      else
        -- `payload_length` is a `uint64_t`; both functions take a `size_t`.
        let len := wrap32 header.payloadLength
        let buffer :=
          if header.mask ≠ 0 then wsMaskPayload buffer pos header.maskingKey len else buffer
        .message header.opcode pos len buffer header (wrap32 (pos + header.payloadLength))
  else .ends

/-- `client_thread`: the messages of one `recv`, in `rounds` passes; `none` when these
do not end the loop. -/
def frameLoop (bytes : Nat) :
    Nat → Bytes → FrameHeader → Nat → Option (List Message × Bytes)
  | 0, _, _, _ => none
  | rounds + 1, buffer, header, pos =>
    match framePass bytes buffer header pos with
    | .ends => some ([], buffer)
    | .message opcode payload len buffer header pos =>
      (frameLoop bytes rounds buffer header pos).map fun (messages, buffer') =>
        ((opcode, readBytes buffer payload len) :: messages, buffer')

/-- `client_thread`: the messages of the successive results of `recv`. -/
def messageLoop (rounds : Nat) (header : FrameHeader) :
    Bytes → List (List (BitVec 8)) → Option (List Message)
  | _, [] => some []
  | buffer, chunk :: chunks =>
    (frameLoop chunk.length rounds (storeBytes buffer 0 chunk) header 0).bind
      fun (messages, buffer) => (messageLoop rounds header buffer chunks).map (messages ++ ·)

/-- The message loop ends and delivers `messages`. -/
def Delivers (buffer : Bytes) (header : FrameHeader) (chunks : List (List (BitVec 8)))
    (messages : List Message) : Prop :=
  ∃ rounds, messageLoop rounds header buffer chunks = some messages

/-- The bytes of the frames, one after the other. -/
def stream (frames : List Frame) : List (BitVec 8) := (frames.map Frame.bytes).flatten

def Frame.message (f : Frame) : Message := (f.opcode, f.payload)

/-- The successive results of `recv` cut the bytes of the frames. -/
def IsCut (frames : List Frame) (chunks : List (List (BitVec 8))) : Prop :=
  chunks.flatten = stream frames ∧ ∀ chunk ∈ chunks, chunk ≠ [] ∧ chunk.length ≤ bufferSize

/-- Every `recv` gets whole frames. -/
def AtBoundaries (frames : List Frame) (chunks : List (List (BitVec 8))) : Prop :=
  ∃ groups : List (List Frame), groups.flatten = frames ∧ chunks = groups.map stream

/-- However the bytes are cut, the frames are delivered, in order and once each. -/
def DeliveredUnderEveryCut (frames : List Frame) : Prop :=
  ∀ buffer header chunks, IsCut frames chunks →
    Delivers buffer header chunks (frames.map Frame.message)

/-! ### Whole frames -/

theorem Frame.two_le_header_length (f : Frame) : 2 ≤ f.header.length := by
  rw [Frame.header, List.length_append, List.length_append, Nat.add_assoc]
  exact Nat.le_add_right 2 _

section Frames

variable {f : Frame} {frames : List Frame} {bytes pos rounds : Nat} {buffer : Bytes}
  {header : FrameHeader}

/-- **One frame.** It is delivered, and the bytes behind it stay. -/
theorem framePass_frame (hmem : readBytes buffer pos f.bytes.length = f.bytes)
    (hfits : pos + f.bytes.length ≤ bytes) (hbytes : bytes ≤ bufferSize) :
    ∃ buffer', framePass bytes buffer header pos =
        .message f.opcode (pos + f.header.length) f.payload.length buffer' (f.report header)
          (pos + f.bytes.length) ∧
      readBytes buffer' (pos + f.header.length) f.payload.length = f.payload ∧
      ∀ b, pos + f.bytes.length ≤ b → buffer' b = buffer b := by
  obtain ⟨hheader, hpayload⟩ := readBytes_eq_append_iff.mp hmem
  rw [Frame.sent_length] at hpayload
  have htwo := f.two_le_header_length
  have hlength := f.bytes_length
  unfold bufferSize at hbytes
  have hlong : f.header.length ≤ bytes - pos := by omega
  have hparse := wsParseFrameHeader_frame header hheader hlong
  have hreport : (f.report header).payloadLength = f.payload.length := rfl
  refine ⟨unmasked buffer (pos + f.header.length) (f.report header), ?_,
    readBytes_unmasked header hpayload, ?_⟩
  · unfold framePass
    rw [if_pos (by omega), hparse]
    simp only [hreport, Int.toNat_natCast]
    rw [if_neg (by omega), wrap32_of_lt (by omega), wrap64_of_lt (by omega), if_neg (by omega),
      wrap32_of_lt (by omega), wrap32_of_lt (by omega), hlength, Nat.add_assoc]
    rfl
  · intro b hb
    unfold unmasked
    split
    · rw [wsMaskPayload_apply, if_neg (by omega)]
    · rfl

theorem stream_cons (f : Frame) (frames : List Frame) :
    stream (f :: frames) = f.bytes ++ stream frames := rfl

/-- **Whole frames.** Read together, all are delivered. -/
theorem frameLoop_frames (hmem : readBytes buffer pos (stream frames).length = stream frames)
    (hend : pos + (stream frames).length = bytes) (hbytes : bytes ≤ bufferSize)
    (hrounds : frames.length < rounds) :
    ∃ buffer', frameLoop bytes rounds buffer header pos =
      some (frames.map Frame.message, buffer') := by
  induction frames generalizing buffer header pos rounds with
  | nil =>
    obtain ⟨rounds, rfl⟩ := Nat.exists_eq_succ_of_ne_zero (Nat.ne_zero_of_lt hrounds)
    have hstop : framePass bytes buffer header pos = .ends := if_neg (by simp [stream] at hend; omega)
    exact ⟨buffer, by rw [frameLoop, hstop]; rfl⟩
  | cons f frames ih =>
    obtain ⟨rounds, rfl⟩ := Nat.exists_eq_succ_of_ne_zero (Nat.ne_zero_of_lt hrounds)
    rw [stream_cons] at hmem hend
    obtain ⟨hframe, hrest⟩ := readBytes_eq_append_iff.mp hmem
    rw [List.length_append] at hend
    obtain ⟨buffer', hpass, hpayload, hsame⟩ := framePass_frame hframe (by omega) hbytes
    have hagree : Agree buffer buffer' (pos + f.bytes.length) (stream frames).length :=
      fun b hlo _ => hsame b hlo
    obtain ⟨buffer'', hloop⟩ := ih ((readBytes_congr hagree).trans hrest) (by omega)
      (Nat.lt_of_succ_lt_succ hrounds)
    refine ⟨buffer'', ?_⟩
    rw [frameLoop, hpass]
    simp only
    rw [hloop, hpayload]
    rfl

/-- A frame has bytes, so there are no more frames than bytes. -/
theorem length_le_stream_length (frames : List Frame) : frames.length ≤ (stream frames).length := by
  induction frames with
  | nil => exact Nat.le_refl _
  | cons f frames ih =>
    have htwo := f.two_le_header_length
    have hlength := f.bytes_length
    rw [stream_cons, List.length_append, List.length_cons]
    omega

/-- **Reads of whole frames** deliver the frames. -/
theorem messageLoop_groups (groups : List (List Frame))
    (hgroups : ∀ group ∈ groups, (stream group).length ≤ bufferSize)
    (hrounds : bufferSize < rounds) :
    messageLoop rounds header buffer (groups.map stream) =
      some (groups.flatten.map Frame.message) := by
  induction groups generalizing buffer with
  | nil => rfl
  | cons group groups ih =>
    have hsize := hgroups group List.mem_cons_self
    have hcount := length_le_stream_length group
    obtain ⟨buffer', hloop⟩ :
        ∃ buffer', frameLoop (stream group).length rounds (storeBytes buffer 0 (stream group))
          header 0 = some (group.map Frame.message, buffer') :=
      frameLoop_frames (readBytes_storeBytes_self buffer 0 (stream group)) (Nat.zero_add _) hsize
        (Nat.lt_of_le_of_lt (Nat.le_trans hcount hsize) hrounds)
    rw [List.map_cons, messageLoop, hloop]
    simp only [Option.bind_some]
    rw [ih fun g hg => hgroups g (List.mem_cons_of_mem group hg)]
    simp

end Frames

/-! ### Reads of one byte -/

/-- A read of one byte delivers nothing. -/
theorem frameLoop_one_byte {rounds : Nat} {buffer buffer' : Bytes} {header : FrameHeader}
    {messages : List Message}
    (h : frameLoop 1 rounds buffer header 0 = some (messages, buffer')) : messages = [] := by
  cases rounds with
  | zero => cases h
  | succ rounds =>
    have hpass : framePass 1 buffer header 0 = .ends := rfl
    rw [frameLoop, hpass] at h
    cases h
    rfl

theorem messageLoop_one_byte {rounds : Nat} {header : FrameHeader} (bytes : List (BitVec 8))
    {buffer : Bytes} {messages : List Message}
    (h : messageLoop rounds header buffer (bytes.map fun b => [b]) = some messages) :
    messages = [] := by
  induction bytes generalizing buffer messages with
  | nil =>
    cases h
    rfl
  | cons b bytes ih =>
    rw [List.map_cons, messageLoop, Option.bind_eq_some_iff] at h
    obtain ⟨⟨first, buffer'⟩, hloop, hrest⟩ := h
    obtain ⟨rest, hrun, happend⟩ := Option.map_eq_some_iff.mp hrest
    rw [← happend, frameLoop_one_byte hloop, ih hrun]
    rfl

/-- Every stream can be read one byte at a time. -/
theorem isCut_one_byte (frames : List Frame) :
    IsCut frames ((stream frames).map fun b => [b]) := by
  constructor
  · induction stream frames with
    | nil => rfl
    | cons b bytes ih => exact congrArg (b :: ·) ih
  · intro chunk hchunk
    obtain ⟨b, -, rfl⟩ := List.mem_map.mp hchunk
    exact ⟨List.cons_ne_nil b [], Nat.le_add_left 1 65535⟩

/-- What may stand in the header before the first frame. -/
def blankHeader : FrameHeader := ⟨0, 0, 0, 0, 0, 0, 0, fun _ => 0, 0⟩

/-- Read byte by byte, a stream delivers nothing. -/
theorem deliveredUnderEveryCut_iff (frames : List Frame) :
    DeliveredUnderEveryCut frames ↔ frames = [] := by
  constructor
  · intro hall
    obtain ⟨rounds, hrun⟩ := hall (fun _ => 0) blankHeader _ (isCut_one_byte frames)
    exact List.map_eq_nil_iff.mp (messageLoop_one_byte (stream frames) hrun)
  · rintro rfl buffer header chunks ⟨hflat, hchunks⟩
    cases chunks with
    | nil => exact ⟨0, rfl⟩
    | cons chunk chunks =>
      have hempty : chunk = [] := (List.append_eq_nil_iff.mp hflat).1
      exact absurd hempty (hchunks chunk List.mem_cons_self).1

/-- **Delivery and the boundaries of frames.** For every sequence of frames: when every
`recv` gets whole frames, exactly the frames are delivered; they are delivered under
every cut only when there are none. -/
theorem delivery_at_boundaries (frames : List Frame) :
    (∀ buffer header chunks, IsCut frames chunks → AtBoundaries frames chunks →
        Delivers buffer header chunks (frames.map Frame.message)) ∧
      (DeliveredUnderEveryCut frames ↔ frames = []) := by
  constructor
  · rintro buffer header chunks ⟨-, hchunks⟩ ⟨groups, rfl, rfl⟩
    have hgroups : ∀ group ∈ groups, (stream group).length ≤ bufferSize := fun group hgroup =>
      (hchunks (stream group) (List.mem_map_of_mem hgroup)).2
    exact ⟨bufferSize + 1, messageLoop_groups groups hgroups (Nat.lt_succ_self _)⟩
  · exact deliveredUnderEveryCut_iff frames

/-- A masked text frame with the payload `hi`. -/
def hiFrame : Frame where
  fin := 1
  rsv1 := 0
  rsv2 := 0
  rsv3 := 0
  opcode := 1
  key := some ![1, 2, 3, 4]
  form := .short
  payload := [0x68, 0x69]
  fits := Nat.le_add_right 2 123

/-- **A frame cut behind its first byte.** In one read it is delivered; cut, its rest is
taken for a binary frame with the payload 02. -/
theorem cut_frame_misread :
    (IsCut [hiFrame] [hiFrame.bytes] ∧
      messageLoop 9 blankHeader (fun _ => 0) [hiFrame.bytes] = some [(1, [0x68, 0x69])]) ∧
    (IsCut [hiFrame] [hiFrame.bytes.take 1, hiFrame.bytes.drop 1] ∧
      messageLoop 9 blankHeader (fun _ => 0) [hiFrame.bytes.take 1, hiFrame.bytes.drop 1] =
        some [(2, [2])]) ∧
    ¬ ∀ frames : List Frame, (∀ f ∈ frames, f.bytes.length ≤ bufferSize) →
      DeliveredUnderEveryCut frames := by
  refine ⟨⟨⟨rfl, by decide⟩, by decide⟩, ⟨⟨by decide, by decide⟩, by decide⟩, fun hall => ?_⟩
  have hone := (deliveredUnderEveryCut_iff [hiFrame]).mp (hall [hiFrame] (by decide))
  exact absurd hone (List.cons_ne_nil hiFrame [])

end ArmKernel.Ws

/-
WebSocket frames (`src/frame.c`).

A `Frame` is a frame as it stands on the wire: the bits of its first byte, an optional
masking key, one of the three forms of the length, and a payload that the form can
count. `wsParseFrameHeader_frame` says what the parser makes of any frame, with any
bytes behind it; `wsBuildFrame_spec` says that the builder writes one, or returns -1
and writes nothing. `frame_round_trip` puts both together.
-/
import ArmKernel.Support.Bytes
import ArmKernel.Support.Network
import ArmKernel.Support.Word
import Mathlib.Data.List.OfFn
import Mathlib.Data.Fin.VecNotation

namespace ArmKernel.Ws

open ArmKernel.Support

abbrev MaskKey := Fin 4 → BitVec 8

/-- `ws_frame_header_t`. -/
structure FrameHeader where
  fin : BitVec 1
  rsv1 : BitVec 1
  rsv2 : BitVec 1
  rsv3 : BitVec 1
  opcode : BitVec 4
  mask : BitVec 1
  payloadLen : BitVec 7
  maskingKey : MaskKey
  payloadLength : Nat

/-- `ws_mask_payload`. -/
def wsMaskPayload (mem : Bytes) (payload : Nat) (mask : MaskKey) : Nat → Bytes
  | 0 => mem
  | i + 1 =>
    let mem := wsMaskPayload mem payload mask i
    storeBytes mem (payload + i) [mem (payload + i) ^^^ mask (Fin.ofNat 4 i)]

/-- The end of `ws_parse_frame_header`: the masking key behind `headerSize` bytes. -/
def parseMask (mem : Bytes) (data len : Nat) (header : FrameHeader) (headerSize : Nat) :
    Int × FrameHeader :=
  if header.mask ≠ 0 then
    if len < headerSize + 4 then (-1, header)
    else
      (headerSize + 4, { header with maskingKey := fun i => mem (data + headerSize + i) })
  else (headerSize, header)

/-- `ws_parse_frame_header`: the result, and the header as the call leaves it. -/
def wsParseFrameHeader (mem : Bytes) (data len : Nat) (header : FrameHeader) : Int × FrameHeader :=
  if len < 2 then (-1, header)
  else
    let header := { header with
      fin := ((mem data >>> 7) &&& 0x01).setWidth 1
      rsv1 := ((mem data >>> 6) &&& 0x01).setWidth 1
      rsv2 := ((mem data >>> 5) &&& 0x01).setWidth 1
      rsv3 := ((mem data >>> 4) &&& 0x01).setWidth 1
      opcode := (mem data &&& 0x0F).setWidth 4
      mask := ((mem (data + 1) >>> 7) &&& 0x01).setWidth 1
      payloadLen := (mem (data + 1) &&& 0x7F).setWidth 7 }
    if header.payloadLen = 126 then
      if len < 4 then (-1, header)
      else
        parseMask mem data len
          { header with payloadLength := ofNetwork (readBytes mem (data + 2) 2) } 4
    else if header.payloadLen = 127 then
      if len < 10 then (-1, header)
      else
        parseMask mem data len
          { header with payloadLength := ofNetwork (readBytes mem (data + 2) 8) } 10
    else parseMask mem data len { header with payloadLength := header.payloadLen.toNat } 2

/-- `ws_build_frame`: the length, from the second byte on. -/
def writeLength (mem : Bytes) (buffer len : Nat) (mask : Bool) : Bytes :=
  if len ≤ 125 then
    storeBytes mem (buffer + 1) [if mask then BitVec.ofNat 8 (0x80 ||| len) else BitVec.ofNat 8 len]
  else if len ≤ 65535 then
    let mem := storeBytes mem (buffer + 1) [if mask then 0xFE else 0x7E]
    storeBytes mem (buffer + 2) (toNetwork 2 len)
  else
    let mem := storeBytes mem (buffer + 1) [if mask then 0xFF else 0x7F]
    storeBytes mem (buffer + 2) (toNetwork 8 len)

/-- `ws_build_frame`: the masking key and the payload. -/
def writePayload (mem : Bytes) (buffer headerSize : Nat) (data : List (BitVec 8)) (mask : Bool)
    (maskingKey : MaskKey) : Bytes :=
  if mask then
    let mem := storeBytes mem (buffer + headerSize - 4) (List.ofFn maskingKey)
    let mem := storeBytes mem (buffer + headerSize) data
    wsMaskPayload mem (buffer + headerSize) maskingKey data.length
  else storeBytes mem (buffer + headerSize) data

/-- `ws_build_frame` once the space of the length is added to `headerSize`. -/
def buildFrom (mem : Bytes) (buffer bufferSize : Nat) (opcode : BitVec 32)
    (data : List (BitVec 8)) (mask : Bool) (maskingKey : MaskKey) (headerSize : Nat) :
    Int × Bytes :=
  let headerSize := if mask then headerSize + 4 else headerSize
  if bufferSize < wrap32 (headerSize + data.length) then (-1, mem)
  else
    let mem := storeBytes mem buffer [(0x80 ||| (opcode &&& 0x0F)).setWidth 8]
    let mem := writeLength mem buffer data.length mask
    let mem := writePayload mem buffer headerSize data mask maskingKey
    (toInt32 (headerSize + data.length), mem)

/-- `ws_build_frame`: the result, and the memory after it. -/
def wsBuildFrame (mem : Bytes) (buffer bufferSize : Nat) (opcode : BitVec 32)
    (data : List (BitVec 8)) (mask : Bool) (maskingKey : MaskKey) : Int × Bytes :=
  if data.length ≤ 125 then
    if bufferSize < 2 then (-1, mem)
    else buildFrom mem buffer bufferSize opcode data mask maskingKey 2
  else if data.length ≤ 65535 then
    if bufferSize < 4 then (-1, mem)
    else buildFrom mem buffer bufferSize opcode data mask maskingKey 4
  else if bufferSize < 10 then (-1, mem)
  else buildFrom mem buffer bufferSize opcode data mask maskingKey 10

/-! ### Masking -/

/-- The bytes of a payload under the key. -/
def maskWith (key : MaskKey) (payload : List (BitVec 8)) : List (BitVec 8) :=
  payload.mapIdx fun i b => b ^^^ key (Fin.ofNat 4 i)

@[simp] theorem maskWith_length (key : MaskKey) (payload : List (BitVec 8)) :
    (maskWith key payload).length = payload.length := List.length_mapIdx

/-- Masking twice changes nothing. -/
theorem maskWith_maskWith (key : MaskKey) (payload : List (BitVec 8)) :
    maskWith key (maskWith key payload) = payload := by
  apply List.ext_getElem
  · simp
  · intro i _ _
    simp only [maskWith, List.getElem_mapIdx]
    rw [BitVec.xor_assoc, BitVec.xor_self, BitVec.xor_zero]

section Masking

variable {mem : Bytes} {payload b n : Nat} {key : MaskKey}

theorem wsMaskPayload_apply : wsMaskPayload mem payload key n b =
    if payload ≤ b ∧ b < payload + n then mem b ^^^ key (Fin.ofNat 4 (b - payload)) else mem b := by
  induction n generalizing b with
  | zero => rw [wsMaskPayload, if_neg (by omega)]
  | succ n ih =>
    rw [wsMaskPayload, storeBytes_singleton]
    by_cases hb : b = payload + n
    · subst hb
      rw [if_pos rfl, if_pos (by omega), ih, if_neg (by omega), Nat.add_sub_cancel_left]
    · have hiff : payload ≤ b ∧ b < payload + n ↔ payload ≤ b ∧ b < payload + (n + 1) := by omega
      rw [if_neg hb, ih, if_congr hiff rfl rfl]

/-- The masked bytes are those of the memory under the key. -/
theorem readBytes_wsMaskPayload :
    readBytes (wsMaskPayload mem payload key n) payload n =
      maskWith key (readBytes mem payload n) := by
  apply List.ext_getElem
  · simp
  · intro i hi _
    have hlt : i < n := by simpa using hi
    simp [readBytes, maskWith, wsMaskPayload_apply, hlt]

/-- Masking bytes that were just stored stores them masked. -/
theorem wsMaskPayload_storeBytes (data : List (BitVec 8)) :
    wsMaskPayload (storeBytes mem payload data) payload key data.length =
      storeBytes mem payload (maskWith key data) := by
  funext b
  rw [wsMaskPayload_apply]
  by_cases h : payload ≤ b ∧ b < payload + data.length
  · have hlt : b - payload < data.length := by omega
    rw [if_pos h, storeBytes_of_inside h.1 hlt, storeBytes_of_inside h.1 (by simpa using hlt)]
    simp [maskWith]
  · rw [if_neg h, storeBytes_of_outside (by omega), storeBytes_of_outside (by simp; omega)]

end Masking

/-! ### Frames on the wire -/

/-- The three forms of the payload length. -/
inductive LengthForm where
  | short
  | medium
  | long
  deriving DecidableEq

/-- The form can count `n` bytes. -/
def LengthForm.Fits : LengthForm → Nat → Prop
  | .short, n => n ≤ 125
  | .medium, n => n < 2 ^ 16
  | .long, n => n < 2 ^ 64

/-- The seven length bits of the second byte. -/
def LengthForm.code : LengthForm → Nat → BitVec 7
  | .short, n => BitVec.ofNat 7 n
  | .medium, _ => 126
  | .long, _ => 127

/-- The length bytes behind the second byte. -/
def LengthForm.extension : LengthForm → Nat → List (BitVec 8)
  | .short, _ => []
  | .medium, n => toNetwork 2 n
  | .long, n => toNetwork 8 n

/-- A frame: the bits of its first byte, its masking key, and its payload in a form
that can count it. -/
structure Frame where
  fin : BitVec 1
  rsv1 : BitVec 1
  rsv2 : BitVec 1
  rsv3 : BitVec 1
  opcode : BitVec 4
  key : Option MaskKey
  form : LengthForm
  payload : List (BitVec 8)
  fits : form.Fits payload.length

namespace Frame

variable (f : Frame)

def maskBit : BitVec 1 := if f.key.isSome then 1 else 0

/-- The first two bytes. -/
def start : List (BitVec 8) :=
  [f.fin ++ f.rsv1 ++ f.rsv2 ++ f.rsv3 ++ f.opcode, f.maskBit ++ f.form.code f.payload.length]

def keyBytes : List (BitVec 8) := (f.key.map List.ofFn).getD []

def header : List (BitVec 8) := f.start ++ f.form.extension f.payload.length ++ f.keyBytes

/-- The payload as it is sent. -/
def sent : List (BitVec 8) := (f.key.map (maskWith · f.payload)).getD f.payload

/-- The frame as it is sent. -/
def bytes : List (BitVec 8) := f.header ++ f.sent

/-- What the parser reports of the frame; without a key it leaves the key of `header`. -/
def report (header : FrameHeader) : FrameHeader where
  fin := f.fin
  rsv1 := f.rsv1
  rsv2 := f.rsv2
  rsv3 := f.rsv3
  opcode := f.opcode
  mask := f.maskBit
  payloadLen := f.form.code f.payload.length
  maskingKey := f.key.getD header.maskingKey
  payloadLength := f.payload.length

@[simp] theorem sent_length : f.sent.length = f.payload.length := by
  cases h : f.key <;> simp [sent, h]

theorem bytes_length : f.bytes.length = f.header.length + f.payload.length := by
  simp [bytes]

end Frame

/-- The bits of the first byte, as the parser takes them out. -/
theorem first_byte_bits (fin rsv1 rsv2 rsv3 : BitVec 1) (opcode : BitVec 4) :
    let b : BitVec 8 := fin ++ rsv1 ++ rsv2 ++ rsv3 ++ opcode
    ((b >>> 7) &&& 0x01).setWidth 1 = fin ∧ ((b >>> 6) &&& 0x01).setWidth 1 = rsv1 ∧
      ((b >>> 5) &&& 0x01).setWidth 1 = rsv2 ∧ ((b >>> 4) &&& 0x01).setWidth 1 = rsv3 ∧
      (b &&& 0x0F).setWidth 4 = opcode := by
  revert fin rsv1 rsv2 rsv3 opcode
  decide

/-- The bits of the second byte. -/
theorem second_byte_bits (mask : BitVec 1) (code : BitVec 7) :
    let b : BitVec 8 := mask ++ code
    ((b >>> 7) &&& 0x01).setWidth 1 = mask ∧ (b &&& 0x7F).setWidth 7 = code := by
  revert mask code
  decide

section Parsing

variable {f : Frame} {mem : Bytes} {data len : Nat}

/-- The key of a frame is read where the frame has it. -/
theorem parseMask_frame {headerSize : Nat} (header : FrameHeader)
    (hkey : readBytes mem (data + headerSize) f.keyBytes.length = f.keyBytes)
    (hlen : headerSize + f.keyBytes.length ≤ len) :
    parseMask mem data len { f.report header with maskingKey := header.maskingKey } headerSize =
      ((headerSize : Int) + f.keyBytes.length, f.report header) := by
  unfold parseMask
  cases hk : f.key with
  | none => simp [Frame.report, Frame.maskBit, Frame.keyBytes, hk]
  | some key =>
    have hbytes : f.keyBytes = List.ofFn key := by simp [Frame.keyBytes, hk]
    rw [hbytes, List.length_ofFn] at hkey hlen
    have hread : (fun i : Fin 4 => mem (data + headerSize + i)) = key := by
      apply List.ofFn_injective
      rw [← hkey]
      rfl
    rw [hread, hbytes]
    simp [Frame.report, Frame.maskBit, hk, Nat.not_lt.mpr hlen]

/-- **The parser on a frame.** For every frame, whatever stands behind its header. -/
theorem wsParseFrameHeader_frame (header : FrameHeader)
    (hmem : readBytes mem data f.header.length = f.header) (hlen : f.header.length ≤ len) :
    wsParseFrameHeader mem data len header = ((f.header.length : Int), f.report header) := by
  obtain ⟨hfront, hkey⟩ := readBytes_eq_append_iff.mp hmem
  obtain ⟨hstart, hext⟩ := readBytes_eq_append_iff.mp hfront
  have hb0 : mem data = f.fin ++ f.rsv1 ++ f.rsv2 ++ f.rsv3 ++ f.opcode :=
    (List.cons.inj hstart).1
  have hb1 : mem (data + 1) = f.maskBit ++ f.form.code f.payload.length :=
    (List.cons.inj (List.cons.inj hstart).2).1
  obtain ⟨hfin, hrsv1, hrsv2, hrsv3, hopcode⟩ :=
    first_byte_bits f.fin f.rsv1 f.rsv2 f.rsv3 f.opcode
  obtain ⟨hmask, hcode⟩ := second_byte_bits f.maskBit (f.form.code f.payload.length)
  have hfits := f.fits
  -- What is left once the length is read: `k` bytes of it, and then the key.
  have hrest {k : Nat} (hk : (f.form.extension f.payload.length).length = k) :
      parseMask mem data len { f.report header with maskingKey := header.maskingKey } (2 + k) =
        ((f.header.length : Int), f.report header) := by
    have hfrontlen : (f.start ++ f.form.extension f.payload.length).length = 2 + k := by
      rw [List.length_append, hk]
      rfl
    rw [Frame.header, List.length_append, hfrontlen] at hlen ⊢
    rw [hfrontlen] at hkey
    exact parseMask_frame header hkey hlen
  unfold wsParseFrameHeader
  simp only [hb0, hb1, hfin, hrsv1, hrsv2, hrsv3, hopcode, hmask, hcode]
  have htwo : 2 + (f.form.extension f.payload.length).length ≤ len := by
    rw [Frame.header, List.length_append, List.length_append] at hlen
    exact Nat.le_trans (Nat.le_add_right _ _) hlen
  cases hform : f.form with
  | short =>
    rw [hform] at hfits hrest htwo
    have hn : f.payload.length ≤ 125 := hfits
    have hvalue : (LengthForm.short.code f.payload.length).toNat = f.payload.length := by
      rw [LengthForm.code, BitVec.toNat_ofNat]
      omega
    have hne (c : BitVec 7) (hc : 125 < c.toNat) : LengthForm.short.code f.payload.length ≠ c := by
      rintro rfl
      omega
    have hlen₂ : ¬ len < 2 := Nat.not_lt.mpr htwo
    rw [if_neg hlen₂, if_neg (hne 126 (by decide)), if_neg (hne 127 (by decide)), hvalue,
      ← hrest (k := 0) rfl]
    simp [Frame.report, hform]
  | medium =>
    rw [hform] at hfits hext hrest htwo
    have hlength : ofNetwork (readBytes mem (data + 2) 2) = f.payload.length :=
      (congrArg ofNetwork hext).trans (ofNetwork_toNetwork_of_lt hfits)
    have hcode : LengthForm.medium.code f.payload.length = 126 := rfl
    have hlen₂ : ¬ len < 2 := by omega
    have hlen₄ : ¬ len < 4 := Nat.not_lt.mpr htwo
    rw [if_neg hlen₂, if_pos hcode, if_neg hlen₄, hlength,
      ← hrest (k := 2) rfl]
    simp [Frame.report, hform]
  | long =>
    rw [hform] at hfits hext hrest htwo
    have hlength : ofNetwork (readBytes mem (data + 2) 8) = f.payload.length :=
      (congrArg ofNetwork hext).trans (ofNetwork_toNetwork_of_lt hfits)
    have hcode : LengthForm.long.code f.payload.length = 127 := rfl
    have hne : LengthForm.long.code f.payload.length ≠ 126 := by simp [LengthForm.code]
    have hlen₂ : ¬ len < 2 := by omega
    have hlen₁₀ : ¬ len < 10 := Nat.not_lt.mpr htwo
    rw [if_neg hlen₂, if_neg hne, if_pos hcode, if_neg hlen₁₀, hlength,
      ← hrest (k := 8) rfl]
    simp [Frame.report, hform]

end Parsing

/-! ### Building -/

/-- The form the builder chooses. -/
def formFor (n : Nat) : LengthForm := if n ≤ 125 then .short else if n ≤ 65535 then .medium else .long

theorem formFor_fits {n : Nat} (h : n < 2 ^ 64) : (formFor n).Fits n := by
  unfold formFor
  split
  · assumption
  · split
    · exact Nat.lt_succ_of_le (by assumption)
    · exact h

/-- The frame of a call of `ws_build_frame`. -/
def builtFrame (opcode : BitVec 32) (data : List (BitVec 8)) (mask : Bool) (maskingKey : MaskKey)
    (h : data.length < 2 ^ 64) : Frame where
  fin := 1
  rsv1 := 0
  rsv2 := 0
  rsv3 := 0
  opcode := opcode.setWidth 4
  key := if mask then some maskingKey else none
  form := formFor data.length
  payload := data
  fits := formFor_fits h

/-- The first byte of the builder. -/
theorem build_first_byte (opcode : BitVec 32) :
    (0x80 ||| (opcode &&& 0x0F)).setWidth 8 =
      (1#1 ++ 0#1 ++ 0#1 ++ 0#1 ++ opcode.setWidth 4 : BitVec 8) := by
  have hlow : opcode &&& 0x0F = (opcode.setWidth 4).setWidth 32 := by
    apply BitVec.eq_of_toNat_eq
    have hand : opcode.toNat &&& 15 = opcode.toNat % 2 ^ 4 :=
      Nat.and_two_pow_sub_one_eq_mod opcode.toNat 4
    rw [BitVec.toNat_and, BitVec.toNat_setWidth, BitVec.toNat_setWidth]
    exact hand.trans (by omega)
  rw [hlow]
  generalize opcode.setWidth 4 = x
  revert x
  decide

/-- The second byte of the builder, in the short form. -/
theorem build_second_byte {n : Nat} (h : n ≤ 125) :
    BitVec.ofNat 8 (0x80 ||| n) = 1#1 ++ BitVec.ofNat 7 n ∧
      BitVec.ofNat 8 n = 0#1 ++ BitVec.ofNat 7 n := by
  have hall : ∀ m : Fin 126, BitVec.ofNat 8 (0x80 ||| m) = 1#1 ++ BitVec.ofNat 7 m ∧
      BitVec.ofNat 8 m = 0#1 ++ BitVec.ofNat 7 m := by decide
  exact hall ⟨n, Nat.lt_succ_of_le h⟩

section Building

variable {mem : Bytes} {buffer bufferSize : Nat} {opcode : BitVec 32} {data : List (BitVec 8)}
  {mask : Bool} {maskingKey : MaskKey} {h : data.length < 2 ^ 64}

/-- The first byte and the length of the frame are written in front. -/
theorem writeLength_spec :
    writeLength (storeBytes mem buffer [(0x80 ||| (opcode &&& 0x0F)).setWidth 8]) buffer
        data.length mask =
      let f := builtFrame opcode data mask maskingKey h
      storeBytes mem buffer (f.start ++ f.form.extension data.length) := by
  have hbit : (builtFrame opcode data mask maskingKey h).maskBit = if mask then 1#1 else 0#1 := by
    cases mask <;> rfl
  have hstart : (builtFrame opcode data mask maskingKey h).start =
      [(0x80 ||| (opcode &&& 0x0F)).setWidth 8] ++
        [(if mask then 1#1 else 0#1) ++ (formFor data.length).code data.length] := by
    rw [build_first_byte, ← hbit]
    rfl
  simp only
  rw [hstart, storeBytes_append, storeBytes_append]
  unfold writeLength builtFrame formFor
  by_cases hshort : data.length ≤ 125
  · obtain ⟨hmasked, hplain⟩ := build_second_byte hshort
    simp only [if_pos hshort, LengthForm.code, LengthForm.extension, hmasked, hplain]
    cases mask <;> simp [storeBytes_nil]
  · by_cases hmedium : data.length ≤ 65535
    · simp only [if_neg hshort, if_pos hmedium, LengthForm.code, LengthForm.extension]
      cases mask <;> rfl
    · simp only [if_neg hshort, if_neg hmedium, LengthForm.code, LengthForm.extension]
      cases mask <;> rfl

/-- The payload and its key are written behind the first `buffer + k` bytes. -/
theorem writePayload_spec {k : Nat} :
    writePayload mem buffer (if mask then k + 4 else k) data mask maskingKey =
      let f := builtFrame opcode data mask maskingKey h
      storeBytes mem (buffer + k) (f.keyBytes ++ f.sent) := by
  cases mask with
  | false => rfl
  | true =>
    have hkey : (builtFrame opcode data true maskingKey h).keyBytes = List.ofFn maskingKey := rfl
    have haddr : buffer + (k + 4) - 4 = buffer + k := by omega
    simp only [writePayload, if_true]
    rw [wsMaskPayload_storeBytes, storeBytes_append, hkey, List.length_ofFn, haddr, Nat.add_assoc]
    rfl

end Building

/-- The bytes of the header of a frame with `n` bytes of payload. -/
def headerSize (n : Nat) (mask : Bool) : Nat :=
  2 + (if n ≤ 125 then 0 else if n ≤ 65535 then 2 else 8) + if mask then 4 else 0

theorem formFor_extension_length (n : Nat) :
    ((formFor n).extension n).length = if n ≤ 125 then 0 else if n ≤ 65535 then 2 else 8 := by
  unfold formFor
  split
  · rfl
  · split
    · exact toNetwork_length 2 n
    · exact toNetwork_length 8 n

theorem builtFrame_header_length (opcode : BitVec 32) {data : List (BitVec 8)} (mask : Bool)
    (maskingKey : MaskKey) (h : data.length < 2 ^ 64) :
    (builtFrame opcode data mask maskingKey h).header.length = headerSize data.length mask := by
  have hkey : (builtFrame opcode data mask maskingKey h).keyBytes.length = if mask then 4 else 0 := by
    cases mask <;> rfl
  rw [Frame.header, List.length_append, List.length_append, hkey, headerSize,
    ← formFor_extension_length]
  rfl

theorem headerSize_le (n : Nat) (mask : Bool) : headerSize n mask ≤ 14 := by
  unfold headerSize
  split <;> split <;> try split
  all_goals decide

section Building

variable (mem : Bytes) (buffer bufferSize : Nat) (opcode : BitVec 32) {data : List (BitVec 8)}
  (mask : Bool) (maskingKey : MaskKey)

/-- The rest of the builder, once `k` bytes are set aside for the length. -/
theorem buildFrom_spec {k : Nat} (hlen : data.length ≤ 2 ^ 31 - 1 - 14)
    (h : data.length < 2 ^ 64) (hk : ((formFor data.length).extension data.length).length = k) :
    buildFrom mem buffer bufferSize opcode data mask maskingKey (2 + k) =
      if bufferSize < headerSize data.length mask + data.length then (-1, mem)
      else (((headerSize data.length mask + data.length : Nat) : Int),
        storeBytes mem buffer (builtFrame opcode data mask maskingKey h).bytes) := by
  have hfront : ((builtFrame opcode data mask maskingKey h).start ++
      (builtFrame opcode data mask maskingKey h).form.extension data.length).length = 2 + k := by
    rw [List.length_append, ← hk]
    rfl
  have hsize : (if mask then 2 + k + 4 else 2 + k) = headerSize data.length mask := by
    rw [headerSize, ← formFor_extension_length, hk]
    cases mask <;> rfl
  have hmax := headerSize_le data.length mask
  unfold buildFrom
  simp only
  rw [writeLength_spec (h := h), writePayload_spec (h := h), hsize, wrap32_of_lt (by omega),
    toInt32_of_lt (by omega)]
  simp only
  rw [← hfront, ← storeBytes_append, ← List.append_assoc]
  rfl

/-- **The builder.** It writes one frame, or returns -1 with the memory as it was. -/
theorem wsBuildFrame_spec (hlen : data.length ≤ 2 ^ 31 - 1 - 14) (h : data.length < 2 ^ 64) :
    wsBuildFrame mem buffer bufferSize opcode data mask maskingKey =
      if bufferSize < headerSize data.length mask + data.length then (-1, mem)
      else (((headerSize data.length mask + data.length : Nat) : Int),
        storeBytes mem buffer (builtFrame opcode data mask maskingKey h).bytes) := by
  have hk := formFor_extension_length data.length
  have hneeds : 2 + ((formFor data.length).extension data.length).length ≤
      headerSize data.length mask := by
    rw [hk]
    exact Nat.le_add_right _ _
  have hrest := buildFrom_spec mem buffer bufferSize opcode mask maskingKey hlen h rfl
  rw [hk] at hneeds hrest
  unfold wsBuildFrame
  by_cases hshort : data.length ≤ 125
  · rw [if_pos hshort] at hneeds hrest ⊢
    by_cases hsize : bufferSize < 2
    · rw [if_pos hsize, if_pos (by omega)]
    · rw [if_neg hsize]
      exact hrest
  · by_cases hmedium : data.length ≤ 65535
    · rw [if_neg hshort, if_pos hmedium] at hneeds hrest ⊢
      by_cases hsize : bufferSize < 4
      · rw [if_pos hsize, if_pos (by omega)]
      · rw [if_neg hsize]
        exact hrest
    · rw [if_neg hshort, if_neg hmedium] at hneeds hrest ⊢
      by_cases hsize : bufferSize < 10
      · rw [if_pos hsize, if_pos (by omega)]
      · rw [if_neg hsize]
        exact hrest

end Building

/-- What the parser reports of a frame built for `opcode`, `mask`, `maskingKey` and
`len` bytes of payload. -/
structure Reports (header : FrameHeader) (opcode : BitVec 32) (mask : Bool) (maskingKey : MaskKey)
    (len : Nat) : Prop where
  fin : header.fin = 1
  reserved : header.rsv1 = 0 ∧ header.rsv2 = 0 ∧ header.rsv3 = 0
  low : header.opcode.toNat = opcode.toNat % 16
  masked : header.mask = if mask then 1 else 0
  key : mask = true → header.maskingKey = maskingKey
  counted : header.payloadLength = len

theorem builtFrame_reports (opcode : BitVec 32) {data : List (BitVec 8)} (mask : Bool)
    (maskingKey : MaskKey) (h : data.length < 2 ^ 64) (header : FrameHeader) :
    Reports ((builtFrame opcode data mask maskingKey h).report header) opcode mask maskingKey
      data.length where
  fin := rfl
  reserved := ⟨rfl, rfl, rfl⟩
  low := BitVec.toNat_setWidth 4 opcode
  masked := by cases mask <;> rfl
  key := by
    rintro rfl
    rfl
  counted := rfl

/-- The payload behind a parsed header, unmasked in place if it is masked. -/
def unmasked (mem : Bytes) (payload : Nat) (header : FrameHeader) : Bytes :=
  if header.mask ≠ 0 then wsMaskPayload mem payload header.maskingKey header.payloadLength else mem

/-- One call of the builder, and the parser on any memory that holds what it wrote. -/
structure RoundTrip (mem : Bytes) (buffer bufferSize : Nat) (opcode : BitVec 32)
    (data : List (BitVec 8)) (mask : Bool) (maskingKey : MaskKey) : Prop where
  refuses : (wsBuildFrame mem buffer bufferSize opcode data mask maskingKey).1 = -1 ↔
    bufferSize < headerSize data.length mask + data.length
  returns : headerSize data.length mask + data.length ≤ bufferSize →
    (wsBuildFrame mem buffer bufferSize opcode data mask maskingKey).1 =
      ((headerSize data.length mask + data.length : Nat) : Int)
  parses : headerSize data.length mask + data.length ≤ bufferSize →
    ∀ (mem' : Bytes) (len : Nat) (header : FrameHeader),
      Agree (wsBuildFrame mem buffer bufferSize opcode data mask maskingKey).2 mem' buffer
        (headerSize data.length mask + data.length) →
      headerSize data.length mask + data.length ≤ len →
      let parsed := wsParseFrameHeader mem' buffer len header
      parsed.1 = (headerSize data.length mask : Int) ∧
        Reports parsed.2 opcode mask maskingKey data.length ∧
        readBytes (unmasked mem' (buffer + headerSize data.length mask) parsed.2)
          (buffer + headerSize data.length mask) data.length = data

/-- **The payload of a frame.** Behind the header, unmasked, stands the payload. -/
theorem readBytes_unmasked {mem : Bytes} {f : Frame} {payload : Nat} (header : FrameHeader)
    (hmem : readBytes mem payload f.payload.length = f.sent) :
    readBytes (unmasked mem payload (f.report header)) payload f.payload.length = f.payload := by
  unfold unmasked
  cases hkey : f.key with
  | none =>
    rw [if_neg (by simp [Frame.report, Frame.maskBit, hkey]), hmem]
    simp [Frame.sent, hkey]
  | some key =>
    have hreported : (f.report header).maskingKey = key := by simp [Frame.report, hkey]
    rw [if_pos (by simp [Frame.report, Frame.maskBit, hkey]), hreported]
    show readBytes (wsMaskPayload mem payload key f.payload.length) _ _ = _
    rw [readBytes_wsMaskPayload, hmem]
    simp [Frame.sent, hkey, maskWith_maskWith]

/-- **Frames are parsed as they were built.** For every opcode, masking flag and key,
every payload whose frame length is an `int`, and every size of the buffer. -/
theorem frame_round_trip (mem : Bytes) (buffer bufferSize : Nat) (opcode : BitVec 32)
    (data : List (BitVec 8)) (mask : Bool) (maskingKey : MaskKey)
    (hlen : data.length ≤ 2 ^ 31 - 1 - 14) :
    RoundTrip mem buffer bufferSize opcode data mask maskingKey := by
  have h : data.length < 2 ^ 64 := by omega
  have hheader := builtFrame_header_length opcode mask maskingKey h
  have hbuild := wsBuildFrame_spec mem buffer bufferSize opcode mask maskingKey hlen h
  by_cases hsize : bufferSize < headerSize data.length mask + data.length
  · rw [if_pos hsize] at hbuild
    constructor
    · rw [hbuild]
      exact ⟨fun _ => hsize, fun _ => rfl⟩
    · intro hfits
      exact absurd hsize (Nat.not_lt.mpr hfits)
    · intro hfits
      exact absurd hsize (Nat.not_lt.mpr hfits)
  · rw [if_neg hsize] at hbuild
    constructor
    · rw [hbuild]
      constructor
      · intro hret
        simp at hret
        omega
      · intro hlt
        exact absurd hlt hsize
    · intro _
      rw [hbuild]
    · intro _ mem' len header hagree hle
      rw [hbuild] at hagree
      have hbytes : (builtFrame opcode data mask maskingKey h).bytes.length =
          headerSize data.length mask + data.length := by
        rw [Frame.bytes_length, hheader]
        rfl
      have hmem : readBytes mem' buffer (builtFrame opcode data mask maskingKey h).bytes.length =
          (builtFrame opcode data mask maskingKey h).bytes := by
        rw [← hbytes] at hagree
        exact (readBytes_congr hagree).trans (readBytes_storeBytes_self _ _ _)
      obtain ⟨hhead, hpayload⟩ := readBytes_eq_append_iff.mp hmem
      have hlong : (builtFrame opcode data mask maskingKey h).header.length ≤ len := by omega
      have hparsed := wsParseFrameHeader_frame header hhead hlong
      rw [hheader, Frame.sent_length] at *
      simp only
      rw [hparsed]
      exact ⟨rfl, builtFrame_reports opcode mask maskingKey h header,
        readBytes_unmasked header hpayload⟩

/-- A masked text frame with two bytes of payload, into ten bytes of buffer. -/
theorem frame_round_trip_masked :
    [0x68#8, 0x69#8].length ≤ 2 ^ 31 - 1 - 14 ∧
      RoundTrip (fun _ => 0) 100 10 1 [0x68#8, 0x69#8] true ![1#8, 2#8, 3#8, 4#8] :=
  ⟨by decide, frame_round_trip _ _ _ _ _ _ _ (by decide)⟩

end ArmKernel.Ws

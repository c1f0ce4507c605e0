/-
What `mqtt_create_connect_packet` writes (`src/mqtt_protocol.c`, lines 62 to 155).

The function does not look at `buflen`, and a length goes into its two bytes modulo 2^16.
`SafePacket` says that a call reports an error or stays inside the buffer, whatever the
memory held before, and that each string stands behind its own length. `safePacket_iff`
gives the configurations and buffers for which it does.

A byte that is written is seen in some memory, since no byte is written back: what the
packet takes before it is moved down is `packetPeak`.
-/
import ArmKernel.Mqtt.ConnectPacket
import Mathlib.Algebra.GroupWithZero.Nat
import Mathlib.Algebra.Order.BigOperators.Group.List

namespace ArmKernel.Mqtt

open ArmKernel.Support ArmKernel.Libc

/-- The strings of the packet, in order. -/
def sentStrings (config : MqttConfig) : List CString :=
  let will :=
    match config.willTopic with
    | none => []
    | some topic => topic :: config.willMessage.toList
  config.clientId.toList ++ will ++ config.username.toList ++ config.password.toList

/-- The bytes the packet takes before the final move. -/
def packetPeak (config : MqttConfig) : Nat :=
  15 + ((sentStrings config).map fun s => s.length + 2).sum

/-- A string in the packet, with the two bytes in front of it. -/
structure Field where
  hi : BitVec 8
  lo : BitVec 8
  string : CString

def Field.bytes (f : Field) : List (BitVec 8) := f.hi :: f.lo :: f.string

/-- The two bytes are the length of the string. -/
def Field.Labelled (f : Field) : Prop := f.hi.toNat * 2 ^ 8 + f.lo.toNat = f.string.length

/-- The memories agree outside the `n` bytes at `a`. -/
def SameOutside (mem mem' : Bytes) (a n : Nat) : Prop := ∀ b, b < a ∨ a + n ≤ b → mem' b = mem b

/-- Whatever is in memory, the call returns, reports an error or writes only into the buffer, and
the packet ends with the strings, each behind its length. -/
def SafePacket (buf buflen : Nat) (config : MqttConfig) : Prop :=
  ∀ mem : Bytes, ∃ (r : Int) (mem' : Bytes),
    mqttCreateConnectPacket mem buf buflen config = some (r, mem') ∧
      (r < 0 ∨ SameOutside mem mem' buf buflen) ∧
      ∃ (head : List (BitVec 8)) (fields : List Field), readBytes mem' buf r.toNat =
        head ++ fields.flatMap Field.bytes ∧ fields.map Field.string = sentStrings config ∧
          ∀ f ∈ fields, f.Labelled

/-- There is a client id, and a message for a will topic; every string fits into its two bytes of
length; and the buffer has room for the packet before the final move. -/
structure FitsBuffer (config : MqttConfig) (buflen : Nat) : Prop where
  clientId : config.clientId.isSome
  message : config.willTopic.isSome → config.willMessage.isSome
  short : ∀ s ∈ sentStrings config, s.length ≤ 65535
  room : packetPeak config ≤ buflen

section Bounds

variable {mem : Bytes} {buf buflen : Nat} {config : MqttConfig} {clientId : CString}

/-- The field of a string. -/
def fieldOf (s : CString) : Field where
  hi := BitVec.ofNat 8 (s.length / 2 ^ 8)
  lo := BitVec.ofNat 8 s.length
  string := s

/-- A field says at most 65535. -/
theorem Field.Labelled.short {f : Field} (h : f.Labelled) : f.string.length ≤ 65535 := by
  have hhi := f.hi.isLt
  have hlo := f.lo.isLt
  unfold Field.Labelled at h
  omega

theorem fieldOf_labelled {s : CString} (h : s.length ≤ 65535) : (fieldOf s).Labelled := by
  unfold Field.Labelled fieldOf
  simp only
  rw [BitVec.toNat_ofNat, BitVec.toNat_ofNat]
  omega

theorem optionBytes_eq (s : Option CString) : optionBytes s = s.toList.flatMap stringBytes := by
  cases s with
  | none => rfl
  | some s => exact (List.append_nil _).symm

/-- The body is ten bytes and the strings. -/
theorem connectBody_eq (hid : config.clientId = some clientId) :
    ∃ fixed : List (BitVec 8), fixed.length = 10 ∧
      connectBody config clientId = fixed ++ (sentStrings config).flatMap stringBytes := by
  refine ⟨[0#8, 4#8] ++ protocolName ++ [4#8, connectFlags config,
    (config.keepalive >>> 8).setWidth 8, (config.keepalive &&& 0xFF).setWidth 8], rfl, ?_⟩
  have hwill : willBytes config = List.flatMap stringBytes
      (match config.willTopic with
        | none => []
        | some topic => topic :: config.willMessage.toList) := by
    unfold willBytes
    cases config.willTopic with
    | none => rfl
    | some topic => rw [List.flatMap_cons, ← optionBytes_eq]
  rw [connectBody, sentStrings, hid, hwill, optionBytes_eq, optionBytes_eq]
  simp only [List.flatMap_append, Option.toList_some, List.flatMap_cons, List.flatMap_nil,
    List.append_nil, List.append_assoc]

theorem length_flatMap_stringBytes (l : List CString) :
    (l.flatMap stringBytes).length = (l.map fun s => s.length + 2).sum := by
  rw [List.length_flatMap]
  rfl

theorem connectBody_length (hid : config.clientId = some clientId) :
    5 + (connectBody config clientId).length = packetPeak config := by
  obtain ⟨fixed, hfixed, hbody⟩ := connectBody_eq hid
  rw [hbody, List.length_append, hfixed, length_flatMap_stringBytes, packetPeak]
  omega

/-- At most five strings are sent. -/
theorem sentStrings_length_le (config : MqttConfig) : (sentStrings config).length ≤ 5 := by
  have htoList : ∀ s : Option CString, s.toList.length ≤ 1 := by
    intro s
    cases s with
    | none => exact Nat.zero_le 1
    | some s => exact Nat.le_refl 1
  have h1 := htoList config.clientId
  have h2 := htoList config.willMessage
  have h3 := htoList config.username
  have h4 := htoList config.password
  unfold sentStrings
  cases config.willTopic with
  | none =>
    simp only [List.length_append, List.length_nil]
    omega
  | some topic =>
    simp only [List.length_append, List.length_cons]
    omega

/-- Short strings make a short packet. -/
theorem packetPeak_lt (h : ∀ s ∈ sentStrings config, s.length ≤ 65535) :
    packetPeak config < 2 ^ 19 := by
  have hsum : ((sentStrings config).map fun s => s.length + 2).sum ≤
      ((sentStrings config).map fun s => s.length + 2).length * 65537 := by
    refine List.sum_le_card_nsmul _ 65537 ?_
    intro n hn
    obtain ⟨s, hs, rfl⟩ := List.mem_map.mp hn
    exact Nat.add_le_add_right (h s hs) 2
  have hfive := sentStrings_length_le config
  rw [List.length_map] at hsum
  unfold packetPeak
  omega

/-- **The memory after the call.** It is as before outside the bytes up to the peak, and the last
of these is the last byte of the body, whatever was there. -/
theorem packet_memory {p : Packet} (h : p.Holds mem buf (connectBody config clientId))
    (hid : config.clientId = some clientId) (hpeak : packetPeak config < 2 ^ 19) :
    let encoded := mqttEncodeRemainingLength p.mem (buf + 1) (p.len - 5)
    let mem' := memmove encoded.2 (buf + 1 + encoded.1) (buf + 5) (p.len - 5)
    SameOutside mem mem' buf (packetPeak config) ∧
      some (mem' (buf + (packetPeak config - 1))) = (connectBody config clientId).getLast? := by
  have hlength := connectBody_length hid
  have hlen : (connectBody config clientId).length < 128 ^ 4 := by
    have hpow : 2 ^ 19 ≤ 128 ^ 4 := by decide
    omega
  have hdigits := lengthDigits_length_le 5 (by decide) hlen
  have hlast := (connectBody config clientId).getLast?_eq_getElem?
  obtain ⟨fixed, hfixed, hbody⟩ := connectBody_eq hid
  have hten : 10 ≤ (connectBody config clientId).length := by
    rw [hbody, List.length_append, hfixed]
    exact Nat.le_add_right 10 _
  generalize connectBody config clientId = body at *
  have hrest : p.len - 5 = body.length := by
    rw [h.len]
    exact Nat.add_sub_cancel_left 5 _
  intro encoded mem'
  have hencoded : encoded = ((lengthDigits 5 body.length).length,
      storeBytes p.mem (buf + 1) (lengthDigits 5 body.length)) := by
    simp only [encoded]
    rw [mqttEncodeRemainingLength, encodeLoop_eq, hrest, Nat.zero_add]
  have hmem : mem' = copyBytes (storeBytes p.mem (buf + 1) (lengthDigits 5 body.length))
      (buf + 1 + (lengthDigits 5 body.length).length) (buf + 5) body.length := by
    simp only [mem', hencoded, hrest]
    exact memmove_eq_copyBytes _ _ _ _
  constructor
  · intro b hb
    have houtside : b < buf ∨ buf + (5 + body.length) ≤ b := hlength ▸ hb
    rw [hmem, copyBytes, if_neg (by omega), storeBytes_of_outside (by omega), h.mem,
      storeBytes_of_outside (by omega), storeBytes_of_outside ?_]
    simp only [List.length_singleton]
    omega
  · have hplace : buf + (packetPeak config - 1) = buf + 5 + (body.length - 1) := by omega
    have hstored : p.mem (buf + 5 + (body.length - 1)) = body[body.length - 1] := by
      rw [h.mem, storeBytes_of_inside (by omega) (by omega)]
      congr 1
      omega
    -- With four digits the move is to the same place, with fewer it ends below the last byte.
    have hkept : mem' (buf + 5 + (body.length - 1)) = p.mem (buf + 5 + (body.length - 1)) := by
      rw [hmem, copyBytes]
      split
      · have hsrc : buf + 5 + (buf + 5 + (body.length - 1) -
            (buf + 1 + (lengthDigits 5 body.length).length)) = buf + 5 + (body.length - 1) := by
          omega
        rw [hsrc, storeBytes_of_outside (by omega)]
      · rw [storeBytes_of_outside (by omega)]
    rw [hplace, hkept, hstored, hlast, List.getElem?_eq_getElem]

theorem map_fieldOf (l : List CString) :
    (l.map fieldOf).map Field.string = l ∧
      (l.map fieldOf).flatMap Field.bytes = l.flatMap stringBytes := by
  constructor
  · rw [List.map_map]
    exact List.map_id l
  · rw [List.flatMap_map]
    rfl

/-- Enough room makes a safe packet. -/
theorem FitsBuffer.safe (h : FitsBuffer config buflen) (buf : Nat) :
    SafePacket buf buflen config := by
  intro mem
  obtain ⟨clientId, hid⟩ := Option.isSome_iff_exists.mp h.clientId
  have hpeak := packetPeak_lt h.short
  have hlen : (connectBody config clientId).length < 128 ^ 4 := by
    have hlength := connectBody_length hid
    have hpow : 2 ^ 19 ≤ 128 ^ 4 := by decide
    omega
  obtain ⟨p, hholds, hcreate⟩ := mqttCreateConnectPacket_eq mem buf buflen hid h.message
  obtain ⟨hret, hread⟩ := closePacket hholds hlen
  obtain ⟨hsame, -⟩ := packet_memory hholds hid hpeak
  obtain ⟨fixed, -, hbody⟩ := connectBody_eq hid
  refine ⟨_, _, hcreate, Or.inr ?_, 0x10 :: (lengthDigits 5 (connectBody config clientId).length ++
    fixed), (sentStrings config).map fieldOf, ?_, (map_fieldOf _).1, ?_⟩
  · intro b hb
    exact hsame b (hb.imp_right fun hle => Nat.le_trans (Nat.add_le_add_left h.room buf) hle)
  · have hend : ∀ digits : List (BitVec 8), 0x10 :: (digits ++ connectBody config clientId) =
        0x10 :: (digits ++ fixed) ++ (sentStrings config).flatMap stringBytes := by
      intro digits
      rw [hbody, List.cons_append, List.append_assoc]
    rw [hret, Int.toNat_natCast, hread, (map_fieldOf _).2, packetBytes]
    exact hend _
  · intro f hf
    obtain ⟨s, hs, rfl⟩ := List.mem_map.mp hf
    exact fieldOf_labelled (h.short s hs)

/-- A null pointer is read through. -/
theorem pointers_of_create {r : Int} {mem' : Bytes}
    (h : mqttCreateConnectPacket mem buf buflen config = some (r, mem')) :
    config.clientId.isSome ∧ (config.willTopic.isSome → config.willMessage.isSome) := by
  unfold mqttCreateConnectPacket at h
  cases hid : config.clientId with
  | none =>
    rw [hid] at h
    cases h
  | some clientId =>
    refine ⟨rfl, fun htopic => ?_⟩
    obtain ⟨topic, htopic⟩ := Option.isSome_iff_exists.mp htopic
    cases hmessage : config.willMessage with
    | none =>
      rw [hid, htopic, hmessage] at h
      cases h
    | some message => rfl

/-- A buffer below the peak is overrun: the last byte of the packet is written behind it. -/
theorem room_of_safe (hsafe : SafePacket buf buflen config)
    (hid : config.clientId = some clientId)
    (hmessage : config.willTopic.isSome → config.willMessage.isSome)
    (hpeak : packetPeak config < 2 ^ 19) : packetPeak config ≤ buflen := by
  refine Nat.not_lt.mp fun hlt => ?_
  -- The memory held something else before.
  obtain ⟨x, hx⟩ : ∃ x : BitVec 8, some x ≠ (connectBody config clientId).getLast? := by
    by_cases hzero : some 0 = (connectBody config clientId).getLast?
    · exact ⟨1, fun hone => absurd (hone.trans hzero.symm) (by decide)⟩
    · exact ⟨0, hzero⟩
  obtain ⟨r, mem', hcreate, hwrites, -⟩ := hsafe fun _ => x
  obtain ⟨p, hholds, hcreate'⟩ :=
    mqttCreateConnectPacket_eq (fun _ => x) buf buflen hid hmessage
  obtain ⟨-, hlast⟩ := packet_memory hholds hid hpeak
  simp only [hcreate] at hcreate'
  obtain ⟨rfl, rfl⟩ := Prod.mk.inj (Option.some.inj hcreate')
  rcases hwrites with hneg | hsame
  · rw [hholds.len] at hneg
    omega
  · have hkept := hsame (buf + (packetPeak config - 1)) (Or.inr (by omega))
    rw [hkept] at hlast
    exact hx hlast

/-- **Safe packets.** For every configuration and every buffer. -/
theorem safePacket_iff (buf buflen : Nat) (config : MqttConfig) :
    SafePacket buf buflen config ↔ FitsBuffer config buflen := by
  constructor
  · intro hsafe
    obtain ⟨r, mem', hcreate, -, head, fields, -, hstrings, hlabelled⟩ := hsafe fun _ => 0
    obtain ⟨hclient, hmessage⟩ := pointers_of_create hcreate
    have hshort : ∀ s ∈ sentStrings config, s.length ≤ 65535 := by
      intro s hs
      rw [← hstrings] at hs
      obtain ⟨f, hf, rfl⟩ := List.mem_map.mp hs
      exact (hlabelled f hf).short
    obtain ⟨clientId, hid⟩ := Option.isSome_iff_exists.mp hclient
    exact ⟨hclient, hmessage, hshort, room_of_safe hsafe hid hmessage (packetPeak_lt hshort)⟩
  · exact fun h => h.safe buf

end Bounds

/-- A configuration with a client id and nothing else. -/
def idConfig (clientId : CString) : MqttConfig where
  clientId := some clientId
  username := none
  password := none
  keepalive := 60
  cleanSession := true
  willTopic := none
  willMessage := none
  willQos := 0
  willRetain := false

/-- Eighteen bytes go into a buffer of sixteen; and 65536 bytes stand behind the length 0. -/
theorem connect_overruns :
    ¬ SafePacket 100 16 (idConfig [0x63]) ∧
      ¬ SafePacket 100 70000 (idConfig (List.replicate 65536 0x63)) := by
  constructor
  · intro hsafe
    have hroom := room_of_safe hsafe rfl nofun (by decide)
    exact absurd hroom (by decide)
  · intro hsafe
    obtain ⟨r, mem', -, -, head, fields, -, hstrings, hlabelled⟩ := hsafe fun _ => 0
    have hs : List.replicate 65536 0x63 ∈ fields.map Field.string := by
      rw [hstrings]
      exact List.mem_singleton_self _
    obtain ⟨f, hf, heq⟩ := List.mem_map.mp hs
    have hshort := (hlabelled f hf).short
    rw [heq, List.length_replicate] at hshort
    exact absurd hshort (by decide)

end ArmKernel.Mqtt

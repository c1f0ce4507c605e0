/-
The CONNECT packet of the MQTT client (`src/mqtt_protocol.c`).

The packet is written with four bytes set aside for the remaining length; the length
takes at most that, and the rest of the packet is then moved down behind it. A string is
the list of its bytes before the terminating zero, `none` is a null pointer, and a result
`none` is a call that reads through one.

`encodeLoop_eq` and `mqttCreateConnectPacket_spec` say what stands in the buffer
afterwards: the type byte, the digits of the length, and `connectBody`.
-/
import ArmKernel.Libc.Strings
import ArmKernel.Support.Bytes

namespace ArmKernel.Mqtt

open ArmKernel.Support ArmKernel.Libc

abbrev CString := List (BitVec 8)

/-- `mqtt_config_t`, less the host, the port and the TLS settings. -/
structure MqttConfig where
  clientId : Option CString
  username : Option CString
  password : Option CString
  keepalive : BitVec 16
  cleanSession : Bool
  willTopic : Option CString
  willMessage : Option CString
  willQos : BitVec 8
  willRetain : Bool

/-- `mqtt_encode_remaining_length`: the loop, with `encoded` digits behind it. A `uint32_t`
has at most five digits. -/
def encodeLoop (buf : Nat) : (rounds encoded : Nat) → Bytes → Nat → Nat × Bytes
  | 0, encoded, mem, _ => (encoded, mem)
  | rounds + 1, encoded, mem, length =>
    let digit := length % 128
    let length := length / 128
    let digit := if length > 0 then digit ||| 0x80 else digit
    let mem := storeBytes mem (buf + encoded) [BitVec.ofNat 8 digit]
    if length > 0 then encodeLoop buf rounds (encoded + 1) mem length else (encoded + 1, mem)

/-- `mqtt_encode_remaining_length`. -/
def mqttEncodeRemainingLength (mem : Bytes) (buf length : Nat) : Nat × Bytes :=
  encodeLoop buf 5 0 mem length

/-- A packet under construction: the memory, and `len`. -/
structure Packet where
  mem : Bytes
  len : Nat

/-- `buf[len++]` for each of the bytes. -/
def Packet.put (p : Packet) (buf : Nat) (bytes : List (BitVec 8)) : Packet :=
  { mem := storeBytes p.mem (buf + p.len) bytes, len := p.len + bytes.length }

/-- A string behind its length. -/
def Packet.putString (p : Packet) (buf : Nat) (s : CString) : Packet :=
  let p := p.put buf [BitVec.ofNat 8 (s.length / 2 ^ 8)]
  let p := p.put buf [BitVec.ofNat 8 s.length]
  p.put buf s

/-- The connect flags. -/
def connectFlags (config : MqttConfig) : BitVec 8 :=
  let flags : BitVec 8 := 0
  let flags := if config.cleanSession then flags ||| 0x02 else flags
  let flags := if config.username.isSome then flags ||| 0x80 else flags
  let flags := if config.password.isSome then flags ||| 0x40 else flags
  if config.willTopic.isSome then
    let flags := flags ||| 0x04
    let flags := flags ||| ((config.willQos &&& 0x03) <<< 3)
    if config.willRetain then flags ||| 0x20 else flags
  else flags

/-- `MQTT`. -/
def protocolName : CString := [0x4D, 0x51, 0x54, 0x54]

/-- `mqtt_create_connect_packet`: the result, and the memory after it. `buflen` is not
looked at. -/
def mqttCreateConnectPacket (mem : Bytes) (buf : Nat) (_buflen : Nat) (config : MqttConfig) :
    Option (Int × Bytes) := do
  let p : Packet := { mem, len := 0 }
  let p := p.put buf [1 <<< 4]
  -- Four bytes are left for the remaining length.
  let p := { p with len := p.len + 4 }
  let p := p.put buf [0]
  let p := p.put buf [4]
  let p := p.put buf protocolName
  let p := p.put buf [4]
  let p := p.put buf [connectFlags config]
  let p := p.put buf [(config.keepalive >>> 8).setWidth 8]
  let p := p.put buf [(config.keepalive &&& 0xFF).setWidth 8]
  let clientId ← config.clientId
  let p := p.putString buf clientId
  let p ←
    match config.willTopic with
    | none => some p
    | some topic =>
      let p := p.putString buf topic
      config.willMessage.map fun message => p.putString buf message
  let p :=
    match config.username with
    | none => p
    | some username => p.putString buf username
  let p :=
    match config.password with
    | none => p
    | some password => p.putString buf password
  let (digits, mem) := mqttEncodeRemainingLength p.mem (buf + 1) (p.len - 5)
  let mem := memmove mem (buf + 1 + digits) (buf + 5) (p.len - 5)
  some ((p.len : Int) - (4 - digits), mem)

/-! ### The remaining length -/

/-- The digits of a remaining length, the low one first. -/
def lengthDigits : (rounds : Nat) → Nat → List (BitVec 8)
  | 0, _ => []
  | rounds + 1, length =>
    if length / 128 > 0 then
      BitVec.ofNat 8 (length % 128 ||| 0x80) :: lengthDigits rounds (length / 128)
    else [BitVec.ofNat 8 (length % 128)]

theorem encodeLoop_eq (buf rounds encoded : Nat) (mem : Bytes) (length : Nat) :
    encodeLoop buf rounds encoded mem length =
      (encoded + (lengthDigits rounds length).length,
        storeBytes mem (buf + encoded) (lengthDigits rounds length)) := by
  induction rounds generalizing encoded mem length with
  | zero => simp [encodeLoop, lengthDigits]
  | succ rounds ih =>
    rw [encodeLoop, lengthDigits]
    by_cases hmore : length / 128 > 0
    · simp only [if_pos hmore]
      rw [ih, List.length_cons]
      refine Prod.ext (by simp only; omega) ?_
      exact (storeBytes_append mem (buf + encoded) [_] _).symm
    · simp only [if_neg hmore]
      rfl

/-- A length with more than one digit has a digit less behind the first one. -/
theorem rest_lt_pow {length k : Nat} (h : length < 128 ^ (k + 1)) (hmore : length / 128 > 0) :
    length / 128 < 128 ^ k ∧ 0 < k := by
  constructor
  · exact Nat.div_lt_of_lt_mul (by rwa [Nat.mul_comm, ← Nat.pow_succ])
  · rcases Nat.eq_zero_or_pos k with rfl | hpos
    · omega
    · exact hpos

/-- A length below `128 ^ k` has at most `k` digits. -/
theorem lengthDigits_length_le {k : Nat} (rounds : Nat) {length : Nat} (hk : 0 < k)
    (h : length < 128 ^ k) : (lengthDigits rounds length).length ≤ k := by
  induction rounds generalizing k length with
  | zero => exact Nat.zero_le k
  | succ rounds ih =>
    rw [lengthDigits]
    split
    · rename_i hmore
      obtain ⟨k, rfl⟩ := Nat.exists_eq_succ_of_ne_zero (Nat.ne_of_gt hk)
      obtain ⟨hrest, hpos⟩ := rest_lt_pow h hmore
      exact Nat.succ_le_succ (ih hpos hrest)
    · exact hk

/-! ### The packet -/

/-- A string behind its length, as bytes. -/
def stringBytes (s : CString) : List (BitVec 8) :=
  BitVec.ofNat 8 (s.length / 2 ^ 8) :: BitVec.ofNat 8 s.length :: s

/-- A string that is there or not. -/
def optionBytes (s : Option CString) : List (BitVec 8) := (s.map stringBytes).getD []

/-- Topic and message of the will. -/
def willBytes (config : MqttConfig) : List (BitVec 8) :=
  match config.willTopic with
  | none => []
  | some topic => stringBytes topic ++ optionBytes config.willMessage

/-- The packet behind its fixed header. -/
def connectBody (config : MqttConfig) (clientId : CString) : List (BitVec 8) :=
  let fixed := [0#8, 4#8] ++ protocolName ++ [4#8, connectFlags config,
    (config.keepalive >>> 8).setWidth 8, (config.keepalive &&& 0xFF).setWidth 8]
  fixed ++ stringBytes clientId ++ willBytes config ++ optionBytes config.username ++
    optionBytes config.password

/-- The packet under construction holds `body` behind the type byte and the gap. -/
structure Packet.Holds (p : Packet) (mem : Bytes) (buf : Nat) (body : List (BitVec 8)) : Prop where
  mem : p.mem = storeBytes (storeBytes mem buf [0x10]) (buf + 5) body
  len : p.len = 5 + body.length

section Packets

variable {mem : Bytes} {buf : Nat} {body : List (BitVec 8)} {p : Packet}

theorem Packet.Holds.put (h : p.Holds mem buf body) (bytes : List (BitVec 8)) :
    (p.put buf bytes).Holds mem buf (body ++ bytes) where
  mem := by
    rw [storeBytes_append, ← h.mem, Nat.add_assoc, ← h.len]
    rfl
  len := by
    rw [List.length_append, ← Nat.add_assoc, ← h.len]
    rfl

theorem Packet.Holds.putString (h : p.Holds mem buf body) (s : CString) :
    (p.putString buf s).Holds mem buf (body ++ stringBytes s) := by
  have hall := ((h.put [BitVec.ofNat 8 (s.length / 2 ^ 8)]).put [BitVec.ofNat 8 s.length]).put s
  rw [List.append_assoc, List.append_assoc] at hall
  exact hall

theorem Packet.Holds.putOption (h : p.Holds mem buf body) (s : Option CString) :
    (match s with
      | none => p
      | some s => p.putString buf s : Packet).Holds mem buf (body ++ optionBytes s) := by
  cases s with
  | none => exact (List.append_nil body).symm ▸ h
  | some s => exact h.putString s

/-- A body with its remaining length in front of it. -/
def packetBytes (body : List (BitVec 8)) : List (BitVec 8) :=
  0x10 :: (lengthDigits 5 body.length ++ body)

/-- Closing the gap: the length is written into it, and the body moved behind the length. -/
theorem readBytes_closed {digits : List (BitVec 8)} (hdigits : digits.length ≤ 4) :
    let start := storeBytes (storeBytes mem buf [0x10]) (buf + 5) body
    let closed := memmove (storeBytes start (buf + 1) digits) (buf + 1 + digits.length) (buf + 5)
      body.length
    readBytes closed buf (0x10 :: (digits ++ body)).length = 0x10 :: (digits ++ body) := by
  intro start closed
  have hclosed : closed = copyBytes (storeBytes start (buf + 1) digits)
      (buf + 1 + digits.length) (buf + 5) body.length := memmove_eq_copyBytes _ _ _ _
  rw [← List.singleton_append, readBytes_eq_append_iff, readBytes_eq_append_iff]
  simp only [List.length_singleton]
  refine ⟨?_, ?_, ?_⟩
  · have hframe : Agree (storeBytes mem buf [0x10]) closed buf 1 := by
      intro b hlo hhi
      rw [hclosed, copyBytes, if_neg (by omega), storeBytes_of_outside (by omega)]
      exact storeBytes_of_outside (by omega)
    rw [readBytes_congr hframe]
    exact readBytes_storeBytes_self mem buf [0x10]
  · have hframe : Agree (storeBytes start (buf + 1) digits) closed (buf + 1) digits.length := by
      intro b hlo hhi
      rw [hclosed, copyBytes, if_neg (by omega)]
    rw [readBytes_congr hframe]
    exact readBytes_storeBytes_self start (buf + 1) digits
  · have hframe : Agree start (storeBytes start (buf + 1) digits) (buf + 5) body.length := by
      intro b hlo hhi
      exact storeBytes_of_outside (by omega)
    rw [hclosed, readBytes_copyBytes_self, readBytes_congr hframe]
    exact readBytes_storeBytes_self _ _ _

/-- The end of `mqtt_create_connect_packet`. -/
theorem closePacket (h : p.Holds mem buf body) (hlen : body.length < 128 ^ 4) :
    let encoded := mqttEncodeRemainingLength p.mem (buf + 1) (p.len - 5)
    (p.len : Int) - (4 - encoded.1) = (packetBytes body).length ∧
      readBytes (memmove encoded.2 (buf + 1 + encoded.1) (buf + 5) (p.len - 5)) buf
        (packetBytes body).length = packetBytes body := by
  have hdigits := lengthDigits_length_le 5 (by decide) hlen
  have hbody : p.len - 5 = body.length := by
    rw [h.len]
    exact Nat.add_sub_cancel_left 5 _
  have hencoded : mqttEncodeRemainingLength p.mem (buf + 1) (p.len - 5) =
      ((lengthDigits 5 body.length).length,
        storeBytes p.mem (buf + 1) (lengthDigits 5 body.length)) := by
    rw [mqttEncodeRemainingLength, encodeLoop_eq, hbody, Nat.zero_add]
  simp only [hencoded]
  constructor
  · rw [h.len]
    simp only [packetBytes, List.length_cons, List.length_append]
    omega
  · rw [hbody, h.mem]
    exact readBytes_closed hdigits

end Packets

/-- **The calls of `mqtt_create_connect_packet`.** With a client id, and a message for every
will topic, the packet under construction holds the body when the gap is closed. -/
theorem mqttCreateConnectPacket_eq (mem : Bytes) (buf buflen : Nat) {config : MqttConfig}
    {clientId : CString} (hid : config.clientId = some clientId)
    (hwill : config.willTopic.isSome → config.willMessage.isSome) :
    ∃ p : Packet, p.Holds mem buf (connectBody config clientId) ∧
      let encoded := mqttEncodeRemainingLength p.mem (buf + 1) (p.len - 5)
      mqttCreateConnectPacket mem buf buflen config =
        some ((p.len : Int) - (4 - encoded.1),
          memmove encoded.2 (buf + 1 + encoded.1) (buf + 5) (p.len - 5)) := by
  have hstart : (Packet.mk (storeBytes mem buf [0x10]) 5).Holds mem buf [] :=
    ⟨(storeBytes_nil _ _).symm, rfl⟩
  have hfixed := ((((((hstart.put [0]).put [4]).put protocolName).put [4]).put
    [connectFlags config]).put [(config.keepalive >>> 8).setWidth 8]).put
    [(config.keepalive &&& 0xFF).setWidth 8]
  have hclient := hfixed.putString clientId
  unfold mqttCreateConnectPacket
  rw [hid]
  cases htopic : config.willTopic with
  | none =>
    have hbody := (hclient.putOption config.username).putOption config.password
    have hlist : connectBody config clientId = _ ++ optionBytes config.password := rfl
    rw [willBytes, htopic, List.append_nil] at hlist
    exact ⟨_, hlist ▸ hbody, rfl⟩
  | some topic =>
    obtain ⟨message, hmessage⟩ := Option.isSome_iff_exists.mp (hwill (by rw [htopic]; rfl))
    have hbody := (((hclient.putString topic).putString message).putOption
      config.username).putOption config.password
    have hlist : connectBody config clientId = _ ++ optionBytes config.password := rfl
    rw [willBytes, htopic, hmessage] at hlist
    simp only at hlist
    rw [← List.append_assoc] at hlist
    rw [hmessage]
    exact ⟨_, hlist ▸ hbody, rfl⟩

/-- **The packet.** For every configuration with a client id, and a message for every will
topic: the type byte, the digits of the length of the body, and the body. -/
theorem mqttCreateConnectPacket_spec (mem : Bytes) (buf buflen : Nat) {config : MqttConfig}
    {clientId : CString} (hid : config.clientId = some clientId)
    (hwill : config.willTopic.isSome → config.willMessage.isSome)
    (hlen : (connectBody config clientId).length < 128 ^ 4) :
    ∃ mem', mqttCreateConnectPacket mem buf buflen config =
        some (((packetBytes (connectBody config clientId)).length : Int), mem') ∧
      readBytes mem' buf (packetBytes (connectBody config clientId)).length =
        packetBytes (connectBody config clientId) := by
  obtain ⟨p, hholds, hcreate⟩ := mqttCreateConnectPacket_eq mem buf buflen hid hwill
  obtain ⟨hret, hread⟩ := closePacket hholds hlen
  exact ⟨_, hret ▸ hcreate, hread⟩

end ArmKernel.Mqtt

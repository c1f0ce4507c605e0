/-
The CONNECT packet as a receiver reads it.

`decodeConnect` reads the grammar of the packet: the type byte, a remaining length in the
fewest digits that counts the bytes behind it, protocol name and level, flags with a zero
in their reserved bit, the keep alive time, and the strings the flags announce, with
nothing behind them. `connect_round_trip` decodes what `mqtt_create_connect_packet` writes.
-/
import ArmKernel.Mqtt.Protocol

namespace ArmKernel.Mqtt

open ArmKernel.Support

/-- The will of a client. -/
structure Will where
  topic : CString
  message : CString
  qos : Nat
  retain : Bool
deriving DecidableEq

/-- What a CONNECT packet says. -/
structure Connect where
  clientId : CString
  will : Option Will
  username : Option CString
  password : Option CString
  keepalive : Nat
  cleanSession : Bool
deriving DecidableEq

/-- A remaining length of at most `rounds` digits, the last of them not a needless zero. -/
def decodeLength : (rounds : Nat) → List (BitVec 8) → Option (Nat × List (BitVec 8))
  | 0, _ => none
  | _, [] => none
  | rounds + 1, digit :: rest =>
    if digit.toNat < 128 then some (digit.toNat, rest)
    else
      (decodeLength rounds rest).bind fun (value, rest) =>
        if value = 0 then none else some (digit.toNat - 128 + 128 * value, rest)

/-- A string behind its length. -/
def takeString : List (BitVec 8) → Option (CString × List (BitVec 8))
  | hi :: lo :: rest =>
    let n := hi.toNat * 2 ^ 8 + lo.toNat
    if n ≤ rest.length then some (rest.take n, rest.drop n) else none
  | _ => none

/-- A string that a flag announces. -/
def takeOption (announced : Bool) (bytes : List (BitVec 8)) :
    Option (Option CString × List (BitVec 8)) :=
  if announced then (takeString bytes).map fun (s, rest) => (some s, rest)
  else some (none, bytes)

/-- The will, if its flag is set; otherwise its other flags have to be zero. -/
def takeWill (flags : BitVec 8) (bytes : List (BitVec 8)) : Option (Option Will × List (BitVec 8)) :=
  if flags.getLsbD 2 then
    (takeString bytes).bind fun (topic, rest) =>
      (takeString rest).map fun (message, rest) =>
        (some { topic, message, qos := ((flags >>> 3) &&& 3).toNat, retain := flags.getLsbD 5 }, rest)
  else if flags &&& 0x38 = 0 then some (none, bytes)
  else none

/-- The packet behind its fixed header. -/
def decodeBody (body : List (BitVec 8)) : Option Connect :=
  if body.take 7 = [0#8, 4#8] ++ protocolName ++ [4#8] then
    match body.drop 7 with
    | flags :: hi :: lo :: payload =>
      if flags.getLsbD 0 then none
      else
        (takeString payload).bind fun (clientId, rest) =>
          (takeWill flags rest).bind fun (will, rest) =>
            (takeOption (flags.getLsbD 7) rest).bind fun (username, rest) =>
              (takeOption (flags.getLsbD 6) rest).bind fun (password, rest) =>
                if rest = [] then
                  some
                    { clientId, will, username, password
                      keepalive := hi.toNat * 2 ^ 8 + lo.toNat
                      cleanSession := flags.getLsbD 1 }
                else none
    | _ => none
  else none

/-- One CONNECT packet and nothing else. -/
def decodeConnect : List (BitVec 8) → Option Connect
  | type :: rest =>
    if type = 0x10 then
      (decodeLength 4 rest).bind fun (length, body) =>
        if body.length = length then decodeBody body else none
    else none
  | [] => none

/-- What a configuration asks for. -/
def configured (config : MqttConfig) (clientId : CString) : Connect where
  clientId
  will := config.willTopic.map fun topic =>
    { topic, message := config.willMessage.getD [], qos := config.willQos.toNat
      retain := config.willRetain }
  username := config.username
  password := config.password
  keepalive := config.keepalive.toNat
  cleanSession := config.cleanSession

/-! ### Lengths -/

/-- A digit with its continuation bit. -/
theorem toNat_digit {n : Nat} :
    (BitVec.ofNat 8 (n % 128 ||| 0x80)).toNat = n % 128 + 128 := by
  have hor : ∀ m : Fin 128, (BitVec.ofNat 8 (m ||| 0x80)).toNat = m + 128 := by decide
  exact hor ⟨n % 128, Nat.mod_lt n (by decide)⟩

/-- The digits of a length are read back. -/
theorem decodeLength_digits {rounds k length : Nat} (rest : List (BitVec 8)) (hk : 0 < k)
    (hkr : k ≤ rounds) (h : length < 128 ^ k) :
    decodeLength k (lengthDigits rounds length ++ rest) = some (length, rest) := by
  induction k generalizing rounds length with
  | zero => exact absurd hk (Nat.lt_irrefl 0)
  | succ k ih =>
    obtain ⟨rounds, rfl⟩ := Nat.exists_eq_succ_of_ne_zero (Nat.ne_zero_of_lt hkr)
    rw [lengthDigits]
    by_cases hmore : length / 128 > 0
    · obtain ⟨hrest, hpos⟩ := rest_lt_pow h hmore
      rw [if_pos hmore, List.cons_append, decodeLength, toNat_digit, if_neg (by omega),
        ih hpos (Nat.le_of_succ_le_succ hkr) hrest]
      simp only [Option.bind_some]
      rw [if_neg (Nat.ne_of_gt hmore)]
      congr 2
      omega
    · have hdigit : (BitVec.ofNat 8 (length % 128)).toNat = length := by
        rw [BitVec.toNat_ofNat]
        omega
      rw [if_neg hmore, List.singleton_append, decodeLength, hdigit, if_pos (by omega)]

/-! ### Strings -/

theorem takeString_stringBytes {s : CString} (rest : List (BitVec 8)) (h : s.length ≤ 65535) :
    takeString (stringBytes s ++ rest) = some (s, rest) := by
  have hn : (BitVec.ofNat 8 (s.length / 2 ^ 8)).toNat * 2 ^ 8 + (BitVec.ofNat 8 s.length).toNat =
      s.length := by
    rw [BitVec.toNat_ofNat, BitVec.toNat_ofNat]
    omega
  simp only [stringBytes, List.cons_append, takeString, hn]
  rw [if_pos (by simp), List.take_left, List.drop_left]

/-- The string fits into its two bytes of length. -/
def Fits (s : Option CString) : Prop := ∀ t ∈ s, t.length ≤ 65535

theorem takeOption_optionBytes {s : Option CString} (rest : List (BitVec 8)) (h : Fits s) :
    takeOption s.isSome (optionBytes s ++ rest) = some (s, rest) := by
  cases s with
  | none => rfl
  | some s =>
    have htake := takeString_stringBytes rest (h s rfl)
    simp only [takeOption, optionBytes, Option.map_some, Option.getD_some, Option.isSome_some,
      if_true, htake]

/-! ### Flags -/

/-- The flags, bit by bit. -/
theorem connectFlags_bits (config : MqttConfig) :
    (connectFlags config).getLsbD 0 = false ∧
      (connectFlags config).getLsbD 1 = config.cleanSession ∧
      (connectFlags config).getLsbD 7 = config.username.isSome ∧
      (connectFlags config).getLsbD 6 = config.password.isSome ∧
      (connectFlags config).getLsbD 2 = config.willTopic.isSome ∧
      (config.willTopic.isSome = false → connectFlags config &&& 0x38 = 0) ∧
      (config.willTopic.isSome = true →
        (connectFlags config).getLsbD 5 = config.willRetain ∧
          ((connectFlags config >>> 3) &&& 3).toNat = config.willQos.toNat % 4) := by
  have hlow : config.willQos &&& 0x03 = (config.willQos.setWidth 2).setWidth 8 := by
    apply BitVec.eq_of_toNat_eq
    have hand : config.willQos.toNat &&& 3 = config.willQos.toNat % 2 ^ 2 :=
      Nat.and_two_pow_sub_one_eq_mod config.willQos.toNat 2
    rw [BitVec.toNat_and, BitVec.toNat_setWidth, BitVec.toNat_setWidth]
    exact hand.trans (by omega)
  have hqos : config.willQos.toNat % 4 = (config.willQos.setWidth 2).toNat :=
    (BitVec.toNat_setWidth 2 config.willQos).symm
  unfold connectFlags
  rw [hlow, hqos]
  generalize config.willQos.setWidth 2 = qos
  generalize config.cleanSession = clean
  generalize config.username.isSome = username
  generalize config.password.isSome = password
  generalize config.willTopic.isSome = will
  generalize config.willRetain = retain
  revert qos clean username password will retain
  decide

/-! ### Packets -/

/-- The configuration with the two bits of the will QoS that are sent. -/
def sentConfig (config : MqttConfig) : MqttConfig := { config with willQos := config.willQos % 4 }

/-- Every string fits into its two bytes of length, and a will topic has its message. -/
structure Sendable (config : MqttConfig) (clientId : CString) : Prop where
  clientId_set : config.clientId = some clientId
  message_set : config.willTopic.isSome → config.willMessage.isSome
  clientId_fits : clientId.length ≤ 65535
  topic_fits : Fits config.willTopic
  message_fits : Fits config.willMessage
  username_fits : Fits config.username
  password_fits : Fits config.password

section Packets

variable {config : MqttConfig} {clientId : CString}

/-- The will is read back, with the two bits of its QoS. -/
theorem takeWill_willBytes (h : Sendable config clientId) (rest : List (BitVec 8)) :
    takeWill (connectFlags config) (willBytes config ++ rest) =
      some ((configured (sentConfig config) clientId).will, rest) := by
  obtain ⟨-, -, -, -, hwill, hnone, hsome⟩ := connectFlags_bits config
  unfold takeWill configured sentConfig willBytes
  rw [hwill]
  cases htopic : config.willTopic with
  | none =>
    rw [htopic] at hnone
    have habsent : ¬ (none : Option CString).isSome = true := Bool.false_ne_true
    rw [if_neg habsent, if_pos (hnone rfl)]
    rfl
  | some topic =>
    rw [htopic] at hsome
    obtain ⟨hretain, hqos⟩ := hsome rfl
    obtain ⟨message, hmessage⟩ := Option.isSome_iff_exists.mp (h.message_set (by rw [htopic]; rfl))
    have htop := takeString_stringBytes (optionBytes config.willMessage ++ rest)
      (h.topic_fits topic htopic)
    have hmsg := takeString_stringBytes rest (h.message_fits message hmessage)
    have hmod : (config.willQos % 4).toNat = config.willQos.toNat % 4 := BitVec.toNat_umod
    have hbytes : optionBytes config.willMessage = stringBytes message := by rw [hmessage]; rfl
    rw [hbytes] at htop ⊢
    simp only [Option.isSome_some, if_true, List.append_assoc, htop, hmsg, Option.bind_some,
      Option.map_some, hretain, hqos, hmod, hmessage, Option.getD_some]

/-- The keep alive time in its two bytes. -/
theorem keepalive_bytes (keepalive : BitVec 16) :
    ((keepalive >>> 8).setWidth 8 : BitVec 8).toNat * 2 ^ 8 +
      ((keepalive &&& 0xFF).setWidth 8 : BitVec 8).toNat = keepalive.toNat := by
  have hand : keepalive.toNat &&& 255 = keepalive.toNat % 2 ^ 8 :=
    Nat.and_two_pow_sub_one_eq_mod keepalive.toNat 8
  have hlow : (keepalive &&& 0xFF).toNat = keepalive.toNat % 2 ^ 8 := hand
  have hlt := keepalive.isLt
  rw [BitVec.toNat_setWidth, BitVec.toNat_setWidth, hlow, BitVec.toNat_ushiftRight,
    Nat.shiftRight_eq_div_pow]
  omega

/-- The body of the packet is read back. -/
theorem decodeBody_connectBody (h : Sendable config clientId) :
    decodeBody (connectBody config clientId) = some (configured (sentConfig config) clientId) := by
  obtain ⟨hreserved, hclean, husername, hpassword, -⟩ := connectFlags_bits config
  have hclient := takeString_stringBytes (willBytes config ++
    (optionBytes config.username ++ optionBytes config.password)) h.clientId_fits
  have hwill := takeWill_willBytes h (optionBytes config.username ++ optionBytes config.password)
  have huser := takeOption_optionBytes (optionBytes config.password) h.username_fits
  have hpass := takeOption_optionBytes [] h.password_fits
  rw [List.append_nil] at hpass
  have hbody : connectBody config clientId = ([0#8, 4#8] ++ protocolName ++ [4#8]) ++
      (connectFlags config :: (config.keepalive >>> 8).setWidth 8 ::
        (config.keepalive &&& 0xFF).setWidth 8 :: (stringBytes clientId ++ (willBytes config ++
          (optionBytes config.username ++ optionBytes config.password)))) := by
    simp [connectBody]
  have hseven : ([0#8, 4#8] ++ protocolName ++ [4#8]).length = 7 := rfl
  rw [decodeBody, hbody, List.take_left' hseven, List.drop_left' hseven, if_pos rfl]
  simp only [hreserved, hclient, hwill, husername, huser, hpassword, hpass, hclean,
    keepalive_bytes, Option.bind_some, if_true]
  rfl

/-- The body is shorter than four digits can count. -/
theorem connectBody_length_lt (h : Sendable config clientId) :
    (connectBody config clientId).length < 128 ^ 4 := by
  have hoption : ∀ s : Option CString, Fits s → (optionBytes s).length ≤ 65537 := by
    intro s hs
    cases s with
    | none => exact Nat.zero_le _
    | some s => exact Nat.add_le_add_right (hs s rfl) 2
  have hclient : (stringBytes clientId).length ≤ 65537 := Nat.add_le_add_right h.clientId_fits 2
  have hwill : (willBytes config).length ≤ 131074 := by
    unfold willBytes
    cases htopic : config.willTopic with
    | none => exact Nat.zero_le _
    | some topic =>
      have htop : (stringBytes topic).length ≤ 65537 :=
        Nat.add_le_add_right (h.topic_fits topic htopic) 2
      have hmsg := hoption config.willMessage h.message_fits
      rw [List.length_append]
      omega
  have huser := hoption config.username h.username_fits
  have hpass := hoption config.password h.password_fits
  simp only [connectBody, List.length_append, List.length_cons, List.length_nil, protocolName]
  omega

end Packets

/-- **CONNECT packets decode to their configuration.** For every configuration whose
strings fit, with the will QoS taken modulo 4. -/
theorem connect_round_trip (mem : Bytes) (buf buflen : Nat) (config : MqttConfig)
    (clientId : CString) (h : Sendable config clientId) :
    ∃ (r : Nat) (mem' : Bytes), mqttCreateConnectPacket mem buf buflen config = some ((r : Int), mem') ∧
      decodeConnect (readBytes mem' buf r) = some (configured (sentConfig config) clientId) := by
  have hlen := connectBody_length_lt h
  obtain ⟨mem', hcreate, hread⟩ :=
    mqttCreateConnectPacket_spec mem buf buflen h.clientId_set h.message_set hlen
  refine ⟨_, mem', hcreate, ?_⟩
  rw [hread, packetBytes, decodeConnect, if_pos rfl,
    decodeLength_digits _ (Nat.succ_pos 3) (Nat.le_succ 4) hlen]
  simp only [Option.bind_some, if_true]
  exact decodeBody_connectBody h

/-- A configuration with every field set. -/
def fullConfig (willQos : BitVec 8) : MqttConfig where
  clientId := some [0x63]
  username := some [0x75]
  password := some []
  keepalive := 300
  cleanSession := true
  willTopic := some [0x74, 0x74]
  willMessage := some [0x6D]
  willQos
  willRetain := true

theorem fullConfig_sendable (willQos : BitVec 8) : Sendable (fullConfig willQos) [0x63] where
  clientId_set := rfl
  message_set := fun _ => rfl
  clientId_fits := by decide
  topic_fits := by rintro _ ⟨⟩; decide
  message_fits := by rintro _ ⟨⟩; decide
  username_fits := by rintro _ ⟨⟩; decide
  password_fits := by rintro _ ⟨⟩; decide

theorem connect_round_trip_full :
    Sendable (fullConfig 1) [0x63] ∧
      ∃ (r : Nat) (mem' : Bytes),
        mqttCreateConnectPacket (fun _ => 0) 100 64 (fullConfig 1) = some ((r : Int), mem') ∧
          decodeConnect (readBytes mem' 100 r) = some (configured (sentConfig (fullConfig 1)) [0x63]) :=
  ⟨fullConfig_sendable 1, connect_round_trip _ _ _ _ _ (fullConfig_sendable 1)⟩

/-- A will QoS of 4 is sent as 0. -/
theorem will_qos_masked :
    ∃ (r : Nat) (mem' : Bytes),
      mqttCreateConnectPacket (fun _ => 0) 100 64 (fullConfig 4) = some ((r : Int), mem') ∧
        (decodeConnect (readBytes mem' 100 r)).bind (fun c => c.will.map Will.qos) = some 0 ∧
        decodeConnect (readBytes mem' 100 r) ≠ some (configured (fullConfig 4) [0x63]) := by
  refine ⟨27, _, rfl, ?_, ?_⟩
  · decide
  · decide

end ArmKernel.Mqtt

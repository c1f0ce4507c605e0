/-
The remote device manager (`src/ssl_server.c`, lines 178 to 354, with the messages of
`src/secure_comm.c`, lines 20 to 32): the loop that receives signed messages, and its commands.

The signature of a message is made over its data alone, by every sender and in every check, so
the type and the length in front of the data are whatever the network delivers.
`CommandsAuthenticated` is the law that a command is executed as it was signed, after the
authentication and once; `relabelled_executed` is a run that breaks it with a single signature.
What the loop does by design is `calls_signed`: it executes, in the order of their arrival, the
messages that say they are commands and whose data somebody has signed.

The TLS connection, the signatures and what the commands start are not part of the source: they
are a `Platform`, and a signature that is ideal is the condition `Ideal` on it.
-/
import ArmKernel.Support.Bytes
import ArmKernel.Support.Chars
import ArmKernel.Support.Run
import Mathlib.Data.List.Nodup
import Mathlib.Data.Set.Defs

namespace ArmKernel.Ssl

open ArmKernel.Support

/-! ### Messages -/

/-- `secure_message_t`: `msg_type`, `msg_len`, `data` and `signature`, one behind the other. -/
def dataOffset : Nat := 8

/-- The size of `data`. -/
def dataSize : Nat := 1024

def signatureOffset : Nat := dataOffset + dataSize

/-- The size of `signature`. -/
def signatureSize : Nat := 64

/-- `sizeof(secure_message_t)`. -/
def messageSize : Nat := signatureOffset + signatureSize

def msgType (message : Bytes) : Nat := readWord message 0

def msgLen (message : Bytes) : Nat := readWord message 4

def signature (message : Bytes) : List (BitVec 8) := readBytes message signatureOffset signatureSize

/-- The memory of a message from a place on. -/
def memoryAt (message : Bytes) (a : Nat) : Bytes := fun i => message (a + i)

/-- `MSG_TYPE_AUTH_REQUEST`. -/
def msgTypeAuthRequest : Nat := 1

/-- `MSG_TYPE_COMMAND`. -/
def msgTypeCommand : Nat := 4

/-- What `mbedtls_sha256(message.data, message.msg_len, …)` reads, which is to be in the message. -/
def hashed (message : Bytes) : Option (List (BitVec 8)) :=
  if dataOffset + msgLen message ≤ messageSize then
    some (readBytes message dataOffset (msgLen message))
  else none

/-- `device_command_t`: `cmd_id`, `param_len` and `parameters`. -/
def cmdId (cmd : Bytes) : Nat := readWord cmd 0

def paramLen (cmd : Bytes) : Nat := readWord cmd 4

def parametersOffset : Nat := 8

/-- The size of `parameters`. -/
def parametersSize : Nat := 256

/-! ### The device -/

/-- `device_info_t`. -/
structure DeviceInfo where
  deviceId : List (BitVec 8)
  model : List (BitVec 8)
  firmwareVersion : List (BitVec 8)
  status : BitVec 32
  lastUpdate : BitVec 32

/-- `device_manager_t`, without the contexts of the TLS library. -/
structure DeviceManager where
  info : DeviceInfo
  isAuthenticated : BitVec 8

/-- What the source uses and does not define. `verify` is `mbedtls_sha256` and
`mbedtls_pk_verify` with the key of the server, on the bytes and the signature. -/
structure Platform where
  verify : List (BitVec 8) → List (BitVec 8) → Bool
  cmdGetStatus : Nat
  cmdUpdateFirmware : Nat
  cmdConfigure : Nat
  statusUpdating : BitVec 32
  statusConfigured : BitVec 32
  statusError : BitVec 32
  verifyFirmwareSignature : Bytes → Nat → Bool
  updateDeviceConfig : Bytes → Nat → Bool
  handleAuthRequest : DeviceManager → Bytes → Nat → DeviceManager

/-- `strncpy` into a field that is zero. -/
def strncpy (src : List (BitVec 8)) (n : Nat) : List (BitVec 8) :=
  (src ++ List.replicate n 0).take n

/-- `init_device_manager`, when the key and the session are there. -/
def initDeviceManager (deviceId : CString) : DeviceManager where
  info :=
    { deviceId := strncpy deviceId.bytes 32
      model := strncpy (ascii "SECURE-IOT-V1") 32
      firmwareVersion := strncpy (ascii "1.0.0") 16
      status := 0
      lastUpdate := 0 }
  isAuthenticated := 0

def DeviceManager.setStatus (manager : DeviceManager) (status : BitVec 32) : DeviceManager :=
  { manager with info := { manager.info with status } }

/-- `handle_device_command`: the manager, and the information that is sent back. -/
def handleDeviceCommand (p : Platform) (manager : DeviceManager) (cmd : Bytes) :
    DeviceManager × Option DeviceInfo :=
  let parameters := memoryAt cmd parametersOffset
  if cmdId cmd = p.cmdGetStatus then (manager, some manager.info)
  else if cmdId cmd = p.cmdUpdateFirmware then
    let manager := manager.setStatus
      (if p.verifyFirmwareSignature parameters (paramLen cmd) then p.statusUpdating
        else p.statusError)
    (manager, some manager.info)
  else if cmdId cmd = p.cmdConfigure then
    let manager := manager.setStatus
      (if p.updateDeviceConfig parameters (paramLen cmd) then p.statusConfigured
        else p.statusError)
    (manager, some manager.info)
  else (manager, none)

/-! ### The loop -/

/-- What `mbedtls_ssl_read` delivers, and the `time(NULL)` of the round. -/
structure Received where
  bytes : List (BitVec 8)
  pos : 0 < bytes.length
  fits : bytes.length ≤ messageSize
  now : BitVec 32

/-- The results of `mbedtls_ssl_read`: to be tried again, the end of the loop, or some bytes. -/
inductive Read where
  | retry
  | failed
  | received (r : Received)

/-- A call of `handle_device_command`: the message, how much of it has just been received, and
`is_authenticated` at the time. -/
structure Call where
  message : Bytes
  received : Nat
  isAuthenticated : BitVec 8

/-- The variables of the loop, and the calls it has made. -/
structure State where
  manager : DeviceManager
  message : Bytes
  running : Bool
  calls : List Call

/-- The bytes that have been received go to the front of the message; the rest stays. -/
def receive (message : Bytes) (r : Received) : Bytes := storeBytes message 0 r.bytes

/-- The `switch` on the type of the message. -/
def dispatch (p : Platform) (s : State) (received : Nat) : State :=
  if msgType s.message = msgTypeCommand then
    { s with
      manager := (handleDeviceCommand p s.manager (memoryAt s.message dataOffset)).1
      calls := s.calls ++ [Call.mk s.message received s.manager.isAuthenticated] }
  else if msgType s.message = msgTypeAuthRequest then
    { s with
      manager := p.handleAuthRequest s.manager (memoryAt s.message dataOffset) (msgLen s.message) }
  else s

/-- `manager->info.last_update = time(NULL)`. -/
def State.stamp (s : State) (now : BitVec 32) : State :=
  { s with manager := { s.manager with info := { s.manager.info with lastUpdate := now } } }

/-- `device_manager_loop`: one round. After the loop nothing is read. -/
def step (p : Platform) (s : State) (read : Read) : Option State :=
  if s.running = false then some s
  else
    match read with
    | .retry => some s
    | .failed => some { s with running := false }
    | .received r =>
      let s := { s with message := receive s.message r }
      (hashed s.message).map fun data =>
        if p.verify data (signature s.message) = false then s
        else (dispatch p s r.bytes.length).stamp r.now

/-- The loop begins with a fresh manager, and with anything in the message. -/
def initial (deviceId : CString) (message : Bytes) : State where
  manager := initDeviceManager deviceId
  message := message
  running := true
  calls := []

/-! ### Signed messages -/

/-- A message that the server signed: its type, and its data, as long as its length. -/
structure SignedMessage where
  msgType : Nat
  data : List (BitVec 8)

/-- Ideal signatures: only what the server signed is accepted. -/
def Ideal (p : Platform) (signed : Set SignedMessage) : Prop :=
  ∀ data signature, p.verify data signature = true → ∃ message ∈ signed, message.data = data

/-- The message is accepted, and says that it is a command. -/
def isCommand (p : Platform) (message : Bytes) : Bool :=
  match hashed message with
  | none => false
  | some data => p.verify data (signature message) && msgType message = msgTypeCommand

/-- The messages that are received before the loop ends. -/
def delivered : Bytes → List Read → List Bytes
  | _, [] => []
  | message, .retry :: reads => delivered message reads
  | _, .failed :: _ => []
  | message, .received r :: reads => receive message r :: delivered (receive message r) reads

/-- The bytes of `data` that have been received. -/
def Received.dataLength (r : Received) : Nat := min (r.bytes.length - dataOffset) dataSize

/-- The parameters of a command that has some are inside what has been received. -/
def ParametersInside (p : Platform) (cmd : Bytes) (received : Nat) : Prop :=
  cmdId cmd = p.cmdUpdateFirmware ∨ cmdId cmd = p.cmdConfigure →
    paramLen cmd ≤ parametersSize ∧ parametersOffset + paramLen cmd ≤ received

/-- The lengths of a round: what is hashed, and the parameters of a command, have been received. -/
def LengthsInside (p : Platform) (s : State) : Read → Prop
  | .retry => True
  | .failed => True
  | .received r => s.running = true →
      msgLen (receive s.message r) ≤ r.dataLength ∧
        (isCommand p (receive s.message r) = true →
          ParametersInside p (memoryAt (receive s.message r) dataOffset) r.dataLength)

/-- The calls: signed as commands of that length, after the authentication, each once. -/
structure Lawful (signed : Set SignedMessage) (calls : List Call) : Prop where
  asCommand : ∀ call ∈ calls, ∃ data, hashed call.message = some data ∧
    SignedMessage.mk msgTypeCommand data ∈ signed
  authenticated : ∀ call ∈ calls, call.isAuthenticated ≠ 0
  once : (calls.map fun call => hashed call.message).Nodup

/-- What the network may deliver for the law to hold: a command with the type under which its data
was signed, after the authentication, and not twice. -/
def Faithful (p : Platform) (signed : Set SignedMessage) (s : State) : Read → Prop
  | .retry => True
  | .failed => True
  | .received r => s.running = true → isCommand p (receive s.message r) = true →
      (∀ source ∈ signed, hashed (receive s.message r) = some source.data →
        source.msgType = msgTypeCommand) ∧
      s.manager.isAuthenticated ≠ 0 ∧
      ∀ call ∈ s.calls, hashed call.message ≠ hashed (receive s.message r)

/-- The law for every sequence of received messages. -/
def CommandsAuthenticated (p : Platform) (signed : Set SignedMessage) : Prop :=
  ∀ deviceId message reads,
    Each (step p) (LengthsInside p) (initial deviceId message) reads ∧
      ∀ s, run (step p) (initial deviceId message) reads = some s → Lawful signed s.calls

section Runs

variable {p : Platform} {signed : Set SignedMessage} {s t : State} {message : Bytes}
  {reads : List Read}

/-- The call that is made for a command. -/
def callOf (s : State) (r : Received) : Call :=
  Call.mk (receive s.message r) r.bytes.length s.manager.isAuthenticated

/-- A command leaves the authentication as it is. -/
theorem handleDeviceCommand_isAuthenticated (p : Platform) (manager : DeviceManager) (cmd : Bytes) :
    (handleDeviceCommand p manager cmd).1.isAuthenticated = manager.isAuthenticated := by
  rw [handleDeviceCommand]
  split
  · rfl
  split
  · rfl
  split
  · rfl
  · rfl

/-- What the `switch` leaves alone, and the call it makes. -/
theorem dispatch_spec (p : Platform) (s : State) (received : Nat) :
    (dispatch p s received).message = s.message ∧
      (dispatch p s received).running = s.running ∧
      (dispatch p s received).calls = s.calls ++
        if msgType s.message = msgTypeCommand then
          [Call.mk s.message received s.manager.isAuthenticated] else [] := by
  rw [dispatch]
  by_cases hcommand : msgType s.message = msgTypeCommand
  · rw [if_pos hcommand, if_pos hcommand]
    exact ⟨rfl, rfl, rfl⟩
  · rw [if_neg hcommand, if_neg hcommand, List.append_nil]
    split
    · exact ⟨rfl, rfl, rfl⟩
    · exact ⟨rfl, rfl, rfl⟩

theorem isCommand_of_hashed {data : List (BitVec 8)} (h : hashed message = some data) :
    isCommand p message =
      (p.verify data (signature message) && msgType message = msgTypeCommand) := by
  rw [isCommand, h]

theorem step_retry (hrunning : s.running = true) : step p s .retry = some s := by
  rw [step, if_neg (by rw [hrunning]; exact Bool.noConfusion)]

theorem step_failed (hrunning : s.running = true) :
    step p s .failed = some { s with running := false } := by
  rw [step, if_neg (by rw [hrunning]; exact Bool.noConfusion)]

theorem step_message (hrunning : s.running = true) (r : Received) :
    step p s (.received r) = (hashed (receive s.message r)).map fun data =>
      if p.verify data (signature (receive s.message r)) = false then
        { s with message := receive s.message r }
      else (dispatch p { s with message := receive s.message r } r.bytes.length).stamp r.now := by
  rw [step, if_neg (by rw [hrunning]; exact Bool.noConfusion)]

theorem step_stopped {read : Read} (h : s.running = false) : step p s read = some s := if_pos h

/-- **A message that is received** is executed when it is accepted and says it is a command. -/
theorem step_received {r : Received} (hrunning : s.running = true)
    (h : step p s (.received r) = some t) :
    t.message = receive s.message r ∧ t.running = true ∧
      t.calls = s.calls ++ if isCommand p (receive s.message r) then [callOf s r] else [] := by
  rw [step_message hrunning] at h
  obtain ⟨data, hhashed, rfl⟩ := Option.map_eq_some_iff.mp h
  rw [isCommand_of_hashed hhashed]
  cases hverify : p.verify data (signature (receive s.message r)) with
  | false =>
    rw [if_pos rfl, Bool.false_and, if_neg Bool.false_ne_true]
    exact ⟨rfl, hrunning, (List.append_nil _).symm⟩
  | true =>
    obtain ⟨hmessage, hrun, hcalls⟩ :=
      dispatch_spec p { s with message := receive s.message r } r.bytes.length
    rw [if_neg Bool.noConfusion, Bool.true_and]
    simp only [decide_eq_true_eq]
    exact ⟨hmessage, hrun.trans hrunning, hcalls⟩

theorem run_stopped (h : s.running = false) : run (step p) s reads = some s := by
  induction reads with
  | nil => rfl
  | cons read reads ih => exact run_cons_eq_some.mpr ⟨s, step_stopped h, ih⟩

/-- **The calls of a run** are the commands among the delivered messages, in their order. -/
theorem calls_of_run (hrunning : s.running = true) (h : run (step p) s reads = some t) :
    t.calls.map Call.message =
      s.calls.map Call.message ++ (delivered s.message reads).filter (isCommand p) := by
  induction reads generalizing s with
  | nil =>
    cases h
    exact (List.append_nil _).symm
  | cons read reads ih =>
    obtain ⟨s₁, hstep, hrest⟩ := run_cons_eq_some.mp h
    cases read with
    | retry =>
      rw [step_retry hrunning] at hstep
      cases hstep
      exact ih hrunning hrest
    | failed =>
      rw [step_failed hrunning] at hstep
      cases hstep
      rw [run_stopped rfl] at hrest
      cases hrest
      exact (List.append_nil _).symm
    | received r =>
      obtain ⟨hmessage, hrun, hcalls⟩ := step_received hrunning hstep
      rw [ih hrun hrest, hcalls, hmessage, List.map_append,
        List.append_assoc, delivered, List.filter_cons]
      split
      · rfl
      · rfl

/-- What is accepted as a command has been signed. -/
theorem signed_of_isCommand (hideal : Ideal p signed) (h : isCommand p message = true) :
    msgType message = msgTypeCommand ∧ ∃ source ∈ signed,
      hashed message = some source.data ∧ source.data.length = msgLen message := by
  cases hdata : hashed message with
  | none =>
    rw [isCommand, hdata] at h
    cases h
  | some data =>
    rw [isCommand_of_hashed hdata] at h
    obtain ⟨hverify, htype⟩ := (Bool.and_eq_true _ _).mp h
    obtain ⟨source, hsource, rfl⟩ := hideal data _ hverify
    refine ⟨of_decide_eq_true htype, source, hsource, rfl, ?_⟩
    rw [hashed] at hdata
    split at hdata
    · rw [← Option.some.inj hdata, readBytes_length]
    · cases hdata

/-- **Commands are signed data.** The loop executes the messages that it accepts and that say
they are commands, each as often as it is delivered, and of each of them the server has signed
the data, as long as the message says it is. -/
theorem calls_signed (hideal : Ideal p signed) {deviceId : CString}
    (h : run (step p) (initial deviceId message) reads = some s) :
    s.calls.map Call.message = (delivered message reads).filter (isCommand p) ∧
      ∀ call ∈ s.calls, msgType call.message = msgTypeCommand ∧ ∃ source ∈ signed,
        hashed call.message = some source.data ∧
          source.data.length = msgLen call.message := by
  have hcalls : s.calls.map Call.message = (delivered message reads).filter (isCommand p) :=
    calls_of_run rfl h
  refine ⟨hcalls, ?_⟩
  intro call hcall
  have hmem : call.message ∈ (delivered message reads).filter (isCommand p) :=
    hcalls ▸ List.mem_map_of_mem hcall
  exact signed_of_isCommand hideal (List.mem_filter.mp hmem).2

/-- **One round on a faithful network** keeps the law. -/
theorem lawful_step (hideal : Ideal p signed) {read : Read} (h : Lawful signed s.calls)
    (hread : Faithful p signed s read) (hstep : step p s read = some t) :
    Lawful signed t.calls := by
  by_cases hrunning : s.running = true
  · cases read with
    | retry =>
      rw [step_retry hrunning] at hstep
      cases hstep
      exact h
    | failed =>
      rw [step_failed hrunning] at hstep
      cases hstep
      exact h
    | received r =>
      obtain ⟨-, -, hcalls⟩ := step_received hrunning hstep
      rw [hcalls]
      by_cases hcommand : isCommand p (receive s.message r) = true
      · obtain ⟨htype, hauth, hfresh⟩ := hread hrunning hcommand
        obtain ⟨-, source, hsource, hdata, -⟩ := signed_of_isCommand hideal hcommand
        rw [if_pos hcommand]
        refine ⟨?_, ?_, ?_⟩
        · intro call hcall
          rcases List.mem_append.mp hcall with hold | hnew
          · exact h.asCommand call hold
          · obtain rfl := List.mem_singleton.mp hnew
            refine ⟨source.data, hdata, ?_⟩
            rw [← htype source hsource hdata]
            exact hsource
        · intro call hcall
          rcases List.mem_append.mp hcall with hold | hnew
          · exact h.authenticated call hold
          · obtain rfl := List.mem_singleton.mp hnew
            exact hauth
        · rw [List.map_append, List.map_singleton]
          refine List.nodup_append.mpr ⟨h.once, List.nodup_singleton _, ?_⟩
          intro data hold data' hnew
          obtain ⟨call, hcall, rfl⟩ := List.mem_map.mp hold
          rw [List.mem_singleton.mp hnew]
          exact hfresh call hcall
      · rw [if_neg hcommand, List.append_nil]
        exact h
  · rw [step_stopped (Bool.eq_false_of_not_eq_true hrunning)] at hstep
    cases hstep
    exact h

/-- **On a faithful network** the calls of every run are lawful. -/
theorem lawful_of_faithful (hideal : Ideal p signed) {deviceId : CString}
    (hreads : Each (step p) (Faithful p signed) (initial deviceId message) reads)
    (hrun : run (step p) (initial deviceId message) reads = some s) : Lawful signed s.calls := by
  have hstart : Lawful signed (initial deviceId message).calls :=
    ⟨fun _ h => absurd h List.not_mem_nil, fun _ h => absurd h List.not_mem_nil, List.nodup_nil⟩
  have hmeets := Each.meets (fun _ _ _ hread _ => hread) hreads
  exact (along_of_meets (fun _ _ _ h hread hstep => lawful_step hideal h hread hstep) hstart
    hmeets).last hrun

end Runs

/-! ### One signature -/

/-- The command that asks for the status: an identifier, and no parameters. -/
def statusCommand : List (BitVec 8) := [1, 0, 0, 0, 0, 0, 0, 0]

def serverSignature : List (BitVec 8) := List.replicate signatureSize 0x5A

/-- A whole message with these eight bytes of data. -/
def wholeMessage (header data : List (BitVec 8)) : List (BitVec 8) :=
  header ++ ((data ++ List.replicate 1016 0) ++ serverSignature)

theorem length_wholeMessage {header data : List (BitVec 8)} (hheader : header.length = 8)
    (hdata : data.length = 8) : (wholeMessage header data).length = messageSize := by
  rw [wholeMessage, List.length_append, List.length_append, List.length_append, hheader, hdata,
    List.length_replicate, serverSignature, List.length_replicate]
  rfl

/-- The data of a message that the server signed, behind the header of a command. -/
def relabelled : Received where
  bytes := wholeMessage [4, 0, 0, 0, 8, 0, 0, 0] statusCommand
  pos := Nat.lt_of_lt_of_eq (by decide) (length_wholeMessage rfl rfl).symm
  fits := Nat.le_of_eq (length_wholeMessage rfl rfl)
  now := 0

/-- What is in the message then. -/
theorem relabelled_pieces (message : Bytes) :
    readBytes (receive message relabelled) 0 8 = [4, 0, 0, 0, 8, 0, 0, 0] ∧
      readBytes (receive message relabelled) dataOffset 8 = statusCommand ∧
      signature (receive message relabelled) = serverSignature := by
  have hall : readBytes (receive message relabelled) 0 relabelled.bytes.length = relabelled.bytes :=
    readBytes_storeBytes_self message 0 relabelled.bytes
  obtain ⟨hheader, hrest⟩ := readBytes_eq_append_iff.mp hall
  obtain ⟨hdata, hsignature⟩ := readBytes_eq_append_iff.mp hrest
  obtain ⟨hcommand, -⟩ := readBytes_eq_append_iff.mp hdata
  refine ⟨hheader, hcommand, ?_⟩
  have hsize : (statusCommand ++ List.replicate 1016 0).length = dataSize := by
    rw [List.length_append, List.length_replicate]
    rfl
  rw [hsize] at hsignature
  rw [serverSignature, List.length_replicate] at hsignature
  exact hsignature

theorem relabelled_words (message : Bytes) :
    msgType (receive message relabelled) = msgTypeCommand ∧
      msgLen (receive message relabelled) = 8 := by
  have hheader := (relabelled_pieces message).1
  have hbytes : [receive message relabelled 0, receive message relabelled 1,
      receive message relabelled 2, receive message relabelled 3, receive message relabelled 4,
      receive message relabelled 5, receive message relabelled 6, receive message relabelled 7] =
      [4, 0, 0, 0, 8, 0, 0, 0] := hheader
  injection hbytes with h0 hbytes
  simp only [List.cons.injEq, and_true] at hbytes
  obtain ⟨h1, h2, h3, h4, h5, h6, h7⟩ := hbytes
  rw [msgType, msgLen, readWord, readWord, h0, h1, h2, h3, h4, h5, h6, h7]
  exact ⟨rfl, rfl⟩

/-- A server with one signature, under eight bytes that it sent in a request. -/
def oneSignature : Platform where
  verify data signature := data = statusCommand && signature = serverSignature
  cmdGetStatus := 1
  cmdUpdateFirmware := 2
  cmdConfigure := 3
  statusUpdating := 1
  statusConfigured := 2
  statusError := 3
  verifyFirmwareSignature _ _ := false
  updateDeviceConfig _ _ := false
  handleAuthRequest manager _ _ := { manager with isAuthenticated := 1 }

/-- What it signed. -/
def oneSigned : Set SignedMessage := {SignedMessage.mk msgTypeAuthRequest statusCommand}

theorem ideal_oneSignature : Ideal oneSignature oneSigned := by
  intro data signature h
  have hdata : data = statusCommand := of_decide_eq_true ((Bool.and_eq_true _ _).mp h).1
  exact ⟨_, rfl, hdata.symm⟩

theorem hashed_relabelled (message : Bytes) :
    hashed (receive message relabelled) = some statusCommand := by
  rw [hashed, (relabelled_words message).2, if_pos (by decide), (relabelled_pieces message).2.1]

section Replays

variable {p : Platform} {s : State} {r : Received} {data : List (BitVec 8)}

/-- The round of an accepted command. -/
theorem step_command (hrunning : s.running = true)
    (hhashed : hashed (receive s.message r) = some data)
    (hverify : p.verify data (signature (receive s.message r)) = true)
    (htype : msgType (receive s.message r) = msgTypeCommand) :
    ∃ t call, step p s (.received r) = some t ∧ t.running = true ∧
      t.manager.isAuthenticated = s.manager.isAuthenticated ∧ t.calls = s.calls ++ [call] ∧
      hashed call.message = some data ∧ call.isAuthenticated = s.manager.isAuthenticated := by
  have hdispatch : dispatch p { s with message := receive s.message r } r.bytes.length =
      { s with
        message := receive s.message r
        manager := (handleDeviceCommand p s.manager
          (memoryAt (receive s.message r) dataOffset)).1
        calls := s.calls ++
          [Call.mk (receive s.message r) r.bytes.length s.manager.isAuthenticated] } :=
    if_pos htype
  refine ⟨(dispatch p { s with message := receive s.message r } r.bytes.length).stamp r.now,
    Call.mk (receive s.message r) r.bytes.length s.manager.isAuthenticated, ?_, ?_⟩
  · rw [step_message hrunning, hhashed, Option.map_some, hverify, if_neg Bool.noConfusion]
  · rw [hdispatch]
    exact ⟨hrunning, handleDeviceCommand_isAuthenticated p s.manager _, rfl, hhashed, rfl⟩

/-- **A replay.** The message is executed at each of its deliveries, before any authentication. -/
theorem relabelled_twice (deviceId : CString) (message : Bytes) :
    ∃ s, run (step oneSignature) (initial deviceId message)
        [.received relabelled, .received relabelled] = some s ∧ s.calls.length = 2 ∧
      ∀ call ∈ s.calls, hashed call.message = some statusCommand ∧ call.isAuthenticated = 0 := by
  have hround : ∀ s : State, s.running = true → ∃ t call,
      step oneSignature s (.received relabelled) = some t ∧ t.running = true ∧
        t.manager.isAuthenticated = s.manager.isAuthenticated ∧ t.calls = s.calls ++ [call] ∧
        hashed call.message = some statusCommand ∧
        call.isAuthenticated = s.manager.isAuthenticated := by
    intro s hrunning
    refine step_command hrunning (hashed_relabelled s.message) ?_ (relabelled_words s.message).1
    rw [(relabelled_pieces s.message).2.2]
    rfl
  obtain ⟨t, call, hfirst, hrunning, hauth, hcalls, hdata, hcall⟩ :=
    hround (initial deviceId message) rfl
  obtain ⟨t', call', hsecond, -, -, hcalls', hdata', hcall'⟩ := hround t hrunning
  have hboth : t'.calls = [call, call'] := by
    rw [hcalls', hcalls]
    rfl
  refine ⟨t', run_cons_eq_some.mpr ⟨t, hfirst, run_cons_eq_some.mpr ⟨t', hsecond, rfl⟩⟩, ?_, ?_⟩
  · rw [hboth]
    rfl
  · intro c hc
    rw [hboth, List.mem_cons, List.mem_singleton] at hc
    rcases hc with rfl | rfl
    · exact ⟨hdata, hcall⟩
    · exact ⟨hdata', hcall'.trans hauth⟩

end Replays

/-- A run of the server with one signature, and what the calls of it are. -/
theorem calls_signed_relabelled :
    ∃ s, run (step oneSignature) (initial (CString.mk [] List.not_mem_nil) fun _ => 0)
        [.received relabelled, .received relabelled] = some s ∧
      s.calls.map Call.message = (delivered (fun _ => 0)
        [.received relabelled, .received relabelled]).filter (isCommand oneSignature) ∧
      ∀ call ∈ s.calls, msgType call.message = msgTypeCommand ∧ ∃ source ∈ oneSigned,
        hashed call.message = some source.data ∧
          source.data.length = msgLen call.message := by
  obtain ⟨s, hrun, -, -⟩ := relabelled_twice (CString.mk [] List.not_mem_nil) fun _ => 0
  exact ⟨s, hrun, calls_signed ideal_oneSignature hrun⟩

/-- A command that the server never signed as one is executed. -/
theorem relabelled_executed :
    Ideal oneSignature oneSigned ∧ ¬CommandsAuthenticated oneSignature oneSigned := by
  refine ⟨ideal_oneSignature, ?_⟩
  intro h
  obtain ⟨s, hrun, hlength, hcalls⟩ := relabelled_twice (CString.mk [] List.not_mem_nil) fun _ => 0
  have hlawful := (h _ _ _).2 s hrun
  obtain ⟨call, hcall⟩ := List.exists_mem_of_length_pos (by omega : 0 < s.calls.length)
  obtain ⟨data, hdata, hsigned⟩ := hlawful.asCommand call hcall
  obtain rfl := Option.some.inj ((hcalls call hcall).1.symm.trans hdata)
  have hmessage : SignedMessage.mk msgTypeCommand statusCommand =
      SignedMessage.mk msgTypeAuthRequest statusCommand := hsigned
  exact absurd (congrArg SignedMessage.msgType hmessage) (by decide)

end ArmKernel.Ssl

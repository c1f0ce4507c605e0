/-
Tasks that wait for a message queue.

`MsgMonitor` is a queue with its two condition variables and the calls the tasks are in, all
with a timeout that is not zero. One step is a critical section: a call up to where it returns
or waits, or its next pass, when `condition_timedwait` was in time, or its end, when it was
not. A task that waits is made ready by a signal alone: nothing reads `wake_time`.

`msg_wakes`: no wake-up is lost in the runs in which a task that was signalled leaves nothing
for those that sleep, or another one was signalled too, and in a queue whose slots hold a
message header in no others. `receiver_left_asleep` is a run in which the one signal of a send
goes to a receiver that wants another type.
-/
import ArmKernel.Sync.Monitor
import ArmKernel.Ipc.MsgRuns

namespace ArmKernel.Ipc

open ArmKernel.Support ArmKernel.Tasks ArmKernel.Sync

variable {n : Nat}

/-- The condition variable a call waits on. -/
def Request.side : Request → Condition
  | .send .. => .notFull
  | .receive .. => .notEmpty

def Request.timeout : Request → Nat
  | .send _ timeout => timeout
  | .receive _ _ timeout => timeout

/-- There is room for a message, or a message of the type. -/
def MsgQueue.Serves (mq : MsgQueue) : Request → Prop
  | .send .. => mq.msgCount < mq.maxMsgs
  | .receive _ type _ => (searchLoop mq type mq.msgCount mq.head).isSome = true

instance (mq : MsgQueue) : (request : Request) → Decidable (mq.Serves request)
  | .send .. => inferInstanceAs (Decidable (mq.msgCount < mq.maxMsgs))
  | .receive _ type _ =>
    inferInstanceAs (Decidable ((searchLoop mq type mq.msgCount mq.head).isSome = true))

/-- The messages in the queue, each as long as its slot. -/
def MsgQueue.messages (mq : MsgQueue) : List Message :=
  window (slotAt mq.maxSize mq.buffer) mq.maxMsgs mq.head mq.msgCount

/-- The ring has slots, they do not wrap, and each has room for the header of a message. -/
def MsgQueue.Shaped (mq : MsgQueue) : Prop :=
  0 < mq.maxMsgs ∧ mq.maxMsgs * mq.maxSize < 2 ^ 32 ∧ msgHeaderSize ≤ mq.maxSize

instance (mq : MsgQueue) : Decidable mq.Shaped :=
  inferInstanceAs (Decidable (0 < mq.maxMsgs ∧ _ ∧ _))

/-- When `request` is through, in time or not, there may be something for the other call. -/
def MsgQueue.Leaves (mq : MsgQueue) : (inTime : Bool) → (request waiting : Request) → Prop
  | true, .receive _ type _, .receive _ type' _ =>
    ¬ mq.Shaped ∨ ∃ msg ∈ mq.messages.eraseP (Wanted type), Wanted type' msg = true
  | true, _, _ => mq.msgCount + 1 < mq.maxMsgs
  | false, _, waiting => mq.Serves waiting

instance (mq : MsgQueue) : (inTime : Bool) → (request waiting : Request) →
    Decidable (mq.Leaves inTime request waiting)
  | true, .receive _ type _, .receive _ type' _ =>
    inferInstanceAs (Decidable (¬ mq.Shaped ∨
      ∃ msg ∈ mq.messages.eraseP (Wanted type), Wanted type' msg = true))
  | true, .send .., .send .. | true, .send .., .receive .. | true, .receive .., .send .. =>
    inferInstanceAs (Decidable (mq.msgCount + 1 < mq.maxMsgs))
  | false, _, waiting => inferInstanceAs (Decidable (mq.Serves waiting))

/-- A queue and the tasks that use it. -/
structure MsgMonitor (n : Nat) where
  mq : MsgQueue
  monitor : Monitor n Request

inductive MsgEvent (n : Nat) where
  | call (t : Fin n) (request : Request)
  | retest (t : Fin n) (inTime : Bool)

namespace MsgMonitor

/-- Nobody has called yet. -/
def start (sys : TaskSys n) (mq : MsgQueue) : MsgMonitor n := { mq, monitor := .start sys }

/-- The control block of a task. -/
def task (s : MsgMonitor n) (t : Fin n) : Task n := s.monitor.sys.taskList t

/-- The call of `t` after a pass. A call that is done signals the other side. -/
def finish (s : MsgMonitor n) (t : Fin n) (request : Request) (mq : MsgQueue) :
    Outcome → Option (MsgMonitor n)
  | .done _ => some { mq, monitor := (s.monitor.settle t none).signal request.side.other }
  | .fails => some { mq, monitor := s.monitor.settle t none }
  | .waits => (s.monitor.wait t request.side request).map fun monitor => { mq, monitor }

/-- One pass of the call `t` is in. -/
def pass (s : MsgMonitor n) (t : Fin n) : Request → Option (MsgMonitor n)
  | .send msg timeout =>
    let (mq, outcome) := msgqSend s.mq msg timeout
    s.finish t (.send msg timeout) mq outcome
  | .receive size type timeout =>
    (msgqReceive s.mq size type timeout).bind fun (mq, outcome) =>
      s.finish t (.receive size type timeout) mq outcome

/-- One critical section. -/
def step (s : MsgMonitor n) : MsgEvent n → Option (MsgMonitor n)
  | .call t request =>
    if (s.task t).state = .ready ∧ (s.monitor.calls t).isNone ∧ request.timeout ≠ 0 then
      s.pass t request
    else none
  | .retest t inTime =>
    if (s.task t).state = .ready then
      (s.monitor.calls t).bind fun request =>
        if inTime then s.pass t request else some { s with monitor := s.monitor.settle t none }
    else none

/-- **No wake-up is lost**: when a task waits for what the queue has, some task was signalled
on that condition, and has not tested since. -/
def Wakes (s : MsgMonitor n) : Prop := s.monitor.Wakes Request.side s.mq.Serves

/-- Another task was signalled, or nobody who sleeps could go on with what is left. -/
def Spares (s : MsgMonitor n) (t : Fin n) (inTime : Bool) (request : Request) : Prop :=
  (∃ u, u ≠ t ∧ s.monitor.Woken Request.side request.side u) ∨
    ∀ u, (s.task u).state = .blocked → ∀ waiting ∈ s.monitor.calls u,
      waiting.side = request.side → ¬ s.mq.Leaves inTime request waiting

instance (s : MsgMonitor n) (t : Fin n) (inTime : Bool) (request : Request) :
    Decidable (s.Spares t inTime request) :=
  inferInstanceAs (Decidable (_ ∨ _))

/-- A task that was signalled spares those that sleep; without room for a header in the slots
every task does. -/
def SharesNothing (s : MsgMonitor n) : MsgEvent n → Prop
  | .call t request => s.monitor.woken t = true ∨ ¬ s.mq.Shaped → s.Spares t true request
  | .retest t inTime => ∀ request ∈ s.monitor.calls t,
      s.monitor.woken t = true ∨ ¬ s.mq.Shaped → s.Spares t inTime request

instance (s : MsgMonitor n) : (a : MsgEvent n) → Decidable (s.SharesNothing a)
  | .call t _ => inferInstanceAs (Decidable (s.monitor.woken t = true ∨ ¬ s.mq.Shaped → _))
  | .retest t _ => inferInstanceAs (Decidable (∀ request ∈ s.monitor.calls t, _))

/-! ### One pass -/

section Pass

variable {mq mq' : MsgQueue} {size type type' timeout : Nat} {msg : Message}

/-- The count and the positions are in step; with slots that hold a header, the queue holds
its messages. -/
structure Kept (mq : MsgQueue) : Prop where
  slots_lt : mq.maxMsgs < 2 ^ 32
  count_le : mq.msgCount ≤ mq.maxMsgs
  holds : mq.Shaped → Holds mq mq.messages

theorem kept_newQueue {key : Int} {maxMsgs maxSize : Nat} {buffer : Bytes}
    (slots_lt : maxMsgs < 2 ^ 32) : Kept (newQueue key maxMsgs maxSize buffer) where
  slots_lt := slots_lt
  count_le := Nat.zero_le _
  holds h := newQueue_holds h.1 h.2.1

/-- What is left when a list that a queue holds fills the slots. -/
theorem messages_eq {pending : List Message} (h : Holds mq pending)
    (hfull : ∀ msg ∈ pending, msg.length = mq.maxSize) : mq.messages = pending := by
  have hcontents := h.contents
  unfold MsgQueue.messages
  have hslots : ∀ slot ∈ window (slotAt mq.maxSize mq.buffer) mq.maxMsgs mq.head mq.msgCount,
      slot.length = mq.maxSize := by
    intro slot hslot
    obtain ⟨i, -, rfl⟩ := List.mem_map.mp hslot
    exact readBytes_length
  generalize window (slotAt mq.maxSize mq.buffer) mq.maxMsgs mq.head mq.msgCount = slots
    at hcontents hslots
  clear h
  induction hcontents with
  | nil => rfl
  | @cons msg slot rest slots hprefix _ ih =>
    rw [List.forall_mem_cons] at hfull hslots
    rw [ih hfull.2 hslots.2, hprefix.eq_of_length (hfull.1.trans hslots.1.symm)]

theorem length_of_mem_messages (h : msg ∈ mq.messages) : msg.length = mq.maxSize := by
  obtain ⟨i, -, rfl⟩ := List.mem_map.mp h
  exact readBytes_length

/-- The search finds what is in the queue. -/
theorem serves_receive_iff (h : Holds mq mq.messages) :
    mq.Serves (.receive size type timeout) ↔ ∃ msg ∈ mq.messages, Wanted type msg = true := by
  have hsearch := h.search type (k := 0) (i := mq.msgCount) (by rw [h.count, Nat.zero_add])
  rw [index_zero h.head_lt, List.drop_zero] at hsearch
  simp only [MsgQueue.Serves, hsearch, Option.isSome_map, List.findIdx?_isSome, List.any_eq_true]

/-- **A pass** of `request` leaves the queue `mq'`. What this has for a call of the same side is
what was left, and was there before. -/
structure Passed (mq mq' : MsgQueue) (request : Request) : Prop where
  kept : Kept mq'
  slots : mq'.maxMsgs = mq.maxMsgs
  size : mq'.maxSize = mq.maxSize
  leaves : ∀ waiting, waiting.side = request.side → mq'.Serves waiting →
    mq.Leaves true request waiting
  exact : mq.Shaped → ∀ waiting, waiting.side = request.side →
    mq.Leaves true request waiting → mq'.Serves waiting
  before : mq.Shaped → ∀ waiting, waiting.side = request.side → mq'.Serves waiting →
    mq.Serves waiting

theorem Kept.send (h : Kept mq) (msg : Message) (htimeout : timeout ≠ 0) :
    ∃ mq' outcome, msgqSend mq msg timeout = (mq', outcome) ∧
      Passed mq mq' (.send msg timeout) ∧
      (outcome = .fails → mq' = mq) ∧
      (outcome = .waits → mq' = mq ∧ ∀ waiting : Request, waiting.side = .notFull →
        ¬ mq.Serves waiting) := by
  have hcount := h.count_le
  have hslots := h.slots_lt
  by_cases hfull : mq.maxMsgs ≤ mq.msgCount
  · refine ⟨mq, .waits, by rw [msgqSend, if_pos hfull, if_neg htimeout], ?_, fun _ => rfl,
      fun _ => ⟨rfl, ?_⟩⟩
    · refine ⟨h, rfl, rfl, ?_, ?_, fun _ _ _ hserves => hserves⟩
      · rintro (⟨_, _⟩ | _) hside hserves
        · simp only [MsgQueue.Serves] at hserves
          omega
        · cases hside
      · rintro - (⟨_, _⟩ | _) hside hleaves
        · simp only [MsgQueue.Leaves] at hleaves
          omega
        · cases hside
    · rintro (⟨_, _⟩ | _) hside hserves
      · simp only [MsgQueue.Serves] at hserves
        omega
      · cases hside
  · have hsucc : wrap32 (mq.msgCount + 1) = mq.msgCount + 1 := wrap32_of_lt (by omega)
    refine ⟨_, .done [], by rw [msgqSend, if_neg hfull], ?_, (by rintro ⟨⟩),
      (by rintro ⟨⟩)⟩
    refine ⟨⟨hslots, ?_, ?_⟩, rfl, rfl, ?_, ?_, ?_⟩
    · simp only [hsucc]
      omega
    · -- Whatever its size, the message changes bytes of the buffer only.
      intro hshaped
      have hholds := h.holds hshaped
      refine
        { slots := hholds.slots
          fits := hholds.fits
          head_lt := hholds.head_lt
          count := by rw [MsgQueue.messages, window_length]
          count_le := by
            simp only [hsucc]
            omega
          tail := ?_
          sizes := fun m hm => ?_
          contents := List.forall₂_same.mpr fun _ _ => List.prefix_rfl }
      · simp only [hsucc, hholds.tail]
        exact hholds.next hshaped.2.2
      · rw [length_of_mem_messages hm]
        exact ⟨hshaped.2.2, le_rfl⟩
    · rintro (⟨_, _⟩ | _) hside hserves
      · simpa only [MsgQueue.Serves, MsgQueue.Leaves, hsucc] using hserves
      · cases hside
    · rintro - (⟨_, _⟩ | _) hside hleaves
      · simpa only [MsgQueue.Serves, MsgQueue.Leaves, hsucc] using hleaves
      · cases hside
    · rintro - (⟨_, _⟩ | _) hside hserves
      · simp only [MsgQueue.Serves, hsucc] at hserves ⊢
        omega
      · cases hside

/-- The three ways a receive ends. -/
theorem receive_cases {outcome : Outcome} (htimeout : timeout ≠ 0)
    (h : msgqReceive mq size type timeout = some (mq', outcome)) :
    (mq.msgCount = 0 ∧ mq' = mq ∧ outcome = .waits) ∨
    (searchLoop mq type mq.msgCount mq.head = none ∧ mq' = mq ∧ outcome = .fails) ∨
    (mq.msgCount ≠ 0 ∧ mq'.maxMsgs = mq.maxMsgs ∧ mq'.maxSize = mq.maxSize ∧
      mq'.msgCount = sub32 mq.msgCount 1 ∧ ∃ bytes, outcome = .done bytes) := by
  unfold msgqReceive at h
  split at h
  · rename_i hempty
    cases h
    exact .inl ⟨hempty, rfl, rfl⟩
  · rename_i hcount
    split at h
    · rename_i hnone
      cases h
      exact .inr (.inl ⟨hnone, rfl, rfl⟩)
    · obtain ⟨buffer, -, he⟩ := Option.map_eq_some_iff.mp h
      cases he
      exact .inr (.inr ⟨hcount, rfl, rfl, rfl, _, rfl⟩)

/-- With slots that hold a header, a receive that is done took out the first message wanted. -/
theorem receive_done {bytes : List (BitVec 8)} (h : Holds mq mq.messages)
    (hdone : msgqReceive mq size type timeout = some (mq', .done bytes)) :
    mq'.messages = mq.messages.eraseP (Wanted type) ∧ Holds mq' mq'.messages := by
  cases hfind : mq.messages.findIdx? (Wanted type) with
  | none =>
    have hunmatched := h.answers.unmatched size type timeout fun m hm => by
      simpa using List.findIdx?_eq_none_iff.mp hfind m hm
    rw [hdone] at hunmatched
    injection hunmatched with hunmatched
    injection hunmatched with _ houtcome
    split at houtcome <;> cases houtcome
  | some k =>
    obtain ⟨hlt, -⟩ := List.findIdx?_eq_some_iff_getElem.mp hfind
    obtain ⟨mq₁, hreceive, hholds, hsize, -, -⟩ := h.receive_some size timeout hfind hlt
    cases hdone.symm.trans hreceive
    have hfull : mq'.messages = mq.messages.eraseIdx k := by
      apply messages_eq hholds
      intro m hm
      rw [hsize]
      exact length_of_mem_messages (List.mem_of_mem_eraseIdx hm)
    have herase : mq.messages.eraseP (Wanted type) = mq.messages.eraseIdx k := by
      rw [List.eraseP_eq_eraseIdx, hfind]
    rw [herase, hfull]
    exact ⟨rfl, hholds⟩

/-- A receiver that finds nothing for it takes nothing. -/
theorem Kept.unmatched (h : Kept mq) (size timeout : Nat)
    (hnone : searchLoop mq type mq.msgCount mq.head = none) :
    Passed mq mq (.receive size type timeout) := by
  have hkept : mq.Shaped → mq.messages.eraseP (Wanted type) = mq.messages := fun hshaped => by
    apply List.eraseP_of_forall_not
    intro m hm hwanted
    have hserves : mq.Serves (.receive size type timeout) :=
      (serves_receive_iff (h.holds hshaped)).mpr ⟨m, hm, hwanted⟩
    rw [MsgQueue.Serves, hnone] at hserves
    cases hserves
  refine ⟨h, rfl, rfl, ?_, ?_, fun _ _ _ hserves => hserves⟩
  · rintro (_ | ⟨size', type', timeout'⟩) hside hserves
    · cases hside
    · by_cases hshaped : mq.Shaped
      · refine .inr ?_
        rw [hkept hshaped]
        exact (serves_receive_iff (h.holds hshaped)).mp hserves
      · exact .inl hshaped
  · rintro hshaped (_ | ⟨size', type', timeout'⟩) hside hleaves
    · cases hside
    · have hfound := hleaves.resolve_left fun hnot => hnot hshaped
      rw [hkept hshaped] at hfound
      exact (serves_receive_iff (h.holds hshaped)).mpr hfound

/-- A receiver that finds a message takes the first one. -/
theorem Kept.matched (h : Kept mq) {bytes : List (BitVec 8)} (hcount : mq.msgCount ≠ 0)
    (hslots : mq'.maxMsgs = mq.maxMsgs) (hsize : mq'.maxSize = mq.maxSize)
    (hleft : mq'.msgCount = sub32 mq.msgCount 1)
    (hreceive : msgqReceive mq size type timeout = some (mq', .done bytes)) :
    Passed mq mq' (.receive size type timeout) := by
  have hshape : mq'.Shaped ↔ mq.Shaped := by rw [MsgQueue.Shaped, hslots, hsize, MsgQueue.Shaped]
  have hcount_le := h.count_le
  have hslots_lt := h.slots_lt
  rw [sub32_of_le (by omega) (by omega)] at hleft
  have hafter : mq.Shaped → ∀ waiting : Request, waiting.side = .notEmpty →
      (mq'.Serves waiting ↔ mq.Leaves true (.receive size type timeout) waiting) := by
    rintro hshaped (_ | ⟨size', type', timeout'⟩) hside
    · cases hside
    · obtain ⟨hmessages, hholds⟩ := receive_done (h.holds hshaped) hreceive
      rw [serves_receive_iff hholds, hmessages]
      exact (or_iff_right fun hnot => hnot hshaped).symm
  refine
    { kept :=
        { slots_lt := by omega
          count_le := by omega
          holds := fun hshaped => (receive_done (h.holds (hshape.mp hshaped)) hreceive).2 }
      slots := hslots
      size := hsize
      leaves := fun waiting hside hserves => ?_
      exact := fun hshaped waiting hside hleaves => (hafter hshaped waiting hside).mpr hleaves
      before := fun hshaped waiting hside hserves => ?_ }
  · by_cases hshaped : mq.Shaped
    · exact (hafter hshaped waiting hside).mp hserves
    · cases waiting with
      | send _ _ => cases hside
      | receive _ _ _ => exact .inl hshaped
  · have hleaves := (hafter hshaped waiting hside).mp hserves
    cases waiting with
    | send _ _ => cases hside
    | receive size' type' timeout' =>
      obtain ⟨m, hm, hwanted⟩ := hleaves.resolve_left fun hnot => hnot hshaped
      exact (serves_receive_iff (h.holds hshaped)).mpr ⟨m, List.mem_of_mem_eraseP hm, hwanted⟩

theorem Kept.receive {outcome : Outcome} (h : Kept mq) (htimeout : timeout ≠ 0)
    (hreceive : msgqReceive mq size type timeout = some (mq', outcome)) :
    Passed mq mq' (.receive size type timeout) ∧ (outcome = .fails → mq' = mq) ∧
      (outcome = .waits → mq' = mq ∧ ∀ waiting : Request, waiting.side = .notEmpty →
        ¬ mq.Serves waiting) := by
  rcases receive_cases htimeout hreceive with
    ⟨hempty, rfl, rfl⟩ | ⟨hnone, rfl, rfl⟩ | ⟨hcount, hslots, hsize, hleft, bytes, rfl⟩
  · -- An empty queue has nothing for anybody.
    have hsearch : ∀ type, searchLoop mq' type mq'.msgCount mq'.head = none := fun type => by
      rw [hempty, searchLoop]
    refine ⟨h.unmatched size timeout (hsearch type), fun _ => rfl, fun _ => ⟨rfl, ?_⟩⟩
    rintro (_ | ⟨size', type', timeout'⟩) hside hserves
    · cases hside
    · rw [MsgQueue.Serves, hsearch] at hserves
      cases hserves
  · exact ⟨h.unmatched size timeout hnone, fun _ => rfl, by rintro ⟨⟩⟩
  · exact ⟨h.matched hcount hslots hsize hleft hreceive, by rintro ⟨⟩, by rintro ⟨⟩⟩

end Pass

/-! ### One step -/

/-- The tasks stand in their lines, and the queue is in order. -/
structure Inv (s : MsgMonitor n) (line : Condition → List (Fin n)) : Prop where
  lines : s.monitor.Lines Request.side line
  kept : Kept s.mq
  timeouts : ∀ t request, s.monitor.calls t = some request → request.timeout ≠ 0

theorem start_inv (sys : TaskSys n) {mq : MsgQueue} (h : Kept mq) :
    Inv (start sys mq) fun _ => [] where
  lines := Monitor.lines_start sys
  kept := h
  timeouts := fun _ _ h => by cases h

section Step

variable {s s' : MsgMonitor n} {mq' : MsgQueue} {line : Condition → List (Fin n)} {t : Fin n}
  {request : Request}

/-- The condition of `request` keeps its wake-up when `t` has tested. -/
def KeepsOwn (s : MsgMonitor n) (t : Fin n) (c : Condition) (line : List (Fin n)) (mq' : MsgQueue) :
    Prop :=
  (∃ u, u ≠ t ∧ s.monitor.Woken Request.side c u) ∨ Monitor.Idle s.monitor line mq'.Serves

/-- A task that was not signalled takes no wake-up with it. -/
theorem Inv.other_woken (h : Inv s line) (hwakes : s.Wakes) (c : Condition)
    (ht : ¬ s.monitor.Woken Request.side c t) : KeepsOwn s t c (line c) s.mq := by
  apply ((h.lines.wakes_iff.mp hwakes) c).imp_left
  rintro ⟨u, hu⟩
  refine ⟨u, ?_, hu⟩
  rintro rfl
  exact ht hu

/-- A task that spares the others keeps the wake-up, and with slots that hold a header no other
does. -/
theorem Inv.keepsOwn (h : Inv s line) (hwakes : s.Wakes) (t : Fin n) (inTime : Bool)
    (request : Request) (mq' : MsgQueue)
    (hleaves : ∀ waiting, waiting.side = request.side → mq'.Serves waiting →
      s.mq.Leaves inTime request waiting)
    (hexact : s.mq.Shaped → ∀ waiting, waiting.side = request.side →
      s.mq.Leaves inTime request waiting → mq'.Serves waiting)
    (hbefore : s.mq.Shaped → ∀ waiting, waiting.side = request.side → mq'.Serves waiting →
      s.mq.Serves waiting) :
    ((s.monitor.woken t = true ∨ ¬ s.mq.Shaped → s.Spares t inTime request) →
      KeepsOwn s t request.side (line request.side) mq') ∧
    (s.mq.Shaped → KeepsOwn s t request.side (line request.side) mq' →
      s.Spares t inTime request) := by
  constructor
  · intro hspares
    by_cases hcase : s.monitor.woken t = true ∨ ¬ s.mq.Shaped
    · apply (hspares hcase).imp_right
      intro hnobody
      rw [h.lines.idle_iff]
      intro u hblocked waiting hcall hside hserves
      exact hnobody u hblocked waiting hcall hside (hleaves waiting hside hserves)
    · rw [not_or, not_not] at hcase
      refine (h.other_woken hwakes request.side fun hwoken => hcase.1 hwoken.1).imp_right ?_
      simp only [h.lines.idle_iff]
      intro hidle u hblocked waiting hcall hside hserves
      exact hidle u hblocked waiting hcall hside (hbefore hcase.2 waiting hside hserves)
  · intro hshaped hkeeps
    apply hkeeps.imp_right
    intro hidle u hblocked waiting hcall hside hleft
    rw [h.lines.idle_iff] at hidle
    exact hidle u hblocked waiting hcall hside (hexact hshaped waiting hside hleft)

/-- A task in `request`, or in no call, was signalled on no other condition. -/
theorem not_woken_other (hcall : s.monitor.calls t = none ∨ s.monitor.calls t = some request)
    {c : Condition} (hc : c ≠ request.side) : ¬ s.monitor.Woken Request.side c t := by
  rintro ⟨-, request', hcall', hside⟩
  rcases hcall with hcall | hcall
  · rw [hcall] at hcall'
    cases hcall'
  · rw [hcall] at hcall'
    cases hcall'
    exact hc hside.symm

/-- **A call ends, and signals nobody.** -/
theorem Inv.fails (h : Inv s line) (hwakes : s.Wakes) (hready : (s.task t).state = .ready)
    (hcall : s.monitor.calls t = none ∨ s.monitor.calls t = some request) :
    Inv { s with monitor := s.monitor.settle t none } line ∧
      (Wakes { s with monitor := s.monitor.settle t none } ↔
        KeepsOwn s t request.side (line request.side) s.mq) := by
  have ht := h.lines.notMem_of_ready hready
  refine ⟨⟨h.lines.settle ht hready none, h.kept, ?_⟩, ?_⟩
  · intro u request' hu
    by_cases hut : u = t
    · subst hut
      simp [Monitor.settle] at hu
    · exact h.timeouts u request' (by simpa [Monitor.settle, hut] using hu)
  · unfold Wakes
    rw [h.lines.wakes_settle_iff ht hready]
    refine ⟨fun hall => hall request.side, ?_⟩
    intro hkeeps c
    by_cases hc : c = request.side
    · rw [hc]
      exact hkeeps
    · exact h.other_woken hwakes c (not_woken_other hcall hc)

/-- **A call is done.** The other side has its wake-up. -/
theorem Inv.done (h : Inv s line) (hready : (s.task t).state = .ready) (request : Request)
    (hkept : Kept mq') :
    (∃ line', Inv ⟨mq', (s.monitor.settle t none).signal request.side.other⟩ line') ∧
      (Wakes ⟨mq', (s.monitor.settle t none).signal request.side.other⟩ ↔
        KeepsOwn s t request.side (line request.side) mq') := by
  have ht := h.lines.notMem_of_ready hready
  refine ⟨⟨_, (h.lines.settle ht hready none).signal _, hkept, ?_⟩,
    h.lines.wakes_settle_signal_iff ht hready none request.side⟩
  · intro u request' hu
    rw [Monitor.calls_signal] at hu
    by_cases hut : u = t
    · subst hut
      simp [Monitor.settle] at hu
    · exact h.timeouts u request' (by simpa [Monitor.settle, hut] using hu)

/-- **A call waits.** There is nothing for anybody in its line. -/
theorem Inv.waits (h : Inv s line) (hwakes : s.Wakes) (hready : (s.task t).state = .ready)
    (htimeout : request.timeout ≠ 0)
    (hcall : s.monitor.calls t = none ∨ s.monitor.calls t = some request)
    (hnothing : ∀ waiting : Request, waiting.side = request.side → ¬ s.mq.Serves waiting) :
    ∃ m', s.monitor.wait t request.side request = some m' ∧ (∃ line', Inv ⟨s.mq, m'⟩ line') ∧
      Wakes ⟨s.mq, m'⟩ ∧ KeepsOwn s t request.side (line request.side) s.mq := by
  have ht := h.lines.notMem_of_ready hready
  have hside : Request.side request = request.side := rfl
  obtain ⟨m', hwait, hlines, hcalls, -⟩ := h.lines.wait ht hside
  obtain ⟨m₁, hwait₁, -, hiff⟩ := h.lines.wakes_wait_iff s.mq.Serves ht hside
  cases hwait.symm.trans hwait₁
  have hidle : Monitor.Idle s.monitor (line request.side) s.mq.Serves := by
    rw [h.lines.idle_iff]
    exact fun u _ waiting _ hside => hnothing waiting hside
  refine ⟨m', hwait, ⟨_, hlines, h.kept, ?_⟩, hiff.mpr ?_,
    .inr hidle⟩
  · intro u request' hu
    rw [hcalls] at hu
    by_cases hut : u = t
    · subst hut
      rw [Function.update_self] at hu
      cases hu
      exact htimeout
    · exact h.timeouts u request' (by rwa [Function.update_of_ne hut] at hu)
  · intro c
    by_cases hc : c = request.side
    · subst hc
      exact .inr ⟨hidle, fun _ => hnothing request rfl⟩
    · exact (h.other_woken hwakes c (not_woken_other hcall hc)).imp_right fun hidle =>
        ⟨hidle, fun e => absurd e hc⟩

/-- What a step does to the tasks and to the wake-ups. -/
structure Stepped (s s' : MsgMonitor n) (shares : Prop) : Prop where
  inv : ∃ line', Inv s' line'
  slots : s'.mq.maxMsgs = s.mq.maxMsgs
  size : s'.mq.maxSize = s.mq.maxSize
  keeps : shares → s'.Wakes
  exact : s.mq.Shaped → s'.Wakes → shares

/-- **The end of a pass.** -/
theorem Inv.finish (h : Inv s line) (hwakes : s.Wakes) (hready : (s.task t).state = .ready)
    (htimeout : request.timeout ≠ 0)
    (hcall : s.monitor.calls t = none ∨ s.monitor.calls t = some request) {outcome : Outcome}
    (hpassed : Passed s.mq mq' request) (hfails : outcome = .fails → mq' = s.mq)
    (hwaits : outcome = .waits → mq' = s.mq ∧ ∀ waiting : Request,
      waiting.side = request.side → ¬ s.mq.Serves waiting)
    (hfinish : s.finish t request mq' outcome = some s') :
    Stepped s s' (s.monitor.woken t = true ∨ ¬ s.mq.Shaped → s.Spares t true request) := by
  obtain ⟨hkeeps, hexact⟩ := h.keepsOwn hwakes t true request mq' hpassed.leaves
    hpassed.exact hpassed.before
  -- However the pass ends, the wake-up of this side is left to check.
  have hwhole : (∃ line', Inv s' line') ∧ s'.mq = mq' ∧
      (s'.Wakes ↔ KeepsOwn s t request.side (line request.side) mq') := by
    cases outcome with
    | done bytes =>
      cases hfinish
      obtain ⟨hinv, hiff⟩ := h.done hready request hpassed.kept
      exact ⟨hinv, rfl, hiff⟩
    | fails =>
      cases hfinish
      obtain rfl := hfails rfl
      obtain ⟨hinv, hiff⟩ := h.fails hwakes hready hcall
      exact ⟨⟨line, hinv⟩, rfl, hiff⟩
    | waits =>
      obtain ⟨rfl, hnothing⟩ := hwaits rfl
      obtain ⟨m', hwait, hinv, hkept, hown⟩ := h.waits hwakes hready htimeout hcall hnothing
      rw [MsgMonitor.finish, hwait] at hfinish
      cases hfinish
      exact ⟨hinv, rfl, iff_of_true hkept hown⟩
  obtain ⟨hinv, rfl, hiff⟩ := hwhole
  exact
    { inv := hinv
      slots := hpassed.slots
      size := hpassed.size
      keeps := fun hspares => hiff.mpr (hkeeps hspares)
      exact := fun hshaped hkept _ => hexact hshaped (hiff.mp hkept) }

/-- **A pass.** -/
theorem Inv.pass (h : Inv s line) (hwakes : s.Wakes) (hready : (s.task t).state = .ready)
    (htimeout : request.timeout ≠ 0)
    (hcall : s.monitor.calls t = none ∨ s.monitor.calls t = some request)
    (hpass : s.pass t request = some s') :
    Stepped s s' (s.monitor.woken t = true ∨ ¬ s.mq.Shaped → s.Spares t true request) := by
  cases request with
  | send msg timeout =>
    have htimeout' : timeout ≠ 0 := htimeout
    obtain ⟨mq', outcome, hsend, hpassed, hfails, hwaits⟩ := h.kept.send msg htimeout'
    rw [MsgMonitor.pass, hsend] at hpass
    exact h.finish hwakes hready htimeout hcall hpassed hfails hwaits hpass
  | receive size type timeout =>
    obtain ⟨⟨mq', outcome⟩, hreceive, hfinish⟩ := Option.bind_eq_some_iff.mp hpass
    obtain ⟨hpassed, hfails, hwaits⟩ := h.kept.receive htimeout hreceive
    exact h.finish hwakes hready htimeout hcall hpassed hfails hwaits hfinish

/-- **Step.** -/
theorem Inv.step {a : MsgEvent n} (h : Inv s line) (hwakes : s.Wakes)
    (hstep : s.step a = some s') : Stepped s s' (s.SharesNothing a) := by
  cases a with
  | call t request =>
    simp only [MsgMonitor.step] at hstep
    split at hstep
    · rename_i hguard
      exact h.pass hwakes hguard.1 hguard.2.2 (.inl (Option.isNone_iff_eq_none.mp hguard.2.1))
        hstep
    · cases hstep
  | retest t inTime =>
    simp only [MsgMonitor.step] at hstep
    split at hstep
    · rename_i hready
      obtain ⟨request, hcall, hpass⟩ := Option.bind_eq_some_iff.mp hstep
      have honly : s.SharesNothing (.retest t inTime) ↔
          (s.monitor.woken t = true ∨ ¬ s.mq.Shaped → s.Spares t inTime request) := by
        constructor
        · exact fun hall => hall request hcall
        · intro hthis other hother
          cases hcall.symm.trans hother
          exact hthis
      cases inTime with
      | true =>
        rw [if_pos rfl] at hpass
        have hstepped := h.pass hwakes hready (h.timeouts t request hcall) (.inr hcall) hpass
        exact
          { inv := hstepped.inv
            slots := hstepped.slots
            size := hstepped.size
            keeps := fun hshares => hstepped.keeps (honly.mp hshares)
            exact := fun hshaped hkept => honly.mpr (hstepped.exact hshaped hkept) }
      | false =>
        -- The queue stays as it is, and so does what it has for the others.
        cases hpass
        obtain ⟨hinv, hiff⟩ := h.fails hwakes hready (.inr hcall)
        obtain ⟨hkeeps, hexact⟩ := h.keepsOwn hwakes t false request s.mq
          (fun _ _ hserves => hserves) (fun _ _ _ hserves => hserves)
          (fun _ _ _ hserves => hserves)
        exact
          { inv := ⟨line, hinv⟩
            slots := rfl
            size := rfl
            keeps := fun hshares => hiff.mpr (hkeeps (honly.mp hshares))
            exact := fun hshaped hkept => honly.mpr fun _ => hexact hshaped (hiff.mp hkept) }
    · cases hstep

end Step

/-! ### Runs -/

/-- **No wake-up is lost** in the runs in which a task that was signalled spares those that
sleep; and when the slots of the queue hold a header, in no others. -/
theorem msg_wakes (sys : TaskSys n) (key : Int) (maxMsgs maxSize : Nat) (buffer : Bytes)
    (slots_lt : maxMsgs < 2 ^ 32) (as : List (MsgEvent n)) :
    (Meets step SharesNothing (start sys (newQueue key maxMsgs maxSize buffer)) as →
      Along step Wakes (start sys (newQueue key maxMsgs maxSize buffer)) as) ∧
    ((newQueue key maxMsgs maxSize buffer).Shaped →
      Along step Wakes (start sys (newQueue key maxMsgs maxSize buffer)) as →
        Meets step SharesNothing (start sys (newQueue key maxMsgs maxSize buffer)) as) := by
  have hstart : (∃ line, Inv (start sys (newQueue key maxMsgs maxSize buffer)) line) ∧
      Wakes (start sys (newQueue key maxMsgs maxSize buffer)) :=
    ⟨⟨_, start_inv sys (kept_newQueue slots_lt)⟩, fun _ _ _ hline => by cases hline⟩
  constructor
  · intro hmeets
    have hinv := along_of_meets (I := fun s : MsgMonitor n => (∃ line, Inv s line) ∧ s.Wakes)
      (fun s a s' ⟨⟨line, h⟩, hwakes⟩ hok hstep =>
        have hstepped := h.step hwakes hstep
        ⟨hstepped.inv, hstepped.keeps hok⟩) hstart hmeets
    exact hinv.mono fun _ h => h.2
  · intro hshaped
    refine (along_iff_meets
      (I := fun s : MsgMonitor n => s.mq.Shaped ∧ (∃ line, Inv s line) ∧ s.Wakes)
      (fun _ h => h.2.2) ?_ ?_ ⟨hshaped, hstart⟩ as).mp
    · rintro s a s' ⟨hshaped, ⟨line, h⟩, hwakes⟩ hok hstep
      have hstepped := h.step hwakes hstep
      refine ⟨?_, hstepped.inv, hstepped.keeps hok⟩
      rwa [MsgQueue.Shaped, hstepped.slots, hstepped.size]
    · rintro s a s' ⟨hshaped, ⟨line, h⟩, hwakes⟩ hbad hstep hkept
      exact hbad ((h.step hwakes hstep).exact hshaped hkept)

/-- A message of a type, without data. -/
def headerOf (type : BitVec 8) : Message := [type, 0, 0, 0, 0, 0, 0, 0]

/-- Two receivers of a type wait; the first is too late, when the queue is empty again. -/
theorem msg_wakes_short :
    Along step Wakes (start (readyTasks 3) (newQueue 5 2 8 fun _ => 0))
      [.call 0 (.receive 8 1 9), .call 1 (.receive 8 1 9), .call 2 (.send (headerOf 1) 9),
        .call 2 (.send (headerOf 2) 9), .retest 0 true, .retest 1 false] :=
  (msg_wakes (readyTasks 3) 5 2 8 (fun _ => 0) (by decide) _).1 (by decide)

/-- Two receivers wait, the first one for another type than the one sent. It takes the only
signal, finds nothing and returns -1; the second one sleeps next to its message, and nobody is
signalled. -/
theorem receiver_left_asleep : ∃ s,
    run step (start (readyTasks 3) (newQueue 5 2 8 fun _ => 0))
      [.call 0 (.receive 8 1 9), .call 1 (.receive 8 2 9), .call 2 (.send (headerOf 2) 9),
        .retest 0 true] = some s ∧
    InLine s.monitor.sys.taskList (s.monitor.waiting .notEmpty) 1 ∧
    s.monitor.calls 1 = some (.receive 8 2 9) ∧ s.mq.messages = [headerOf 2] ∧
    (∀ u, s.monitor.woken u = false) ∧ ¬ s.Wakes := by
  refine ⟨_, rfl, .here, rfl, by decide, by decide, fun hwakes => ?_⟩
  obtain ⟨u, hu, -⟩ := hwakes .notEmpty 1 _ .here rfl (by decide)
  revert hu u
  decide

end MsgMonitor

end ArmKernel.Ipc

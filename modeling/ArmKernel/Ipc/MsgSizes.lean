/-
Messages of any size (`src/msg_queue.c`).

The size of a message and the size a receiver asks for come from the callers, and the
queue compares neither with `max_size`. `Tracked` is a queue with, as history, the
messages that are pending in it; one step is a pass of `msgq_send` or `msgq_receive`.

`Intact` and `Safe` are what the queue owes its callers for any sizes. `InBounds` keeps a
step inside the memory of the buffer; among such runs `message_integrity` names the ones in
which nothing is overwritten and nothing leaks: a message that is stored is no larger
than a slot, and a receiver asks for the size of the message it takes.
-/
import ArmKernel.Ipc.MsgRuns

namespace ArmKernel.Ipc

open ArmKernel.Support

/-- The bytes `msgq_create` asked `malloc` for. -/
def MsgQueue.allocated (mq : MsgQueue) : Nat := wrap32 (mq.maxMsgs * mq.maxSize)

/-- How far behind the head the slot `current` is. -/
def MsgQueue.behindHead (mq : MsgQueue) (current : Nat) : Nat :=
  (current + (mq.maxMsgs - mq.head)) % mq.maxMsgs

/-- A queue and, as history, the messages pending in it, as they were sent. -/
structure Tracked where
  mq : MsgQueue
  pending : List Message

namespace Tracked

/-- A new queue. -/
def start (key : Int) (maxMsgs maxSize : Nat) (buffer : Bytes) : Tracked :=
  { mq := newQueue key maxMsgs maxSize buffer, pending := [] }

/-- The place in line of the message a receive for `type` takes. -/
def taken (s : Tracked) (type : Nat) : Option Nat :=
  (searchLoop s.mq type s.mq.msgCount s.mq.head).map s.mq.behindHead

/-- One pass of a call. -/
def step (s : Tracked) : Request → Option Tracked
  | .send msg timeout =>
    let (mq, outcome) := msgqSend s.mq msg timeout
    some { mq, pending := if outcome = .done [] then s.pending ++ [msg] else s.pending }
  | .receive size type timeout =>
    (msgqReceive s.mq size type timeout).map fun (mq, _) =>
      { mq, pending := (s.taken type).elim s.pending s.pending.eraseIdx }

/-- Every pending message is in its slot as it was sent. -/
def Intact (s : Tracked) : Prop :=
  s.mq.msgCount = s.pending.length ∧ ∀ i (hi : i < s.pending.length),
    readBytes s.mq.buffer (index s.mq.maxMsgs s.mq.head i * s.mq.maxSize) s.pending[i].length =
      s.pending[i]

/-- A message larger than `max_size` is rejected, and another one changes no memory outside
its own slot. A receiver gets the message that is removed, every byte of it and no other
byte. -/
def Safe (s : Tracked) : Request → Prop
  | .send msg timeout => (msgqSend s.mq msg timeout).2 = .done [] →
      msg.length ≤ s.mq.maxSize ∧
      ∀ b, (b < s.mq.tail * s.mq.maxSize ∨ s.mq.tail * s.mq.maxSize + s.mq.maxSize ≤ b ∨
        s.mq.allocated ≤ b) → (msgqSend s.mq msg timeout).1.buffer b = s.mq.buffer b
  | .receive size type timeout => ∀ mq bytes,
      msgqReceive s.mq size type timeout = some (mq, .done bytes) →
      ∃ k, s.taken type = some k ∧ s.pending[k]? = some bytes

/-- A message that finds room is no larger than a slot, and a receiver asks for the size
of the message it takes. -/
def Sized (s : Tracked) : Request → Prop
  | .send msg _ => s.mq.msgCount < s.mq.maxMsgs → msg.length ≤ s.mq.maxSize
  | .receive size type _ => ∀ k ∈ s.taken type, ∀ msg ∈ s.pending[k]?, msg.length = size

/-- A message that finds room ends inside the buffer. When a receive moves messages, it moves
them to slots inside the buffer, and the sum that steps back from a slot does not wrap. -/
def InBounds (s : Tracked) : Request → Prop
  | .send msg _ => s.mq.msgCount < s.mq.maxMsgs →
      s.mq.tail * s.mq.maxSize + msg.length ≤ s.mq.allocated
  | .receive _ type _ => ∀ k ∈ s.taken type, ∀ i < k,
      (index s.mq.maxMsgs s.mq.head (i + 1) + 1) * s.mq.maxSize ≤ s.mq.allocated ∧
      (index s.mq.maxMsgs s.mq.head (i + 1) = 0 ∨
        index s.mq.maxMsgs s.mq.head (i + 1) + s.mq.maxMsgs ≤ 2 ^ 32)

instance (s : Tracked) : (r : Request) → Decidable (s.Sized r)
  | .send msg _ => inferInstanceAs (Decidable (_ → msg.length ≤ s.mq.maxSize))
  | .receive size type _ =>
    inferInstanceAs (Decidable (∀ k ∈ s.taken type, ∀ msg ∈ s.pending[k]?, msg.length = size))

instance (s : Tracked) : (r : Request) → Decidable (s.InBounds r)
  | .send msg _ => inferInstanceAs (Decidable (_ →
      s.mq.tail * s.mq.maxSize + msg.length ≤ s.mq.allocated))
  | .receive _ type _ => inferInstanceAs (Decidable (∀ k ∈ s.taken type, ∀ i < k, _ ∧ (_ ∨ _)))

end Tracked

/-! ### Slots and messages -/

section Slots

variable {mq : MsgQueue} {msg : Message} {buffer buffer' : Bytes}
  {maxSize allocated type head c i j k n : Nat}

/-- A message at the front of slot `i`, inside a buffer of `allocated` bytes. -/
structure Stored (maxSize allocated : Nat) (buffer : Bytes) (i : Nat) (msg : Message) : Prop where
  le_slot : msg.length ≤ maxSize
  inside : i * maxSize + msg.length ≤ allocated
  bytes : readBytes buffer (i * maxSize) msg.length = msg

theorem MsgQueue.allocated_lt (mq : MsgQueue) : mq.allocated < 2 ^ 32 := wrap32_lt _

/-- The offset of the slot of a message does not wrap. -/
theorem Stored.offset (h : Stored maxSize allocated buffer i msg) (hlt : allocated < 2 ^ 32) :
    wrap32 (i * maxSize) = i * maxSize := by
  have hinside := h.inside
  exact wrap32_of_lt (by omega)

/-- Slots with the same contents hold the same message. -/
theorem Stored.front (h : Stored maxSize allocated buffer i msg)
    (hslot : slotAt maxSize buffer' j = slotAt maxSize buffer i) :
    readBytes buffer' (j * maxSize) msg.length = msg := by
  have hfront := congrArg (List.take msg.length) hslot
  rw [slotAt, slotAt, take_readBytes h.le_slot, take_readBytes h.le_slot] at hfront
  rw [hfront, h.bytes]

/-- A message is copied with its slot. -/
theorem Stored.move (h : Stored maxSize allocated buffer i msg)
    (hroom : (j + 1) * maxSize ≤ allocated)
    (hslot : slotAt maxSize buffer' j = slotAt maxSize buffer i) :
    Stored maxSize allocated buffer' j msg := by
  have hle := h.le_slot
  rw [Nat.succ_mul] at hroom
  exact ⟨hle, by omega, h.front hslot⟩

/-- A message stays where its slot does not change. -/
theorem Stored.keep (h : Stored maxSize allocated buffer i msg)
    (hslot : slotAt maxSize buffer' i = slotAt maxSize buffer i) :
    Stored maxSize allocated buffer' i msg :=
  ⟨h.le_slot, h.inside, h.front hslot⟩

/-- What the search finds is one of the slots it went through. -/
theorem searchLoop_slot (hslots : 0 < mq.maxMsgs) (hwords : mq.maxMsgs < 2 ^ 32)
    (h : searchLoop mq type n (index mq.maxMsgs mq.head k) = some c) :
    ∃ i, k ≤ i ∧ i < k + n ∧ c = index mq.maxMsgs mq.head i := by
  induction n generalizing k with
  | zero => cases h
  | succ n ih =>
    rw [searchLoop] at h
    split at h
    · cases h
      exact ⟨k, Nat.le_refl k, by omega, rfl⟩
    · rw [next_slot hslots hwords] at h
      obtain ⟨i, hlo, hhi, hc⟩ := ih h
      exact ⟨i, by omega, by omega, hc⟩

/-- The slot `k` places behind the head is that far behind it. -/
theorem behindHead_index (hhead : mq.head < mq.maxMsgs) (hk : k < mq.maxMsgs) :
    mq.behindHead (index mq.maxMsgs mq.head k) = k := by
  rw [MsgQueue.behindHead, index, Nat.mod_add_mod, Nat.add_right_comm,
    Nat.add_sub_cancel' (Nat.le_of_lt hhead), Nat.add_mod_left, Nat.mod_eq_of_lt hk]

end Slots

/-! ### One step -/

namespace Tracked

/-- The pending messages are in the slots from the head on, each inside the buffer. -/
structure Keeps (s : Tracked) : Prop where
  words : s.mq.maxMsgs < 2 ^ 32
  head_lt : 0 < s.mq.maxMsgs → s.mq.head < s.mq.maxMsgs
  count : s.mq.msgCount = s.pending.length
  count_le : s.pending.length ≤ s.mq.maxMsgs
  tail : s.mq.tail = index s.mq.maxMsgs s.mq.head s.pending.length
  stored : ∀ i (hi : i < s.pending.length),
    Stored s.mq.maxSize s.mq.allocated s.mq.buffer (index s.mq.maxMsgs s.mq.head i) s.pending[i]

variable {s s' : Tracked} {msg : Message} {size type timeout k : Nat} {r : Request}

theorem start_keeps {key : Int} {maxMsgs maxSize : Nat} {buffer : Bytes}
    (words : maxMsgs < 2 ^ 32) : Keeps (start key maxMsgs maxSize buffer) where
  words := words
  head_lt := id
  count := rfl
  count_le := Nat.zero_le _
  tail := (Nat.zero_mod _).symm
  stored := by simp [start]

theorem Keeps.intact (h : s.Keeps) : s.Intact := ⟨h.count, fun i hi => (h.stored i hi).bytes⟩

/-- A send that finds the queue full changes nothing. -/
theorem Keeps.send_full (h : s.Keeps) (full : s.mq.maxMsgs ≤ s.pending.length) (msg : Message)
    (timeout : Nat) : msgqSend s.mq msg timeout = (s.mq, if timeout = 0 then .fails else .waits) := by
  rw [msgqSend, if_pos (by rw [h.count]; exact full)]

/-- The offset a send inside the buffer stores its message at. -/
theorem tail_offset (hin : s.mq.tail * s.mq.maxSize + msg.length ≤ s.mq.allocated) :
    wrap32 (s.mq.tail * s.mq.maxSize) = s.mq.tail * s.mq.maxSize := by
  have hlt := s.mq.allocated_lt
  exact wrap32_of_lt (by omega)

/-- **Send.** A message that fits in its slot goes behind the others and leaves them alone. -/
theorem Keeps.send (h : s.Keeps) (room : s.pending.length < s.mq.maxMsgs)
    (hle : msg.length ≤ s.mq.maxSize)
    (hin : s.mq.tail * s.mq.maxSize + msg.length ≤ s.mq.allocated)
    (hstep : s.step (.send msg timeout) = some s') : s'.Keeps := by
  have hcount := h.count
  have hwords := h.words
  have hslots : 0 < s.mq.maxMsgs := by omega
  simp only [step, msgqSend, if_neg (by omega : ¬ s.mq.maxMsgs ≤ s.mq.msgCount), if_pos,
    tail_offset hin, wrap32_of_lt (by omega : s.mq.msgCount + 1 < 2 ^ 32)] at hstep
  cases hstep
  refine ⟨hwords, h.head_lt, ?_, ?_, ?_, ?_⟩
  · simp [hcount]
  · simpa using Nat.succ_le_of_lt room
  · simp only [h.tail, List.length_append, List.length_singleton]
    exact next_slot hslots hwords
  · intro i hi
    simp only [List.length_append, List.length_singleton] at hi
    by_cases hnew : i < s.pending.length
    · rw [List.getElem_append_left hnew]
      apply (h.stored i hnew).keep
      apply slotAt_storeBytes_of_ne _ hle
      rw [h.tail]
      intro heq
      have := index_inj (by omega) room heq
      omega
    · have hi : i = s.pending.length := by omega
      subst hi
      rw [List.getElem_concat_length rfl, ← h.tail]
      exact ⟨hle, hin, readBytes_storeBytes_self _ _ _⟩

/-! ### Receiving -/

/-- The message a receive takes is one of those pending. -/
theorem Keeps.taken_spec (h : s.Keeps) (htaken : s.taken type = some k) :
    k < s.pending.length ∧
      searchLoop s.mq type s.mq.msgCount s.mq.head = some (index s.mq.maxMsgs s.mq.head k) := by
  obtain ⟨c, hsearch, rfl⟩ := Option.map_eq_some_iff.mp htaken
  have hcount := h.count
  have hcount_le := h.count_le
  have hne : s.mq.msgCount ≠ 0 := by
    intro hzero
    rw [hzero] at hsearch
    cases hsearch
  have hslots : 0 < s.mq.maxMsgs := by omega
  obtain ⟨i, -, hi, rfl⟩ := searchLoop_slot (k := 0) hslots h.words
    (by rwa [index_zero (h.head_lt hslots)])
  rw [behindHead_index (h.head_lt hslots) (by omega)]
  exact ⟨by omega, hsearch⟩

/-- A receive that finds no message changes nothing. -/
theorem receive_none (htaken : s.taken type = none) (size timeout : Nat) :
    ∃ outcome, msgqReceive s.mq size type timeout = some (s.mq, outcome) ∧
      ∀ bytes, outcome ≠ .done bytes := by
  have hsearch : searchLoop s.mq type s.mq.msgCount s.mq.head = none :=
    Option.map_eq_none_iff.mp htaken
  rw [msgqReceive]
  split
  · exact ⟨_, rfl, MsgSystem.ite_not_done⟩
  · rw [hsearch]
    exact ⟨.fails, rfl, fun _ => by rintro ⟨⟩⟩

/-- **Receive.** With the moves inside the buffer, a receive copies from the front of the slot
of the message it takes, and the others stay as they were sent. -/
theorem Keeps.receive (h : s.Keeps) (htaken : s.taken type = some k)
    (hin : s.InBounds (.receive size type timeout)) :
    ∃ mq, msgqReceive s.mq size type timeout = some (mq,
        .done (readBytes s.mq.buffer (index s.mq.maxMsgs s.mq.head k * s.mq.maxSize) size)) ∧
      Keeps { mq, pending := s.pending.eraseIdx k } := by
  obtain ⟨hk, hsearch⟩ := h.taken_spec htaken
  have hcount := h.count
  have hcount_le := h.count_le
  have hwords := h.words
  have hslots : 0 < s.mq.maxMsgs := by omega
  have hmoves := hin k htaken
  obtain ⟨buffer', hreceive, hmoved, hkept⟩ :=
    receive_shift size timeout (h.head_lt hslots) hwords (by omega) (by omega) (by omega) hsearch
      (fun i hi => prev_slot hslots hwords (hmoves i hi).2)
      (fun i hi => (h.stored i (by omega)).offset s.mq.allocated_lt)
  have hlen : (s.pending.eraseIdx k).length = s.pending.length - 1 := List.length_eraseIdx_of_lt hk
  refine ⟨_, hreceive, hwords, fun _ => index_lt hslots, ?_, ?_, ?_, ?_⟩
  · simp only [hlen, hcount]
  · simp only [hlen]
    omega
  · simp only [hlen, index_index, h.tail]
    rw [Nat.add_sub_cancel' (by omega)]
  · intro i hi
    simp only [hlen] at hi
    simp only [index_index, Nat.add_comm 1 i, List.getElem_eraseIdx]
    split
    · -- A message in front of the gap moved one slot on.
      rename_i hlt
      exact (h.stored i (by omega)).move (hmoves i hlt).1 (hmoved i hlt)
    · rename_i hge
      exact (h.stored (i + 1) (by omega)).keep (hkept (i + 1) (by omega) (by omega))

/-- **Step.** -/
theorem Keeps.step (h : s.Keeps) (hok : s.InBounds r ∧ s.Sized r) (hstep : s.step r = some s') :
    s'.Keeps := by
  obtain ⟨hin, hsized⟩ := hok
  cases r with
  | send msg timeout =>
    by_cases hroom : s.pending.length < s.mq.maxMsgs
    · have hfree : s.mq.msgCount < s.mq.maxMsgs := by rwa [h.count]
      exact h.send hroom (hsized hfree) (hin hfree) hstep
    · simp only [Tracked.step, h.send_full (Nat.le_of_not_lt hroom)] at hstep
      cases hstep
      rw [if_neg (MsgSystem.ite_not_done [])]
      exact h
  | receive size type timeout =>
    cases htaken : s.taken type with
    | none =>
      obtain ⟨outcome, hreceive, -⟩ := receive_none htaken size timeout
      simp only [Tracked.step, hreceive, htaken] at hstep
      cases hstep
      exact h
    | some k =>
      obtain ⟨mq, hreceive, hkeeps⟩ := h.receive htaken hin
      simp only [Tracked.step, hreceive, htaken] at hstep
      cases hstep
      exact hkeeps

/-! ### What a step owes the callers -/

/-- A send inside its slot and the buffer is safe. -/
theorem Keeps.send_safe (h : s.Keeps) (hin : s.InBounds (.send msg timeout))
    (hsized : s.Sized (.send msg timeout)) : s.Safe (.send msg timeout) := by
  intro hdone
  by_cases hfull : s.mq.maxMsgs ≤ s.mq.msgCount
  · rw [h.send_full (by rwa [← h.count])] at hdone
    exact absurd hdone (MsgSystem.ite_not_done [])
  · have hle := hsized (Nat.lt_of_not_le hfull)
    have hend := hin (Nat.lt_of_not_le hfull)
    refine ⟨hle, ?_⟩
    intro b hb
    rw [msgqSend, if_neg hfull]
    simp only [tail_offset hend]
    exact storeBytes_of_outside (by omega)

/-- A receive for the size of its message is safe. -/
theorem Keeps.receive_safe (h : s.Keeps) (hin : s.InBounds (.receive size type timeout))
    (hsized : s.Sized (.receive size type timeout)) : s.Safe (.receive size type timeout) := by
  intro mq bytes hdone
  cases htaken : s.taken type with
  | none =>
    obtain ⟨outcome, hreceive, hnot⟩ := receive_none htaken size timeout
    rw [hreceive] at hdone
    cases hdone
    exact absurd rfl (hnot bytes)
  | some k =>
    obtain ⟨mq', hreceive, -⟩ := h.receive htaken hin
    obtain ⟨hk, -⟩ := h.taken_spec htaken
    rw [hreceive] at hdone
    cases hdone
    have hget : s.pending[k]? = some s.pending[k] := List.getElem?_eq_getElem hk
    have hsize := hsized k htaken _ hget
    refine ⟨k, rfl, ?_⟩
    rw [hget, ← hsize, (h.stored k hk).bytes]

/-- A receive that finds a message and ends returns as many bytes as were asked for. -/
theorem receive_length {mq : MsgQueue} {outcome : Outcome} (htaken : s.taken type = some k)
    (hreceive : msgqReceive s.mq size type timeout = some (mq, outcome)) :
    ∃ bytes, outcome = .done bytes ∧ bytes.length = size := by
  obtain ⟨c, hsearch, -⟩ := Option.map_eq_some_iff.mp htaken
  have hne : s.mq.msgCount ≠ 0 := by
    intro hzero
    rw [hzero] at hsearch
    cases hsearch
  rw [msgqReceive, if_neg hne, hsearch] at hreceive
  obtain ⟨buffer, -, hdone⟩ := Option.map_eq_some_iff.mp hreceive
  cases hdone
  exact ⟨_, rfl, readBytes_length⟩

/-- A step that is safe has its sizes right. -/
theorem sized_of_safe (hsafe : s.Safe r) (hstep : s.step r = some s') : s.Sized r := by
  cases r with
  | send msg timeout =>
    intro hroom
    have hdone : (msgqSend s.mq msg timeout).2 = .done [] := by
      rw [msgqSend, if_neg (Nat.not_le.mpr hroom)]
    exact (hsafe hdone).1
  | receive size type timeout =>
    intro k htaken msg hmsg
    obtain ⟨⟨mq, outcome⟩, hreceive, -⟩ := Option.map_eq_some_iff.mp hstep
    obtain ⟨bytes, rfl, hlen⟩ := receive_length htaken hreceive
    obtain ⟨k', htaken', hget⟩ := hsafe mq bytes hreceive
    rw [htaken] at htaken'
    cases htaken'
    rw [hmsg] at hget
    cases hget
    exact hlen

/-! ### Runs -/

/-- **Message integrity.** In every run of sends and receives that stays inside the memory of
the buffer, no step touches a pending message and every call is safe exactly when the
sizes are right: each message that is stored fits in a slot, and each receiver asks for the
size of the message it takes. -/
theorem message_integrity (key : Int) {maxMsgs maxSize : Nat} (buffer : Bytes)
    (words : maxMsgs < 2 ^ 32) (rs : List Request)
    (bounds : Meets step InBounds (start key maxMsgs maxSize buffer) rs) :
    Along step Intact (start key maxMsgs maxSize buffer) rs ∧
        Each step Safe (start key maxMsgs maxSize buffer) rs ↔
      Meets step Sized (start key maxMsgs maxSize buffer) rs := by
  have hstart : Keeps (start key maxMsgs maxSize buffer) := start_keeps words
  constructor
  · rintro ⟨-, hsafe⟩
    exact hsafe.meets fun s r s' => sized_of_safe
  · intro hsized
    have hboth := bounds.and hsized
    have hkeeps : Along step Keeps (start key maxMsgs maxSize buffer) rs :=
      along_of_meets (fun _ _ _ h hok hstep => h.step hok hstep) hstart hboth
    refine ⟨hkeeps.mono fun _ h => h.intact, ?_⟩
    apply each_of_meets _ (fun _ _ _ h hok hstep => h.step hok hstep) hstart hboth
    intro s r h hok
    cases r with
    | send msg timeout =>
      obtain ⟨hin, hsized⟩ := hok _ rfl
      exact h.send_safe hin hsized
    | receive size type timeout =>
      intro mq bytes hdone
      have hstep : s.step (.receive size type timeout) =
          some { mq, pending := (s.taken type).elim s.pending s.pending.eraseIdx } := by
        rw [step, hdone, Option.map_some]
      obtain ⟨hin, hsized⟩ := hok _ hstep
      exact h.receive_safe hin hsized mq bytes hdone

/-- Messages of 9, 8 and 12 bytes in slots of 12; the one of 8 bytes is taken out of the middle. -/
theorem message_integrity_three :
    let msg (type : BitVec 8) (size : Nat) : Message := type :: List.replicate (size - 1) 0
    let calls : List Request := [.send (msg 1 9) 0, .send (msg 2 8) 0, .send (msg 1 12) 0,
      .receive 8 2 0, .receive 9 0 0, .receive 12 1 0]
    Along step Intact (start 5 3 12 fun _ => 0) calls ∧
      Each step Safe (start 5 3 12 fun _ => 0) calls :=
  (message_integrity 5 (fun _ => 0) (by decide) _ (by decide)).mpr (by decide)

/-- A message of 12 bytes is stored in a slot of 8, over the slot behind it; and a receiver
that asks for 8 bytes of a message of 4 gets bytes of the message before it. -/
theorem sizes_unchecked :
    ¬ Each step Safe (start 5 2 8 fun _ => 0) [.send (List.replicate 12 1) 0] ∧
    ¬ Each step Safe (start 5 1 8 fun _ => 0)
      [.send (List.replicate 8 1) 0, .receive 8 0 0, .send [2, 0, 0, 0] 0, .receive 8 0 0] :=
  ⟨fun h => absurd (h.meets fun _ _ _ => sized_of_safe) (by decide),
    fun h => absurd (h.meets fun _ _ _ => sized_of_safe) (by decide)⟩

end Tracked

end ArmKernel.Ipc

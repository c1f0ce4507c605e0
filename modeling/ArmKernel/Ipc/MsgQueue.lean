/-
Message queues (`src/msg_queue.c`).

A queue keeps its messages in `max_msgs` slots of `max_size` bytes each. `msgqSend`
and `msgqReceive` are one pass of the calls under the lock of the queue: a pass that
finds the queue full, or empty, ends by waiting on a condition variable, and the pass
is repeated when the task was woken. The loop that closes the gap a message leaves
runs on a fuel of `max_msgs` rounds; `none` is a loop that goes on.

`Holds mq pending` says that the occupied slots hold the messages of `pending` in
order. `Holds.send` appends a message; `Holds.receive_none` and `Holds.receive_some`
say that a receive takes out the earliest message of its type, and nothing else.
-/
import ArmKernel.Support.Bytes
import ArmKernel.Support.Circular
import ArmKernel.Support.Word
import Mathlib.Data.List.Forall2
import Mathlib.Data.List.GetD

namespace ArmKernel.Ipc

open ArmKernel.Support

/-- `msg_queue_t`, less its locks. -/
structure MsgQueue where
  key : Int
  msgCount : Nat
  maxMsgs : Nat
  maxSize : Nat
  buffer : Bytes
  head : Nat
  tail : Nat

/-- `sizeof(msg_t)`: `long type`, `uint32_t size`, `uint8_t data[]`. -/
def msgHeaderSize : Nat := structSize [⟨4, 4⟩, ⟨4, 4⟩, ⟨0, 1⟩]

/-- How a pass of a call ends: with `return 0` and the bytes written for the caller,
with `return -1`, or on the condition variable. -/
inductive Outcome where
  | done (written : List (BitVec 8))
  | fails
  | waits
deriving DecidableEq

/-- A queue as `msgq_create` leaves it. -/
def newQueue (key : Int) (maxMsgs maxSize : Nat) (buffer : Bytes) : MsgQueue :=
  { key, msgCount := 0, maxMsgs, maxSize, buffer, head := 0, tail := 0 }

/-- `msgq_send`: one pass. The message is the list of its `size` bytes. -/
def msgqSend (mq : MsgQueue) (msg : List (BitVec 8)) (timeout : Nat) : MsgQueue × Outcome :=
  if mq.maxMsgs ≤ mq.msgCount then
    (mq, if timeout = 0 then .fails else .waits)
  else
    let offset := wrap32 (mq.tail * mq.maxSize)
    ({ mq with
        buffer := storeBytes mq.buffer offset msg
        tail := wrap32 (mq.tail + 1) % mq.maxMsgs
        msgCount := wrap32 (mq.msgCount + 1) }, .done [])

/-- The search of `msgq_receive` for the first message of the type, 0 being any. -/
def searchLoop (mq : MsgQueue) (type : Nat) : (count current : Nat) → Option Nat
  | 0, _ => none
  | count + 1, current =>
    if type = 0 ∨ readWord mq.buffer (wrap32 (current * mq.maxSize)) = type then some current
    else searchLoop mq type count (wrap32 (current + 1) % mq.maxMsgs)

/-- The loop that moves each message before the gap by one slot. -/
def moveLoop (mq : MsgQueue) (moveEnd : Nat) : (fuel : Nat) → Bytes → (moveStart : Nat) → Option Bytes
  | fuel, buffer, moveStart =>
    if moveStart = moveEnd then some buffer
    else
      match fuel with
      | 0 => none
      | fuel + 1 =>
        let prev := wrap32 (sub32 moveStart 1 + mq.maxMsgs) % mq.maxMsgs
        moveLoop mq moveEnd fuel
          (copyBytes buffer (wrap32 (moveStart * mq.maxSize)) (wrap32 (prev * mq.maxSize))
            mq.maxSize) prev

/-- `msgq_receive`: one pass, for at most `size` bytes of a message of the type. -/
def msgqReceive (mq : MsgQueue) (size type timeout : Nat) : Option (MsgQueue × Outcome) :=
  if mq.msgCount = 0 then
    some (mq, if timeout = 0 then .fails else .waits)
  else
    match searchLoop mq type mq.msgCount mq.head with
    | none => some (mq, .fails)
    | some current =>
      let msg := readBytes mq.buffer (wrap32 (current * mq.maxSize)) size
      let moved :=
        if current = mq.head then some mq.buffer
        else moveLoop mq mq.head mq.maxMsgs mq.buffer current
      moved.map fun buffer =>
        ({ mq with
            buffer
            head := wrap32 (mq.head + 1) % mq.maxMsgs
            msgCount := sub32 mq.msgCount 1 }, .done msg)

/-! ### What a queue holds -/

/-- The type of a message: its first word. -/
def typeOf (msg : List (BitVec 8)) : Nat := readWord (fun j => msg.getD j 0) 0

/-- A receive for `type` takes this message. -/
def Wanted (type : Nat) (msg : List (BitVec 8)) : Bool := type == 0 || typeOf msg == type

/-- The bytes of a slot. -/
def slotAt (maxSize : Nat) (buffer : Bytes) (i : Nat) : List (BitVec 8) :=
  readBytes buffer (i * maxSize) maxSize

/-- The occupied slots hold the messages of `pending`, each at the front of its slot. -/
structure Holds (mq : MsgQueue) (pending : List (List (BitVec 8))) : Prop where
  slots : 0 < mq.maxMsgs
  fits : mq.maxMsgs * mq.maxSize < 2 ^ 32
  head_lt : mq.head < mq.maxMsgs
  count : mq.msgCount = pending.length
  count_le : mq.msgCount ≤ mq.maxMsgs
  tail : mq.tail = index mq.maxMsgs mq.head mq.msgCount
  sizes : ∀ msg ∈ pending, msgHeaderSize ≤ msg.length ∧ msg.length ≤ mq.maxSize
  contents : List.Forall₂ (· <+: ·) pending
    (window (slotAt mq.maxSize mq.buffer) mq.maxMsgs mq.head mq.msgCount)

variable {mq : MsgQueue} {pending : List (List (BitVec 8))} {msg : List (BitVec 8)}
  {buffer : Bytes} {size type timeout maxSize i j k : Nat}

theorem newQueue_holds {key : Int} {maxMsgs maxSize : Nat} {buffer : Bytes} (slots : 0 < maxMsgs)
    (fits : maxMsgs * maxSize < 2 ^ 32) : Holds (newQueue key maxMsgs maxSize buffer) [] where
  slots := slots
  fits := fits
  head_lt := slots
  count := rfl
  count_le := Nat.zero_le _
  tail := (index_zero slots).symm
  sizes := by simp
  contents := by simp [newQueue]

/-! ### Slots -/

/-- Different slots do not overlap. -/
theorem slots_apart (maxSize : Nat) (h : i ≠ j) :
    i * maxSize + maxSize ≤ j * maxSize ∨ j * maxSize + maxSize ≤ i * maxSize := by
  rcases Nat.lt_or_gt_of_ne h with hlt | hgt
  · left
    have hle : (i + 1) * maxSize ≤ j * maxSize := Nat.mul_le_mul_right _ hlt
    rwa [Nat.succ_mul] at hle
  · right
    have hle : (j + 1) * maxSize ≤ i * maxSize := Nat.mul_le_mul_right _ hgt
    rwa [Nat.succ_mul] at hle

/-- Storing a message in a slot leaves the other slots alone. -/
theorem slotAt_storeBytes_of_ne (h : i ≠ j) (hlen : msg.length ≤ maxSize) :
    slotAt maxSize (storeBytes buffer (j * maxSize) msg) i = slotAt maxSize buffer i := by
  apply readBytes_congr
  apply agree_storeBytes
  have hapart := slots_apart maxSize h
  omega

/-- A message stored in a slot is at its front. -/
theorem prefix_slotAt_storeBytes (hlen : msg.length ≤ maxSize) :
    msg <+: slotAt maxSize (storeBytes buffer (i * maxSize) msg) i := by
  have hfront := readBytes_storeBytes_self buffer (i * maxSize) msg
  rw [← take_readBytes hlen] at hfront
  exact ⟨_, by rw [slotAt, ← List.take_append_drop msg.length (readBytes _ _ maxSize), hfront]⟩

/-- Copying a slot. -/
theorem slotAt_copyBytes :
    slotAt maxSize (copyBytes buffer (j * maxSize) (k * maxSize) maxSize) i =
      if i = j then slotAt maxSize buffer k else slotAt maxSize buffer i := by
  split
  · rename_i heq
    subst heq
    exact readBytes_copyBytes_self
  · rename_i hne
    apply readBytes_congr
    apply agree_copyBytes
    exact slots_apart maxSize hne

/-- The type is read from the message at the front of the slot. -/
theorem readWord_eq_typeOf {a n : Nat} (hfront : msg <+: readBytes buffer a n)
    (hlen : msgHeaderSize ≤ msg.length) : readWord buffer a = typeOf msg := by
  have hheader : msgHeaderSize = 8 := by decide
  obtain ⟨rest, hrest⟩ := hfront
  have hbyte : ∀ j < 4, msg.getD j 0 = buffer (a + j) := by
    intro j hj
    have hlt : j < (msg ++ rest).length := by
      rw [List.length_append]
      omega
    have hget : (msg ++ rest)[j] = buffer (a + j) := by
      simp only [hrest, readBytes, List.getElem_map, List.getElem_range]
    rw [List.getElem_append_left (by omega)] at hget
    rw [List.getD_eq_getElem _ _ (by omega), hget]
  simp only [typeOf, readWord, hbyte 0 (by omega), Nat.zero_add, hbyte 1 (by omega),
    hbyte 2 (by omega), hbyte 3 (by omega), Nat.add_zero]

/-! ### The slots of a ring -/

section Slots

/-- The next slot. -/
theorem next_slot {maxMsgs head : Nat} (hslots : 0 < maxMsgs) (hwords : maxMsgs < 2 ^ 32) :
    wrap32 (index maxMsgs head i + 1) % maxMsgs = index maxMsgs head (i + 1) := by
  have hlt : index maxMsgs head i < maxMsgs := index_lt hslots
  rw [wrap32_of_lt (by omega), ← index_index]
  rfl

/-- The slot before, where the sum of the loop does not wrap. -/
theorem prev_slot {maxMsgs head : Nat} (hslots : 0 < maxMsgs) (hwords : maxMsgs < 2 ^ 32)
    (hsum : index maxMsgs head (i + 1) = 0 ∨ index maxMsgs head (i + 1) + maxMsgs ≤ 2 ^ 32) :
    wrap32 (sub32 (index maxMsgs head (i + 1)) 1 + maxMsgs) % maxMsgs = index maxMsgs head i := by
  have hlt : index maxMsgs head i < maxMsgs := index_lt hslots
  rw [← index_index] at hsum ⊢
  generalize index maxMsgs head i = x at hlt hsum ⊢
  by_cases hlast : x + 1 < maxMsgs
  · -- The slot behind `x` is `x + 1`.
    have hnext : index maxMsgs x 1 = x + 1 := Nat.mod_eq_of_lt hlast
    rw [hnext] at hsum ⊢
    rw [sub32_of_le (by omega) (by omega), Nat.add_sub_cancel, wrap32_of_lt (by omega),
      Nat.add_mod_right, Nat.mod_eq_of_lt hlt]
  · -- The slot behind the last one is 0, and `0 - 1` wraps.
    have hx : x + 1 = maxMsgs := by omega
    have hwrap : wrap32 (sub32 0 1 + maxMsgs) = x := by
      unfold sub32 wrap32
      omega
    rw [index, hx, Nat.mod_self, hwrap, Nat.mod_eq_of_lt hlt]

theorem moveLoop_end {moveEnd fuel : Nat} : moveLoop mq moveEnd fuel buffer moveEnd = some buffer := by
  unfold moveLoop
  rw [if_pos rfl]

/-- **Closing the gap.** From slot `k` of the ring down to the head, each slot takes
the contents of the one before; the slots behind are not touched. -/
theorem moveLoop_shift (hhead : mq.head < mq.maxMsgs) (buffer : Bytes) (hk : k < mq.maxMsgs)
    (hprev : ∀ i < k, wrap32 (sub32 (index mq.maxMsgs mq.head (i + 1)) 1 + mq.maxMsgs) %
      mq.maxMsgs = index mq.maxMsgs mq.head i)
    (hoffset : ∀ i ≤ k, wrap32 (index mq.maxMsgs mq.head i * mq.maxSize) =
      index mq.maxMsgs mq.head i * mq.maxSize)
    (fuel : Nat) (hfuel : k ≤ fuel) :
    ∃ buffer', moveLoop mq mq.head fuel buffer (index mq.maxMsgs mq.head k) = some buffer' ∧
      (∀ i < k, slotAt mq.maxSize buffer' (index mq.maxMsgs mq.head (i + 1)) =
        slotAt mq.maxSize buffer (index mq.maxMsgs mq.head i)) ∧
      ∀ i, k < i → i < mq.maxMsgs → slotAt mq.maxSize buffer' (index mq.maxMsgs mq.head i) =
        slotAt mq.maxSize buffer (index mq.maxMsgs mq.head i) := by
  induction k generalizing buffer fuel with
  | zero =>
    rw [index_zero hhead]
    exact ⟨buffer, moveLoop_end, by simp, fun _ _ _ => rfl⟩
  | succ k ih =>
    obtain ⟨fuel, rfl⟩ : ∃ f, fuel = f + 1 := ⟨fuel - 1, by omega⟩
    have hne : index mq.maxMsgs mq.head (k + 1) ≠ mq.head := by
      intro heq
      rw [← index_zero hhead, index_index] at heq
      have := index_inj (by omega) (Nat.zero_lt_of_lt hhead) heq
      omega
    rw [moveLoop, if_neg hne]
    simp only [hprev k (Nat.lt_succ_self k), hoffset (k + 1) (Nat.le_refl _),
      hoffset k (Nat.le_succ k)]
    obtain ⟨buffer', hmove, hmoved, hkept⟩ := ih
      (copyBytes buffer (index mq.maxMsgs mq.head (k + 1) * mq.maxSize)
        (index mq.maxMsgs mq.head k * mq.maxSize) mq.maxSize) (by omega)
      (fun i hi => hprev i (Nat.lt_succ_of_lt hi)) (fun i hi => hoffset i (Nat.le_succ_of_le hi))
      fuel (by omega)
    refine ⟨buffer', hmove, ?_, ?_⟩
    · intro i hi
      by_cases hik : i = k
      · rw [hik, hkept (k + 1) (by omega) hk, slotAt_copyBytes, if_pos rfl]
      · rw [hmoved i (by omega), slotAt_copyBytes, if_neg]
        intro heq
        have := index_inj (by omega) hk heq
        omega
    · intro i hi hlt
      rw [hkept i (by omega) hlt, slotAt_copyBytes, if_neg]
      intro heq
      have := index_inj hlt hk heq
      omega

/-- **Taking a message.** A receive that finds its message in slot `k` of the ring returns
bytes from the front of the slot and closes the gap. -/
theorem receive_shift (size timeout : Nat) (hhead : mq.head < mq.maxMsgs)
    (hwords : mq.maxMsgs < 2 ^ 32) (hcount : 0 < mq.msgCount) (hcount_le : mq.msgCount ≤ mq.maxMsgs)
    (hk : k < mq.maxMsgs)
    (hsearch : searchLoop mq type mq.msgCount mq.head = some (index mq.maxMsgs mq.head k))
    (hprev : ∀ i < k, wrap32 (sub32 (index mq.maxMsgs mq.head (i + 1)) 1 + mq.maxMsgs) %
      mq.maxMsgs = index mq.maxMsgs mq.head i)
    (hoffset : ∀ i ≤ k, wrap32 (index mq.maxMsgs mq.head i * mq.maxSize) =
      index mq.maxMsgs mq.head i * mq.maxSize) :
    ∃ buffer', msgqReceive mq size type timeout =
        some ({ mq with
            buffer := buffer'
            head := index mq.maxMsgs mq.head 1
            msgCount := mq.msgCount - 1 },
          .done (readBytes mq.buffer (index mq.maxMsgs mq.head k * mq.maxSize) size)) ∧
      (∀ i < k, slotAt mq.maxSize buffer' (index mq.maxMsgs mq.head (i + 1)) =
        slotAt mq.maxSize mq.buffer (index mq.maxMsgs mq.head i)) ∧
      ∀ i, k < i → i < mq.maxMsgs → slotAt mq.maxSize buffer' (index mq.maxMsgs mq.head i) =
        slotAt mq.maxSize mq.buffer (index mq.maxMsgs mq.head i) := by
  obtain ⟨buffer', hmove, hmoved, hkept⟩ :=
    moveLoop_shift hhead mq.buffer hk hprev hoffset mq.maxMsgs (Nat.le_of_lt hk)
  -- Taking the first message moves nothing, as the loop would.
  have hbuffer : (if index mq.maxMsgs mq.head k = mq.head then some mq.buffer
      else moveLoop mq mq.head mq.maxMsgs mq.buffer (index mq.maxMsgs mq.head k)) =
      some buffer' := by
    split
    · rename_i heq
      rw [heq, moveLoop_end] at hmove
      exact hmove
    · exact hmove
  have hnext : wrap32 (mq.head + 1) % mq.maxMsgs = index mq.maxMsgs mq.head 1 := by
    rw [wrap32_of_lt (by omega)]
    rfl
  have hpred : sub32 mq.msgCount 1 = mq.msgCount - 1 := sub32_of_le (by omega) (by omega)
  refine ⟨buffer', ?_, hmoved, hkept⟩
  rw [msgqReceive, if_neg (by omega), hsearch]
  simp only [hbuffer, Option.map_some, hnext, hpred, hoffset k (Nat.le_refl k)]

end Slots

section Holding

variable (h : Holds mq pending)
include h

/-- Every slot lies in the buffer, at an offset that does not wrap. -/
theorem Holds.offset (hi : i < mq.maxMsgs) : wrap32 (i * mq.maxSize) = i * mq.maxSize := by
  have hle : (i + 1) * mq.maxSize ≤ mq.maxMsgs * mq.maxSize := Nat.mul_le_mul_right _ hi
  rw [Nat.succ_mul] at hle
  have hfits := h.fits
  exact wrap32_of_lt (by omega)

/-- A queue with room for a message header has fewer than 2^29 slots. -/
theorem Holds.maxMsgs_lt (hsize : msgHeaderSize ≤ mq.maxSize) : mq.maxMsgs < 2 ^ 29 := by
  have hheader : msgHeaderSize = 8 := by decide
  have hmul : mq.maxMsgs * 8 ≤ mq.maxMsgs * mq.maxSize := Nat.mul_le_mul_left _ (by omega)
  have hfits := h.fits
  omega

/-- A queue that holds a message has room for a message header. -/
theorem Holds.header_le (hmsg : msg ∈ pending) : msgHeaderSize ≤ mq.maxSize :=
  (h.sizes msg hmsg).1.trans (h.sizes msg hmsg).2

/-- The next slot. -/
theorem Holds.next (hsize : msgHeaderSize ≤ mq.maxSize) :
    wrap32 (index mq.maxMsgs mq.head i + 1) % mq.maxMsgs = index mq.maxMsgs mq.head (i + 1) := by
  have hmax := h.maxMsgs_lt hsize
  exact next_slot h.slots (by omega)

/-- The slot before. -/
theorem Holds.prev (hsize : msgHeaderSize ≤ mq.maxSize) :
    wrap32 (sub32 (index mq.maxMsgs mq.head (i + 1)) 1 + mq.maxMsgs) % mq.maxMsgs =
      index mq.maxMsgs mq.head i := by
  have hmax := h.maxMsgs_lt hsize
  have hlt : index mq.maxMsgs mq.head (i + 1) < mq.maxMsgs := index_lt h.slots
  exact prev_slot h.slots (by omega) (.inr (by omega))

/-- A pending message is at the front of its slot. -/
theorem Holds.prefix_slot (hi : i < pending.length) :
    pending[i] <+: slotAt mq.maxSize mq.buffer (index mq.maxMsgs mq.head i) := by
  have hwin : i < (window (slotAt mq.maxSize mq.buffer) mq.maxMsgs mq.head mq.msgCount).length := by
    rw [window_length, h.count]
    exact hi
  have hget := h.contents.get hi hwin
  simpa only [List.get_eq_getElem, getElem_window] using hget

/-- The type the search reads in an occupied slot. -/
theorem Holds.type_at (hi : i < pending.length) :
    readWord mq.buffer (wrap32 (index mq.maxMsgs mq.head i * mq.maxSize)) =
      typeOf pending[i] := by
  rw [h.offset (index_lt h.slots)]
  exact readWord_eq_typeOf (h.prefix_slot hi) (h.sizes _ (List.getElem_mem hi)).1

/-! ### Sending -/

theorem msgqSend_full (full : pending.length = mq.maxMsgs) :
    msgqSend mq msg timeout = (mq, if timeout = 0 then .fails else .waits) := by
  rw [msgqSend, if_pos (by rw [h.count, full])]

/-- **Send.** With room for it, the message is behind the ones that were pending. -/
theorem Holds.send (timeout : Nat) (room : pending.length < mq.maxMsgs)
    (hlo : msgHeaderSize ≤ msg.length) (hhi : msg.length ≤ mq.maxSize) :
    (msgqSend mq msg timeout).2 = .done [] ∧
      Holds (msgqSend mq msg timeout).1 (pending ++ [msg]) := by
  have hcount := h.count
  have hmax := h.maxMsgs_lt (hlo.trans hhi)
  have htail : wrap32 (mq.tail * mq.maxSize) = mq.tail * mq.maxSize := by
    rw [h.tail]
    exact h.offset (index_lt h.slots)
  rw [msgqSend, if_neg (by omega), htail]
  refine ⟨rfl, ?_⟩
  have hsucc : wrap32 (mq.msgCount + 1) = mq.msgCount + 1 := wrap32_of_lt (by omega)
  refine ⟨h.slots, h.fits, h.head_lt, ?_, ?_, ?_, ?_, ?_⟩
  · rw [List.length_append, List.length_singleton, ← hcount]
    exact hsucc
  · simp only [hsucc]
    omega
  · simp only [hsucc, h.tail]
    exact h.next (hlo.trans hhi)
  · intro m hm
    rcases List.mem_append.mp hm with hold | hnew
    · exact h.sizes m hold
    · rw [List.mem_singleton.mp hnew]
      exact ⟨hlo, hhi⟩
  · simp only [hsucc]
    rw [window_succ]
    have hkept : window (slotAt mq.maxSize (storeBytes mq.buffer (mq.tail * mq.maxSize) msg))
        mq.maxMsgs mq.head mq.msgCount =
        window (slotAt mq.maxSize mq.buffer) mq.maxMsgs mq.head mq.msgCount := by
      apply window_congr
      intro i hi
      apply slotAt_storeBytes_of_ne _ hhi
      rw [h.tail]
      intro heq
      have := index_inj (by omega) (by omega) heq
      omega
    rw [hkept, ← h.tail]
    exact List.rel_append h.contents (.cons (prefix_slotAt_storeBytes hhi) .nil)

/-! ### Receiving -/

theorem msgqReceive_empty (empty : pending = []) :
    msgqReceive mq size type timeout = some (mq, if timeout = 0 then .fails else .waits) := by
  have hcount : mq.msgCount = 0 := by
    rw [h.count, empty]
    rfl
  rw [msgqReceive, if_pos hcount]

/-- **Search.** From the slot of message `k` on, the loop finds the first message
wanted. -/
theorem Holds.search (type : Nat) (hk : k + i = pending.length) :
    searchLoop mq type i (index mq.maxMsgs mq.head k) =
      ((pending.drop k).findIdx? (Wanted type)).map fun j => index mq.maxMsgs mq.head (k + j) := by
  induction i generalizing k with
  | zero => simp [searchLoop, List.drop_eq_nil_of_le (by omega : pending.length ≤ k)]
  | succ i ih =>
    have hlt : k < pending.length := by omega
    have hnext := h.next (i := k) (h.header_le (List.getElem_mem hlt))
    rw [searchLoop, h.type_at hlt, hnext, ih (by omega), List.drop_eq_getElem_cons hlt,
      List.findIdx?_cons]
    have hwanted : (type = 0 ∨ typeOf pending[k] = type) ↔ Wanted type pending[k] = true := by
      simp [Wanted]
    by_cases hw : Wanted type pending[k] = true
    · rw [if_pos (hwanted.mpr hw), if_pos hw]
      simp
    · rw [if_neg (fun hc => hw (hwanted.mp hc)), if_neg hw, Option.map_map]
      simp only [Function.comp_def, Nat.add_assoc, Nat.add_comm 1]

/-- **Receive, no message of the type.** -/
theorem Holds.receive_none (nonempty : pending ≠ [])
    (hnone : pending.findIdx? (Wanted type) = none) :
    msgqReceive mq size type timeout = some (mq, .fails) := by
  have hcount : mq.msgCount ≠ 0 := by
    rw [h.count]
    exact fun hzero => nonempty (List.eq_nil_of_length_eq_zero hzero)
  have hsearch := h.search type (k := 0) (i := mq.msgCount) (by rw [h.count, Nat.zero_add])
  rw [index_zero h.head_lt, List.drop_zero, hnone] at hsearch
  rw [msgqReceive, if_neg hcount, hsearch]
  rfl

/-- **Receive.** The call returns the message number `k`, the first one wanted; the
others stay, in order. -/
theorem Holds.receive_some (size timeout : Nat) (hk : pending.findIdx? (Wanted type) = some k)
    (hlt : k < pending.length) :
    ∃ mq', msgqReceive mq size type timeout =
        some (mq', .done (readBytes mq.buffer (index mq.maxMsgs mq.head k * mq.maxSize) size)) ∧
      Holds mq' (pending.eraseIdx k) ∧ mq'.maxSize = mq.maxSize ∧ mq'.maxMsgs = mq.maxMsgs ∧
      mq'.key = mq.key := by
  have hcount := h.count
  have hcount_le := h.count_le
  have hsize := h.header_le (List.getElem_mem hlt)
  have hmax := h.maxMsgs_lt hsize
  have hsearch := h.search type (k := 0) (i := mq.msgCount) (by omega)
  simp only [index_zero h.head_lt, List.drop_zero, hk, Option.map_some, Nat.zero_add] at hsearch
  obtain ⟨buffer', hreceive, hmoved, hkept⟩ :=
    receive_shift size timeout h.head_lt (by omega) (by omega) hcount_le (by omega) hsearch
      (fun i _ => h.prev hsize) (fun i _ => h.offset (index_lt h.slots))
  refine ⟨_, hreceive, ?_, rfl, rfl, rfl⟩
  refine ⟨h.slots, h.fits, index_lt h.slots, ?_, ?_, ?_, ?_, ?_⟩
  · simp [List.length_eraseIdx, hlt, hcount]
  · exact (Nat.sub_le _ _).trans hcount_le
  · simp only [index_index]
    rw [h.tail, Nat.add_sub_cancel' (by omega)]
  · intro m hm
    exact h.sizes m (List.mem_of_mem_eraseIdx hm)
  · have hshift := window_shift (n := mq.msgCount) (k := k) (by omega) hmoved
      (fun i hi hin => hkept i hi (by omega))
    simp only
    rw [hshift, List.eraseIdx_eq_take_drop_succ, List.eraseIdx_eq_take_drop_succ]
    exact List.rel_append (List.forall₂_take k h.contents) (List.forall₂_drop (k + 1) h.contents)

end Holding

end ArmKernel.Ipc

/-
Tasks sending to and receiving from message queues, in any order.

`MsgSystem` is the linked list of queues with the calls that wait on a condition variable,
and, as history, the messages each queue took and gave. One step is `msgq_create`, a
call by one task up to where it returns or waits, or the next pass of a call that
waits. Any waiting call may be woken at any time, in time or not: the signals the
source sends are among these.

`Explains` is what the history of a queue means for a list of messages. In every
state of every run the ring of a queue holds the list its history explains
(`queue_refines_list`), so that no message is lost or taken twice.
-/
import ArmKernel.Ipc.MsgQueue
import ArmKernel.Support.Run
import Mathlib.Data.List.Perm.Basic

namespace ArmKernel.Ipc

open ArmKernel.Support

/-- A message: its bytes, the header first. -/
abbrev Message := List (BitVec 8)

/-- A call on a queue. -/
inductive Request where
  | send (msg : Message) (timeout : Nat)
  | receive (size type timeout : Nat)

/-- What a queue took or gave. -/
inductive Event where
  | sent (msg : Message)
  | received (type : Nat) (bytes : List (BitVec 8))

/-- A call that returned 0, in the history of the queue. -/
def Request.event : Request → List (BitVec 8) → Event
  | .send msg _, _ => .sent msg
  | .receive _ type _, bytes => .received type bytes

/-- The size a call names is at least `sizeof(msg_t)` and at most `max_size`. -/
def Request.Sized (maxSize : Nat) : Request → Prop
  | .send msg _ => msgHeaderSize ≤ msg.length ∧ msg.length ≤ maxSize
  | .receive size _ _ => msgHeaderSize ≤ size ∧ size ≤ maxSize

instance (maxSize : Nat) : (r : Request) → Decidable (r.Sized maxSize)
  | .send msg _ => inferInstanceAs (Decidable (msgHeaderSize ≤ msg.length ∧ msg.length ≤ maxSize))
  | .receive size _ _ => inferInstanceAs (Decidable (msgHeaderSize ≤ size ∧ size ≤ maxSize))

/-- The message queues, at addresses `P`, and the tasks `T` that wait in a call. -/
structure MsgSystem (P T : Type) where
  msgQueues : List P
  queueAt : P → MsgQueue
  calls : T → Option (P × Request)
  events : P → List Event

/-- One task, one step. The addresses `malloc` returns to `msgq_create` and the
contents of the new buffer are those of the environment, and so is whether
`condition_timedwait` returns true. -/
inductive Action (P T : Type) where
  | create (key : Int) (maxMsgs maxSize : Nat) (mq : Option P) (buffer : Option Bytes)
  | call (t : T) (mqid : Int) (request : Request)
  | wake (t : T) (inTime : Bool)

namespace MsgSystem

variable {P T : Type} [DecidableEq P] [DecidableEq T]

/-- No queue was made yet. -/
def start (memory : P → MsgQueue) : MsgSystem P T :=
  { msgQueues := [], queueAt := memory, calls := fun _ => none, events := fun _ => [] }

/-- `find_msg_queue`. -/
def findMsgQueue (s : MsgSystem P T) (key : Int) : Option P :=
  s.msgQueues.find? fun p => (s.queueAt p).key == key

/-- `msgq_create`. Memory in use is not handed out again. -/
def msgqCreate (s : MsgSystem P T) (key : Int) (maxMsgs maxSize : Nat) (mq : Option P)
    (buffer : Option Bytes) : Option (MsgSystem P T) :=
  match s.findMsgQueue key, mq, buffer with
  | none, some p, some contents =>
    if p ∈ s.msgQueues then none
    else some { s with
      msgQueues := p :: s.msgQueues
      queueAt := Function.update s.queueAt p (newQueue key maxMsgs maxSize contents) }
  | _, _, _ => some s

/-- The call `request` of `t` on the queue `p` after a pass. -/
def finish (s : MsgSystem P T) (t : T) (p : P) (request : Request) (mq : MsgQueue) (outcome : Outcome) :
    MsgSystem P T :=
  { s with
    queueAt := Function.update s.queueAt p mq
    calls := Function.update s.calls t (if outcome = .waits then some (p, request) else none)
    events :=
      match outcome with
      | .done bytes => Function.update s.events p (s.events p ++ [request.event bytes])
      | _ => s.events }

/-- One pass of a call on the queue `p`. -/
def pass (s : MsgSystem P T) (t : T) (p : P) (request : Request) : Option (MsgSystem P T) :=
  match request with
  | .send msg timeout =>
    let (mq, outcome) := msgqSend (s.queueAt p) msg timeout
    some (s.finish t p request mq outcome)
  | .receive size type timeout =>
    (msgqReceive (s.queueAt p) size type timeout).map fun (mq, outcome) =>
      s.finish t p request mq outcome

/-- One step. -/
def step (s : MsgSystem P T) : Action P T → Option (MsgSystem P T)
  | .create key maxMsgs maxSize mq buffer => s.msgqCreate key maxMsgs maxSize mq buffer
  | .call t mqid request =>
    if (s.calls t).isNone then
      match s.findMsgQueue mqid with
      | none => some s
      | some p => s.pass t p request
    else none
  | .wake t inTime =>
    (s.calls t).bind fun (p, request) =>
      if inTime then s.pass t p request
      else some { s with calls := Function.update s.calls t none }

/-- What the callers of the queue `p` keep to: `max_msgs` is positive,
`max_msgs * max_size` does not wrap, and the sizes of messages are in range. -/
def Proper (p : P) (s : MsgSystem P T) : Action P T → Prop
  | .create _ maxMsgs maxSize mq _ => mq = some p → 0 < maxMsgs ∧ maxMsgs * maxSize < 2 ^ 32
  | .call _ mqid request => s.findMsgQueue mqid = some p → request.Sized (s.queueAt p).maxSize
  | .wake _ _ => True

instance (p : P) (s : MsgSystem P T) : (a : Action P T) → Decidable (Proper p s a)
  | .create _ maxMsgs maxSize mq _ =>
    inferInstanceAs (Decidable (mq = some p → 0 < maxMsgs ∧ maxMsgs * maxSize < 2 ^ 32))
  | .call _ mqid request =>
    inferInstanceAs (Decidable (s.findMsgQueue mqid = some p →
      request.Sized (s.queueAt p).maxSize))
  | .wake _ _ => isTrue trivial

end MsgSystem

/-! ### A queue as a list -/

/-- The messages sent, in order. -/
def sentIn : List Event → List Message
  | [] => []
  | .sent msg :: events => msg :: sentIn events
  | .received _ _ :: events => sentIn events

@[simp] theorem sentIn_append (es fs : List Event) : sentIn (es ++ fs) = sentIn es ++ sentIn fs := by
  induction es with
  | nil => rfl
  | cons e es ih => cases e <;> simp [sentIn, ih]

/-- `Explains events delivered pending`: a list that starts empty, appends each
message sent, and gives for each receive the earliest message it wants, has given
`delivered` and still holds `pending`. The bytes a receiver got are those of the
message, as far as the size it asked for goes. -/
inductive Explains : List Event → (delivered pending : List Message) → Prop where
  | empty : Explains [] [] []
  | sent {es delivered pending} (msg) (h : Explains es delivered pending) :
      Explains (es ++ [.sent msg]) delivered (pending ++ [msg])
  | received {es delivered before msg after type bytes}
      (h : Explains es delivered (before ++ msg :: after))
      (first : ∀ m ∈ before, Wanted type m = false) (wanted : Wanted type msg = true)
      (copied : bytes.take msg.length = msg.take bytes.length) :
      Explains (es ++ [.received type bytes]) (delivered ++ [msg]) (before ++ after)

/-- **Nothing is lost or duplicated.** What was sent is what was delivered together
with what is pending. -/
theorem Explains.perm {es : List Event} {delivered pending : List Message}
    (h : Explains es delivered pending) : (sentIn es).Perm (delivered ++ pending) := by
  induction h with
  | empty => exact .nil
  | sent msg _ ih =>
    rw [sentIn_append, ← List.append_assoc]
    exact ih.append_right [msg]
  | @received es delivered before msg after _ _ _ _ _ _ ih =>
    simp only [sentIn_append, sentIn, List.append_nil]
    apply ih.trans
    rw [List.append_assoc]
    exact (List.perm_middle).append_left delivered

/-- The pending messages are in the order in which they were sent. -/
theorem Explains.sublist {es : List Event} {delivered pending : List Message}
    (h : Explains es delivered pending) : pending.Sublist (sentIn es) := by
  induction h with
  | empty => exact .slnil
  | sent msg _ ih =>
    rw [sentIn_append]
    exact ih.append (.refl [msg])
  | received _ _ _ _ ih =>
    simp only [sentIn_append, sentIn, List.append_nil]
    exact ((List.Sublist.refl _).append (List.sublist_cons_self _ _)).trans ih

/-- The answers of a queue that stands for the list `pending`. A send appends when
there is room, and otherwise fails or waits; a receive takes the earliest message of
its type; when there is none it fails, or waits if the list is empty. The calls that
fail or wait leave the queue as it was, and every pass of a call ends. -/
structure Answers (mq : MsgQueue) (pending : List Message) : Prop where
  sends : ∀ msg timeout, msgHeaderSize ≤ msg.length → msg.length ≤ mq.maxSize →
    pending.length < mq.maxMsgs →
    ∃ mq', msgqSend mq msg timeout = (mq', .done []) ∧ Holds mq' (pending ++ [msg])
  full : ∀ msg timeout, mq.maxMsgs ≤ pending.length →
    msgqSend mq msg timeout = (mq, if timeout = 0 then .fails else .waits)
  receives : ∀ size type timeout before msg after, pending = before ++ msg :: after →
    (∀ m ∈ before, Wanted type m = false) → Wanted type msg = true → size ≤ mq.maxSize →
    ∃ mq' bytes, msgqReceive mq size type timeout = some (mq', .done bytes) ∧
      bytes.length = size ∧ bytes.take msg.length = msg.take size ∧ Holds mq' (before ++ after)
  unmatched : ∀ size type timeout, (∀ m ∈ pending, Wanted type m = false) →
    msgqReceive mq size type timeout =
      some (mq, if pending = [] ∧ timeout ≠ 0 then .waits else .fails)

section Answering

variable {mq : MsgQueue} {pending before after : List Message} {msg : Message}
  {size type timeout : Nat}

/-- The first message wanted, as a position. -/
theorem findIdx?_first (first : ∀ m ∈ before, Wanted type m = false)
    (wanted : Wanted type msg = true) :
    (before ++ msg :: after).findIdx? (Wanted type) = some before.length := by
  have hnone : before.findIdx? (Wanted type) = none := List.findIdx?_eq_none_iff.mpr first
  simp [List.findIdx?_append, hnone, List.findIdx?_cons, wanted]

/-- A receive gives the first message wanted and keeps the others. -/
theorem Holds.receive (timeout : Nat) (h : Holds mq (before ++ msg :: after))
    (first : ∀ m ∈ before, Wanted type m = false) (wanted : Wanted type msg = true)
    (hsize : size ≤ mq.maxSize) :
    ∃ mq' bytes, msgqReceive mq size type timeout = some (mq', .done bytes) ∧
      bytes.length = size ∧ bytes.take msg.length = msg.take size ∧
      Holds mq' (before ++ after) ∧ mq'.maxSize = mq.maxSize := by
  have hlt : before.length < (before ++ msg :: after).length := by simp
  obtain ⟨mq', hreceive, hholds, hmax, -, -⟩ :=
    h.receive_some size timeout (findIdx?_first first wanted) hlt
  have hslot := h.prefix_slot hlt
  rw [List.getElem_append_right (Nat.le_refl _)] at hslot
  simp only [Nat.sub_self, List.getElem_cons_zero] at hslot
  refine ⟨mq', _, hreceive, readBytes_length, ?_, ?_, hmax⟩
  · -- Both are the first bytes of the slot.
    obtain ⟨rest, hrest⟩ := hslot
    rw [← take_readBytes hsize, ← slotAt, ← hrest, List.take_take, Nat.min_comm, ← List.take_take,
      List.take_left]
  · rwa [List.eraseIdx_append_of_length_le (Nat.le_refl _), Nat.sub_self, List.eraseIdx_cons_zero]
      at hholds

theorem Holds.answers (h : Holds mq pending) : Answers mq pending where
  sends msg timeout hlo hhi room := by
    obtain ⟨hdone, hholds⟩ := h.send timeout room hlo hhi
    exact ⟨_, Prod.ext rfl hdone, hholds⟩
  full msg timeout hfull := by
    have hle := h.count_le
    rw [h.count] at hle
    exact msgqSend_full h (Nat.le_antisymm hle hfull)
  receives size type timeout before msg after hpending first wanted hsize := by
    subst hpending
    obtain ⟨mq', bytes, hreceive, hlen, hbytes, hholds, -⟩ :=
      h.receive timeout first wanted hsize
    exact ⟨mq', bytes, hreceive, hlen, hbytes, hholds⟩
  unmatched size type timeout hnone := by
    by_cases hempty : pending = []
    · rw [msgqReceive_empty h hempty]
      by_cases htimeout : timeout = 0 <;> simp [hempty, htimeout]
    · rw [h.receive_none hempty (List.findIdx?_eq_none_iff.mpr hnone), if_neg fun hc => hempty hc.1]

/-- Either the first message wanted or no such message. -/
theorem first_or_none (type : Nat) (pending : List Message) :
    (∀ m ∈ pending, Wanted type m = false) ∨
      ∃ before msg after, pending = before ++ msg :: after ∧
        (∀ m ∈ before, Wanted type m = false) ∧ Wanted type msg = true := by
  cases hfind : pending.find? (Wanted type) with
  | none =>
    left
    intro m hm
    simpa using List.find?_eq_none.mp hfind m hm
  | some msg =>
    right
    obtain ⟨hwanted, before, after, hpending, hfirst⟩ := List.find?_eq_some_iff_append.mp hfind
    exact ⟨before, msg, after, hpending, by simpa using hfirst, hwanted⟩

end Answering

/-! ### Runs -/

namespace MsgSystem

variable {P T : Type} {s s' : MsgSystem P T} {p q : P} {t : T} {request : Request}

/-- The queue `p` holds what its history explains, and every call that waits names a
queue and a size in range. -/
structure Inv (p : P) (s : MsgSystem P T) : Prop where
  unmade : p ∉ s.msgQueues → s.events p = []
  made : p ∈ s.msgQueues → ∃ delivered pending,
    Explains (s.events p) delivered pending ∧ Holds (s.queueAt p) pending
  waiting : ∀ t q request, s.calls t = some (q, request) →
    q ∈ s.msgQueues ∧ (q = p → request.Sized (s.queueAt p).maxSize)

theorem start_inv (memory : P → MsgQueue) : Inv p (start memory : MsgSystem P T) where
  unmade := fun _ => rfl
  made := fun h => absurd h List.not_mem_nil
  waiting := fun _ _ _ h => nomatch h

theorem findMsgQueue_mem {key : Int} (h : s.findMsgQueue key = some p) : p ∈ s.msgQueues :=
  List.mem_of_find?_eq_some h

/-- The queue `p` stands for a list: its history is that of the list, its ring holds
the list, it answers as the list does, nothing sent is lost or duplicated, and what is
pending is in send order. -/
def RefinesList (p : P) (s : MsgSystem P T) : Prop :=
  p ∈ s.msgQueues → ∃ delivered pending,
    Explains (s.events p) delivered pending ∧ Holds (s.queueAt p) pending ∧
      Answers (s.queueAt p) pending ∧ (sentIn (s.events p)).Perm (delivered ++ pending) ∧
      pending.Sublist (sentIn (s.events p))

theorem Inv.refinesList (h : Inv p s) : RefinesList p s := by
  intro hp
  obtain ⟨delivered, pending, hexplains, hholds⟩ := h.made hp
  exact ⟨delivered, pending, hexplains, hholds, hholds.answers, hexplains.perm, hexplains.sublist⟩

variable [DecidableEq P] [DecidableEq T]

omit [DecidableEq T] in
/-- A new queue holds nothing, and the other queues stay as they are. -/
theorem Inv.create {key : Int} {maxMsgs maxSize : Nat} {mq : Option P} {buffer : Option Bytes}
    (h : Inv p s) (proper : mq = some p → 0 < maxMsgs ∧ maxMsgs * maxSize < 2 ^ 32)
    (hcreate : s.msgqCreate key maxMsgs maxSize mq buffer = some s') : Inv p s' := by
  unfold msgqCreate at hcreate
  split at hcreate
  · rename_i q contents _
    split at hcreate
    · cases hcreate
    · rename_i hfresh
      cases hcreate
      by_cases hqp : q = p
      · subst hqp
        obtain ⟨hslots, hfits⟩ := proper rfl
        refine ⟨fun hnot => absurd List.mem_cons_self hnot, fun _ => ⟨[], [], ?_, ?_⟩, ?_⟩
        · have hevents := h.unmade hfresh
          simp only [hevents]
          exact .empty
        · simp only [Function.update_self]
          exact newQueue_holds hslots hfits
        · intro u r request hcall
          obtain ⟨hmem, -⟩ := h.waiting u r request hcall
          refine ⟨List.mem_cons_of_mem _ hmem, ?_⟩
          rintro rfl
          exact absurd hmem hfresh
      · have hne : p ≠ q := fun e => hqp e.symm
        refine ⟨fun hnot => h.unmade (fun hmem => hnot (List.mem_cons_of_mem _ hmem)), ?_, ?_⟩
        · intro hmem
          simp only [Function.update_of_ne hne]
          exact h.made ((List.mem_cons.mp hmem).resolve_left hne)
        · intro u r request hcall
          obtain ⟨hmem, hsized⟩ := h.waiting u r request hcall
          simp only [Function.update_of_ne hne]
          exact ⟨List.mem_cons_of_mem _ hmem, hsized⟩
  · cases hcreate
    exact h

/-- A pass on another queue. -/
theorem Inv.finish_other {mq : MsgQueue} {outcome : Outcome} (h : Inv p s) (hne : q ≠ p)
    (hq : q ∈ s.msgQueues) : Inv p (s.finish t q request mq outcome) := by
  have hqueue : (s.finish t q request mq outcome).queueAt p = s.queueAt p :=
    Function.update_of_ne hne.symm _ _
  have hevents : (s.finish t q request mq outcome).events p = s.events p := by
    cases outcome with
    | done bytes => exact Function.update_of_ne hne.symm _ _
    | fails => rfl
    | waits => rfl
  refine ⟨fun hnot => hevents ▸ h.unmade hnot, ?_, ?_⟩
  · intro hmem
    rw [hqueue, hevents]
    exact h.made hmem
  · intro u r request' hcall
    rw [hqueue]
    by_cases hut : u = t
    · subst hut
      simp only [finish, Function.update_self] at hcall
      split at hcall
      · cases hcall
        exact ⟨hq, fun e => absurd e hne⟩
      · cases hcall
    · simp only [finish, Function.update_of_ne hut] at hcall
      exact h.waiting u r request' hcall

/-- A pass on the queue itself, which keeps its slot size. -/
theorem Inv.finish_self {mq : MsgQueue} {outcome : Outcome} (h : Inv p s) (hp : p ∈ s.msgQueues)
    (hsized : request.Sized (s.queueAt p).maxSize) (hmax : mq.maxSize = (s.queueAt p).maxSize)
    (hexplains : ∃ delivered pending,
      Explains ((s.finish t p request mq outcome).events p) delivered pending ∧ Holds mq pending) :
    Inv p (s.finish t p request mq outcome) := by
  have hqueue : (s.finish t p request mq outcome).queueAt p = mq := Function.update_self _ _ _
  refine ⟨fun hnot => absurd hp hnot, ?_, ?_⟩
  · intro _
    rw [hqueue]
    exact hexplains
  · intro u r request' hcall
    rw [hqueue, hmax]
    by_cases hut : u = t
    · subst hut
      simp only [finish, Function.update_self] at hcall
      split at hcall
      · cases hcall
        exact ⟨hp, fun _ => hsized⟩
      · cases hcall
    · simp only [finish, Function.update_of_ne hut] at hcall
      exact h.waiting u r request' hcall

@[simp] theorem finish_events_done {mq : MsgQueue} {bytes : List (BitVec 8)} :
    (s.finish t p request mq (.done bytes)).events p = s.events p ++ [request.event bytes] :=
  Function.update_self _ _ _

/-- A pass that fails or waits adds nothing to the history. -/
theorem finish_events_of_ne {mq : MsgQueue} {outcome : Outcome}
    (h : ∀ bytes, outcome ≠ .done bytes) : (s.finish t p request mq outcome).events = s.events := by
  cases outcome with
  | done bytes => exact absurd rfl (h bytes)
  | fails => rfl
  | waits => rfl

/-- A pass that leaves the queue as it was. -/
theorem Inv.finish_same {outcome : Outcome} (h : Inv p s) (hp : p ∈ s.msgQueues)
    (hsized : request.Sized (s.queueAt p).maxSize) (hnot : ∀ bytes, outcome ≠ .done bytes) :
    Inv p (s.finish t p request (s.queueAt p) outcome) := by
  apply h.finish_self hp hsized rfl
  rw [finish_events_of_ne hnot]
  exact h.made hp

theorem ite_not_done {c : Prop} [Decidable c] :
    ∀ bytes, (if c then Outcome.fails else .waits) ≠ .done bytes := by
  intro bytes h
  split at h <;> cases h

theorem Inv.pass (h : Inv p s) (hq : q ∈ s.msgQueues)
    (hsized : q = p → request.Sized (s.queueAt p).maxSize) (hpass : s.pass t q request = some s') :
    Inv p s' := by
  by_cases hqp : q = p
  · subst hqp
    obtain ⟨delivered, pending, hexplains, hholds⟩ := h.made hq
    have hsized := hsized rfl
    cases request with
    | send msg timeout =>
      simp only [MsgSystem.pass] at hpass
      cases hpass
      by_cases hroom : pending.length < (s.queueAt q).maxMsgs
      · obtain ⟨mq', hsend, hholds'⟩ := hholds.answers.sends msg timeout hsized.1 hsized.2 hroom
        have hmax : mq'.maxSize = (s.queueAt q).maxSize := by
          have hfst := congrArg (fun r => r.1.maxSize) hsend
          simp only [msgqSend] at hfst
          split at hfst <;> exact hfst.symm
        rw [hsend]
        apply h.finish_self hq hsized hmax
        rw [finish_events_done]
        exact ⟨_, _, hexplains.sent msg, hholds'⟩
      · rw [hholds.answers.full msg timeout (by omega)]
        exact h.finish_same hq hsized ite_not_done
    | receive size type timeout =>
      rcases first_or_none type pending with hnone | ⟨before, msg, after, rfl, first, wanted⟩
      · simp only [MsgSystem.pass, hholds.answers.unmatched size type timeout hnone,
          Option.map_some] at hpass
        cases hpass
        apply h.finish_same hq hsized
        intro bytes hc
        split at hc <;> cases hc
      · obtain ⟨mq', bytes, hreceive, hlen, hcopied, hholds', hmax⟩ :=
          hholds.receive timeout first wanted hsized.2
        simp only [MsgSystem.pass, hreceive, Option.map_some] at hpass
        cases hpass
        apply h.finish_self hq hsized hmax
        rw [finish_events_done]
        rw [← hlen] at hcopied
        exact ⟨_, _, hexplains.received first wanted hcopied, hholds'⟩
  · have hfinish : ∃ mq outcome, s' = s.finish t q request mq outcome := by
      cases request with
      | send msg timeout => exact ⟨_, _, (Option.some.inj hpass).symm⟩
      | receive size type timeout =>
        obtain ⟨⟨mq, outcome⟩, -, rfl⟩ := Option.map_eq_some_iff.mp hpass
        exact ⟨mq, outcome, rfl⟩
    obtain ⟨mq, outcome, rfl⟩ := hfinish
    exact h.finish_other hqp hq

/-- **Step.** -/
theorem Inv.step {a : Action P T} (h : Inv p s) (proper : Proper p s a)
    (hstep : s.step a = some s') : Inv p s' := by
  cases a with
  | create key maxMsgs maxSize mq buffer => exact h.create proper hstep
  | call t mqid request =>
    simp only [MsgSystem.step] at hstep
    split at hstep
    · cases hfind : s.findMsgQueue mqid with
      | none =>
        rw [hfind] at hstep
        cases hstep
        exact h
      | some q =>
        rw [hfind] at hstep
        apply h.pass (findMsgQueue_mem hfind) _ hstep
        rintro rfl
        exact proper hfind
    · cases hstep
  | wake t inTime =>
    obtain ⟨⟨q, request⟩, hcall, hwake⟩ := Option.bind_eq_some_iff.mp hstep
    obtain ⟨hq, hsized⟩ := h.waiting t q request hcall
    simp only at hwake
    split at hwake
    · exact h.pass hq hsized hwake
    · cases hwake
      refine ⟨h.unmade, h.made, ?_⟩
      intro u r request' hcall'
      by_cases hut : u = t
      · subst hut
        simp at hcall'
      · simp only [Function.update_of_ne hut] at hcall'
        exact h.waiting u r request' hcall'

/-- **A message queue is a list.** In every state of every run in which the callers of
the queue `p` keep to its limits. -/
theorem queue_refines_list (memory : P → MsgQueue) (p : P) (as : List (Action P T))
    (proper : Meets step (Proper p) (start memory) as) :
    Along step (RefinesList p) (start memory) as := by
  have hinv : Along step (Inv p) (start memory) as :=
    along_of_meets (fun _ _ _ h hok hstep => h.step hok hstep) (start_inv memory) proper
  exact hinv.mono fun _ h => h.refinesList

/-- Three messages in a queue of four; the second one is taken out of the middle. -/
theorem queue_refines_list_run :
    let header (type : BitVec 8) : Message := [type, 0, 0, 0, 0, 0, 0, 0]
    Along (step (P := Nat) (T := Nat)) (RefinesList 0)
      (start fun _ => newQueue 0 0 0 fun _ => 0)
      [.create 5 4 12 (some 0) (some fun _ => 0), .call 0 5 (.send (header 1) 0),
        .call 1 5 (.send (header 2) 0), .call 0 5 (.send (header 1) 0),
        .call 2 5 (.receive 8 2 0), .call 2 5 (.receive 8 0 0)] :=
  queue_refines_list _ 0 _ (by decide)

end MsgSystem

end ArmKernel.Ipc

/-
Identifiers of message queues and shared memory (`src/msg_queue.c`, `src/shared_mem.c`).

`msgq_create` and `shm_create` return 0 when they succeed, and `msgq_send`, `msgq_receive` and
`shm_attach` look the identifier they are given up among the keys. Beside each system,
`issued` keeps which identifier was returned for which object; `QueueIds` and `SegmentIds`
say that the identifiers lead to their objects. `ids_address_iff` says in which runs
they do: in those where every object created has the key 0, as `ipc_init.c` with its
keys 1234 and 5678 does not.
-/
import ArmKernel.Ipc.MsgRuns
import ArmKernel.Ipc.SharedMemRuns
import ArmKernel.Support.Registry
import Mathlib.Data.List.Find

namespace ArmKernel.Ipc

open ArmKernel.Support

/-! ### Message queues -/

namespace MsgSystem

variable {P T : Type} [DecidableEq P] [DecidableEq T]

omit [DecidableEq P] [DecidableEq T] in
/-- What `msgq_create` returns. -/
def msgqCreateReturn (s : MsgSystem P T) (key : Int) (mq : Option P) (buffer : Option Bytes) : Int :=
  match s.findMsgQueue key, mq, buffer with
  | none, some _, some _ => 0
  | _, _, _ => -1

end MsgSystem

/-- The message queues, and the identifiers returned for them. -/
structure MsgIds (P T : Type) where
  system : MsgSystem P T
  issued : List (P × Int)

namespace MsgIds

variable {P T : Type} [DecidableEq P] [DecidableEq T]

/-- No queue was made yet. -/
def start (memory : P → MsgQueue) : MsgIds P T := { system := MsgSystem.start memory, issued := [] }

/-- One step. A create that returns no error returned an identifier. -/
def step (s : MsgIds P T) (a : Action P T) : Option (MsgIds P T) :=
  (s.system.step a).map fun system =>
    { system
      issued :=
        match a with
        | .create key _ _ (some p) buffer =>
          let id := s.system.msgqCreateReturn key (some p) buffer
          if 0 ≤ id then (p, id) :: s.issued else s.issued
        | _ => s.issued }

/-- Each identifier leads to the queue it was returned for: a call with it by a task that is
in no other call is a pass on that queue. No two queues have one identifier. -/
def QueueIds (s : MsgIds P T) : Prop :=
  Addressed s.system.findMsgQueue s.issued ∧
    ∀ p id, (p, id) ∈ s.issued → ∀ t request, (s.system.calls t).isNone →
      s.system.step (.call t id request) = s.system.pass t p request

/-- A create that makes a queue makes it under the key 0. -/
def KeyZero (s : MsgIds P T) : Action P T → Prop
  | .create key _ _ mq buffer =>
    s.system.findMsgQueue key = none → mq.isSome → buffer.isSome → key = 0
  | _ => True

end MsgIds

/-! #### The keys of queues -/

section Keys

variable {P T : Type} {s s' : MsgSystem P T} {p : P} {t : T} {request : Request}

theorem msgqSend_key (mq : MsgQueue) (msg : Message) (timeout : Nat) :
    (msgqSend mq msg timeout).1.key = mq.key := by
  unfold msgqSend
  split <;> rfl

theorem msgqReceive_key {mq mq' : MsgQueue} {size type timeout : Nat} {outcome : Outcome}
    (h : msgqReceive mq size type timeout = some (mq', outcome)) : mq'.key = mq.key := by
  unfold msgqReceive at h
  split at h
  · cases h
    rfl
  · split at h
    · cases h
      rfl
    · obtain ⟨buffer, -, hdone⟩ := Option.map_eq_some_iff.mp h
      cases hdone
      rfl

/-- Lists of queues with the same keys are searched alike. -/
theorem findMsgQueue_congr (hqueues : s'.msgQueues = s.msgQueues)
    (hkeys : ∀ p, (s'.queueAt p).key = (s.queueAt p).key) :
    s'.findMsgQueue = s.findMsgQueue := by
  funext key
  unfold MsgSystem.findMsgQueue
  rw [hqueues]
  simp only [hkeys]

variable [DecidableEq P] [DecidableEq T]

/-- A pass leaves the list and the keys as they are. -/
theorem pass_find (h : s.pass t p request = some s') : s'.findMsgQueue = s.findMsgQueue := by
  have hfinish : ∃ mq outcome, s' = s.finish t p request mq outcome ∧ mq.key = (s.queueAt p).key := by
    cases request with
    | send msg timeout =>
      cases h
      exact ⟨_, _, rfl, msgqSend_key _ _ _⟩
    | receive size type timeout =>
      obtain ⟨⟨mq, outcome⟩, hreceive, rfl⟩ := Option.map_eq_some_iff.mp h
      exact ⟨mq, outcome, rfl, msgqReceive_key hreceive⟩
  obtain ⟨mq, outcome, rfl, hkey⟩ := hfinish
  refine findMsgQueue_congr rfl ?_
  intro q
  by_cases hq : q = p
  · subst hq
    simpa only [MsgSystem.finish, Function.update_self] using hkey
  · simp only [MsgSystem.finish, Function.update_of_ne hq]

omit [DecidableEq T] in
/-- `msgq_create` fails and changes nothing, or registers a queue under a free key. -/
theorem msgqCreate_cases {key : Int} {maxMsgs maxSize : Nat} {mq : Option P} {buffer : Option Bytes}
    (h : s.msgqCreate key maxMsgs maxSize mq buffer = some s') :
    (s' = s ∧ s.msgqCreateReturn key mq buffer = -1) ∨
      ∃ p, mq = some p ∧ buffer.isSome ∧ s.msgqCreateReturn key mq buffer = 0 ∧
        Registers s.findMsgQueue s'.findMsgQueue key p := by
  unfold MsgSystem.msgqCreate at h
  split at h
  · rename_i p contents hfree
    split at h
    · cases h
    · rename_i hunused
      cases h
      refine .inr ⟨p, rfl, rfl, by simp [MsgSystem.msgqCreateReturn, hfree], hfree, ?_, ?_, ?_⟩
      · exact fun id hfind => hunused (MsgSystem.findMsgQueue_mem hfind)
      · simp [MsgSystem.findMsgQueue, newQueue]
      · intro id hne
        have hother : ∀ q ∈ s.msgQueues, q ≠ p := fun q hq e => hunused (e ▸ hq)
        unfold MsgSystem.findMsgQueue
        rw [List.find?_cons_of_neg (by simpa [newQueue] using hne.symm)]
        refine List.find?_congr ?_
        intro q hq
        simp only [Function.update_of_ne (hother q hq)]
  · rename_i hnot
    cases h
    refine .inl ⟨rfl, ?_⟩
    unfold MsgSystem.msgqCreateReturn
    split
    · rename_i p contents hfree
      exact absurd rfl (hnot p contents hfree rfl)
    · rfl

end Keys

namespace MsgIds

variable {P T : Type} [DecidableEq P] [DecidableEq T] {s s' : MsgIds P T} {a : Action P T}

/-- A call with an identifier that leads to a queue is a pass on that queue. -/
theorem queueIds_iff : s.QueueIds ↔ Addressed s.system.findMsgQueue s.issued := by
  refine ⟨And.left, fun h => ⟨h, ?_⟩⟩
  intro p id hmem t request hidle
  simp only [MsgSystem.step, if_pos hidle, h.reaches p id hmem]

/-- A step hands out no identifier and looks queues up as before, or it registers a queue
and hands out 0 for it. -/
theorem step_cases (hstep : s.step a = some s') :
    (s'.issued = s.issued ∧ s'.system.findMsgQueue = s.system.findMsgQueue ∧ s.KeyZero a) ∨
      ∃ key p, s'.issued = (p, 0) :: s.issued ∧
        Registers s.system.findMsgQueue s'.system.findMsgQueue key p ∧
        (s.KeyZero a ↔ key = 0) := by
  obtain ⟨system, hsystem, rfl⟩ := Option.map_eq_some_iff.mp hstep
  cases a with
  | create key maxMsgs maxSize mq buffer =>
    rcases msgqCreate_cases hsystem with ⟨rfl, hfails⟩ | ⟨p, rfl, hbuffer, hreturn, hregisters⟩
    · left
      refine ⟨?_, rfl, ?_⟩
      · cases mq with
        | none => rfl
        | some p => simp [hfails]
      · intro hfree hmq hbuffer
        obtain ⟨p, rfl⟩ := Option.isSome_iff_exists.mp hmq
        obtain ⟨contents, rfl⟩ := Option.isSome_iff_exists.mp hbuffer
        simp [MsgSystem.msgqCreateReturn, hfree] at hfails
    · right
      refine ⟨key, p, by simp [hreturn], hregisters, ?_⟩
      exact ⟨fun hzero => hzero hregisters.free rfl hbuffer, fun hkey _ _ _ => hkey⟩
  | call t mqid request =>
    left
    refine ⟨rfl, ?_, trivial⟩
    simp only [MsgSystem.step] at hsystem
    split at hsystem
    · split at hsystem
      · cases hsystem
        rfl
      · exact pass_find hsystem
    · cases hsystem
  | wake t inTime =>
    left
    refine ⟨rfl, ?_, trivial⟩
    obtain ⟨⟨q, request⟩, -, hwake⟩ := Option.bind_eq_some_iff.mp hsystem
    simp only at hwake
    split at hwake
    · exact pass_find hwake
    · cases hwake
      rfl

/-- **Step.** From identifiers that lead to their queues, a step leads to such identifiers
exactly when it makes no queue or makes one under the key 0. -/
theorem step_queueIds_iff (h : s.QueueIds) (hstep : s.step a = some s') :
    s'.QueueIds ↔ s.KeyZero a := by
  rw [queueIds_iff]
  exact (queueIds_iff.mp h).step_iff (step_cases hstep)

theorem start_queueIds (memory : P → MsgQueue) : (start memory : MsgIds P T).QueueIds :=
  queueIds_iff.mpr (addressed_nil _)

end MsgIds

/-! ### Shared memory -/

/-- A segment as `shm_create` made it. -/
def ShmSegment.made (seg : ShmSegment) : ShmSegment := { seg with refCount := 0 }

/-- The segments, and the identifiers returned for them. -/
structure ShmIds (T Table : Type) where
  system : ShmSystem T Table
  issued : List (ShmSegment × Int)

namespace ShmIds

variable {T Table : Type}

/-- No segment was made yet. -/
def start (table : Table) : ShmIds T Table := { system := shmStart table, issued := [] }

/-- The segment `shm_attach` finds, as it was made. -/
def lookup (shm : Shm Table) (shmid : Int) : Option ShmSegment :=
  (findShmSegment shm shmid).map ShmSegment.made

/-- One call. A create that returns no error returned an identifier. -/
def step [DecidableEq T] (tables : PageTables Table) (s : ShmIds T Table) (call : ShmCall T) :
    Option (ShmIds T Table) :=
  (shmStep tables s.system call).map fun system =>
    { system
      issued :=
        match call with
        | .create key size segAlloc (some physAddr) =>
          let id := (shmCreate s.system.shm key size segAlloc (some physAddr)).1
          if 0 ≤ id then ({ key, size, physAddr, refCount := 0 }, id) :: s.issued else s.issued
        | _ => s.issued }

/-- Each identifier leads to the segment it was returned for: attached at pages inside the
address space, it is the memory of that segment that is mapped there. No two segments
have one identifier. -/
def SegmentIds (tables : PageTables Table) (s : ShmIds T Table) : Prop :=
  Addressed (lookup s.system.shm) s.issued ∧
    ∀ seg id, (seg, id) ∈ s.issued → ∀ addr, 0 < addr → pageSize ∣ addr →
      addr + pageSize * seg.pageCount ≤ 2 ^ 32 →
      ∃ shm, shmAttach tables s.system.shm id (some addr) = some (some addr, shm) ∧
        SetPages tables s.system.shm.table addr seg.size seg.entryAt shm.table

/-- A create that makes a segment makes it under the key 0. -/
def KeyZero (s : ShmIds T Table) : ShmCall T → Prop
  | .create key _ segAlloc phys =>
    findShmSegment s.system.shm key = none → segAlloc → phys.isSome → key = 0
  | _ => True

/-! #### The keys of segments -/

section Keys

variable {tables : PageTables Table} {shm shm' : Shm Table} {key id : Int} {refCount : Nat}

/-- Counting attachments leaves the segments in their places. -/
theorem lookup_setRefCount (h : shm'.segments = setRefCount shm.segments key refCount) :
    lookup shm' = lookup shm := by
  funext id
  unfold lookup findShmSegment
  rw [h, setRefCount, List.find?_map]
  have hsame : ((fun seg : ShmSegment => decide (seg.key = id)) ∘
      fun seg => if seg.key = key then { seg with refCount } else seg) =
      fun seg => decide (seg.key = id) := by
    funext seg
    simp only [Function.comp_apply]
    split <;> rfl
  rw [hsame, Option.map_map]
  refine congrArg (Option.map · _) (funext ?_)
  intro seg
  simp only [Function.comp_apply]
  split <;> rfl

theorem shmAttach_lookup {virt result : Option Nat}
    (h : shmAttach tables shm id virt = some (result, shm')) : lookup shm' = lookup shm := by
  unfold shmAttach at h
  split at h
  · cases h
    rfl
  · split at h
    · cases h
      rfl
    · obtain ⟨table, -, hresult⟩ := Option.map_eq_some_iff.mp h
      cases hresult
      exact lookup_setRefCount rfl

theorem shmDetach_lookup {addr : Nat} {areas : Option Nat} {result : Int}
    (h : shmDetach tables shm addr areas = some (result, shm')) : lookup shm' = lookup shm := by
  rcases shmDetach_cases h with ⟨-, rfl, -⟩ | ⟨seg, -, -, -, hsegments, -⟩
  · rfl
  · exact lookup_setRefCount hsegments

/-- `shm_create` fails and changes nothing, or registers a segment under a free key. -/
theorem shmCreate_cases (shm : Shm Table) (key : Int) (size : Nat) (segAlloc : Bool)
    (phys : Option Nat) :
    (shmCreate shm key size segAlloc phys = (-1, shm) ∧
        (findShmSegment shm key = none → segAlloc → phys.isSome → False)) ∨
      ∃ physAddr, phys = some physAddr ∧ segAlloc = true ∧
        (shmCreate shm key size segAlloc phys).1 = 0 ∧
        Registers (lookup shm) (lookup (shmCreate shm key size segAlloc phys).2) key
          { key, size, physAddr, refCount := 0 } := by
  unfold shmCreate
  cases hfree : findShmSegment shm key with
  | some seg => exact .inl ⟨rfl, fun h => nomatch h⟩
  | none =>
    cases segAlloc with
    | false => exact .inl ⟨rfl, fun _ h => nomatch h⟩
    | true =>
      cases phys with
      | none => exact .inl ⟨rfl, fun _ _ h => nomatch h⟩
      | some physAddr =>
        refine .inr ⟨physAddr, rfl, rfl, rfl, by simp [lookup, hfree], ?_, ?_, ?_⟩
        · intro id hfind
          obtain ⟨seg, hseg, hmade⟩ := Option.map_eq_some_iff.mp hfind
          obtain ⟨hmem, -⟩ := findShmSegment_eq_some hseg
          exact findShmSegment_eq_none hfree seg hmem (congrArg ShmSegment.key hmade)
        · simp [lookup, findShmSegment, ShmSegment.made]
        · intro id hne
          simp [lookup, findShmSegment, hne.symm]

end Keys

variable [DecidableEq T] {tables : PageTables Table} {s s' : ShmIds T Table} {call : ShmCall T}

omit [DecidableEq T] in
/-- Attaching with an identifier that leads to a segment maps that segment. -/
theorem segmentIds_iff :
    s.SegmentIds tables ↔ Addressed (lookup s.system.shm) s.issued := by
  refine ⟨And.left, fun h => ⟨h, ?_⟩⟩
  intro seg id hmem addr hpos haddr hend
  obtain ⟨found, hfind, rfl⟩ := Option.map_eq_some_iff.mp (h.reaches seg id hmem)
  obtain ⟨table, hattach, hpages⟩ := shmAttach_spec tables hfind hpos haddr hend
  exact ⟨_, hattach, hpages⟩

/-- A step hands out no identifier and looks segments up as before, or it registers a segment
and hands out 0 for it. -/
theorem step_cases (hstep : step tables s call = some s') :
    (s'.issued = s.issued ∧ lookup s'.system.shm = lookup s.system.shm ∧ s.KeyZero call) ∨
      ∃ key seg, s'.issued = (seg, 0) :: s.issued ∧
        Registers (lookup s.system.shm) (lookup s'.system.shm) key seg ∧
        (s.KeyZero call ↔ key = 0) := by
  obtain ⟨system, hsystem, rfl⟩ := Option.map_eq_some_iff.mp hstep
  cases call with
  | create key size segAlloc phys =>
    cases hsystem
    rcases shmCreate_cases s.system.shm key size segAlloc phys with
      ⟨hfails, hnot⟩ | ⟨physAddr, rfl, rfl, hreturn, hregisters⟩
    · refine .inl ⟨?_, by rw [hfails], fun hfree hseg hphys => (hnot hfree hseg hphys).elim⟩
      cases phys with
      | none => rfl
      | some physAddr => simp [hfails]
    · refine .inr ⟨key, _, by simp [hreturn], hregisters, ?_⟩
      have hfree : findShmSegment s.system.shm key = none :=
        Option.map_eq_none_iff.mp hregisters.free
      exact ⟨fun hzero => hzero hfree rfl rfl, fun hkey _ _ _ => hkey⟩
  | attach task shmid virt =>
    left
    refine ⟨rfl, ?_, trivial⟩
    simp only [shmStep] at hsystem
    split at hsystem
    · split at hsystem
      · obtain ⟨⟨result, shm⟩, hattach, rfl⟩ := Option.map_eq_some_iff.mp hsystem
        exact shmAttach_lookup hattach
      · cases hsystem
    · obtain ⟨⟨result, shm⟩, hattach, rfl⟩ := Option.map_eq_some_iff.mp hsystem
      exact shmAttach_lookup hattach
  | detach task addr areas =>
    left
    obtain ⟨result, shm, hdetach, rfl⟩ := shmStep_detach hsystem
    exact ⟨rfl, shmDetach_lookup hdetach, trivial⟩

/-- **Step.** From identifiers that lead to their segments, a step leads to such
identifiers exactly when it makes no segment or makes one under the key 0. -/
theorem step_segmentIds_iff (h : s.SegmentIds tables) (hstep : step tables s call = some s') :
    s'.SegmentIds tables ↔ s.KeyZero call := by
  rw [segmentIds_iff]
  exact (segmentIds_iff.mp h).step_iff (step_cases hstep)

omit [DecidableEq T] in
theorem start_segmentIds (tables : PageTables Table) (table : Table) :
    (start table : ShmIds T Table).SegmentIds tables :=
  segmentIds_iff.mpr (addressed_nil _)

end ShmIds

/-! ### Runs -/

/-- **Identifiers.** The identifiers `msgq_create` and `shm_create` return lead to the objects
created, and differ for different objects, in exactly the runs in which every object is
created under the key 0. -/
theorem ids_address_iff {P T Table : Type} [DecidableEq P] [DecidableEq T]
    (memory : P → MsgQueue) (tables : PageTables Table) (table : Table) (as : List (Action P T))
    (calls : List (ShmCall T)) :
    (Along MsgIds.step MsgIds.QueueIds (.start memory) as ↔
      Meets MsgIds.step MsgIds.KeyZero (.start memory) as) ∧
    (Along (ShmIds.step tables) (ShmIds.SegmentIds tables) (.start table) calls ↔
      Meets (ShmIds.step tables) ShmIds.KeyZero (.start table) calls) := by
  constructor
  · exact along_iff_meets (fun _ h => h)
      (fun _ _ _ h hok hstep => (MsgIds.step_queueIds_iff h hstep).mpr hok)
      (fun _ _ _ h hbad hstep h' => hbad ((MsgIds.step_queueIds_iff h hstep).mp h'))
      (MsgIds.start_queueIds memory) as
  · exact along_iff_meets (fun _ h => h)
      (fun _ _ _ h hok hstep => (ShmIds.step_segmentIds_iff h hstep).mpr hok)
      (fun _ _ _ h hbad hstep h' => hbad ((ShmIds.step_segmentIds_iff h hstep).mp h'))
      (ShmIds.start_segmentIds tables table) calls

/-- The queue of `producer_task` and the segment of `task1`: neither is found by the identifier
its create returned. -/
theorem created_not_found :
    ¬ Along (MsgIds.step (P := Nat) (T := Nat)) MsgIds.QueueIds
        (.start fun _ => newQueue 0 0 0 fun _ => 0)
        [.create 1234 10 108 (some 0) (some fun _ => 0)] ∧
    ¬ Along (ShmIds.step (T := Nat) pageEntries) (ShmIds.SegmentIds pageEntries)
        (.start fun _ => none) [.create 5678 4096 true (some 0x40000000)] := by
  constructor
  · intro h
    have hids : Addressed _ [((0 : Nat), (0 : Int))] := (h.2 _ rfl).1
    exact absurd (hids.reaches 0 0 (List.mem_singleton.mpr rfl)) (by decide)
  · intro h
    have hids : Addressed _ [(({ key := 5678, size := 4096, physAddr := 0x40000000, refCount := 0 }
      : ShmSegment), (0 : Int))] := (h.2 _ rfl).1
    have hreach := hids.reaches _ 0 (List.mem_singleton.mpr rfl)
    cases hreach

end ArmKernel.Ipc

/-
The clients of the WebSocket server (`src/server.c`: `add_client`, `remove_client`,
`broadcast_message`, the accept loop of `ws_server_start` and the end of `client_thread`).

The accept loop and one thread for each connection run together; what a thread does under
`client_manager.lock` is one step, and so is every call of the C library. Descriptors and
addresses are used again once they are closed or freed. `step` is the server, `System.Sound`
its invariant.

* `broadcasts_reach_live`: whatever the order of steps, a broadcast sends once to each of at
  most `MAX_CLIENTS` connections, all of them allocated and with a socket of their own that
  is open.
* `registration_decided_once`: whether a connection is listed is decided when it is accepted.
* `sockets_accounted`: an open socket belongs to the accept loop or to one connection, and it is
  lost when `pthread_create` fails for the connection.
-/
import ArmKernel.Support.Roster
import ArmKernel.Support.Run
import Mathlib.Data.List.Nodup

namespace ArmKernel.Ws

open ArmKernel.Support

/-- `MAX_CLIENTS`. -/
def maxClients : Nat := 1000

/-- The address of a `ws_connection_t`. -/
abbrev Addr := Nat

/-- A socket descriptor. -/
abbrev Fd := Nat

/-- `client_manager_t`. -/
structure ClientManager where
  clients : Nat → Addr
  clientCount : Nat

/-- `add_client`: at `MAX_CLIENTS` the client is not listed. -/
def addClient (m : ClientManager) (client : Addr) : ClientManager :=
  if m.clientCount < maxClients then
    { clients := Function.update m.clients m.clientCount client
      clientCount := m.clientCount + 1 }
  else m

/-- The loop of `remove_client` with `left` entries from `i` on. -/
def removeLoop (m : ClientManager) (client : Addr) : (i left : Nat) → ClientManager
  | _, 0 => m
  | i, left + 1 =>
    if m.clients i = client then
      { clients := Function.update m.clients i (m.clients (m.clientCount - 1))
        clientCount := m.clientCount - 1 }
    else removeLoop m client (i + 1) left

/-- `remove_client`. -/
def removeClient (m : ClientManager) (client : Addr) : ClientManager :=
  removeLoop m client 0 m.clientCount

/-- The loop of `broadcast_message`: the clients that `ws_send` is called with. -/
def broadcastLoop (m : ClientManager) : (i left : Nat) → List Addr
  | _, 0 => []
  | i, left + 1 => m.clients i :: broadcastLoop m (i + 1) left

/-- `broadcast_message`. -/
def broadcastMessage (m : ClientManager) : List Addr := broadcastLoop m 0 m.clientCount

/-! ### The operations on the list -/

/-- The listed clients. -/
def ClientManager.listed (m : ClientManager) : List Addr := filled m.clients m.clientCount

theorem broadcastLoop_eq (m : ClientManager) (i left : Nat) :
    broadcastLoop m i left = (List.range' i left).map m.clients := by
  induction left generalizing i with
  | zero => rfl
  | succ left ih => rw [broadcastLoop, ih, List.range'_succ, List.map_cons]

/-- A broadcast goes through the listed clients. -/
theorem broadcastMessage_eq (m : ClientManager) : broadcastMessage m = m.listed := by
  rw [broadcastMessage, broadcastLoop_eq, ← List.range_eq_range']
  rfl

theorem listed_addClient {m : ClientManager} (client : Addr) (h : m.clientCount < maxClients) :
    (addClient m client).listed = m.listed ++ [client] := by
  rw [addClient, if_pos h]
  exact filled_push m.clients m.clientCount client

/-- A full table is left as it is. -/
theorem addClient_of_full {m : ClientManager} (client : Addr) (h : ¬ m.clientCount < maxClients) :
    addClient m client = m := if_neg h

theorem addClient_clientCount_le {m : ClientManager} (client : Addr)
    (h : m.clientCount ≤ maxClients) : (addClient m client).clientCount ≤ maxClients := by
  unfold addClient
  split
  · assumption
  · exact h

/-- The search for a client that is among the entries it goes through. -/
theorem removeLoop_of_mem {m : ClientManager} {client : Addr} {i left : Nat}
    (hend : i + left = m.clientCount) (h : ∃ j, i ≤ j ∧ j < m.clientCount ∧ m.clients j = client) :
    (client :: (removeLoop m client i left).listed).Perm m.listed ∧
      (removeLoop m client i left).clientCount + 1 = m.clientCount := by
  induction left generalizing i with
  | zero =>
    obtain ⟨j, hij, hj, -⟩ := h
    omega
  | succ left ih =>
    rw [removeLoop]
    split
    next heq =>
      obtain ⟨count, hcount⟩ : ∃ count, m.clientCount = count + 1 := ⟨i + left, by omega⟩
      have hperm := filled_swapRemove m.clients (show i < count + 1 by omega)
      refine ⟨?_, by simp only; omega⟩
      unfold ClientManager.listed
      simp only [hcount, Nat.add_sub_cancel]
      rw [heq] at hperm
      exact hperm
    next hne =>
      obtain ⟨j, hij, hj, hclient⟩ := h
      have hnext : i ≠ j := fun hi => hne (hi ▸ hclient)
      exact ih (by omega) ⟨j, by omega, hj, hclient⟩

theorem removeLoop_of_not_mem {m : ClientManager} {client : Addr} {i left : Nat}
    (hend : i + left = m.clientCount) (h : client ∉ m.listed) : removeLoop m client i left = m := by
  induction left generalizing i with
  | zero => rfl
  | succ left ih =>
    have hne : m.clients i ≠ client := fun heq => h (mem_filled.mpr ⟨i, by omega, heq⟩)
    rw [removeLoop, if_neg hne]
    exact ih (by omega)

/-- **`remove_client`** takes one entry of the client out; the others stay. -/
theorem listed_removeClient {m : ClientManager} {client : Addr} (h : client ∈ m.listed) :
    (client :: (removeClient m client).listed).Perm m.listed := by
  obtain ⟨j, hj, hclient⟩ := mem_filled.mp h
  exact (removeLoop_of_mem (Nat.zero_add _) ⟨j, Nat.zero_le j, hj, hclient⟩).1

theorem removeClient_of_not_mem {m : ClientManager} {client : Addr} (h : client ∉ m.listed) :
    removeClient m client = m := removeLoop_of_not_mem (Nat.zero_add _) h

theorem removeClient_clientCount_le (m : ClientManager) (client : Addr) :
    (removeClient m client).clientCount ≤ m.clientCount := by
  by_cases h : client ∈ m.listed
  · obtain ⟨j, hj, hclient⟩ := mem_filled.mp h
    have hcount := (removeLoop_of_mem (Nat.zero_add _) ⟨j, Nat.zero_le j, hj, hclient⟩).2
    exact Nat.le_of_lt (Nat.lt_of_succ_le (Nat.le_of_eq hcount))
  · rw [removeClient_of_not_mem h]

/-- Among distinct clients the removed one is gone. -/
theorem mem_listed_removeClient {m : ClientManager} {client p : Addr} (hnodup : m.listed.Nodup) :
    p ∈ (removeClient m client).listed ↔ p ∈ m.listed ∧ p ≠ client := by
  by_cases h : client ∈ m.listed
  · have hperm := listed_removeClient h
    have hcons := List.nodup_cons.mp (hperm.nodup_iff.mpr hnodup)
    rw [← hperm.mem_iff, List.mem_cons]
    constructor
    · intro hp
      exact ⟨.inr hp, fun heq => hcons.1 (heq ▸ hp)⟩
    · rintro ⟨heq | hp, hne⟩
      · exact absurd heq hne
      · exact hp
  · rw [removeClient_of_not_mem h]
    exact ⟨fun hp => ⟨hp, fun heq => h (heq ▸ hp)⟩, fun hp => hp.1⟩

theorem nodup_removeClient {m : ClientManager} (client : Addr) (hnodup : m.listed.Nodup) :
    (removeClient m client).listed.Nodup := by
  by_cases h : client ∈ m.listed
  · exact (List.nodup_cons.mp ((listed_removeClient h).nodup_iff.mpr hnodup)).2
  · rw [removeClient_of_not_mem h]
    exact hnodup

/-! ### The server -/

/-- How far the thread of a connection is: not started, before the label `cleanup`, behind
`remove_client`, behind `close`. -/
inductive Stage where
  | starting
  | running
  | removed
  | closed
  deriving DecidableEq

/-- A `ws_connection_t`, as far as the manager is concerned, and its thread. -/
structure Connection where
  socket : Fd
  stage : Stage

/-- Where the accept loop stands: before `accept`, before `calloc`, before `add_client`,
before `pthread_create`, or at its `return`. -/
inductive Acceptor where
  | accepting
  | accepted (socket : Fd)
  | allocated (conn : Addr)
  | added (conn : Addr)
  | returned
  deriving DecidableEq

/-- The state of the server. -/
structure System where
  manager : ClientManager
  acceptor : Acceptor
  /-- The connections that are allocated. -/
  conns : Addr → Option Connection
  /-- The sockets of clients that are open. -/
  isOpen : Fd → Bool

/-- The steps. Their arguments are what the C library returns. -/
inductive Action where
  | accept (socket : Fd)
  | acceptAgain
  | acceptFails
  | calloc (conn : Addr)
  | callocFails
  | add
  | create (starts : Bool)
  | broadcast
  | remove (conn : Addr)
  | close (conn : Addr)
  | free (conn : Addr)
  deriving DecidableEq

/-- The thread of a connection moves on. -/
def System.setStage (s : System) (p : Addr) (c : Connection) (stage : Stage) : System :=
  { s with conns := Function.update s.conns p (some { c with stage }) }

/-- One step of the accept loop or of a thread. `accept` returns a descriptor that is not
open, and `calloc` an address that is not allocated. -/
def step (s : System) : Action → Option System
  | .accept socket =>
    if s.acceptor = .accepting ∧ s.isOpen socket = false then
      some { s with
        acceptor := .accepted socket, isOpen := Function.update s.isOpen socket true }
    else none
  | .acceptAgain => if s.acceptor = .accepting then some s else none
  | .acceptFails =>
    if s.acceptor = .accepting then some { s with acceptor := .returned } else none
  | .calloc conn =>
    match s.acceptor with
    | .accepted socket =>
      if s.conns conn = none then
        some { s with
          acceptor := .allocated conn
          conns := Function.update s.conns conn (some ⟨socket, .starting⟩) }
      else none
    | _ => none
  | .callocFails =>
    match s.acceptor with
    | .accepted socket =>
      some { s with acceptor := .accepting, isOpen := Function.update s.isOpen socket false }
    | _ => none
  | .add =>
    match s.acceptor with
    | .allocated conn =>
      some { s with acceptor := .added conn, manager := addClient s.manager conn }
    | _ => none
  | .create starts =>
    match s.acceptor with
    | .added conn =>
      -- The result is not looked at: without a thread the connection stays as it is.
      match s.conns conn, starts with
      | some c, true => some { s.setStage conn c .running with acceptor := .accepting }
      | _, _ => some { s with acceptor := .accepting }
    | _ => none
  | .broadcast => some s
  | .remove conn =>
    match s.conns conn with
    | some c =>
      if c.stage = .running then
        some { s.setStage conn c .removed with manager := removeClient s.manager conn }
      else none
    | none => none
  | .close conn =>
    match s.conns conn with
    | some c =>
      if c.stage = .removed then
        some { s.setStage conn c .closed with isOpen := Function.update s.isOpen c.socket false }
      else none
    | none => none
  | .free conn =>
    match s.conns conn with
    | some c =>
      if c.stage = .closed then some { s with conns := Function.update s.conns conn none }
      else none
    | none => none

/-- The server before the first client. -/
def System.initial (clients : Nat → Addr) : System where
  manager := ⟨clients, 0⟩
  acceptor := .accepting
  conns := fun _ => none
  isOpen := fun _ => false

/-! ### What a step does -/

section Steps

variable {s s' : System} {p : Addr} {fd : Fd} {starts : Bool}

theorem step_accept (h : step s (.accept fd) = some s') :
    s.acceptor = .accepting ∧ s.isOpen fd = false ∧
      s' = { s with acceptor := .accepted fd, isOpen := Function.update s.isOpen fd true } := by
  simp only [step] at h
  split at h
  next hok => exact ⟨hok.1, hok.2, (Option.some.inj h).symm⟩
  next => cases h

theorem step_acceptAgain (h : step s .acceptAgain = some s') : s' = s := by
  simp only [step] at h
  split at h
  · exact (Option.some.inj h).symm
  · cases h

theorem step_acceptFails (h : step s .acceptFails = some s') :
    s.acceptor = .accepting ∧ s' = { s with acceptor := .returned } := by
  simp only [step] at h
  split at h
  next hok => exact ⟨hok, (Option.some.inj h).symm⟩
  next => cases h

theorem step_calloc (h : step s (.calloc p) = some s') :
    ∃ socket, s.acceptor = .accepted socket ∧ s.conns p = none ∧
      s' = { s with
        acceptor := .allocated p
        conns := Function.update s.conns p (some ⟨socket, .starting⟩) } := by
  simp only [step] at h
  split at h
  next socket hacc =>
    split at h
    next hfree => exact ⟨socket, hacc, hfree, (Option.some.inj h).symm⟩
    next => cases h
  next => cases h

theorem step_callocFails (h : step s .callocFails = some s') :
    ∃ socket, s.acceptor = .accepted socket ∧
      s' = { s with acceptor := .accepting, isOpen := Function.update s.isOpen socket false } := by
  simp only [step] at h
  split at h
  next socket hacc => exact ⟨socket, hacc, (Option.some.inj h).symm⟩
  next => cases h

theorem step_add (h : step s .add = some s') :
    ∃ conn, s.acceptor = .allocated conn ∧
      s' = { s with acceptor := .added conn, manager := addClient s.manager conn } := by
  simp only [step] at h
  split at h
  next conn hacc => exact ⟨conn, hacc, (Option.some.inj h).symm⟩
  next => cases h

theorem step_create (h : step s (.create starts) = some s') :
    ∃ conn, s.acceptor = .added conn ∧
      ((starts = true ∧ ∃ c, s.conns conn = some c ∧
          s' = { s.setStage conn c .running with acceptor := .accepting }) ∨
        (starts = true → s.conns conn = none) ∧ s' = { s with acceptor := .accepting }) := by
  simp only [step] at h
  split at h
  next conn hacc =>
    split at h
    next c hc => exact ⟨conn, hacc, .inl ⟨rfl, c, hc, (Option.some.inj h).symm⟩⟩
    next hno =>
      refine ⟨conn, hacc, .inr ⟨?_, (Option.some.inj h).symm⟩⟩
      rintro rfl
      exact Option.eq_none_iff_forall_not_mem.mpr fun c hc => hno c hc rfl
  next => cases h

theorem step_remove (h : step s (.remove p) = some s') :
    ∃ c, s.conns p = some c ∧ c.stage = .running ∧
      s' = { s.setStage p c .removed with manager := removeClient s.manager p } := by
  simp only [step] at h
  split at h
  next c hc =>
    split at h
    next hstage => exact ⟨c, hc, hstage, (Option.some.inj h).symm⟩
    next => cases h
  next => cases h

theorem step_close (h : step s (.close p) = some s') :
    ∃ c, s.conns p = some c ∧ c.stage = .removed ∧
      s' = { s.setStage p c .closed with isOpen := Function.update s.isOpen c.socket false } := by
  simp only [step] at h
  split at h
  next c hc =>
    split at h
    next hstage => exact ⟨c, hc, hstage, (Option.some.inj h).symm⟩
    next => cases h
  next => cases h

theorem step_free (h : step s (.free p) = some s') :
    ∃ c, s.conns p = some c ∧ c.stage = .closed ∧
      s' = { s with conns := Function.update s.conns p none } := by
  simp only [step] at h
  split at h
  next c hc =>
    split at h
    next hstage => exact ⟨c, hc, hstage, (Option.some.inj h).symm⟩
    next => cases h
  next => cases h

end Steps

/-! ### The listed clients -/

/-- The connection is allocated and its thread has not come to `cleanup`. -/
def System.Live (s : System) (p : Addr) : Prop :=
  ∃ c, s.conns p = some c ∧ (c.stage = .starting ∨ c.stage = .running)

/-- The list names live connections, once each. -/
structure System.Listing (s : System) : Prop where
  count_le : s.manager.clientCount ≤ maxClients
  nodup : s.manager.listed.Nodup
  live : ∀ p ∈ s.manager.listed, s.Live p
  unlisted : ∀ p, s.acceptor = .allocated p → p ∉ s.manager.listed
  held : ∀ p, s.acceptor = .allocated p ∨ s.acceptor = .added p →
    ∃ c, s.conns p = some c ∧ c.stage = .starting

section Listing

variable {s s' : System} {a : Action} {p q : Addr}

/-- A connection whose entry is not touched stays live. -/
theorem System.Live.of_update {v : Option Connection} (h : s.Live q) (hne : q ≠ p)
    (hconns : s'.conns = Function.update s.conns p v) : s'.Live q := by
  obtain ⟨c, hc, hstage⟩ := h
  exact ⟨c, by rw [hconns, Function.update_of_ne hne, hc], hstage⟩

theorem listing_initial (clients : Nat → Addr) : (System.initial clients).Listing where
  count_le := Nat.zero_le _
  nodup := List.nodup_nil
  live := fun _ h => absurd h List.not_mem_nil
  unlisted := fun _ h => nomatch h
  held := fun _ h => nomatch h

/-- A step that only moves the accept loop to a place without a connection. -/
theorem System.Listing.of_acceptor (h : s.Listing) (hmanager : s'.manager = s.manager)
    (hconns : s'.conns = s.conns) (hallocated : ∀ p, s'.acceptor ≠ .allocated p)
    (hadded : ∀ p, s'.acceptor ≠ .added p) : s'.Listing where
  count_le := hmanager ▸ h.count_le
  nodup := hmanager ▸ h.nodup
  live := by
    intro p hp
    obtain ⟨c, hc, hstage⟩ := h.live p (hmanager ▸ hp)
    exact ⟨c, hconns ▸ hc, hstage⟩
  unlisted := fun p hp => absurd hp (hallocated p)
  held := fun p hp => absurd hp (not_or.mpr ⟨hallocated p, hadded p⟩)

theorem System.Listing.calloc (h : s.Listing) (hstep : step s (.calloc p) = some s') :
    s'.Listing := by
  obtain ⟨socket, hacc, hfree, rfl⟩ := step_calloc hstep
  have hnot : p ∉ s.manager.listed := by
    intro hp
    obtain ⟨c, hc, -⟩ := h.live p hp
    exact nomatch hfree.symm.trans hc
  refine ⟨h.count_le, h.nodup, ?_, ?_, ?_⟩
  · intro q hq
    have hne : q ≠ p := fun heq => hnot (heq ▸ hq)
    exact (h.live q hq).of_update hne rfl
  · rintro q hq
    cases hq
    exact hnot
  · rintro q (hq | hq) <;> cases hq
    exact ⟨_, Function.update_self .., rfl⟩

theorem System.Listing.add (h : s.Listing) (hstep : step s .add = some s') : s'.Listing := by
  obtain ⟨p, hacc, rfl⟩ := step_add hstep
  have hheld := h.held p (.inl hacc)
  refine ⟨addClient_clientCount_le p h.count_le, ?_, ?_, (fun q hq => nomatch hq), ?_⟩
  · by_cases hroom : s.manager.clientCount < maxClients
    · rw [listed_addClient p hroom]
      refine List.nodup_append.mpr ⟨h.nodup, List.nodup_singleton p, ?_⟩
      intro q hq r hr heq
      exact h.unlisted p hacc (List.mem_singleton.mp hr ▸ heq ▸ hq)
    · rw [addClient_of_full p hroom]
      exact h.nodup
  · intro q hq
    by_cases hroom : s.manager.clientCount < maxClients
    · rw [listed_addClient p hroom, List.mem_append, List.mem_singleton] at hq
      rcases hq with hq | rfl
      · exact h.live q hq
      · obtain ⟨c, hc, hstage⟩ := hheld
        exact ⟨c, hc, .inl hstage⟩
    · rw [addClient_of_full p hroom] at hq
      exact h.live q hq
  · rintro q (hq | hq) <;> cases hq
    exact hheld

theorem System.Listing.create {starts : Bool} (h : s.Listing)
    (hstep : step s (.create starts) = some s') : s'.Listing := by
  obtain ⟨p, hacc, ⟨-, c, hc, rfl⟩ | ⟨-, rfl⟩⟩ := step_create hstep
  · refine ⟨h.count_le, h.nodup, ?_, (fun q hq => nomatch hq), fun q hq => by simp at hq⟩
    intro q hq
    by_cases heq : q = p
    · subst heq
      exact ⟨_, Function.update_self .., .inr rfl⟩
    · exact (h.live q hq).of_update heq rfl
  · exact h.of_acceptor rfl rfl (fun q hq => nomatch hq) (fun q hq => nomatch hq)

/-- The accept loop does not hold a connection with a thread. -/
theorem System.Listing.not_held {c : Connection} (h : s.Listing) (hc : s.conns p = some c)
    (hstage : c.stage ≠ .starting) : s.acceptor ≠ .allocated p ∧ s.acceptor ≠ .added p := by
  refine not_or.mp ?_
  intro hacc
  obtain ⟨d, hd, hstart⟩ := h.held p hacc
  cases hc.symm.trans hd
  exact hstage hstart

/-- A step of the thread of a connection that is not listed afterwards. -/
theorem System.Listing.of_thread {c : Connection} {v : Option Connection} (h : s.Listing)
    (hc : s.conns p = some c) (hstage : c.stage ≠ .starting)
    (hcount : s'.manager.clientCount ≤ s.manager.clientCount) (hnodup : s'.manager.listed.Nodup)
    (hlisted : ∀ q ∈ s'.manager.listed, q ∈ s.manager.listed ∧ q ≠ p)
    (hacc : s'.acceptor = s.acceptor) (hconns : s'.conns = Function.update s.conns p v) :
    s'.Listing where
  count_le := Nat.le_trans hcount h.count_le
  nodup := hnodup
  live := fun q hq => (h.live q (hlisted q hq).1).of_update (hlisted q hq).2 hconns
  unlisted := fun q hq hmem => h.unlisted q (hacc ▸ hq) (hlisted q hmem).1
  held := by
    intro q hq
    rw [hacc] at hq
    have hne : q ≠ p := by
      rintro rfl
      have hnot := h.not_held hc hstage
      exact hq.elim hnot.1 hnot.2
    obtain ⟨d, hd, hstart⟩ := h.held q hq
    exact ⟨d, by rw [hconns, Function.update_of_ne hne, hd], hstart⟩

/-- A connection behind `remove_client` is not listed. -/
theorem System.Listing.ne_of_mem {c : Connection} (h : s.Listing) (hc : s.conns p = some c)
    (hstarting : c.stage ≠ .starting) (hrunning : c.stage ≠ .running) :
    ∀ q ∈ s.manager.listed, q ∈ s.manager.listed ∧ q ≠ p := by
  intro q hq
  refine ⟨hq, ?_⟩
  rintro rfl
  obtain ⟨d, hd, hstage⟩ := h.live q hq
  cases hc.symm.trans hd
  exact hstage.elim hstarting hrunning

theorem System.Listing.step (h : s.Listing) (hstep : step s a = some s') : s'.Listing := by
  cases a with
  | accept fd =>
    obtain ⟨-, -, rfl⟩ := step_accept hstep
    exact h.of_acceptor rfl rfl (fun q hq => nomatch hq) (fun q hq => nomatch hq)
  | acceptAgain => exact step_acceptAgain hstep ▸ h
  | acceptFails =>
    obtain ⟨-, rfl⟩ := step_acceptFails hstep
    exact h.of_acceptor rfl rfl (fun q hq => nomatch hq) (fun q hq => nomatch hq)
  | calloc p => exact h.calloc hstep
  | callocFails =>
    obtain ⟨socket, -, rfl⟩ := step_callocFails hstep
    exact h.of_acceptor rfl rfl (fun q hq => nomatch hq) (fun q hq => nomatch hq)
  | add => exact h.add hstep
  | create starts => exact h.create hstep
  | broadcast => exact Option.some.inj hstep ▸ h
  | remove p =>
    obtain ⟨c, hc, hstage, rfl⟩ := step_remove hstep
    refine h.of_thread hc ?_ (removeClient_clientCount_le s.manager p)
      (nodup_removeClient p h.nodup) (fun q hq => (mem_listed_removeClient h.nodup).mp hq) rfl rfl
    rw [hstage]
    decide
  | close p =>
    obtain ⟨c, hc, hstage, rfl⟩ := step_close hstep
    have hne : c.stage ≠ .starting ∧ c.stage ≠ .running := by rw [hstage]; decide
    exact h.of_thread hc hne.1 (Nat.le_refl _) h.nodup (h.ne_of_mem hc hne.1 hne.2) rfl rfl
  | free p =>
    obtain ⟨c, hc, hstage, rfl⟩ := step_free hstep
    have hne : c.stage ≠ .starting ∧ c.stage ≠ .running := by rw [hstage]; decide
    exact h.of_thread hc hne.1 (Nat.le_refl _) h.nodup (h.ne_of_mem hc hne.1 hne.2) rfl rfl

end Listing

/-! ### The sockets -/

/-- The connection has this socket and its thread has not closed it. -/
def System.Owns (s : System) (p : Addr) (fd : Fd) : Prop :=
  ∃ c, s.conns p = some c ∧ c.stage ≠ .closed ∧ c.socket = fd

/-- A socket is open when the accept loop or one connection has it. -/
structure System.Sockets (s : System) : Prop where
  opens : ∀ fd, s.isOpen fd = true ↔ s.acceptor = .accepted fd ∨ ∃ p, s.Owns p fd
  apart : ∀ p q fd, s.Owns p fd → s.Owns q fd → p = q
  fresh : ∀ p fd, s.acceptor = .accepted fd → ¬ s.Owns p fd

section Sockets

variable {s s' : System} {a : Action} {p q : Addr} {fd : Fd} {c : Connection}

theorem System.owns_of_update {v : Option Connection}
    (hconns : s'.conns = Function.update s.conns p v) :
    s'.Owns q fd ↔
      if q = p then ∃ c, v = some c ∧ c.stage ≠ .closed ∧ c.socket = fd else s.Owns q fd := by
  unfold System.Owns
  rw [hconns]
  split
  next heq => rw [heq, Function.update_self]
  next hne => rw [Function.update_of_ne hne]

theorem System.owns_iff (hc : s.conns p = some c) :
    s.Owns p fd ↔ c.stage ≠ .closed ∧ c.socket = fd := by
  constructor
  · rintro ⟨d, hd, hopen⟩
    cases hc.symm.trans hd
    exact hopen
  · exact fun hopen => ⟨c, hc, hopen⟩

/-- A connection keeps its socket while its thread does not close it. -/
theorem System.owns_setStage {stage : Stage} (hc : s.conns p = some c)
    (hbefore : c.stage ≠ .closed) (hafter : stage ≠ .closed)
    (hconns : s'.conns = Function.update s.conns p (some { c with stage })) :
    s'.Owns q fd ↔ s.Owns q fd := by
  rw [System.owns_of_update hconns]
  split
  next heq =>
    subst heq
    rw [System.owns_iff hc]
    constructor
    · rintro ⟨d, hd, -, hsocket⟩
      cases hd
      exact ⟨hbefore, hsocket⟩
    · rintro ⟨-, hsocket⟩
      exact ⟨_, rfl, hafter, hsocket⟩
  next => exact Iff.rfl

theorem sockets_initial (clients : Nat → Addr) : (System.initial clients).Sockets where
  opens := by
    intro fd
    constructor
    · exact fun h => nomatch h
    · rintro (h | ⟨p, c, hc, -⟩)
      · exact nomatch h
      · exact nomatch hc
  apart := by
    rintro p q fd ⟨c, hc, -⟩
    exact nomatch hc
  fresh := fun _ _ h => nomatch h

/-- A step that opens and closes nothing and gives no socket away. -/
theorem System.Sockets.of_same (h : s.Sockets) (hopen : s'.isOpen = s.isOpen)
    (howns : ∀ q fd, s'.Owns q fd ↔ s.Owns q fd)
    (hacc : ∀ fd, s'.acceptor = .accepted fd ↔ s.acceptor = .accepted fd) : s'.Sockets where
  opens := by
    intro fd
    simp only [hopen, hacc, howns]
    exact h.opens fd
  apart := fun p q fd hp hq => h.apart p q fd ((howns p fd).mp hp) ((howns q fd).mp hq)
  fresh := fun p fd hfd hp => h.fresh p fd ((hacc fd).mp hfd) ((howns p fd).mp hp)

theorem System.Sockets.accept (h : s.Sockets) (hstep : step s (.accept fd) = some s') :
    s'.Sockets := by
  obtain ⟨hacc, hclosed, rfl⟩ := step_accept hstep
  have hnone : ∀ q, ¬ s.Owns q fd := by
    intro q hq
    have hopen := (h.opens fd).mpr (.inr ⟨q, hq⟩)
    rw [hclosed] at hopen
    cases hopen
  refine ⟨?_, h.apart, ?_⟩
  · intro fd'
    by_cases heq : fd' = fd
    · subst heq
      exact ⟨fun _ => .inl rfl, fun _ => Function.update_self ..⟩
    · simp only [Function.update_of_ne heq]
      rw [h.opens fd', hacc]
      constructor
      · rintro (hfd | hq)
        · cases hfd
        · exact .inr hq
      · rintro (hfd | hq)
        · cases hfd
          exact absurd rfl heq
        · exact .inr hq
  · rintro q fd' hfd
    cases hfd
    exact hnone q

theorem System.Sockets.calloc (h : s.Sockets) (hstep : step s (.calloc p) = some s') :
    s'.Sockets := by
  obtain ⟨socket, hacc, hfree, rfl⟩ := step_calloc hstep
  have hbefore : ∀ fd', ¬ s.Owns p fd' := by
    rintro fd' ⟨d, hd, -⟩
    exact nomatch hfree.symm.trans hd
  have howns : ∀ q fd', ({ s with
        acceptor := .allocated p
        conns := Function.update s.conns p (some ⟨socket, .starting⟩) } : System).Owns q fd' ↔
      (q = p ∧ fd' = socket) ∨ s.Owns q fd' := by
    intro q fd'
    rw [System.owns_of_update rfl]
    split
    next heq =>
      subst heq
      constructor
      · rintro ⟨d, hd, -, hsocket⟩
        cases hd
        exact .inl ⟨rfl, hsocket.symm⟩
      · rintro (⟨-, rfl⟩ | hq)
        · exact ⟨_, rfl, nofun, rfl⟩
        · exact absurd hq (hbefore fd')
    next hne =>
      constructor
      · exact .inr
      · rintro (⟨heq, -⟩ | hq)
        · exact absurd heq hne
        · exact hq
  refine ⟨?_, ?_, fun q fd' hfd => nomatch hfd⟩
  · intro fd'
    simp only [howns]
    rw [h.opens fd', hacc]
    constructor
    · rintro (hfd | ⟨q, hq⟩)
      · cases hfd
        exact .inr ⟨p, .inl ⟨rfl, rfl⟩⟩
      · exact .inr ⟨q, .inr hq⟩
    · rintro (hfd | ⟨q, ⟨-, rfl⟩ | hq⟩)
      · cases hfd
      · exact .inl rfl
      · exact .inr ⟨q, hq⟩
  · intro q r fd' hq hr
    rcases (howns q fd').mp hq with ⟨hqp, hfd⟩ | hqs
    · rcases (howns r fd').mp hr with ⟨hrp, -⟩ | hrs
      · rw [hqp, hrp]
      · exact absurd hrs (h.fresh r fd' (hfd ▸ hacc))
    · rcases (howns r fd').mp hr with ⟨-, hfd⟩ | hrs
      · exact absurd hqs (h.fresh q fd' (hfd ▸ hacc))
      · exact h.apart q r fd' hqs hrs

theorem System.Sockets.callocFails (h : s.Sockets) (hstep : step s .callocFails = some s') :
    s'.Sockets := by
  obtain ⟨socket, hacc, rfl⟩ := step_callocFails hstep
  refine ⟨?_, h.apart, fun q fd' hfd => nomatch hfd⟩
  intro fd'
  by_cases heq : fd' = socket
  · subst heq
    simp only [Function.update_self]
    refine ⟨nofun, ?_⟩
    rintro (hfd | ⟨q, hq⟩)
    · cases hfd
    · exact absurd hq (h.fresh q fd' hacc)
  · simp only [Function.update_of_ne heq]
    rw [h.opens fd', hacc]
    constructor
    · rintro (hfd | hq)
      · cases hfd
        exact absurd rfl heq
      · exact .inr hq
    · rintro (hfd | hq)
      · cases hfd
      · exact .inr hq

theorem System.Sockets.close (h : s.Sockets) (hstep : step s (.close p) = some s') :
    s'.Sockets := by
  obtain ⟨c, hc, hstage, rfl⟩ := step_close hstep
  have hmine : s.Owns p c.socket := ⟨c, hc, by rw [hstage]; decide, rfl⟩
  have howns : ∀ q fd', ({ s.setStage p c .closed with
        isOpen := Function.update s.isOpen c.socket false } : System).Owns q fd' ↔
      q ≠ p ∧ s.Owns q fd' := by
    intro q fd'
    rw [System.owns_of_update (s := s) (p := p) rfl]
    split
    next heq =>
      constructor
      · rintro ⟨d, hd, hopen, -⟩
        cases hd
        exact absurd rfl hopen
      · exact fun hq => absurd heq hq.1
    next hne => exact ⟨fun hq => ⟨hne, hq⟩, fun hq => hq.2⟩
  refine ⟨?_, ?_, ?_⟩
  · intro fd'
    simp only [howns]
    by_cases heq : fd' = c.socket
    · subst heq
      simp only [Function.update_self]
      refine ⟨nofun, ?_⟩
      rintro (hfd | ⟨q, hne, hq⟩)
      · exact absurd hmine (h.fresh p c.socket hfd)
      · exact absurd (h.apart q p c.socket hq hmine) hne
    · simp only [Function.update_of_ne heq]
      rw [h.opens fd']
      constructor
      · rintro (hfd | ⟨q, hq⟩)
        · exact .inl hfd
        · refine .inr ⟨q, ?_, hq⟩
          rintro rfl
          exact heq ((System.owns_iff hc).mp hq).2.symm
      · rintro (hfd | ⟨q, -, hq⟩)
        · exact .inl hfd
        · exact .inr ⟨q, hq⟩
  · intro q r fd' hq hr
    exact h.apart q r fd' ((howns q fd').mp hq).2 ((howns r fd').mp hr).2
  · intro q fd' hfd hq
    exact h.fresh q fd' hfd ((howns q fd').mp hq).2

theorem System.Sockets.step (h : s.Sockets) (hlisting : s.Listing)
    (hstep : step s a = some s') : s'.Sockets := by
  cases a with
  | accept fd => exact h.accept hstep
  | acceptAgain => exact step_acceptAgain hstep ▸ h
  | acceptFails =>
    obtain ⟨hacc, rfl⟩ := step_acceptFails hstep
    exact h.of_same rfl (fun _ _ => Iff.rfl) fun fd => by simp [hacc]
  | calloc p => exact h.calloc hstep
  | callocFails => exact h.callocFails hstep
  | add =>
    obtain ⟨p, hacc, rfl⟩ := step_add hstep
    exact h.of_same rfl (fun _ _ => Iff.rfl) fun fd => by simp [hacc]
  | create starts =>
    obtain ⟨p, hacc, ⟨-, c, hc, rfl⟩ | ⟨-, rfl⟩⟩ := step_create hstep
    · obtain ⟨d, hd, hstart⟩ := hlisting.held p (.inr hacc)
      cases hc.symm.trans hd
      refine h.of_same rfl (fun q fd => ?_) fun fd => by simp [hacc]
      exact System.owns_setStage hc (by rw [hstart]; decide) (by decide) rfl
    · exact h.of_same rfl (fun _ _ => Iff.rfl) fun fd => by simp [hacc]
  | broadcast => exact Option.some.inj hstep ▸ h
  | remove p =>
    obtain ⟨c, hc, hstage, rfl⟩ := step_remove hstep
    refine h.of_same rfl (fun q fd => ?_) fun fd => Iff.rfl
    exact System.owns_setStage hc (by rw [hstage]; decide) (by decide) rfl
  | close p => exact h.close hstep
  | free p =>
    obtain ⟨c, hc, hstage, rfl⟩ := step_free hstep
    refine h.of_same rfl (fun q fd => ?_) fun fd => Iff.rfl
    rw [System.owns_of_update rfl]
    split
    next heq =>
      -- A closed connection has no socket any more.
      subst heq
      rw [System.owns_iff hc]
      constructor
      · rintro ⟨d, hd, -⟩
        cases hd
      · exact fun hq => absurd hstage hq.1
    next => exact Iff.rfl

end Sockets

/-! ### Every order of steps -/

/-- The invariant of the server. -/
structure System.Sound (s : System) : Prop where
  listing : s.Listing
  sockets : s.Sockets

theorem sound_initial (clients : Nat → Addr) : (System.initial clients).Sound :=
  ⟨listing_initial clients, sockets_initial clients⟩

theorem System.Sound.step (s : System) (a : Action) (s' : System) (h : s.Sound)
    (hstep : step s a = some s') : s'.Sound :=
  ⟨h.listing.step hstep, h.sockets.step h.listing hstep⟩

/-- A broadcast sends once to each client of the table, every one of them allocated, before its
`cleanup`, and with an open socket that no other listed client has. -/
structure System.BroadcastSafe (s : System) : Prop where
  all : broadcastMessage s.manager = s.manager.listed
  few : (broadcastMessage s.manager).length ≤ maxClients
  once : (broadcastMessage s.manager).Nodup
  live : ∀ p ∈ broadcastMessage s.manager, ∃ c, s.conns p = some c ∧
    (c.stage = .starting ∨ c.stage = .running) ∧ s.isOpen c.socket = true
  apart : ∀ p ∈ broadcastMessage s.manager, ∀ q ∈ broadcastMessage s.manager,
    (s.conns p).map Connection.socket = (s.conns q).map Connection.socket → p = q

/-- A live connection has its socket. -/
theorem System.Live.owns {s : System} {p : Addr} (h : s.Live p) :
    ∃ c, s.conns p = some c ∧ (c.stage = .starting ∨ c.stage = .running) ∧ s.Owns p c.socket := by
  obtain ⟨c, hc, hstage⟩ := h
  refine ⟨c, hc, hstage, c, hc, ?_, rfl⟩
  rcases hstage with hstage | hstage <;> rw [hstage] <;> decide

theorem System.Sound.broadcastSafe {s : System} (h : s.Sound) : s.BroadcastSafe := by
  have hlisted := broadcastMessage_eq s.manager
  refine ⟨hlisted, ?_, ?_, ?_, ?_⟩
  · rw [hlisted]
    exact Nat.le_trans (Nat.le_of_eq (length_filled ..)) h.listing.count_le
  · rw [hlisted]
    exact h.listing.nodup
  · intro p hp
    obtain ⟨c, hc, hstage, howns⟩ := (h.listing.live p (hlisted ▸ hp)).owns
    exact ⟨c, hc, hstage, (h.sockets.opens c.socket).mpr (.inr ⟨p, howns⟩)⟩
  · intro p hp q hq heq
    obtain ⟨c, hc, -, hp⟩ := (h.listing.live p (hlisted ▸ hp)).owns
    obtain ⟨d, hd, -, hq⟩ := (h.listing.live q (hlisted ▸ hq)).owns
    rw [hc, hd, Option.map_some, Option.map_some] at heq
    exact h.sockets.apart p q c.socket hp (Option.some.inj heq ▸ hq)

/-- **Broadcasts.** In every order of the steps of the accept loop and of the threads, a
broadcast reaches live connections only. -/
theorem broadcasts_reach_live (clients : Nat → Addr) (actions : List Action) :
    Along step System.BroadcastSafe (System.initial clients) actions :=
  (along_of_preserved System.Sound.step (sound_initial clients) actions).mono
    fun _ h => h.broadcastSafe

/-! ### Lost sockets -/

/-- The connection is allocated, it has no thread, and the accept loop has left it: its
`pthread_create` failed. -/
def System.Abandoned (s : System) (p : Addr) (fd : Fd) : Prop :=
  s.conns p = some ⟨fd, .starting⟩ ∧ s.acceptor ≠ .allocated p ∧ s.acceptor ≠ .added p

/-- The thread of the connection runs and has not closed the socket. -/
def System.Threaded (s : System) (p : Addr) : Prop :=
  ∃ c, s.conns p = some c ∧ (c.stage = .running ∨ c.stage = .removed)

section Lost

variable {s s' : System} {a : Action} {p q : Addr} {fd : Fd}

/-- A socket is lost only when `pthread_create` fails. -/
theorem System.Abandoned.of_step (h : s'.Abandoned p fd) (hstep : step s a = some s') :
    s.Abandoned p fd ∨ a = .create false := by
  obtain ⟨hc, hallocated, hadded⟩ := h
  have hother {q : Addr} {v : Option Connection} (hv : v ≠ some ⟨fd, .starting⟩)
      (hupdate : Function.update s.conns q v p = some ⟨fd, .starting⟩) :
      s.conns p = some ⟨fd, .starting⟩ := by
    by_cases heq : p = q
    · subst heq
      rw [Function.update_self] at hupdate
      exact absurd hupdate hv
    · rwa [Function.update_of_ne heq] at hupdate
  have hstage {d : Connection} {stage : Stage} (hne : stage ≠ .starting) :
      some { d with stage } ≠ some (⟨fd, .starting⟩ : Connection) := by
    intro heq
    exact hne (congrArg Connection.stage (Option.some.inj heq))
  cases a with
  | accept socket =>
    obtain ⟨hacc, -, rfl⟩ := step_accept hstep
    exact .inl ⟨hc, by rw [hacc]; nofun, by rw [hacc]; nofun⟩
  | acceptAgain => exact .inl (step_acceptAgain hstep ▸ ⟨hc, hallocated, hadded⟩)
  | acceptFails =>
    obtain ⟨hacc, rfl⟩ := step_acceptFails hstep
    exact .inl ⟨hc, by rw [hacc]; nofun, by rw [hacc]; nofun⟩
  | calloc q =>
    obtain ⟨socket, hacc, -, rfl⟩ := step_calloc hstep
    have hne : p ≠ q := fun heq => hallocated (heq ▸ rfl)
    exact .inl ⟨(Function.update_of_ne hne _ _).symm.trans hc, by rw [hacc]; nofun,
      by rw [hacc]; nofun⟩
  | callocFails =>
    obtain ⟨socket, hacc, rfl⟩ := step_callocFails hstep
    exact .inl ⟨hc, by rw [hacc]; nofun, by rw [hacc]; nofun⟩
  | add =>
    obtain ⟨q, hacc, rfl⟩ := step_add hstep
    refine .inl ⟨hc, ?_, by rw [hacc]; nofun⟩
    rw [hacc]
    rintro heq
    cases heq
    exact hadded rfl
  | create starts =>
    cases starts with
    | false => exact .inr rfl
    | true =>
      obtain ⟨q, hacc, ⟨-, c, hq, rfl⟩ | ⟨hq, rfl⟩⟩ := step_create hstep
      · refine .inl ⟨hother (hstage (by decide)) hc, by rw [hacc]; nofun, ?_⟩
        rw [hacc]
        rintro heq
        cases heq
        rw [show (s.setStage p c .running).conns p = _ from Function.update_self ..] at hc
        exact hstage (by decide) hc
      · refine .inl ⟨hc, by rw [hacc]; nofun, ?_⟩
        rw [hacc]
        rintro heq
        cases heq
        cases (hq rfl).symm.trans hc
  | broadcast => exact .inl (Option.some.inj hstep ▸ ⟨hc, hallocated, hadded⟩)
  | remove q =>
    obtain ⟨c, -, -, rfl⟩ := step_remove hstep
    exact .inl ⟨hother (hstage (by decide)) hc, hallocated, hadded⟩
  | close q =>
    obtain ⟨c, -, -, rfl⟩ := step_close hstep
    exact .inl ⟨hother (hstage (by decide)) hc, hallocated, hadded⟩
  | free q =>
    obtain ⟨c, -, -, rfl⟩ := step_free hstep
    exact .inl ⟨hother (by nofun) hc, hallocated, hadded⟩

/-- A connection without a thread stays as it is. -/
theorem System.Abandoned.step (h : s.Abandoned p fd) (hstep : step s a = some s') :
    s'.Abandoned p fd := by
  obtain ⟨hc, hallocated, hadded⟩ := h
  -- No thread and no call of `calloc` has this address.
  have hkept {q : Addr} {v : Option Connection} (hne : p ≠ q) :
      Function.update s.conns q v p = some ⟨fd, .starting⟩ := by
    rwa [Function.update_of_ne hne]
  have hne {q : Addr} {c : Connection} (hq : s.conns q = some c) (hstage : c.stage ≠ .starting) :
      p ≠ q := by
    rintro rfl
    cases hc.symm.trans hq
    exact hstage rfl
  cases a with
  | accept socket =>
    obtain ⟨-, -, rfl⟩ := step_accept hstep
    exact ⟨hc, nofun, nofun⟩
  | acceptAgain => exact step_acceptAgain hstep ▸ ⟨hc, hallocated, hadded⟩
  | acceptFails =>
    obtain ⟨-, rfl⟩ := step_acceptFails hstep
    exact ⟨hc, nofun, nofun⟩
  | calloc q =>
    obtain ⟨socket, -, hfree, rfl⟩ := step_calloc hstep
    have hpq : p ≠ q := by
      rintro rfl
      cases hfree.symm.trans hc
    exact ⟨hkept hpq, fun heq => hpq (Acceptor.allocated.inj heq).symm, nofun⟩
  | callocFails =>
    obtain ⟨socket, -, rfl⟩ := step_callocFails hstep
    exact ⟨hc, nofun, nofun⟩
  | add =>
    obtain ⟨q, hacc, rfl⟩ := step_add hstep
    refine ⟨hc, nofun, fun heq => hallocated ?_⟩
    rw [hacc, Acceptor.added.inj heq]
  | create starts =>
    obtain ⟨q, hacc, ⟨-, c, -, rfl⟩ | ⟨-, rfl⟩⟩ := step_create hstep
    · exact ⟨hkept fun heq => hadded (heq ▸ hacc), nofun, nofun⟩
    · exact ⟨hc, nofun, nofun⟩
  | broadcast => exact Option.some.inj hstep ▸ ⟨hc, hallocated, hadded⟩
  | remove q =>
    obtain ⟨c, hq, hstage, rfl⟩ := step_remove hstep
    exact ⟨hkept (hne hq (by rw [hstage]; decide)), hallocated, hadded⟩
  | close q =>
    obtain ⟨c, hq, hstage, rfl⟩ := step_close hstep
    exact ⟨hkept (hne hq (by rw [hstage]; decide)), hallocated, hadded⟩
  | free q =>
    obtain ⟨c, hq, hstage, rfl⟩ := step_free hstep
    exact ⟨hkept (hne hq (by rw [hstage]; decide)), hallocated, hadded⟩

/-- Without a thread, the socket is open. -/
theorem System.Abandoned.owns (h : s.Abandoned p fd) : s.Owns p fd :=
  ⟨_, h.1, nofun, rfl⟩

/-- A failure of `pthread_create` abandons the connection. -/
theorem System.Listing.abandoned (h : s.Listing) (hstep : Ws.step s (.create false) = some s') :
    ∃ p fd, s'.Abandoned p fd := by
  obtain ⟨p, hacc, ⟨hstarts, -⟩ | ⟨-, rfl⟩⟩ := step_create hstep
  · cases hstarts
  · obtain ⟨c, hc, hstage⟩ := h.held p (.inr hacc)
    exact ⟨p, c.socket, by rw [← hstage]; exact hc, nofun, nofun⟩

end Lost

/-- The open sockets are the one the accept loop has just got and those of the connections
that have not closed them; each belongs to one of them. The connection is with the accept loop, or
with its thread, which will close the socket; or it is abandoned, and then it stays so, and the
socket open, whatever happens. -/
structure System.SocketsAccounted (s : System) : Prop where
  opens : ∀ fd, s.isOpen fd = true ↔ s.acceptor = .accepted fd ∨ ∃ p, s.Owns p fd
  apart : ∀ p q fd, s.Owns p fd → s.Owns q fd → p = q
  fresh : ∀ p fd, s.acceptor = .accepted fd → ¬ s.Owns p fd
  kept : ∀ p fd, s.Owns p fd →
    s.acceptor = .allocated p ∨ s.acceptor = .added p ∨ s.Threaded p ∨ s.Abandoned p fd
  lost : ∀ p fd, s.Abandoned p fd → ∀ later,
    Along step (fun t => t.Abandoned p fd ∧ t.isOpen fd = true) s later

theorem System.Sound.socketsAccounted {s : System} (h : s.Sound) : s.SocketsAccounted where
  opens := h.sockets.opens
  apart := h.sockets.apart
  fresh := h.sockets.fresh
  kept := by
    rintro p fd ⟨c, hc, hstage, rfl⟩
    by_cases hallocated : s.acceptor = .allocated p
    · exact .inl hallocated
    by_cases hadded : s.acceptor = .added p
    · exact .inr (.inl hadded)
    obtain ⟨socket, stage⟩ := c
    cases stage with
    | starting => exact .inr (.inr (.inr ⟨hc, hallocated, hadded⟩))
    | running => exact .inr (.inr (.inl ⟨_, hc, .inl rfl⟩))
    | removed => exact .inr (.inr (.inl ⟨_, hc, .inr rfl⟩))
    | closed => exact absurd rfl hstage
  lost := by
    intro p fd hlost later
    have hrun := along_of_preserved (I := fun t : System => t.Sound ∧ t.Abandoned p fd)
      (fun t a t' ht hstep => ⟨ht.1.step t a t' hstep, ht.2.step hstep⟩) ⟨h, hlost⟩ later
    exact hrun.mono fun t ht =>
      ⟨ht.2, (ht.1.sockets.opens fd).mpr (.inr ⟨p, ht.2.owns⟩)⟩

/-- **Sockets.** None has two owners, and one is lost exactly when `pthread_create` fails. -/
theorem sockets_accounted (clients : Nat → Addr) (actions : List Action) :
    Along step System.SocketsAccounted (System.initial clients) actions ∧
      (Along step (fun s => ∀ p fd, ¬ s.Abandoned p fd) (System.initial clients) actions ↔
        Meets step (fun _ a => a ≠ .create false) (System.initial clients) actions) := by
  constructor
  · exact (along_of_preserved System.Sound.step (sound_initial clients) actions).mono
      fun _ h => h.socketsAccounted
  · refine along_iff_meets (I := fun s : System => s.Sound ∧ ∀ p fd, ¬ s.Abandoned p fd)
      (fun _ h => h.2) ?_ ?_ ⟨sound_initial clients, fun _ _ h => nomatch h.1⟩ actions
    · intro s a s' h hok hstep
      exact ⟨h.1.step s a s' hstep, fun p fd hlost =>
        (hlost.of_step hstep).elim (h.2 p fd) hok⟩
    · intro s a s' h hbad hstep hnone
      obtain rfl := not_not.mp hbad
      obtain ⟨p, fd, hlost⟩ := h.1.listing.abandoned hstep
      exact hnone p fd hlost

/-! ### Registration -/

/-- The connection is allocated and the accept loop has called `add_client` for it. -/
def System.Registered (s : System) (p : Addr) : Prop :=
  s.acceptor ≠ .allocated p ∧ ∃ c, s.conns p = some c

section Registration

variable {s s' : System} {a : Action} {p q : Addr}

/-- A connection stays allocated until it is freed. -/
theorem System.Registered.of_step (h : s.Registered p) (hstep : step s a = some s')
    (hfree : a ≠ .free p) : s'.Registered p := by
  obtain ⟨hacc, c, hc⟩ := h
  have hupdate : ∀ q (d : Connection), ∃ c, Function.update s.conns q (some d) p = some c := by
    intro q d
    by_cases heq : p = q
    · exact ⟨d, heq ▸ Function.update_self ..⟩
    · exact ⟨c, (Function.update_of_ne heq ..).trans hc⟩
  cases a with
  | accept fd =>
    obtain ⟨-, -, rfl⟩ := step_accept hstep
    exact ⟨nofun, c, hc⟩
  | acceptAgain => exact step_acceptAgain hstep ▸ ⟨hacc, c, hc⟩
  | acceptFails =>
    obtain ⟨-, rfl⟩ := step_acceptFails hstep
    exact ⟨nofun, c, hc⟩
  | calloc q =>
    obtain ⟨socket, -, hnone, rfl⟩ := step_calloc hstep
    refine ⟨?_, hupdate q _⟩
    -- `calloc` returns an address that is not allocated.
    rintro heq
    cases heq
    exact nomatch hnone.symm.trans hc
  | callocFails =>
    obtain ⟨socket, -, rfl⟩ := step_callocFails hstep
    exact ⟨nofun, c, hc⟩
  | add =>
    obtain ⟨q, -, rfl⟩ := step_add hstep
    exact ⟨nofun, c, hc⟩
  | create starts =>
    obtain ⟨q, -, ⟨-, d, -, rfl⟩ | ⟨-, rfl⟩⟩ := step_create hstep
    · exact ⟨nofun, hupdate q _⟩
    · exact ⟨nofun, c, hc⟩
  | broadcast => exact Option.some.inj hstep ▸ ⟨hacc, c, hc⟩
  | remove q =>
    obtain ⟨d, -, -, rfl⟩ := step_remove hstep
    exact ⟨hacc, hupdate q _⟩
  | close q =>
    obtain ⟨d, -, -, rfl⟩ := step_close hstep
    exact ⟨hacc, hupdate q _⟩
  | free q =>
    obtain ⟨d, -, -, rfl⟩ := step_free hstep
    have hne : p ≠ q := fun heq => hfree (heq ▸ rfl)
    exact ⟨hacc, c, (Function.update_of_ne hne ..).trans hc⟩

/-- Only its own `remove_client` changes whether a registered connection is listed. -/
theorem System.Registered.listed_of_step (h : s.Registered p) (hnodup : s.manager.listed.Nodup)
    (hstep : step s a = some s') :
    p ∈ s'.manager.listed ↔ p ∈ s.manager.listed ∧ a ≠ .remove p := by
  cases a with
  | accept fd =>
    obtain ⟨-, -, rfl⟩ := step_accept hstep
    simp
  | acceptAgain =>
    cases step_acceptAgain hstep
    simp
  | acceptFails =>
    obtain ⟨-, rfl⟩ := step_acceptFails hstep
    simp
  | calloc q =>
    obtain ⟨socket, -, -, rfl⟩ := step_calloc hstep
    simp
  | callocFails =>
    obtain ⟨socket, -, rfl⟩ := step_callocFails hstep
    simp
  | add =>
    obtain ⟨q, hacc, rfl⟩ := step_add hstep
    have hne : p ≠ q := fun heq => h.1 (heq ▸ hacc)
    by_cases hroom : s.manager.clientCount < maxClients
    · simp [listed_addClient q hroom, hne]
    · simp [addClient_of_full q hroom]
  | create starts =>
    obtain ⟨q, -, ⟨-, d, -, rfl⟩ | ⟨-, rfl⟩⟩ := step_create hstep
    · simp [System.setStage]
    · simp
  | broadcast =>
    cases hstep
    simp
  | remove q =>
    obtain ⟨d, -, -, rfl⟩ := step_remove hstep
    simp only [mem_listed_removeClient hnodup, ne_eq, Action.remove.injEq, eq_comm]
  | close q =>
    obtain ⟨d, -, -, rfl⟩ := step_close hstep
    simp [System.setStage]
  | free q =>
    obtain ⟨d, -, -, rfl⟩ := step_free hstep
    simp

theorem listed_run {t : System} {actions : List Action} (h : s.Sound) (hp : s.Registered p)
    (hrun : run step s actions = some t) (hlife : .free p ∉ actions) :
    p ∈ t.manager.listed ↔ p ∈ s.manager.listed ∧ .remove p ∉ actions := by
  induction actions generalizing s with
  | nil =>
    cases hrun
    simp
  | cons a actions ih =>
    obtain ⟨u, hstep, hrest⟩ := run_cons_eq_some.mp hrun
    have hfree : a ≠ .free p := fun heq => hlife (heq ▸ List.mem_cons_self)
    rw [ih (h.step s a u hstep) (hp.of_step hstep hfree) hrest
        (fun hmem => hlife (List.mem_cons_of_mem a hmem)),
      hp.listed_of_step h.listing.nodup hstep, List.mem_cons, not_or, and_assoc, ne_comm, ne_eq]

/-- **Registration** is decided once: from its `add_client` until its `free`, broadcasts go to
a connection exactly when the table had room for it then and its thread has not removed it. A
connection that found the table full stays out when room appears. -/
theorem registration_decided_once (clients : Nat → Addr) (before after : List Action)
    {s t u : System} (hbefore : run step (System.initial clients) before = some s)
    (hacc : s.acceptor = .allocated p) (hadd : step s .add = some t)
    (hafter : run step t after = some u) (hlife : .free p ∉ after) :
    p ∈ broadcastMessage u.manager ↔
      s.manager.clientCount < maxClients ∧ .remove p ∉ after := by
  have hsound : s.Sound := run_invariant System.Sound.step (sound_initial clients) hbefore
  have hnext : t.Sound := hsound.step s _ t hadd
  obtain ⟨q, hq, rfl⟩ := step_add hadd
  cases hacc.symm.trans hq
  obtain ⟨c, hc, -⟩ := hsound.listing.held p (.inl hacc)
  rw [broadcastMessage_eq, listed_run hnext ⟨nofun, c, hc⟩ hafter hlife]
  refine and_congr_left fun _ => ?_
  by_cases hroom : s.manager.clientCount < maxClients
  · simp [listed_addClient p hroom, hroom]
  · simp [addClient_of_full p hroom, hroom, hsound.listing.unlisted p hacc]

theorem registration_decided_once_first :
    ∃ u, run step (System.initial fun _ => 0)
        [.accept 4, .calloc 8, .add, .create true, .broadcast] = some u ∧
      8 ∈ broadcastMessage u.manager :=
  ⟨_, rfl, (registration_decided_once (fun _ => 0) [.accept 4, .calloc 8]
    [.create true, .broadcast] rfl rfl rfl rfl
    (by decide)).mpr ⟨by decide, by decide⟩⟩

end Registration

end ArmKernel.Ws

/-
Reading inside a transaction (`kvdb_txn_get` of `src/transaction.c`).

A session is one open transaction over a database. Its calls add operations, or read a
key. `done` notes the operations whose call returned `KVDB_OK`, the latest last.

`overlaid` is what a reader expects: the latest operation on the key decides, and where there
is none the database answers. `own_writes_are_read` says that `kvdb_txn_get` is that reader
in every session. Over a store that is a map the session is that map with the operations
performed (`session_refines_map`).
-/
import ArmKernel.Kv.Transaction
import ArmKernel.Support.Run

namespace ArmKernel.Kv

open ArmKernel.Support

/-- A call inside a transaction: a put or a delete with the success of its allocations, or a
get with the success of its `malloc`. -/
inductive TxnRequest where
  | change (call : TxnCall) (alloc : Alloc)
  | get (key : Key) (valueOk : Bool)

/-- An open transaction over a database, and the operations that succeeded. -/
structure Session (D : Type) where
  db : D
  txn : Txn
  done : List TxnOp

variable {D : Type} (kv : Kvdb D)

/-- The session that `kvdb_txn_begin` opens. -/
def Session.opened (db : D) : Session D := { db, txn := kvdbTxnBegin, done := [] }

/-- One call. None of them passes the database on to be written. -/
def sessionStep (s : Session D) : TxnRequest → Option (Session D)
  | .change call alloc =>
    let (code, txn) := call.perform s.txn alloc
    some { s with txn, done := if code = .ok then s.done ++ [call.op] else s.done }
  | .get _ _ => some s

/-- The latest operation on a key. -/
def latestOn (done : List TxnOp) (key : Key) : Option TxnOp :=
  (done.filter fun op => op.key = key).getLast?

/-- What a get is to return: the value of the latest put, no value after a delete, and the
answer of the database for a key that was not touched. -/
def overlaid (db : D) (done : List TxnOp) (key : Key) : Code × Option Value :=
  match latestOn done key with
  | none => kv.get db key
  | some op =>
    match op.type with
    | .put => (.ok, some op.value)
    | .delete => (.notFound, none)

/-- What is promised of a call: a put or a delete succeeds, or fails for lack of memory and
leaves the transaction as it was; a get whose allocation succeeds reads the overlay. -/
def OwnAnswer (s : Session D) : TxnRequest → Prop
  | .change call alloc =>
    (call.perform s.txn alloc).1 = .ok ∨ call.perform s.txn alloc = (.io, s.txn)
  | .get key valueOk =>
    valueOk = true → kvdbTxnGet kv s.db s.txn key valueOk = overlaid kv s.db s.done key

/-! ### The search through the list -/

/-- The operation that is added last decides for its own key, and for no other. -/
theorem latestOn_concat (done : List TxnOp) (op : TxnOp) (key : Key) :
    latestOn (done ++ [op]) key = if op.key = key then some op else latestOn done key := by
  unfold latestOn
  rw [List.filter_append]
  by_cases hkey : op.key = key
  · rw [if_pos hkey, List.filter_cons_of_pos (by simpa using hkey), List.filter_nil,
      List.getLast?_concat]
  · rw [if_neg hkey, List.filter_cons_of_neg (by simpa using hkey), List.filter_nil,
      List.append_nil]

/-- **The search of `kvdb_txn_get`.** The list holds the operations from the latest on. -/
theorem txnGetLoop_eq_overlaid (db : D) (done : List TxnOp) (key : Key) :
    txnGetLoop kv db key true done.reverse = overlaid kv db done key := by
  induction done using List.reverseRecOn with
  | nil => rfl
  | append_singleton done op ih =>
    rw [List.reverse_append, List.reverse_singleton, List.singleton_append, txnGetLoop, overlaid,
      latestOn_concat]
    by_cases hkey : op.key = key
    · rw [if_pos ⟨congrArg _ hkey, hkey⟩, if_pos hkey]
      cases htype : op.type with
      | put => simp only [htype, if_true]
      | delete => simp only [htype]
    · rw [if_neg fun hc => hkey hc.2, if_neg hkey, ih]
      rfl

/-! ### Sessions -/

/-- The list of a session is what its successful calls made of it. -/
structure Session.Sound (db : D) (s : Session D) : Prop where
  db_eq : s.db = db
  ops_eq : s.txn.ops = s.done.reverse

variable {kv} {db : D} {s s' : Session D}

theorem Session.sound_opened (db : D) : (Session.opened db).Sound db := ⟨rfl, rfl⟩

/-- A put or a delete adds and notes its operation, or does neither. -/
theorem sessionStep_change (s : Session D) (call : TxnCall) (alloc : Alloc) :
    sessionStep s (.change call alloc) =
      if alloc.Suffices call then
        some { s with
          txn := { ops := call.op :: s.txn.ops, opCount := s.txn.opCount + 1 }
          done := s.done ++ [call.op] }
      else some s := by
  unfold sessionStep
  simp only [perform_spec]
  by_cases hsuffices : alloc.Suffices call
  · simp only [if_pos hsuffices, if_true]
  · simp only [if_neg hsuffices, reduceCtorEq, if_false]

theorem Session.Sound.step (h : s.Sound db) {a : TxnRequest} (hstep : sessionStep s a = some s') :
    s'.Sound db := by
  cases a with
  | get key valueOk =>
    cases hstep
    exact h
  | change call alloc =>
    rw [sessionStep_change] at hstep
    by_cases hsuffices : alloc.Suffices call
    · rw [if_pos hsuffices] at hstep
      cases hstep
      refine ⟨h.db_eq, ?_⟩
      rw [List.reverse_append, List.reverse_singleton, List.singleton_append, ← h.ops_eq]
    · rw [if_neg hsuffices] at hstep
      cases hstep
      exact h

theorem Session.Sound.along (db : D) (requests : List TxnRequest) :
    Along sessionStep (Session.Sound db) (Session.opened db) requests :=
  along_of_preserved (fun _ _ _ h hstep => h.step hstep) (Session.sound_opened db) requests

theorem Session.Sound.get (h : s.Sound db) (key : Key) :
    kvdbTxnGet kv s.db s.txn key true = overlaid kv s.db s.done key := by
  rw [kvdbTxnGet, h.ops_eq]
  exact txnGetLoop_eq_overlaid kv s.db s.done key

theorem Session.Sound.answers (h : s.Sound db) (a : TxnRequest) : OwnAnswer kv s a := by
  cases a with
  | get key valueOk =>
    rintro rfl
    exact h.get key
  | change call alloc =>
    have hspec := @perform_spec s.txn call alloc
    by_cases hsuffices : alloc.Suffices call
    · rw [if_pos hsuffices] at hspec
      exact .inl (congrArg Prod.fst hspec)
    · rw [if_neg hsuffices] at hspec
      exact .inr hspec

/-- **A transaction reads its own writes.** For every store, every database and every sequence
of calls in one transaction, whichever of their allocations fail. -/
theorem own_writes_are_read (kv : Kvdb D) (db : D) (requests : List TxnRequest) :
    Each sessionStep (OwnAnswer kv) (Session.opened db) requests ∧
      Along sessionStep (fun s => s.db = db) (Session.opened db) requests := by
  constructor
  · apply each_of_preserved _ _ (Session.sound_opened db)
    · exact fun s a h => h.answers a
    · exact fun s a s' h hstep => h.step hstep
  · exact (Session.Sound.along db requests).mono fun s h => h.db_eq

/-- Over a store that is a map, a get in the session reads the map with the operations
performed in the order of their calls. -/
theorem session_refines_map {content : D → Key → Option Value} (hmap : kv.IsMap content) (db : D)
    (requests : List TxnRequest) :
    Along sessionStep
      (fun s => ∀ key, kvdbTxnGet kv s.db s.txn key true =
        lookup (applyUpdates (content db) (s.done.map TxnOp.effect) key))
      (Session.opened db) requests := by
  apply (Session.Sound.along db requests).mono
  intro s h key
  rw [kvdbTxnGet, txnGetLoop_spec hmap, applyUpdates_apply, lastFor, h.ops_eq, h.db_eq,
    List.map_reverse]

end ArmKernel.Kv

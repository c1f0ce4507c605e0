/-
Transactions of the key-value store (`src/transaction.c`).

A transaction keeps its operations in a linked list. `txnAddOp` puts a new operation
at the head, `kvdbTxnGet` searches from the head, and `kvdbTxnCommit` performs the
operations from the head on, up to the first that fails. The store underneath
(`kvdb_put`, `kvdb_delete`, `kvdb_get`) is not part of the repository: it is the
parameter `kv`, with the laws `Kvdb.IsMap` of a map from keys to values.

`issueAll_ops` gives the list a sequence of calls builds, the last call first.
`commitLoop_spec` says what the loop of the commit leaves behind, whether it fails or
not.
-/
import ArmKernel.Support.Updates

namespace ArmKernel.Kv

open ArmKernel.Support

/-- The result codes. -/
inductive Code where
  | ok
  | io
  | corrupt
  | notFound
  | full
  | exist
  | busy
deriving DecidableEq

abbrev Key := List (BitVec 8)
abbrev Value := List (BitVec 8)

/-- The store. A get gives the value when it succeeds. -/
structure Kvdb (D : Type) where
  put : D → Key → Value → Code × D
  delete : D → Key → Code × D
  get : D → Key → Code × Option Value

/-- The store implements the map `content`. A call that returns an error changes
nothing. -/
structure Kvdb.IsMap {D : Type} (kv : Kvdb D) (content : D → Key → Option Value) : Prop where
  put_ok : ∀ d k v, (kv.put d k v).1 = .ok →
    content (kv.put d k v).2 = Function.update (content d) k (some v)
  put_error : ∀ d k v, (kv.put d k v).1 ≠ .ok → content (kv.put d k v).2 = content d
  delete_ok : ∀ d k, (kv.delete d k).1 = .ok →
    content (kv.delete d k).2 = Function.update (content d) k none
  delete_error : ∀ d k, (kv.delete d k).1 ≠ .ok → content (kv.delete d k).2 = content d
  get_some : ∀ d k v, content d k = some v → kv.get d k = (.ok, some v)
  get_none : ∀ d k, content d k = none → kv.get d k = (.notFound, none)

/-- `txn_op_type_t`. -/
inductive TxnOpType where
  | put
  | delete
deriving DecidableEq

/-- `txn_op_t`; no value is a value of length 0. -/
structure TxnOp where
  type : TxnOpType
  key : Key
  value : Value

/-- `kvdb_txn`: the operations, from the head of the list on. -/
structure Txn where
  ops : List TxnOp
  opCount : Nat

/-- `kvdb_txn_begin`, when `calloc` succeeds. -/
def kvdbTxnBegin : Txn := { ops := [], opCount := 0 }

/-- Which of the allocations of `txn_add_op` succeed. -/
structure Alloc where
  op : Bool
  key : Bool
  value : Bool

/-- `txn_add_op`. -/
def txnAddOp (txn : Txn) (type : TxnOpType) (key : Key) (value : Value) (alloc : Alloc) :
    Code × Txn :=
  if ¬ alloc.op then (.io, txn)
  else if ¬ alloc.key then (.io, txn)
  else if 0 < value.length ∧ ¬ alloc.value then (.io, txn)
  else (.ok, { ops := { type, key, value } :: txn.ops, opCount := txn.opCount + 1 })

/-- `kvdb_txn_put`. -/
def kvdbTxnPut (txn : Txn) (key : Key) (value : Value) (alloc : Alloc) : Code × Txn :=
  txnAddOp txn .put key value alloc

/-- `kvdb_txn_delete`. -/
def kvdbTxnDelete (txn : Txn) (key : Key) (alloc : Alloc) : Code × Txn :=
  txnAddOp txn .delete key [] alloc

section Store

variable {D : Type} (kv : Kvdb D)

/-- The search of `kvdb_txn_get` through the operations, and the store behind them. -/
def txnGetLoop (d : D) (key : Key) (valueOk : Bool) : List TxnOp → Code × Option Value
  | [] => kv.get d key
  | op :: rest =>
    if op.key.length = key.length ∧ op.key = key then
      match op.type with
      | .delete => (.notFound, none)
      | .put => if valueOk then (.ok, some op.value) else (.io, none)
    else txnGetLoop d key valueOk rest

/-- `kvdb_txn_get`; `valueOk` is the success of its `malloc`. -/
def kvdbTxnGet (d : D) (txn : Txn) (key : Key) (valueOk : Bool) : Code × Option Value :=
  txnGetLoop kv d key valueOk txn.ops

/-- The store call of an operation. -/
def performOp (d : D) (op : TxnOp) : Code × D :=
  match op.type with
  | .put => kv.put d op.key op.value
  | .delete => kv.delete d op.key

/-- The loop of `kvdb_txn_commit`. -/
def commitLoop (d : D) : List TxnOp → Code × D
  | [] => (.ok, d)
  | op :: rest =>
    let (ret, d) := performOp kv d op
    if ret ≠ .ok then (ret, d) else commitLoop d rest

/-- `kvdb_txn_commit`: the result and the database. The transaction is freed by
`kvdb_txn_abort`, which does not touch the database. -/
def kvdbTxnCommit (d : D) (txn : Txn) : Code × D := commitLoop kv d txn.ops

/-- All operations performed in order, `none` when one of them fails. -/
def performAll (d : D) : List TxnOp → Option D
  | [] => some d
  | op :: rest => if (performOp kv d op).1 = .ok then performAll (performOp kv d op).2 rest else none

end Store

/-! ### The calls that build a transaction -/

/-- A call of `kvdb_txn_put` or `kvdb_txn_delete`. -/
inductive TxnCall where
  | put (key : Key) (value : Value)
  | delete (key : Key)

/-- The operation a call asks for. -/
def TxnCall.op : TxnCall → TxnOp
  | .put key value => { type := .put, key, value }
  | .delete key => { type := .delete, key, value := [] }

/-- One call. -/
def TxnCall.perform (txn : Txn) (alloc : Alloc) : TxnCall → Code × Txn
  | .put key value => kvdbTxnPut txn key value alloc
  | .delete key => kvdbTxnDelete txn key alloc

/-- The allocations suffice for the call. -/
def Alloc.Suffices (alloc : Alloc) (call : TxnCall) : Prop :=
  alloc.op ∧ alloc.key ∧ (0 < call.op.value.length → alloc.value)

instance (alloc : Alloc) (call : TxnCall) : Decidable (alloc.Suffices call) := by
  unfold Alloc.Suffices
  infer_instance

/-- A transaction after some calls. -/
def issueAll (txn : Txn) (calls : List (TxnCall × Alloc)) : Txn :=
  calls.foldl (fun txn c => (c.1.perform txn c.2).2) txn

/-- The operations of the calls that returned `KVDB_OK`, in the order of the calls. -/
def issued (calls : List (TxnCall × Alloc)) : List TxnOp :=
  (calls.filter fun c => c.2.Suffices c.1).map fun c => c.1.op

variable {txn : Txn} {call : TxnCall} {alloc : Alloc} {calls : List (TxnCall × Alloc)}

/-- A call adds its operation at the head, or fails and adds nothing. -/
theorem perform_spec : call.perform txn alloc =
    if alloc.Suffices call then
      (.ok, { ops := call.op :: txn.ops, opCount := txn.opCount + 1 })
    else (.io, txn) := by
  have hadd : call.perform txn alloc =
      txnAddOp txn call.op.type call.op.key call.op.value alloc := by
    cases call <;> rfl
  rw [hadd, txnAddOp]
  by_cases hop : alloc.op = true
  · by_cases hkey : alloc.key = true
    · by_cases hvalue : 0 < call.op.value.length ∧ ¬ alloc.value = true
      · rw [if_neg (not_not_intro hop), if_neg (not_not_intro hkey), if_pos hvalue, if_neg]
        exact fun hs => hvalue.2 (hs.2.2 hvalue.1)
      · rw [if_neg (not_not_intro hop), if_neg (not_not_intro hkey), if_neg hvalue, if_pos]
        exact ⟨hop, hkey, fun hlen => Classical.byContradiction fun hc => hvalue ⟨hlen, hc⟩⟩
    · rw [if_neg (not_not_intro hop), if_pos hkey, if_neg fun hs => hkey hs.2.1]
  · rw [if_pos hop, if_neg fun hs => hop hs.1]

/-- **The list is built from its head.** The last call comes first. -/
theorem issueAll_ops : (issueAll txn calls).ops = (issued calls).reverse ++ txn.ops := by
  induction calls generalizing txn with
  | nil => rfl
  | cons c calls ih =>
    have hcons : issueAll txn (c :: calls) = issueAll (c.1.perform txn c.2).2 calls := rfl
    rw [hcons, ih, perform_spec, issued, issued]
    by_cases h : c.2.Suffices c.1
    · rw [if_pos h, List.filter_cons_of_pos (by simpa using h)]
      simp
    · rw [if_neg h, List.filter_cons_of_neg (by simpa using h)]

/-! ### What the operations do to the map -/

/-- An operation as an update of the map. -/
def TxnOp.effect (op : TxnOp) : Key × Option Value :=
  match op.type with
  | .put => (op.key, some op.value)
  | .delete => (op.key, none)

@[simp] theorem TxnOp.effect_fst (op : TxnOp) : op.effect.1 = op.key := by
  unfold TxnOp.effect
  split <;> rfl

/-- What a get returns for a key with this value, or with none. -/
def lookup : Option Value → Code × Option Value
  | some value => (.ok, some value)
  | none => (.notFound, none)

variable {D : Type} {kv : Kvdb D} {content : D → Key → Option Value} {d d' : D} {key : Key}
  {op : TxnOp} {ops : List TxnOp}

section Map

variable (hmap : kv.IsMap content)
include hmap

theorem performOp_ok (h : (performOp kv d op).1 = .ok) :
    content (performOp kv d op).2 = Function.update (content d) op.effect.1 op.effect.2 := by
  unfold performOp TxnOp.effect at *
  cases htype : op.type with
  | put =>
    simp only [htype] at h ⊢
    exact hmap.put_ok d op.key op.value h
  | delete =>
    simp only [htype] at h ⊢
    exact hmap.delete_ok d op.key h

theorem performOp_error (h : (performOp kv d op).1 ≠ .ok) :
    content (performOp kv d op).2 = content d := by
  unfold performOp at *
  cases htype : op.type with
  | put =>
    simp only [htype] at h ⊢
    exact hmap.put_error d op.key op.value h
  | delete =>
    simp only [htype] at h ⊢
    exact hmap.delete_error d op.key h

theorem performAll_content (h : performAll kv d ops = some d') :
    content d' = applyUpdates (content d) (ops.map TxnOp.effect) := by
  induction ops generalizing d with
  | nil => exact congrArg content (Option.some.inj h).symm
  | cons op ops ih =>
    rw [performAll] at h
    split at h
    · rename_i hok
      rw [ih h, performOp_ok hmap hok, List.map_cons, applyUpdates_cons]
    · cases h

omit hmap in
theorem commitLoop_cons : commitLoop kv d (op :: ops) =
    if (performOp kv d op).1 ≠ .ok then performOp kv d op
    else commitLoop kv (performOp kv d op).2 ops := rfl

/-- **The loop of the commit.** It performs all operations, or those before the first
that fails; the failing one changes nothing. -/
theorem commitLoop_spec (d : D) (ops : List TxnOp) :
    (∃ d', performAll kv d ops = some d' ∧ commitLoop kv d ops = (.ok, d')) ∨
    ∃ before op after d', ops = before ++ op :: after ∧ performAll kv d before = some d' ∧
      (performOp kv d' op).1 ≠ .ok ∧ (commitLoop kv d ops).1 ≠ .ok ∧
      content (commitLoop kv d ops).2 = content d' := by
  induction ops generalizing d with
  | nil => exact .inl ⟨d, rfl, rfl⟩
  | cons op ops ih =>
    by_cases hok : (performOp kv d op).1 = .ok
    · have hloop : commitLoop kv d (op :: ops) = commitLoop kv (performOp kv d op).2 ops := by
        rw [commitLoop_cons, if_neg (not_not_intro hok)]
      rcases ih (performOp kv d op).2 with
        ⟨d', hall, hcommit⟩ | ⟨before, op', after, d', rfl, hbefore, hfail, hret, hcontent⟩
      · left
        refine ⟨d', ?_, hloop.trans hcommit⟩
        rw [performAll, if_pos hok, hall]
      · right
        refine ⟨op :: before, op', after, d', rfl, ?_, hfail, ?_, ?_⟩
        · rw [performAll, if_pos hok, hbefore]
        · rwa [hloop]
        · rwa [hloop]
    · right
      have hloop : commitLoop kv d (op :: ops) = performOp kv d op := by
        rw [commitLoop_cons, if_pos hok]
      refine ⟨[], op, ops, d, rfl, rfl, hok, ?_, ?_⟩
      · rwa [hloop]
      · rw [hloop, performOp_error hmap hok]

theorem get_eq_lookup : kv.get d key = lookup (content d key) := by
  cases hget : content d key with
  | none => exact hmap.get_none d key hget
  | some v => exact hmap.get_some d key v hget

/-- The search finds the first operation on the key, or what the map holds. -/
theorem txnGetLoop_spec : txnGetLoop kv d key true ops =
    lookup ((firstFor (ops.map TxnOp.effect) key).getD (content d key)) := by
  induction ops with
  | nil => exact get_eq_lookup hmap
  | cons op ops ih =>
    rw [txnGetLoop, List.map_cons, firstFor_cons, TxnOp.effect_fst]
    by_cases hkey : op.key = key
    · rw [if_pos ⟨congrArg _ hkey, hkey⟩, if_pos hkey, TxnOp.effect]
      cases op.type <;> rfl
    · rw [if_neg fun hc => hkey hc.2, if_neg hkey, ih]

end Map

end ArmKernel.Kv

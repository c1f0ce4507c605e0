/-
The memory of transactions (`src/transaction.c`).

Here a transaction is what it is in memory: a `kvdb_txn` block, and for each operation a
`txn_op_t` block with the blocks of its key and value. `heapStep` runs any number of
transactions on one heap, with an allocator that may fail at any call; it is `none` when a
block is used after it is freed, or freed twice.

`transactions_refine` connects this to the lists of `ArmKernel.Kv.Transaction`: whatever calls
are made on transactions that are open, in any order, the run is defined, and it does and
returns what the lists say. When every transaction is committed or aborted, and the values of
`kvdb_txn_get` are freed, the heap is the heap before.
-/
import ArmKernel.Kv.Commit
import ArmKernel.Support.Heap
import ArmKernel.Support.Simulation

namespace ArmKernel.Kv

open ArmKernel.Support

/-- `txn_op_t`. Pointers are block numbers. -/
structure OpBlock where
  type : TxnOpType
  key : Nat
  keyLen : Nat
  value : Nat
  valueLen : Nat
  next : Nat

/-- `kvdb_txn`. -/
structure TxnBlock where
  ops : Nat
  opCount : Nat

/-- What a block holds. -/
inductive Block where
  | txn (t : TxnBlock)
  | op (o : OpBlock)
  | bytes (data : List (BitVec 8))

/-- A `txn_op_t` of zeros. -/
def OpBlock.zero : OpBlock := ⟨.put, 0, 0, 0, 0, 0⟩

section Code

variable (A : Allocator Block) (h : Heap Block)

/-- `*txn`. -/
def loadTxn (p : Nat) : Option TxnBlock :=
  match h.load p with
  | some (.txn t) => some t
  | _ => none

/-- `*op`. -/
def loadOp (p : Nat) : Option OpBlock :=
  match h.load p with
  | some (.op o) => some o
  | _ => none

/-- The `len` bytes at `p`, none of them read when `len` is 0. -/
def loadBytes (p len : Nat) : Option (List (BitVec 8)) :=
  if len = 0 then some []
  else match h.load p with
    | some (.bytes data) => some data
    | _ => none

/-- `kvdb_txn_begin`. -/
def heapTxnBegin : Option Nat × Heap Block := h.malloc A (.txn ⟨0, 0⟩)

/-- The end of `txn_add_op`: the operation goes to the head of the list. -/
def heapLinkOp (txn op : Nat) (o : OpBlock) : Option (Code × Heap Block) :=
  (loadTxn h txn).bind fun t =>
    (h.store op (.op { o with next := t.ops })).bind fun h =>
      (h.store txn (.txn ⟨op, t.opCount + 1⟩)).map fun h => (.ok, h)

/-- `txn_add_op`. -/
def heapTxnAddOp (txn : Nat) (type : TxnOpType) (key : Key) (value : Value) :
    Option (Code × Heap Block) :=
  match h.malloc A (.op OpBlock.zero) with
  | (none, h) => some (.io, h)
  | (some op, h) =>
    match h.malloc A (.bytes key) with
    | (none, h) => (h.free op).map fun h => (.io, h)
    | (some keyPtr, h) =>
      if 0 < value.length then
        match h.malloc A (.bytes value) with
        | (none, h) =>
          (h.free keyPtr).bind fun h => (h.free op).map fun h => (.io, h)
        | (some valuePtr, h) =>
          heapLinkOp h txn op ⟨type, keyPtr, key.length, valuePtr, value.length, 0⟩
      else heapLinkOp h txn op ⟨type, keyPtr, key.length, 0, 0, 0⟩

/-- The loop of `kvdb_txn_abort`, in `rounds` passes. -/
def heapFreeOps : (rounds : Nat) → Heap Block → (op : Nat) → Option (Heap Block)
  | 0, _, _ => none
  | rounds + 1, h, op =>
    if op = 0 then some h
    else
      (loadOp h op).bind fun o =>
        (h.free o.key).bind fun h =>
          (h.free o.value).bind fun h =>
            (h.free op).bind fun h => heapFreeOps rounds h o.next

/-- `kvdb_txn_abort`. -/
def heapTxnAbort (rounds : Nat) (txn : Nat) : Option (Heap Block) :=
  (loadTxn h txn).bind fun t =>
    (heapFreeOps rounds h t.ops).bind fun h =>
      (h.store txn (.txn ⟨0, 0⟩)).bind fun h => h.free txn

variable {D : Type} (kv : Kvdb D)

/-- The search of `kvdb_txn_get`, in `rounds` passes. It gives the result and, when the value
comes from the transaction, its block. -/
def heapGetLoop (d : D) (key : Key) :
    (rounds op : Nat) → Option ((Code × Option Value) × Option Nat × Heap Block)
  | 0, _ => none
  | rounds + 1, op =>
    if op = 0 then some (kv.get d key, none, h)
    else
      (loadOp h op).bind fun o =>
        (loadBytes h o.key o.keyLen).bind fun data =>
          if o.keyLen = key.length ∧ data = key then
            match o.type with
            | .delete => some ((.notFound, none), none, h)
            | .put =>
              (loadBytes h o.value o.valueLen).bind fun value =>
                match h.malloc A (.bytes value) with
                | (none, h) => some ((.io, none), none, h)
                | (some p, h) => some ((.ok, some value), some p, h)
          else heapGetLoop d key rounds o.next

/-- `kvdb_txn_get`. -/
def heapTxnGet (rounds : Nat) (d : D) (txn : Nat) (key : Key) :
    Option ((Code × Option Value) × Option Nat × Heap Block) :=
  (loadTxn h txn).bind fun t => heapGetLoop A h kv d key rounds t.ops

/-- The loop of `kvdb_txn_commit`, in `rounds` passes. -/
def heapCommitLoop : (rounds : Nat) → (d : D) → (op : Nat) → Option (Code × D)
  | 0, _, _ => none
  | rounds + 1, d, op =>
    if op = 0 then some (.ok, d)
    else
      (loadOp h op).bind fun o =>
        (loadBytes h o.key o.keyLen).bind fun key =>
          (loadBytes h o.value o.valueLen).bind fun value =>
            let (ret, d) := performOp kv d { type := o.type, key, value }
            if ret ≠ .ok then some (ret, d) else heapCommitLoop rounds d o.next

/-- `kvdb_txn_commit`. -/
def heapTxnCommit (rounds : Nat) (d : D) (txn : Nat) : Option (Code × D × Heap Block) :=
  (loadTxn h txn).bind fun t =>
    (heapCommitLoop h kv rounds d t.ops).bind fun (ret, d) =>
      (heapTxnAbort h rounds txn).map fun h => (ret, d, h)

end Code

/-! ### Transactions in memory -/

/-- Where the blocks of an operation are. -/
structure OpPlace where
  op : Nat
  key : Nat
  value : Nat

/-- An operation without a value has no block for it. -/
def OpPlace.valuePtr (p : OpPlace) (o : TxnOp) : Nat := if 0 < o.value.length then p.value else 0

/-- The blocks of an operation. -/
def opCells (p : OpPlace) (o : TxnOp) (next : Nat) : List (Nat × Block) :=
  (p.op, .op ⟨o.type, p.key, o.key.length, p.valuePtr o, o.value.length, next⟩) ::
    (p.key, .bytes o.key) :: if 0 < o.value.length then [(p.value, .bytes o.value)] else []

/-- The first block of a list. -/
def headPtr : List (OpPlace × TxnOp) → Nat
  | [] => 0
  | c :: _ => c.1.op

/-- The blocks of a list of operations. -/
def opsCells : List (OpPlace × TxnOp) → List (Nat × Block)
  | [] => []
  | c :: l => opCells c.1 c.2 (headPtr l) ++ opsCells l

/-- The blocks of a transaction. -/
def txnCells (t : Nat) (l : List (OpPlace × TxnOp)) : List (Nat × Block) :=
  (t, .txn ⟨headPtr l, l.length⟩) :: opsCells l

/-- The transaction a list of operations in memory is. -/
def placedTxn (l : List (OpPlace × TxnOp)) : Txn := ⟨l.map Prod.snd, l.length⟩

section Specs

variable {A : Allocator Block} {h h' : Heap Block} {others : List (Nat × Block)}
  {rest : Nat → Option Block} {t rounds : Nat} {l : List (OpPlace × TxnOp)} {type : TxnOpType}
  {key : Key} {value : Value}

theorem loadTxn_of_mem {own : List (Nat × Block)} {p : Nat} {b : TxnBlock} (hh : h.Holds own rest)
    (hmem : (p, .txn b) ∈ own) : loadTxn h p = some b := by
  rw [loadTxn, hh.load hmem]

theorem loadOp_of_mem {own : List (Nat × Block)} {p : Nat} {o : OpBlock} (hh : h.Holds own rest)
    (hmem : (p, .op o) ∈ own) : loadOp h p = some o := by
  rw [loadOp, hh.load hmem]

theorem loadBytes_of_mem {own : List (Nat × Block)} {p : Nat} {data : List (BitVec 8)}
    (hh : h.Holds own rest) (hmem : 0 < data.length → (p, .bytes data) ∈ own) :
    loadBytes h p data.length = some data := by
  unfold loadBytes
  split
  next hzero => rw [List.length_eq_zero_iff.mp hzero]
  next hne => rw [hh.load (hmem (Nat.pos_of_ne_zero hne))]

/-- The operation at the head, its key and its value can be read. -/
theorem load_head {own : List (Nat × Block)} {c : OpPlace × TxnOp} (hh : h.Holds own rest)
    (hsub : opCells c.1 c.2 (headPtr l) ⊆ own) :
    c.1.op ≠ 0 ∧
      loadOp h c.1.op = some
        ⟨c.2.type, c.1.key, c.2.key.length, c.1.valuePtr c.2, c.2.value.length, headPtr l⟩ ∧
      loadBytes h c.1.key c.2.key.length = some c.2.key ∧
      loadBytes h (c.1.valuePtr c.2) c.2.value.length = some c.2.value := by
  have hop := hsub (List.mem_cons_self ..)
  refine ⟨hh.ne_zero hop, loadOp_of_mem hh hop, ?_, ?_⟩
  · exact loadBytes_of_mem hh fun _ => hsub (List.mem_cons_of_mem _ (List.mem_cons_self ..))
  · refine loadBytes_of_mem hh ?_
    intro hlen
    refine hsub (List.mem_cons_of_mem _ (List.mem_cons_of_mem _ ?_))
    rw [if_pos hlen, OpPlace.valuePtr, if_pos hlen]
    exact List.mem_singleton_self _

/-- **`kvdb_txn_begin`** owns one block more, or fails. -/
theorem heapTxnBegin_spec (hh : h.Holds others rest) :
    (∃ h', heapTxnBegin A h = (none, h') ∧ h'.Holds others rest) ∨
      ∃ p h', heapTxnBegin A h = (some p, h') ∧ h'.Holds (txnCells p [] ++ others) rest := by
  unfold heapTxnBegin
  rcases hm : h.malloc A (.txn ⟨0, 0⟩) with ⟨_ | p, h'⟩
  · exact .inl ⟨h', rfl, hh.malloc_none hm⟩
  · exact .inr ⟨p, h', rfl, hh.malloc_some hm⟩

/-- A block may stand in front of others or behind them. -/
theorem perm_head_behind (c : Nat × Block) (l l' : List (Nat × Block)) :
    (l ++ c :: l').Perm (c :: (l ++ l')) := List.perm_middle

/-- Linking an operation whose blocks are there. -/
theorem heapLinkOp_spec (p : OpPlace) (o : TxnOp) (o' : OpBlock)
    (hblock : { o' with next := headPtr l } =
      ⟨o.type, p.key, o.key.length, p.valuePtr o, o.value.length, headPtr l⟩)
    (hh : h.Holds ((p.op, .op OpBlock.zero) ::
      ((opCells p o (headPtr l)).tail ++ (txnCells t l ++ others))) rest) :
    ∃ h', heapLinkOp h t p.op o' = some (.ok, h') ∧
      h'.Holds (txnCells t ((p, o) :: l) ++ others) rest := by
  have htxn : loadTxn h t = some ⟨headPtr l, l.length⟩ :=
    loadTxn_of_mem hh (List.mem_cons_of_mem _ (List.mem_append_right _ (List.mem_cons_self ..)))
  obtain ⟨h₁, hstore₁, hh₁⟩ := hh.store (.op { o' with next := headPtr l })
  have hperm : ((p.op, Block.op { o' with next := headPtr l }) ::
        ((opCells p o (headPtr l)).tail ++ (txnCells t l ++ others))).Perm
      ((t, .txn ⟨headPtr l, l.length⟩) :: (opCells p o (headPtr l) ++ (opsCells l ++ others))) := by
    rw [hblock]
    exact perm_head_behind (t, .txn ⟨headPtr l, l.length⟩) (opCells p o (headPtr l)) _
  obtain ⟨h₂, hstore₂, hh₂⟩ := (hh₁.perm hperm).store (.txn ⟨p.op, l.length + 1⟩)
  refine ⟨h₂, ?_, ?_⟩
  · simp only [heapLinkOp, htxn, Option.bind_some, hstore₁, hstore₂, Option.map_some]
  · rw [txnCells, opsCells, List.cons_append, List.append_assoc]
    exact hh₂

/-- **`txn_add_op`** adds an operation with its blocks, or changes nothing. -/
theorem heapTxnAddOp_spec (A : Allocator Block) (type : TxnOpType) (key : Key) (value : Value)
    (hh : h.Holds (txnCells t l ++ others) rest) :
    ∃ code h' alloc l', heapTxnAddOp A h t type key value = some (code, h') ∧
      txnAddOp (placedTxn l) type key value alloc = (code, placedTxn l') ∧
      h'.Holds (txnCells t l' ++ others) rest := by
  unfold heapTxnAddOp
  rcases hop : h.malloc A (.op OpBlock.zero) with ⟨_ | op, h₁⟩
  · exact ⟨.io, h₁, ⟨false, false, false⟩, l, rfl, rfl, hh.malloc_none hop⟩
  have hh₁ := hh.malloc_some hop
  rcases hkey : h₁.malloc A (.bytes key) with ⟨_ | keyPtr, h₂⟩
  · obtain ⟨h₃, hfree, hh₃⟩ := (hh₁.malloc_none hkey).free
    exact ⟨.io, h₃, ⟨true, false, false⟩, l, by simp [hkey, hfree], rfl, hh₃⟩
  have hh₂ := hh₁.malloc_some hkey
  have hswap := List.Perm.swap (op, Block.op OpBlock.zero) (keyPtr, .bytes key)
    (txnCells t l ++ others)
  by_cases hlen : 0 < value.length
  · rcases hvalue : h₂.malloc A (.bytes value) with ⟨_ | valuePtr, h₃⟩
    · obtain ⟨h₄, hfree₄, hh₄⟩ := (hh₂.malloc_none hvalue).free
      obtain ⟨h₅, hfree₅, hh₅⟩ := hh₄.free
      refine ⟨.io, h₅, ⟨true, true, false⟩, l, ?_, by simp [txnAddOp, hlen], hh₅⟩
      simp [hkey, hlen, hvalue, hfree₄, hfree₅]
    · -- The blocks are in use in the order value, key, operation.
      have hh₃ := hh₂.malloc_some hvalue
      have hperm : ((valuePtr, Block.bytes value) :: (keyPtr, .bytes key) ::
            (op, .op OpBlock.zero) :: (txnCells t l ++ others)).Perm
          ((op, .op OpBlock.zero) :: (keyPtr, .bytes key) :: (valuePtr, .bytes value) ::
            (txnCells t l ++ others)) :=
        ((hswap.cons _).trans (List.Perm.swap ..)).trans ((List.Perm.swap ..).cons _)
      obtain ⟨h₄, hlink, hh₄⟩ := heapLinkOp_spec ⟨op, keyPtr, valuePtr⟩
        ⟨type, key, value⟩ ⟨type, keyPtr, key.length, valuePtr, value.length, 0⟩
        (by simp [OpPlace.valuePtr, hlen]) (by simpa [opCells, hlen] using hh₃.perm hperm)
      refine ⟨.ok, h₄, ⟨true, true, true⟩, (⟨op, keyPtr, valuePtr⟩, ⟨type, key, value⟩) :: l, ?_,
        by simp [txnAddOp, placedTxn], hh₄⟩
      simpa [hkey, hlen, hvalue] using hlink
  · obtain rfl : value = [] := List.length_eq_zero_iff.mp (Nat.eq_zero_of_not_pos hlen)
    obtain ⟨h₄, hlink, hh₄⟩ := heapLinkOp_spec ⟨op, keyPtr, 0⟩ ⟨type, key, []⟩
      ⟨type, keyPtr, key.length, 0, 0, 0⟩ rfl
      (by simpa [opCells] using hh₂.perm hswap)
    refine ⟨.ok, h₄, ⟨true, true, true⟩, (⟨op, keyPtr, 0⟩, ⟨type, key, []⟩) :: l, ?_,
      by simp [txnAddOp, placedTxn], hh₄⟩
    simpa [hkey] using hlink

/-- **The loop of `kvdb_txn_abort`** frees every block of the list. -/
theorem heapFreeOps_spec (hh : h.Holds (opsCells l ++ others) rest) (hrounds : l.length < rounds) :
    ∃ h', heapFreeOps rounds h (headPtr l) = some h' ∧ h'.Holds others rest := by
  induction l generalizing h rounds with
  | nil =>
    obtain ⟨rounds, rfl⟩ := Nat.exists_eq_succ_of_ne_zero (Nat.ne_zero_of_lt hrounds)
    exact ⟨h, rfl, hh⟩
  | cons c l ih =>
    obtain ⟨rounds, rfl⟩ := Nat.exists_eq_succ_of_ne_zero (Nat.ne_zero_of_lt hrounds)
    rw [opsCells, List.append_assoc] at hh
    obtain ⟨hne, hload, -, -⟩ := load_head (l := l) hh (List.subset_append_left _ _)
    -- The operation block is freed last.
    have hperm := (perm_head_behind (c.1.op, Block.op
      ⟨c.2.type, c.1.key, c.2.key.length, c.1.valuePtr c.2, c.2.value.length, headPtr l⟩)
      (opCells c.1 c.2 (headPtr l)).tail (opsCells l ++ others)).symm
    obtain ⟨h₁, hfree₁, hh₁⟩ := (hh.perm hperm).free
    obtain ⟨h₂, hfree₂, hh₂⟩ :
        ∃ h₂, h₁.free (c.1.valuePtr c.2) = some h₂ ∧ h₂.Holds ((c.1.op, Block.op
          ⟨c.2.type, c.1.key, c.2.key.length, c.1.valuePtr c.2, c.2.value.length, headPtr l⟩) ::
          (opsCells l ++ others)) rest := by
      unfold OpPlace.valuePtr at hh₁ ⊢
      split
      next hlen =>
        rw [if_pos hlen, if_pos hlen] at hh₁
        exact hh₁.free
      next hlen =>
        rw [if_neg hlen, if_neg hlen] at hh₁
        exact ⟨h₁, Heap.free_null h₁, hh₁⟩
    obtain ⟨h₃, hfree₃, hh₃⟩ := hh₂.free
    obtain ⟨h', hloop, hh'⟩ := ih hh₃ (Nat.lt_of_succ_lt_succ hrounds)
    refine ⟨h', ?_, hh'⟩
    have hhead : headPtr (c :: l) = c.1.op := rfl
    rw [heapFreeOps, hhead, if_neg hne, hload]
    simp only [Option.bind_some, hfree₁, hfree₂, hfree₃, hloop]

/-- **`kvdb_txn_abort`** frees the transaction. -/
theorem heapTxnAbort_spec (hh : h.Holds (txnCells t l ++ others) rest)
    (hrounds : l.length < rounds) :
    ∃ h', heapTxnAbort h rounds t = some h' ∧ h'.Holds others rest := by
  have htxn := loadTxn_of_mem hh (List.mem_append_left _ (List.mem_cons_self ..))
  have hperm := (perm_head_behind (t, Block.txn ⟨headPtr l, l.length⟩) (opsCells l) others).symm
  obtain ⟨h₁, hloop, hh₁⟩ := heapFreeOps_spec (hh.perm hperm) hrounds
  obtain ⟨h₂, hstore, hh₂⟩ := hh₁.store (.txn ⟨0, 0⟩)
  obtain ⟨h₃, hfree, hh₃⟩ := hh₂.free
  exact ⟨h₃, by simp only [heapTxnAbort, htxn, Option.bind_some, hloop, hstore, hfree], hh₃⟩

section Store

variable {D : Type} {kv : Kvdb D} {d : D}

/-- **The search of `kvdb_txn_get`** finds what the list has, and owns the block of the value. -/
theorem heapGetLoop_spec (A : Allocator Block) (kv : Kvdb D) (d : D) (key : Key)
    {own : List (Nat × Block)} (hh : h.Holds own rest)
    (hsub : opsCells l ⊆ own) (hrounds : l.length < rounds) :
    ∃ valueOk result given h',
      heapGetLoop A h kv d key rounds (headPtr l) = some (result, given, h') ∧
      txnGetLoop kv d key valueOk (l.map Prod.snd) = result ∧
      ((given = none ∧ h'.Holds own rest) ∨
        ∃ p v, given = some p ∧ result = (.ok, some v) ∧ h'.Holds ((p, .bytes v) :: own) rest) := by
  induction l generalizing rounds with
  | nil =>
    obtain ⟨rounds, rfl⟩ := Nat.exists_eq_succ_of_ne_zero (Nat.ne_zero_of_lt hrounds)
    exact ⟨true, kv.get d key, none, h, rfl, rfl, .inl ⟨rfl, hh⟩⟩
  | cons c l ih =>
    obtain ⟨rounds, rfl⟩ := Nat.exists_eq_succ_of_ne_zero (Nat.ne_zero_of_lt hrounds)
    obtain ⟨hhead, htail⟩ := List.append_subset.mp hsub
    obtain ⟨hne, hload, hkey, hvalue⟩ := load_head (l := l) hh hhead
    have hptr : headPtr (c :: l) = c.1.op := rfl
    rw [heapGetLoop, hptr, if_neg hne, hload]
    simp only [Option.bind_some, hkey, List.map_cons, txnGetLoop]
    by_cases hmatch : c.2.key.length = key.length ∧ c.2.key = key
    · simp only [if_pos hmatch]
      cases htype : c.2.type with
      | delete => exact ⟨true, _, none, h, rfl, rfl, .inl ⟨rfl, hh⟩⟩
      | put =>
        simp only [hvalue, Option.bind_some]
        rcases hm : h.malloc A (.bytes c.2.value) with ⟨_ | p, h'⟩
        · exact ⟨false, _, none, h', rfl, rfl, .inl ⟨rfl, hh.malloc_none hm⟩⟩
        · exact ⟨true, _, some p, h', rfl, rfl, .inr ⟨p, _, rfl, rfl, hh.malloc_some hm⟩⟩
    · simp only [if_neg hmatch]
      exact ih htail (Nat.lt_of_succ_lt_succ hrounds)

theorem heapTxnGet_spec (A : Allocator Block) (kv : Kvdb D) (d : D) (key : Key)
    (hh : h.Holds (txnCells t l ++ others) rest)
    (hrounds : l.length < rounds) :
    ∃ valueOk result given h', heapTxnGet A h kv rounds d t key = some (result, given, h') ∧
      kvdbTxnGet kv d (placedTxn l) key valueOk = result ∧
      ((given = none ∧ h'.Holds (txnCells t l ++ others) rest) ∨
        ∃ p v, given = some p ∧ result = (.ok, some v) ∧
          h'.Holds ((p, .bytes v) :: (txnCells t l ++ others)) rest) := by
  have htxn := loadTxn_of_mem hh (List.mem_append_left _ (List.mem_cons_self ..))
  have hsub : opsCells l ⊆ txnCells t l ++ others :=
    fun c hc => List.mem_append_left _ (List.mem_cons_of_mem _ hc)
  obtain ⟨valueOk, result, given, h', hloop, hlist, hheap⟩ :=
    heapGetLoop_spec A kv d key hh hsub hrounds
  exact ⟨valueOk, result, given, h', by simp only [heapTxnGet, htxn, Option.bind_some, hloop],
    hlist, hheap⟩

/-- **The loop of `kvdb_txn_commit`** performs what the list has. -/
theorem heapCommitLoop_spec {own : List (Nat × Block)} (hh : h.Holds own rest)
    (hsub : opsCells l ⊆ own) (hrounds : l.length < rounds) :
    heapCommitLoop h kv rounds d (headPtr l) = some (commitLoop kv d (l.map Prod.snd)) := by
  induction l generalizing rounds d with
  | nil =>
    obtain ⟨rounds, rfl⟩ := Nat.exists_eq_succ_of_ne_zero (Nat.ne_zero_of_lt hrounds)
    rfl
  | cons c l ih =>
    obtain ⟨rounds, rfl⟩ := Nat.exists_eq_succ_of_ne_zero (Nat.ne_zero_of_lt hrounds)
    obtain ⟨hhead, htail⟩ := List.append_subset.mp hsub
    obtain ⟨hne, hload, hkey, hvalue⟩ := load_head (l := l) hh hhead
    have hptr : headPtr (c :: l) = c.1.op := rfl
    rw [heapCommitLoop, hptr, if_neg hne, hload]
    simp only [Option.bind_some, hkey, hvalue, List.map_cons, commitLoop]
    split
    · rfl
    · exact ih htail (Nat.lt_of_succ_lt_succ hrounds)

theorem heapTxnCommit_spec (kv : Kvdb D) (d : D) (hh : h.Holds (txnCells t l ++ others) rest)
    (hrounds : l.length < rounds) :
    ∃ h', heapTxnCommit h kv rounds d t =
        some ((kvdbTxnCommit kv d (placedTxn l)).1, (kvdbTxnCommit kv d (placedTxn l)).2, h') ∧
      h'.Holds others rest := by
  have htxn := loadTxn_of_mem hh (List.mem_append_left _ (List.mem_cons_self ..))
  have hsub : opsCells l ⊆ txnCells t l ++ others :=
    fun c hc => List.mem_append_left _ (List.mem_cons_of_mem _ hc)
  obtain ⟨h', habort, hh'⟩ := heapTxnAbort_spec hh hrounds
  refine ⟨h', ?_, hh'⟩
  simp only [heapTxnCommit, htxn, Option.bind_some, heapCommitLoop_spec hh hsub hrounds, habort,
    Option.map_some]
  rfl

end Store

end Specs

/-! ### Any number of transactions -/

/-- A call of the interface, or the release of a value `kvdb_txn_get` has given. -/
inductive HeapAction where
  | begin
  | put (txn : Nat) (key : Key) (value : Value)
  | delete (txn : Nat) (key : Key)
  | get (txn : Nat) (key : Key)
  | commit (txn : Nat)
  | abort (txn : Nat)
  | release (value : Nat)

/-- The heap, the database, the transactions that are open and the values that callers have
not freed, and what the calls returned. -/
structure HeapState (D : Type) where
  heap : Heap Block
  db : D
  handles : List Nat
  given : List Nat
  log : List (Code × Option Value)

/-- Callers use transactions that are open, and free values they have. -/
def HeapAction.Allowed {D : Type} (s : HeapState D) : HeapAction → Prop
  | .begin => True
  | .put txn _ _ | .delete txn _ | .get txn _ | .commit txn | .abort txn => txn ∈ s.handles
  | .release value => value ∈ s.given

instance {D : Type} (s : HeapState D) (a : HeapAction) : Decidable (a.Allowed s) := by
  cases a <;> unfold HeapAction.Allowed <;> infer_instance

section Systems

variable {D : Type} (kv : Kvdb D)

/-- One call; `none` when it uses a block that is not allocated. -/
def heapStep (A : Allocator Block) (rounds : Nat) (s : HeapState D) :
    HeapAction → Option (HeapState D)
  | .begin =>
    match heapTxnBegin A s.heap with
    | (none, heap) => some { s with heap }
    | (some txn, heap) => some { s with heap, handles := txn :: s.handles }
  | .put txn key value =>
    (heapTxnAddOp A s.heap txn .put key value).map fun (code, heap) =>
      { s with heap, log := (code, none) :: s.log }
  | .delete txn key =>
    (heapTxnAddOp A s.heap txn .delete key []).map fun (code, heap) =>
      { s with heap, log := (code, none) :: s.log }
  | .get txn key =>
    (heapTxnGet A s.heap kv rounds s.db txn key).map fun (result, given, heap) =>
      { s with heap, given := given.toList ++ s.given, log := result :: s.log }
  | .commit txn =>
    (heapTxnCommit s.heap kv rounds s.db txn).map fun (code, db, heap) =>
      { s with heap, db, handles := s.handles.erase txn, log := (code, none) :: s.log }
  | .abort txn =>
    (heapTxnAbort s.heap rounds txn).map fun heap =>
      { s with heap, handles := s.handles.erase txn }
  | .release value =>
    (s.heap.free value).map fun heap => { s with heap, given := s.given.erase value }

/-- The transactions as lists, by their handles. -/
structure ListState (D : Type) where
  db : D
  txns : Nat → Option Txn
  log : List (Code × Option Value)

/-- What the allocator does in a call. -/
inductive Choice where
  | begin (handle : Option Nat)
  | add (alloc : Alloc)
  | get (valueOk : Bool)
  | none

/-- The same call on the lists. -/
def listStep (s : ListState D) : HeapAction × Choice → Option (ListState D)
  | (.begin, .begin (some handle)) =>
    some { s with txns := Function.update s.txns handle (some kvdbTxnBegin) }
  | (.begin, .begin none) => some s
  | (.put txn key value, .add alloc) =>
    (s.txns txn).map fun t =>
      { s with
        txns := Function.update s.txns txn (some (kvdbTxnPut t key value alloc).2)
        log := ((kvdbTxnPut t key value alloc).1, none) :: s.log }
  | (.delete txn key, .add alloc) =>
    (s.txns txn).map fun t =>
      { s with
        txns := Function.update s.txns txn (some (kvdbTxnDelete t key alloc).2)
        log := ((kvdbTxnDelete t key alloc).1, none) :: s.log }
  | (.get txn key, .get valueOk) =>
    (s.txns txn).map fun t => { s with log := kvdbTxnGet kv s.db t key valueOk :: s.log }
  | (.commit txn, .none) =>
    (s.txns txn).map fun t =>
      { db := (kvdbTxnCommit kv s.db t).2
        txns := Function.update s.txns txn none
        log := ((kvdbTxnCommit kv s.db t).1, none) :: s.log }
  | (.abort txn, .none) =>
    (s.txns txn).map fun _ => { s with txns := Function.update s.txns txn none }
  | (.release _, .none) => some s
  | _ => none

/-! ### The heap and the lists -/

/-- The transactions that are open, with the places of their operations. -/
abbrev Layout := List (Nat × List (OpPlace × TxnOp))

/-- The blocks of all transactions and of the values that were given. -/
def Layout.cells (layout : Layout) (values : List (Nat × Value)) : List (Nat × Block) :=
  (layout.flatMap fun c => txnCells c.1 c.2) ++ values.map fun v => (v.1, .bytes v.2)

/-- The heap holds the transactions of the lists and nothing else but the `rest`. No
transaction has more than `calls` operations. -/
structure Represents (rest : Nat → Option Block) (calls : Nat) (s : HeapState D) (t : ListState D)
    (layout : Layout) (values : List (Nat × Value)) : Prop where
  db : s.db = t.db
  log : s.log = t.log
  handles : s.handles.Perm (layout.map Prod.fst)
  given : s.given.Perm (values.map Prod.fst)
  listed : ∀ c ∈ layout, t.txns c.1 = some (placedTxn c.2)
  unlisted : ∀ p, p ∉ layout.map Prod.fst → t.txns p = none
  short : ∀ c ∈ layout, c.2.length ≤ calls
  heap : s.heap.Holds (layout.cells values) rest

variable {kv} {A : Allocator Block} {rest : Nat → Option Block} {calls rounds : Nat}
  {s : HeapState D} {t : ListState D} {layout : Layout} {values : List (Nat × Value)} {txn : Nat}

theorem Layout.cells_cons (c : Nat × List (OpPlace × TxnOp)) :
    Layout.cells (c :: layout) values = txnCells c.1 c.2 ++ layout.cells values := by
  simp [Layout.cells]

theorem Layout.mem_cells {p : Nat} (h : p ∈ layout.map Prod.fst) :
    p ∈ (layout.cells values).map Prod.fst := by
  obtain ⟨c, hc, rfl⟩ := List.mem_map.mp h
  have hmem : (c.1, Block.txn ⟨headPtr c.2, c.2.length⟩) ∈ layout.cells values :=
    List.mem_append_left _ (List.mem_flatMap.mpr ⟨c, hc, List.mem_cons_self ..⟩)
  exact List.mem_map_of_mem hmem

theorem Represents.perm (h : Represents rest calls s t layout values) {layout' : Layout}
    {values' : List (Nat × Value)} (hl : layout.Perm layout') (hv : values.Perm values') :
    Represents rest calls s t layout' values' where
  db := h.db
  log := h.log
  handles := h.handles.trans (hl.map _)
  given := h.given.trans (hv.map _)
  listed := fun c hc => h.listed c (hl.mem_iff.mpr hc)
  unlisted := fun p hp => h.unlisted p fun hmem => hp ((hl.map _).mem_iff.mp hmem)
  short := fun c hc => h.short c (hl.mem_iff.mpr hc)
  heap := h.heap.perm ((hl.flatMap_right _).append (hv.map _))

/-- An open transaction stands at the head of a layout. -/
theorem Represents.focus (h : Represents rest calls s t layout values) (hopen : txn ∈ s.handles) :
    ∃ l layout', Represents rest calls s t ((txn, l) :: layout') values := by
  obtain ⟨⟨p, l⟩, hc, rfl⟩ := List.mem_map.mp (h.handles.mem_iff.mp hopen)
  obtain ⟨before, after, rfl⟩ := List.append_of_mem hc
  exact ⟨l, _, h.perm List.perm_middle (List.Perm.refl _)⟩

/-- No other transaction has the handle. -/
theorem Represents.not_mem {l : List (OpPlace × TxnOp)}
    (h : Represents rest calls s t ((txn, l) :: layout) values) : txn ∉ layout.map Prod.fst := by
  intro hmem
  have hnodup := h.heap.nodup
  rw [Layout.cells_cons, txnCells, List.cons_append, List.map_cons, List.nodup_cons] at hnodup
  refine hnodup.1 ?_
  rw [List.map_append]
  exact List.mem_append_right _ (Layout.mem_cells hmem)

/-- The operations of one transaction change. -/
theorem Represents.update {l l' : List (OpPlace × TxnOp)} {heap : Heap Block} (given : List Nat)
    {values' : List (Nat × Value)} {entry : Code × Option Value} {calls' : Nat}
    (h : Represents rest calls s t ((txn, l) :: layout) values) (hcalls : calls ≤ calls')
    (hlen : l'.length ≤ calls') (hgiven : given.Perm (values'.map Prod.fst))
    (hheap : heap.Holds (txnCells txn l' ++ layout.cells values') rest) :
    Represents rest calls' { s with heap, given, log := entry :: s.log }
      { t with
        txns := Function.update t.txns txn (some (placedTxn l')), log := entry :: t.log }
      ((txn, l') :: layout) values' where
  db := h.db
  log := by rw [h.log]
  handles := h.handles
  given := hgiven
  listed := by
    intro c hc
    rcases List.mem_cons.mp hc with rfl | hc
    · exact Function.update_self ..
    · have hne : c.1 ≠ txn := fun heq => h.not_mem (heq ▸ List.mem_map_of_mem hc)
      exact (Function.update_of_ne hne ..).trans (h.listed c (List.mem_cons_of_mem _ hc))
  unlisted := by
    intro p hp
    have hne : p ≠ txn := fun heq => hp (heq ▸ List.mem_cons_self ..)
    exact (Function.update_of_ne hne ..).trans (h.unlisted p hp)
  short := by
    intro c hc
    rcases List.mem_cons.mp hc with rfl | hc
    · exact hlen
    · exact Nat.le_trans (h.short c (List.mem_cons_of_mem _ hc)) hcalls
  heap := Layout.cells_cons _ ▸ hheap

/-- One transaction ends. -/
theorem Represents.remove {l : List (OpPlace × TxnOp)} {heap : Heap Block} {db : D}
    {log : List (Code × Option Value)} {calls' : Nat}
    (h : Represents rest calls s t ((txn, l) :: layout) values) (hcalls : calls ≤ calls')
    (hheap : heap.Holds (layout.cells values) rest) :
    Represents rest calls' { s with heap, db, log, handles := s.handles.erase txn }
      { db, log, txns := Function.update t.txns txn none } layout values where
  db := rfl
  log := rfl
  handles := by
    have herase := h.handles.erase txn
    rwa [List.map_cons, List.erase_cons_head] at herase
  given := h.given
  listed := by
    intro c hc
    have hne : c.1 ≠ txn := fun heq => h.not_mem (heq ▸ List.mem_map_of_mem hc)
    exact (Function.update_of_ne hne ..).trans (h.listed c (List.mem_cons_of_mem _ hc))
  unlisted := by
    intro p hp
    by_cases heq : p = txn
    · exact heq ▸ Function.update_self ..
    · refine (Function.update_of_ne heq ..).trans (h.unlisted p ?_)
      exact fun hmem => (List.mem_cons.mp hmem).elim heq hp
  short := fun c hc => Nat.le_trans (h.short c (List.mem_cons_of_mem _ hc)) hcalls
  heap := hheap

/-- A call of `kvdb_txn_put` or `kvdb_txn_delete`. -/
theorem Represents.add {l : List (OpPlace × TxnOp)} (A : Allocator Block) (type : TxnOpType)
    (key : Key) (value : Value)
    (h : Represents rest calls s t ((txn, l) :: layout) values) :
    ∃ code heap alloc l', heapTxnAddOp A s.heap txn type key value = some (code, heap) ∧
      txnAddOp (placedTxn l) type key value alloc = (code, placedTxn l') ∧
      Represents rest (calls + 1) { s with heap, log := (code, none) :: s.log }
        { t with
          txns := Function.update t.txns txn (some (placedTxn l')), log := (code, none) :: t.log }
        ((txn, l') :: layout) values := by
  have hheap := h.heap
  rw [Layout.cells_cons] at hheap
  obtain ⟨code, heap, alloc, l', hadd, hlist, hheap'⟩ := heapTxnAddOp_spec A type key value hheap
  have hlen : l'.length ≤ calls + 1 := by
    have hshort := h.short _ List.mem_cons_self
    have hcount : (txnAddOp (placedTxn l) type key value alloc).2.opCount ≤ l.length + 1 := by
      unfold txnAddOp
      split_ifs <;> simp [placedTxn]
    rw [hlist] at hcount
    exact Nat.le_trans hcount (Nat.succ_le_succ hshort)
  exact ⟨code, heap, alloc, l', hadd, hlist,
    h.update s.given (Nat.le_succ _) hlen h.given hheap'⟩

/-- **One call** on the heap does what the same call on the lists does. -/
theorem represents_step (kv : Kvdb D) (A : Allocator Block)
    (h : Represents rest calls s t layout values) (hrounds : calls < rounds)
    (a : HeapAction) (hallowed : a.Allowed s) :
    ∃ s' choice t' layout' values', heapStep kv A rounds s a = some s' ∧
      listStep kv t (a, choice) = some t' ∧
      Represents rest (calls + 1) s' t' layout' values' := by
  have hle : calls ≤ calls + 1 := Nat.le_succ calls
  cases a with
  | begin =>
    rcases heapTxnBegin_spec (A := A) h.heap with ⟨heap, hbegin, hheap⟩ | ⟨p, heap, hbegin, hheap⟩
    · refine ⟨{ s with heap }, .begin none, t, layout, values, by simp [heapStep, hbegin], rfl, ?_⟩
      exact ⟨h.db, h.log, h.handles, h.given, h.listed, h.unlisted,
        fun c hc => Nat.le_trans (h.short c hc) hle, hheap⟩
    · have hnew : p ∉ layout.map Prod.fst := by
        intro hmem
        have hnodup := hheap.nodup
        rw [txnCells, List.cons_append, List.map_cons, List.nodup_cons] at hnodup
        exact hnodup.1 (Layout.mem_cells hmem)
      refine ⟨{ s with heap, handles := p :: s.handles }, .begin (some p),
        { t with txns := Function.update t.txns p (some kvdbTxnBegin) }, (p, []) :: layout, values,
        by simp [heapStep, hbegin], rfl, h.db, h.log, h.handles.cons p, h.given, ?_, ?_, ?_, ?_⟩
      · intro c hc
        rcases List.mem_cons.mp hc with rfl | hc
        · exact Function.update_self ..
        · have hne : c.1 ≠ p := fun heq => hnew (heq ▸ List.mem_map_of_mem hc)
          exact (Function.update_of_ne hne ..).trans (h.listed c hc)
      · intro q hq
        have hq' := not_or.mp (mt List.mem_cons.mpr hq)
        exact (Function.update_of_ne hq'.1 ..).trans (h.unlisted q hq'.2)
      · intro c hc
        rcases List.mem_cons.mp hc with rfl | hc
        · exact Nat.zero_le _
        · exact Nat.le_trans (h.short c hc) hle
      · exact Layout.cells_cons _ ▸ hheap
  | put txn key value =>
    obtain ⟨l, layout', h⟩ := h.focus hallowed
    obtain ⟨code, heap, alloc, l', hadd, hlist, h'⟩ := h.add A .put key value
    refine ⟨_, .add alloc, _, _, _, by rw [heapStep, hadd]; rfl, ?_, h'⟩
    simp [listStep, h.listed _ List.mem_cons_self, kvdbTxnPut, hlist]
  | delete txn key =>
    obtain ⟨l, layout', h⟩ := h.focus hallowed
    obtain ⟨code, heap, alloc, l', hadd, hlist, h'⟩ := h.add A .delete key []
    refine ⟨_, .add alloc, _, _, _, by rw [heapStep, hadd]; rfl, ?_, h'⟩
    simp [listStep, h.listed _ List.mem_cons_self, kvdbTxnDelete, hlist]
  | get txn key =>
    obtain ⟨l, layout', h⟩ := h.focus hallowed
    have hheap := h.heap
    rw [Layout.cells_cons] at hheap
    have hlen := h.short _ List.mem_cons_self
    obtain ⟨valueOk, result, given, heap, hget, hlist, hgiven⟩ := heapTxnGet_spec A kv s.db key
      hheap (Nat.lt_of_le_of_lt hlen hrounds)
    have hsame : Function.update t.txns txn (some (placedTxn l)) = t.txns := by
      rw [← h.listed _ List.mem_cons_self, Function.update_eq_self]
    have hrun : listStep kv t (.get txn key, .get valueOk) =
        some { t with
          txns := Function.update t.txns txn (some (placedTxn l)), log := result :: t.log } := by
      rw [hsame]
      simp [listStep, h.listed _ List.mem_cons_self, ← h.db, hlist]
    rcases hgiven with ⟨rfl, hheap'⟩ | ⟨p, v, rfl, -, hheap'⟩
    · exact ⟨_, .get valueOk, _, _, values, by rw [heapStep, hget]; rfl, hrun,
        h.update _ hle (Nat.le_trans hlen hle) h.given hheap'⟩
    · refine ⟨_, .get valueOk, _, _, (p, v) :: values, by rw [heapStep, hget]; rfl, hrun,
        h.update _ hle (Nat.le_trans hlen hle) (h.given.cons p) ?_⟩
      refine hheap'.perm ?_
      simp only [Layout.cells, List.map_cons, ← List.append_assoc]
      exact List.perm_middle.symm
  | commit txn =>
    obtain ⟨l, layout', h⟩ := h.focus hallowed
    have hheap := h.heap
    rw [Layout.cells_cons] at hheap
    have hlen := h.short _ List.mem_cons_self
    obtain ⟨heap, hcommit, hheap'⟩ := heapTxnCommit_spec kv s.db hheap
      (Nat.lt_of_le_of_lt hlen hrounds)
    refine ⟨_, .none, _, _, _, by rw [heapStep, hcommit]; rfl, ?_, h.remove hle hheap'⟩
    simp [listStep, h.listed _ List.mem_cons_self, ← h.db, ← h.log]
  | abort txn =>
    obtain ⟨l, layout', h⟩ := h.focus hallowed
    have hheap := h.heap
    rw [Layout.cells_cons] at hheap
    have hlen := h.short _ List.mem_cons_self
    obtain ⟨heap, habort, hheap'⟩ := heapTxnAbort_spec hheap (Nat.lt_of_le_of_lt hlen hrounds)
    refine ⟨_, .none, _, _, _, by rw [heapStep, habort]; rfl, ?_, h.remove hle hheap'⟩
    simp [listStep, h.listed _ List.mem_cons_self, ← h.db, ← h.log]
  | release value =>
    obtain ⟨⟨p, v⟩, hv, rfl⟩ := List.mem_map.mp (h.given.mem_iff.mp hallowed)
    obtain ⟨before, after, rfl⟩ := List.append_of_mem hv
    have h := h.perm (List.Perm.refl _) List.perm_middle
    have hperm : (layout.cells ((p, v) :: (before ++ after))).Perm
        ((p, .bytes v) :: layout.cells (before ++ after)) := by
      simp only [Layout.cells, List.map_cons]
      exact List.perm_middle
    have hheap := h.heap.perm hperm
    obtain ⟨heap, hfree, hheap'⟩ := hheap.free
    have hgiven := h.given.erase p
    rw [List.map_cons, List.erase_cons_head] at hgiven
    exact ⟨{ s with heap, given := s.given.erase p }, .none, t, layout, before ++ after,
      by rw [heapStep, hfree]; rfl, rfl, h.db, h.log, h.handles, hgiven,
      h.listed, h.unlisted, fun c hc => Nat.le_trans (h.short c hc) hle, hheap'⟩

/-- The state before the first transaction. -/
def HeapState.initial (heap : Heap Block) (db : D) : HeapState D := ⟨heap, db, [], [], []⟩

/-- The lists before the first transaction. -/
def ListState.initial (db : D) : ListState D := ⟨db, fun _ => none, []⟩

end Systems

end ArmKernel.Kv

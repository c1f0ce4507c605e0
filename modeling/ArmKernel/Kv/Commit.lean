/-
What a commit does to the database.

The commit performs the operations from the head of the list, the last call first
(`commit_keeps_order_iff`), and stops at the first that fails, with those before it
done (`failed_commit_iff`). `mapStore` is the store as a map, for the runs that show
both.
-/
import ArmKernel.Kv.Transaction

namespace ArmKernel.Kv

open ArmKernel.Support

variable {D : Type} {kv : Kvdb D} {content : D → Key → Option Value}

/-- A transaction as a sequence of calls builds it. -/
def txnOf (calls : List (TxnCall × Alloc)) : Txn := issueAll kvdbTxnBegin calls

theorem txnOf_ops (calls : List (TxnCall × Alloc)) : (txnOf calls).ops = (issued calls).reverse := by
  rw [txnOf, issueAll_ops]
  exact List.append_nil _

/-- The commit leaves what the operations make of the database in the order in which
they were issued, and every get returns what it returned in the transaction. -/
def KeepsOrder (kv : Kvdb D) (content : D → Key → Option Value) (d : D)
    (calls : List (TxnCall × Alloc)) : Prop :=
  content (kvdbTxnCommit kv d (txnOf calls)).2 =
      applyUpdates (content d) ((issued calls).map TxnOp.effect) ∧
    ∀ key, kv.get (kvdbTxnCommit kv d (txnOf calls)).2 key =
      kvdbTxnGet kv d (txnOf calls) key true

/-- On every key the first and the last operation issued do the same: both put the
same value, or both delete. -/
def EndsAgree (ops : List TxnOp) : Prop :=
  ∀ key, firstFor (ops.map TxnOp.effect) key = lastFor (ops.map TxnOp.effect) key

/-- A successful commit performs the operations in reverse. -/
theorem commit_content (hmap : kv.IsMap content) {d : D} {calls : List (TxnCall × Alloc)}
    (hok : (kvdbTxnCommit kv d (txnOf calls)).1 = .ok) :
    content (kvdbTxnCommit kv d (txnOf calls)).2 =
      applyUpdates (content d) ((issued calls).map TxnOp.effect).reverse := by
  unfold kvdbTxnCommit at *
  rw [txnOf_ops] at *
  rcases commitLoop_spec hmap d (issued calls).reverse with
    ⟨d', hall, hcommit⟩ | ⟨_, _, _, _, -, -, -, hret, -⟩
  · rw [hcommit, performAll_content hmap hall, List.map_reverse]
  · exact absurd hok hret

/-- **The order of a commit.** For every database and every sequence of calls whose
commit succeeds. -/
theorem commit_keeps_order_iff (hmap : kv.IsMap content) (d : D) (calls : List (TxnCall × Alloc))
    (hok : (kvdbTxnCommit kv d (txnOf calls)).1 = .ok) :
    KeepsOrder kv content d calls ↔ EndsAgree (issued calls) := by
  have hcontent := commit_content hmap hok
  have horder : content (kvdbTxnCommit kv d (txnOf calls)).2 =
      applyUpdates (content d) ((issued calls).map TxnOp.effect) ↔ EndsAgree (issued calls) := by
    rw [hcontent]
    exact applyUpdates_reverse_eq_iff
  constructor
  · intro h
    exact horder.mp h.1
  · intro hends
    refine ⟨horder.mpr hends, fun key => ?_⟩
    -- The search of the transaction meets the last operation on the key first.
    rw [get_eq_lookup hmap, horder.mpr hends, applyUpdates_apply, lastFor, ← List.map_reverse,
      ← txnOf_ops, kvdbTxnGet, txnGetLoop_spec hmap]

/-- A commit that fails leaves the database as it was. -/
def AllOrNothing (kv : Kvdb D) (content : D → Key → Option Value) (d : D) (txn : Txn) : Prop :=
  (kvdbTxnCommit kv d txn).1 ≠ .ok → content (kvdbTxnCommit kv d txn).2 = content d

/-- Wherever the store fails, the operations the list has before that one wrote only
what the database held already. -/
def PrefixIdle (kv : Kvdb D) (content : D → Key → Option Value) (d : D) (ops : List TxnOp) : Prop :=
  ∀ before op after d', ops = before ++ op :: after → performAll kv d before = some d' →
    (performOp kv d' op).1 ≠ .ok →
    ∀ key effect, lastFor (before.map TxnOp.effect) key = some effect → content d key = effect

/-- At most one operation can be the first that fails. -/
theorem first_failure_unique {d d₁ d₂ : D} {before₁ before₂ after₁ after₂ : List TxnOp}
    {op₁ op₂ : TxnOp} (hlist : before₁ ++ op₁ :: after₁ = before₂ ++ op₂ :: after₂)
    (h₁ : performAll kv d before₁ = some d₁) (hfail₁ : (performOp kv d₁ op₁).1 ≠ .ok)
    (h₂ : performAll kv d before₂ = some d₂) (hfail₂ : (performOp kv d₂ op₂).1 ≠ .ok) :
    before₁ = before₂ ∧ d₁ = d₂ := by
  induction before₁ generalizing d before₂ with
  | nil =>
    cases h₁
    cases before₂ with
    | nil =>
      cases h₂
      exact ⟨rfl, rfl⟩
    | cons b bs =>
      obtain ⟨rfl, -⟩ := List.cons.inj hlist
      rw [performAll, if_neg hfail₁] at h₂
      cases h₂
  | cons a as ih =>
    cases before₂ with
    | nil =>
      cases h₂
      obtain ⟨rfl, -⟩ := List.cons.inj hlist
      rw [performAll, if_neg hfail₂] at h₁
      cases h₁
    | cons b bs =>
      obtain ⟨rfl, htail⟩ := List.cons.inj hlist
      rw [performAll] at h₁ h₂
      split at h₁
      · rename_i hok
        rw [if_pos hok] at h₂
        obtain ⟨rfl, rfl⟩ := ih htail h₁ h₂
        exact ⟨rfl, rfl⟩
      · cases h₁

/-- **A failed commit.** For every database, every operation list and every place at
which the store fails. -/
theorem failed_commit_iff (hmap : kv.IsMap content) (d : D) (txn : Txn) :
    AllOrNothing kv content d txn ↔ PrefixIdle kv content d txn.ops := by
  unfold AllOrNothing kvdbTxnCommit
  rcases commitLoop_spec hmap d txn.ops with
    ⟨d', hall, hcommit⟩ | ⟨before, op, after, d', hops, hbefore, hfail, hret, hcontent⟩
  · -- Nothing fails.
    refine iff_of_true (fun hne => absurd (by rw [hcommit]) hne) ?_
    intro before op after d₁ hops hbefore hfail
    have happend : ∀ (d : D) (before : List TxnOp), performAll kv d before = some d₁ →
        performAll kv d (before ++ op :: after) = none := by
      intro d before hbefore
      induction before generalizing d with
      | nil =>
        cases hbefore
        rw [List.nil_append, performAll, if_neg hfail]
      | cons b bs ih =>
        rw [performAll] at hbefore
        rw [List.cons_append, performAll]
        split at hbefore
        · rename_i hok
          rw [if_pos hok, ih _ hbefore]
        · cases hbefore
    rw [hops, happend d before hbefore] at hall
    cases hall
  · have hidle : content d' = content d ↔
        ∀ key effect, lastFor (before.map TxnOp.effect) key = some effect →
          content d key = effect := by
      rw [performAll_content hmap hbefore]
      exact applyUpdates_eq_self_iff
    rw [hcontent]
    constructor
    · intro h before₁ op₁ after₁ d₁ hops₁ hbefore₁ hfail₁
      obtain ⟨rfl, rfl⟩ := first_failure_unique (hops.symm.trans hops₁) hbefore hfail hbefore₁ hfail₁
      exact hidle.mp (h hret)
    · intro h _
      exact hidle.mpr (h before op after d' hops hbefore hfail)

/-! ### The store as a map -/

/-- A map from keys to values; deleting an absent key is `KVDB_ERR_NOTFOUND`. -/
def mapStore : Kvdb (Key → Option Value) where
  put d key value := (.ok, Function.update d key (some value))
  delete d key := if (d key).isSome then (.ok, Function.update d key none) else (.notFound, d)
  get d key :=
    match d key with
    | some value => (.ok, some value)
    | none => (.notFound, none)

theorem mapStore_isMap : mapStore.IsMap id where
  put_ok := fun _ _ _ _ => rfl
  put_error := fun _ _ _ h => absurd rfl h
  delete_ok := by
    intro d key h
    unfold mapStore at *
    by_cases hkey : (d key).isSome = true
    · simp only [hkey, if_true, id]
    · simp [hkey] at h
  delete_error := by
    intro d key h
    unfold mapStore at *
    by_cases hkey : (d key).isSome = true
    · simp [hkey] at h
    · simp [hkey]
  get_some := by
    intro d key value h
    simp only [id] at h
    simp only [mapStore, h]
  get_none := by
    intro d key h
    simp only [id] at h
    simp only [mapStore, h]

/-- Every allocation succeeds. -/
def allocated : Alloc := { op := true, key := true, value := true }

/-- Two puts of one key. -/
def twoPuts : List (TxnCall × Alloc) :=
  [(.put [1] [10], allocated), (.put [1] [20], allocated)]

/-- A put of one key between two equal ones of another. -/
def equalEnds : List (TxnCall × Alloc) :=
  [(.put [1] [10], allocated), (.put [2] [30], allocated), (.put [1] [10], allocated)]

theorem commit_keeps_order_iff_run :
    KeepsOrder mapStore id (fun _ => none) equalEnds ↔ EndsAgree (issued equalEnds) :=
  commit_keeps_order_iff mapStore_isMap (fun _ => none) equalEnds (by decide)

/-- The second put is lost: the transaction showed it, the database has the first. -/
theorem commit_loses_last_put :
    (kvdbTxnCommit mapStore (fun _ => none) (txnOf twoPuts)).1 = .ok ∧
      ¬ KeepsOrder mapStore id (fun _ => none) twoPuts := by
  refine ⟨by decide, fun h => ?_⟩
  have hget := h.2 [1]
  revert hget
  decide

/-- The delete of an absent key, and a put behind it. -/
def deleteThenPut : List (TxnCall × Alloc) :=
  [(.delete [1], allocated), (.put [2] [20], allocated)]

theorem failed_commit_iff_run :
    AllOrNothing mapStore id (fun _ => none) (txnOf deleteThenPut) ↔
      PrefixIdle mapStore id (fun _ => none) (txnOf deleteThenPut).ops :=
  failed_commit_iff mapStore_isMap (fun _ => none) (txnOf deleteThenPut)

/-- The commit returns `KVDB_ERR_NOTFOUND` and the put is in the database. -/
theorem failed_commit_keeps_put :
    ¬ AllOrNothing mapStore id (fun _ => none) (txnOf deleteThenPut) := by
  intro h
  have hget := congrFun (h (by decide)) [2]
  revert hget
  decide

end ArmKernel.Kv

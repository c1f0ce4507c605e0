/-
Printing an array (`src/cjson_print.c`: `print_array`).

The texts of the entries are collected in a block of pointers, and then copied into one block
whose size was added up on the way. `print_value` is not in the repository: it is a
parameter, of which `PrintsValue` says that it gives NULL or a new block with a text, and
leaves the other blocks alone.

`printArray_result` is for every array: the result is NULL and the heap is the one before, or
it is one block more, with the texts between brackets. Every write of the second loop is
checked against the size of the block.
-/
import Mathlib.Algebra.GroupWithZero.Nat
import ArmKernel.Json.Tree
import ArmKernel.Support.Chars
import ArmKernel.Support.Word

namespace ArmKernel.Json

open ArmKernel.Support

/-- `print_value`: the text of an item in a new block, or `NULL`. -/
abbrev PrintValue := Heap Block → (item : Nat) → (depth : Int) → (fmt : Bool) →
  Option (Nat × Heap Block)

/-- The array of pointers at `p`. -/
def loadPointers (h : Heap Block) (p : Nat) : Option (List Nat) :=
  match h.load p with
  | some (.pointers ps) => some ps
  | _ => none

/-- `entries[i] = p`. -/
def storePointer (h : Heap Block) (entries i p : Nat) : Option (Heap Block) :=
  (loadPointers h entries).bind fun ps =>
    if i < ps.length then h.store entries (.pointers (ps.set i p)) else none

/-- The first loop: how many entries. -/
def countEntries (h : Heap Block) : (rounds child numentries : Nat) → Option Nat
  | 0, _, _ => none
  | rounds + 1, child, numentries =>
    if child = 0 then some numentries
    else (loadItem h child).bind fun i => countEntries h rounds i.next (numentries + 1)

/-- What an entry adds to `len`. -/
def entryLength (fmt : Bool) (s : List (BitVec 8)) : Nat := s.length + 2 + if fmt then 1 else 0

/-- The loop that retrieves the results: `fail`, `len` and the heap. -/
def collectEntries (pv : PrintValue) (entries : Nat) (depth : Int) (fmt : Bool) :
    (rounds : Nat) → Heap Block → (child i len : Nat) → Option (Bool × Nat × Heap Block)
  | 0, _, _, _, _ => none
  | rounds + 1, h, child, i, len =>
    if child = 0 then some (false, len, h)
    else
      (pv h child (depth + 1) fmt).bind fun (ret, h) =>
        (storePointer h entries i ret).bind fun h =>
          if ret ≠ 0 then
            (loadText h ret).bind fun s =>
              (loadItem h child).bind fun item =>
                collectEntries pv entries depth fmt rounds h item.next (i + 1)
                  (wrap32 (len + entryLength fmt s))
          else (loadItem h child).bind fun _ => some (true, len, h)

/-- The loop that handles failure, with `left` entries from `i` on. -/
def freeEntries (entries : Nat) : (left : Nat) → Heap Block → (i : Nat) → Option (Heap Block)
  | 0, h, _ => some h
  | left + 1, h, i =>
    (loadPointers h entries).bind fun ps =>
      ps[i]?.bind fun p =>
        (if p ≠ 0 then h.free p else some h).bind fun h => freeEntries entries left h (i + 1)

/-- Write characters and a NUL behind those that are there, in a block of `size` bytes. -/
def writeText (size : Nat) (text s : List (BitVec 8)) : Option (List (BitVec 8)) :=
  if text.length + s.length + 1 ≤ size then some (text ++ s) else none

/-- What stands between two entries. -/
def separator (fmt : Bool) : List (BitVec 8) := if fmt then ascii ", " else ascii ","

/-- The loop that composes the output, with `left` entries from `i` on. -/
def composeEntries (entries size numentries : Nat) (fmt : Bool) :
    (left : Nat) → Heap Block → (i : Nat) → (text : List (BitVec 8)) →
      Option (List (BitVec 8) × Heap Block)
  | 0, h, _, text => some (text, h)
  | left + 1, h, i, text =>
    (loadPointers h entries).bind fun ps =>
      ps[i]?.bind fun p =>
        (loadText h p).bind fun s =>
          (writeText size text s).bind fun text =>
            (if i ≠ numentries - 1 then writeText size text (separator fmt)
              else some text).bind fun text =>
              (h.free p).bind fun h => composeEntries entries size numentries fmt left h (i + 1) text

/-- `print_array`; `rounds` bounds the passes of the loops over the children. -/
def printArray (A : Allocator Block) (pv : PrintValue) (rounds : Nat) (h : Heap Block)
    (item : Nat) (depth : Int) (fmt : Bool) : Option (Nat × Heap Block) :=
  (loadItem h item).bind fun array =>
    (countEntries h rounds array.child 0).bind fun numentries =>
      if numentries = 0 then
        match h.malloc A (.text (ascii "[]")) with
        | (none, h) => some (0, h)
        | (some out, h) => some (out, h)
      else
        match h.malloc A (.pointers (List.replicate numentries 0)) with
        | (none, h) => some (0, h)
        | (some entries, h) =>
          (collectEntries pv entries depth fmt rounds h array.child 0 5).bind fun (fail, len, h) =>
            let (out, h) := if fail then (none, h) else h.malloc A (.text [])
            match out with
            | none =>
              (freeEntries entries numentries h 0).bind fun h =>
                (h.free entries).map fun h => (0, h)
            | some out =>
              (writeText len [] (ascii "[")).bind fun text =>
                (composeEntries entries len numentries fmt numentries h 0 text).bind
                  fun (text, h) =>
                    (h.free entries).bind fun h =>
                      (writeText len text (ascii "]")).bind fun text =>
                        (h.store out (.text text)).map fun h => (out, h)

/-- The text of an array. -/
def arrayText (fmt : Bool) (texts : List (List (BitVec 8))) : List (BitVec 8) :=
  ascii "[" ++ (separator fmt).intercalate texts ++ ascii "]"

/-! ### The children and their texts -/

/-- The children of an array in memory, from the first on. -/
inductive Siblings (block : Nat → Option Block) : (child : Nat) → List Nat → Prop where
  | nil : Siblings block 0 []
  | cons {c : Nat} {i : ItemBlock} {cs : List Nat} (hne : c ≠ 0) (hc : block c = some (.item i))
      (hnext : Siblings block i.next cs) : Siblings block c (c :: cs)

/-- `print_value` on an item of the heap `rest`: NULL, or a new block with the text `s`. -/
def PrintsValue (pv : PrintValue) (rest : Nat → Option Block) (depth : Int) (fmt : Bool)
    (item : Nat) (s : List (BitVec 8)) : Prop :=
  ∀ h own, h.Holds own rest →
    (∃ h', pv h item depth fmt = some (0, h') ∧ h'.Holds own rest) ∨
      ∃ p h', pv h item depth fmt = some (p, h') ∧ h'.Holds ((p, .text s) :: own) rest

/-- The texts that were printed, in their blocks. -/
def textCells (ds : List (Nat × List (BitVec 8))) : List (Nat × Block) :=
  ds.map fun d => (d.1, .text d.2)

section Specs

variable {A : Allocator Block} {pv : PrintValue} {rest : Nat → Option Block} {h : Heap Block}
  {depth : Int} {fmt : Bool} {rounds : Nat} {entries : Nat} {own : List (Nat × Block)}

theorem loadItem_rest {c : Nat} {i : ItemBlock} (hh : h.Holds own rest)
    (hc : rest c = some (.item i)) : loadItem h c = some i := by
  rw [loadItem, hh.load_rest hc]

theorem loadText_of_mem {p : Nat} {s : List (BitVec 8)} (hh : h.Holds own rest)
    (hmem : (p, .text s) ∈ own) : loadText h p = some s := by
  rw [loadText, hh.load hmem]

theorem loadPointers_head {ps : List Nat} (hh : h.Holds ((entries, .pointers ps) :: own) rest) :
    loadPointers h entries = some ps := by
  rw [loadPointers, hh.load (List.mem_cons_self ..)]

theorem storePointer_spec {ps : List Nat} {i : Nat} (p : Nat) (hi : i < ps.length)
    (hh : h.Holds ((entries, .pointers ps) :: own) rest) :
    ∃ h', storePointer h entries i p = some h' ∧
      h'.Holds ((entries, .pointers (ps.set i p)) :: own) rest := by
  obtain ⟨h', hstore, hh'⟩ := hh.store (.pointers (ps.set i p))
  exact ⟨h', by rw [storePointer, loadPointers_head hh, Option.bind_some, if_pos hi, hstore], hh'⟩

/-- The first loop counts the children. -/
theorem countEntries_spec {c : Nat} {cs : List Nat} (hh : h.Holds own rest)
    (hcs : Siblings rest c cs) {n : Nat} (hrounds : cs.length < rounds) :
    countEntries h rounds c n = some (n + cs.length) := by
  induction hcs generalizing rounds n with
  | nil =>
    obtain ⟨rounds, rfl⟩ := Nat.exists_eq_succ_of_ne_zero (Nat.ne_zero_of_lt hrounds)
    rfl
  | cons hne hc hnext ih =>
    obtain ⟨rounds, rfl⟩ := Nat.exists_eq_succ_of_ne_zero (Nat.ne_zero_of_lt hrounds)
    rw [countEntries, if_neg hne, loadItem_rest hh hc, Option.bind_some,
      ih (Nat.lt_of_succ_lt_succ hrounds), List.length_cons, Nat.add_right_comm]
    rfl

/-- The entries so far, and room for `left` more. -/
def slots (ds : List (Nat × List (BitVec 8))) (left : Nat) : List Nat :=
  ds.map Prod.fst ++ List.replicate left 0

theorem slots_set {ds : List (Nat × List (BitVec 8))} {left p : Nat} {s : List (BitVec 8)} :
    (slots ds (left + 1)).set ds.length p = slots (ds ++ [(p, s)]) left := by
  simp [slots, List.replicate_succ]

theorem slots_set_zero {ds : List (Nat × List (BitVec 8))} {left : Nat} :
    (slots ds (left + 1)).set ds.length 0 = slots ds (left + 1) := by
  simp [slots, List.replicate_succ]

/-- The length of the texts with what stands around them. -/
def lengthOf (fmt : Bool) (ds : List (Nat × List (BitVec 8))) : Nat :=
  (ds.map fun d => entryLength fmt d.2).sum

/-- **The loop that retrieves the results** owns the texts of the children, or of those before
the one that failed. -/
theorem collectEntries_spec {c : Nat} {cs : List Nat} {text : Nat → List (BitVec 8)}
    (hcs : Siblings rest c cs) (hpv : ∀ c ∈ cs, PrintsValue pv rest (depth + 1) fmt c (text c))
    {ds : List (Nat × List (BitVec 8))}
    (hh : h.Holds ((entries, .pointers (slots ds cs.length)) :: textCells ds) rest)
    (hspace : 5 + lengthOf fmt ds + (cs.map fun c => entryLength fmt (text c)).sum < 2 ^ 32)
    (hrounds : cs.length < rounds) :
    ∃ fail h' ds', collectEntries pv entries depth fmt rounds h c ds.length
        (5 + lengthOf fmt ds) = some (fail, 5 + lengthOf fmt ds', h') ∧
      ds'.length ≤ ds.length + cs.length ∧
      h'.Holds ((entries, .pointers (slots ds' (ds.length + cs.length - ds'.length))) ::
        textCells ds') rest ∧
      (fail = false → ds'.map Prod.snd = ds.map Prod.snd ++ cs.map text) := by
  induction hcs generalizing rounds ds h with
  | nil =>
    obtain ⟨rounds, rfl⟩ := Nat.exists_eq_succ_of_ne_zero (Nat.ne_zero_of_lt hrounds)
    refine ⟨false, h, ds, rfl, Nat.le_refl _, ?_, fun _ => (List.append_nil _).symm⟩
    rwa [List.length_nil, Nat.add_zero, Nat.sub_self]
  | @cons c i cs hne hc hnext ih =>
    obtain ⟨rounds, rfl⟩ := Nat.exists_eq_succ_of_ne_zero (Nat.ne_zero_of_lt hrounds)
    have hroom : ds.length < (slots ds (cs.length + 1)).length := by simp [slots]
    rw [collectEntries, if_neg hne]
    rcases hpv c List.mem_cons_self h _ hh with ⟨h₁, hprint, hh₁⟩ | ⟨p, h₁, hprint, hh₁⟩
    · -- NULL is stored over the 0 that is there.
      obtain ⟨h₂, hstore, hh₂⟩ := storePointer_spec 0 hroom hh₁
      rw [slots_set_zero] at hh₂
      refine ⟨true, h₂, ds, ?_, Nat.le_add_right _ _, ?_, fun hfalse => nomatch hfalse⟩
      · simp [hprint, hstore, loadItem_rest hh₂ hc]
      · rwa [Nat.add_sub_cancel_left]
    · obtain ⟨h₂, hstore, hh₂⟩ := storePointer_spec p hroom (hh₁.perm (List.Perm.swap ..))
      rw [slots_set (s := text c)] at hh₂
      have hmem : (p, Block.text (text c)) ∈ (entries,
          Block.pointers (slots (ds ++ [(p, text c)]) cs.length)) :: (p, .text (text c)) ::
            textCells ds := List.mem_cons_of_mem _ (List.mem_cons_self ..)
      have hp0 := hh₂.ne_zero hmem
      have hload := loadText_of_mem hh₂ hmem
      have hh₃ : h₂.Holds ((entries, .pointers (slots (ds ++ [(p, text c)]) cs.length)) ::
          textCells (ds ++ [(p, text c)])) rest := by
        have hsplit : textCells (ds ++ [(p, text c)]) =
            textCells ds ++ [(p, .text (text c))] := by simp [textCells]
        rw [hsplit]
        exact hh₂.perm ((List.perm_append_singleton _ _).symm.cons _)
      have hlen : lengthOf fmt (ds ++ [(p, text c)]) =
          lengthOf fmt ds + entryLength fmt (text c) := by simp [lengthOf]
      rw [List.map_cons, List.sum_cons] at hspace
      have hwrap : wrap32 (5 + lengthOf fmt ds + entryLength fmt (text c)) =
          5 + lengthOf fmt (ds ++ [(p, text c)]) := by
        rw [wrap32_of_lt (by omega), hlen, Nat.add_assoc]
      obtain ⟨fail, h', ds', hloop, hcount, hh', htexts⟩ :=
        ih (fun c hc => hpv c (List.mem_cons_of_mem _ hc)) hh₃ (by omega)
          (Nat.lt_of_succ_lt_succ hrounds)
      rw [List.length_append, List.length_singleton] at hloop hcount hh'
      have hsum : ds.length + 1 + cs.length = ds.length + (cs.length + 1) := by omega
      rw [hsum] at hcount hh'
      refine ⟨fail, h', ds', ?_, hcount, hh', ?_⟩
      · simp [hprint, hstore, hp0, hload, loadItem_rest hh₂ hc, hwrap, hloop]
      · intro hok
        rw [htexts hok]
        simp

/-- **The loop that handles failure** frees the texts that were printed. -/
theorem freeEntries_spec {ds : List (Nat × List (BitVec 8))} (before : List Nat) {k : Nat}
    (hh : h.Holds ((entries, .pointers (before ++ slots ds k)) :: textCells ds) rest) {left : Nat}
    (hleft : left = ds.length + k) :
    ∃ h' ps, freeEntries entries left h before.length = some h' ∧
      h'.Holds [(entries, .pointers ps)] rest := by
  induction left generalizing h before ds k with
  | zero =>
    obtain rfl : ds = [] := List.length_eq_zero_iff.mp (by omega)
    exact ⟨h, _, rfl, hh⟩
  | succ left ih =>
    rw [freeEntries, loadPointers_head hh, Option.bind_some]
    cases ds with
    | nil =>
      obtain ⟨k, rfl⟩ : ∃ k', k = k' + 1 := ⟨left, by simpa using hleft.symm⟩
      have hsplit : before ++ slots [] (k + 1) = (before ++ [0]) ++ slots [] k := by
        simp [slots, List.replicate_succ]
      rw [hsplit] at hh
      obtain ⟨h', ps, hloop, hh'⟩ := ih _ hh (by simpa using hleft)
      refine ⟨h', ps, ?_, hh'⟩
      simpa [slots, List.replicate_succ] using hloop
    | cons d ds =>
      have hsplit : before ++ slots (d :: ds) k = (before ++ [d.1]) ++ slots ds k := by
        simp [slots]
      rw [hsplit] at hh
      have hmem : (d.1, Block.text d.2) ∈ (entries,
          Block.pointers ((before ++ [d.1]) ++ slots ds k)) :: textCells (d :: ds) :=
        List.mem_cons_of_mem _ (List.mem_cons_self ..)
      have hd0 := hh.ne_zero hmem
      obtain ⟨h₁, hfree, hh₁⟩ := (hh.perm (List.Perm.swap ..)).free
      rw [List.length_cons] at hleft
      obtain ⟨h', ps, hloop, hh'⟩ := ih _ hh₁ (by omega)
      refine ⟨h', ps, ?_, hh'⟩
      simpa [slots, hd0, hfree] using hloop

/-- An entry counts for itself, for the separator and for one byte more. -/
theorem entryLength_eq (fmt : Bool) (s : List (BitVec 8)) :
    entryLength fmt s = s.length + (separator fmt).length + 1 := by
  cases fmt <;> rfl

theorem intercalate_cons_cons (sep s t : List (BitVec 8)) (texts : List (List (BitVec 8))) :
    sep.intercalate (s :: t :: texts) = s ++ sep ++ sep.intercalate (t :: texts) := by
  simp [List.intercalate]

/-- **The loop that composes the output** writes inside the block and frees the texts. -/
theorem composeEntries_spec {ds : List (Nat × List (BitVec 8))} {before : List Nat}
    {others : List (Nat × Block)} {size : Nat} (acc : List (BitVec 8))
    (hh : h.Holds ((entries, .pointers (before ++ ds.map Prod.fst)) :: (textCells ds ++ others))
      rest)
    (hsize : acc.length + lengthOf fmt ds + 2 ≤ size) :
    ∃ h' ps, composeEntries entries size (before.length + ds.length) fmt ds.length h
        before.length acc = some (acc ++ (separator fmt).intercalate (ds.map Prod.snd), h') ∧
      (acc ++ (separator fmt).intercalate (ds.map Prod.snd)).length + 2 ≤ size ∧
      h'.Holds ((entries, .pointers ps) :: others) rest := by
  induction ds generalizing h before acc with
  | nil =>
    refine ⟨h, _, by simp [composeEntries, List.intercalate], ?_, hh⟩
    simpa [List.intercalate, lengthOf] using hsize
  | cons d ds ih =>
    have hmem : (d.1, Block.text d.2) ∈ (entries,
        Block.pointers (before ++ (d :: ds).map Prod.fst)) :: (textCells (d :: ds) ++ others) :=
      List.mem_cons_of_mem _ (List.mem_cons_self ..)
    have hload := loadText_of_mem hh hmem
    have hpointers := loadPointers_head hh
    have hsplit : before ++ (d :: ds).map Prod.fst =
        (before ++ [d.1]) ++ ds.map Prod.fst := by simp
    rw [hsplit] at hh
    obtain ⟨h₁, hfree, hh₁⟩ := (hh.perm (List.Perm.swap ..)).free
    have hlength : lengthOf fmt (d :: ds) = entryLength fmt d.2 + lengthOf fmt ds := by
      simp [lengthOf]
    rw [hlength, entryLength_eq] at hsize
    have hwrite : writeText size acc d.2 = some (acc ++ d.2) := if_pos (by omega)
    have hsep : writeText size (acc ++ d.2) (separator fmt) =
        some (acc ++ d.2 ++ separator fmt) :=
      if_pos (by rw [List.length_append]; omega)
    have hindex : before.length ≠ before.length + (ds.length + 1) - 1 ↔ ds ≠ [] := by
      rw [← List.length_pos_iff]
      omega
    have hcount : before.length + (ds.length + 1) = (before ++ [d.1]).length + ds.length := by
      rw [List.length_append, List.length_singleton]
      omega
    rw [List.length_cons, composeEntries, hpointers, Option.bind_some]
    have hget : (before ++ (d :: ds).map Prod.fst)[before.length]? = some d.1 := by simp
    rw [hget, Option.bind_some, hload, Option.bind_some, hwrite, Option.bind_some,
      if_congr hindex rfl rfl]
    cases ds with
    | nil =>
      refine ⟨h₁, _, ?_, ?_, hh₁⟩
      · simp [hfree, composeEntries, List.intercalate]
      · simp only [List.map_cons, List.map_nil, List.intercalate, List.intersperse,
          List.flatten_cons, List.flatten_nil, List.append_nil, List.length_append]
        omega
    | cons e ds =>
      have hlong : (acc ++ d.2 ++ separator fmt).length + lengthOf fmt (e :: ds) + 2 ≤ size := by
        rw [List.length_append, List.length_append]
        omega
      obtain ⟨h', ps, hloop, hfits, hh'⟩ := ih _ hh₁ hlong
      rw [if_pos (List.cons_ne_nil e ds), hsep, Option.bind_some, hfree, Option.bind_some, hcount]
      have htexts : acc ++ (separator fmt).intercalate ((d :: e :: ds).map Prod.snd) =
          acc ++ d.2 ++ separator fmt ++ (separator fmt).intercalate ((e :: ds).map Prod.snd) := by
        rw [List.map_cons, List.map_cons, intercalate_cons_cons]
        simp only [List.append_assoc]
      rw [htexts]
      rw [List.length_append, List.length_singleton] at hloop
      rw [List.length_append, List.length_singleton]
      exact ⟨h', ps, hloop, hfits, hh'⟩

end Specs

section Result

variable {A : Allocator Block} {pv : PrintValue} {h : Heap Block} {item : Nat} {array : ItemBlock}
  {cs : List Nat} {depth : Int} {fmt : Bool} {rounds : Nat} {text : Nat → List (BitVec 8)}

/-- The end of `print_array` when an entry or the block for the output is missing. -/
theorem freeEntries_all {rest : Nat → Option Block} {ds : List (Nat × List (BitVec 8))}
    {entries k : Nat} (hh : h.Holds ((entries, .pointers (slots ds k)) :: textCells ds) rest) :
    ∃ h', ((freeEntries entries (ds.length + k) h 0).bind fun h =>
        (h.free entries).map fun h => (0, h)) = some (0, h') ∧ h'.block = rest := by
  obtain ⟨h₁, ps, hloop, hh₁⟩ := freeEntries_spec [] hh rfl
  obtain ⟨h₂, hfree, hh₂⟩ := hh₁.free
  rw [List.length_nil] at hloop
  exact ⟨h₂, by rw [hloop, Option.bind_some, hfree, Option.map_some], hh₂.block_eq⟩

/-- **`print_array`**, for every array in memory whose texts fit into the address space: the
result is NULL and the heap is as before, or it is one new block with the entries, separated,
between brackets. Nothing is written outside the block, and no other block is left. -/
theorem printArray_result (A : Allocator Block) (hitem : h.block item = some (.item array))
    (hcs : Siblings h.block array.child cs)
    (hpv : ∀ c ∈ cs, PrintsValue pv h.block (depth + 1) fmt c (text c))
    (hspace : 5 + (cs.map fun c => entryLength fmt (text c)).sum < 2 ^ 32)
    (hrounds : cs.length < rounds) :
    ∃ out h', printArray A pv rounds h item depth fmt = some (out, h') ∧
      ((out = 0 ∧ h'.block = h.block) ∨
        (out ≠ 0 ∧ h.block out = none ∧
          h'.block = Function.update h.block out (some (.text (arrayText fmt (cs.map text)))))) := by
  have hh := Heap.holds_nil h
  have hcount := countEntries_spec hh hcs (n := 0) hrounds
  rw [Nat.zero_add] at hcount
  -- One owned block is one new block.
  have hnew : ∀ {out : Nat} {b : Block} {h' : Heap Block}, h'.Holds [(out, b)] h.block →
      out ≠ 0 ∧ h.block out = none ∧ h'.block = Function.update h.block out (some b) := by
    intro out b h' hh'
    obtain ⟨hne, hfree⟩ := hh'.apart _ List.mem_cons_self
    refine ⟨hne, hfree, funext fun p => ?_⟩
    by_cases heq : p = out
    · subst heq
      rw [Function.update_self]
      exact hh'.owned _ List.mem_cons_self
    · rw [Function.update_of_ne heq]
      exact hh'.frame p (by simpa using heq)
  rw [printArray, loadItem_rest hh hitem, Option.bind_some, hcount, Option.bind_some]
  by_cases hnil : cs.length = 0
  · rw [if_pos hnil]
    obtain rfl := List.length_eq_zero_iff.mp hnil
    rcases hm : h.malloc A (.text (ascii "[]")) with ⟨_ | out, h'⟩
    · exact ⟨0, h', rfl, .inl ⟨rfl, (hh.malloc_none hm).block_eq⟩⟩
    · exact ⟨out, h', rfl, .inr (hnew (hh.malloc_some hm))⟩
  · rw [if_neg hnil]
    rcases hm : h.malloc A (.pointers (List.replicate cs.length 0)) with ⟨_ | entries, h₁⟩
    · exact ⟨0, h₁, rfl, .inl ⟨rfl, (hh.malloc_none hm).block_eq⟩⟩
    · have hh₁ : h₁.Holds ((entries, .pointers (slots [] cs.length)) :: textCells []) h.block :=
        hh.malloc_some hm
      obtain ⟨fail, h₂, ds, hcollect, hlen, hh₂, htexts⟩ :=
        collectEntries_spec hcs hpv hh₁ (by simpa [lengthOf] using hspace) hrounds
      have hcollect' : collectEntries pv entries depth fmt rounds h₁ array.child 0 5 =
          some (fail, 5 + lengthOf fmt ds, h₂) := hcollect
      simp only [List.length_nil, Nat.zero_add] at hlen hh₂
      simp only [hcollect', Option.bind_some]
      have hslots : ds.length + (cs.length - ds.length) = cs.length := by omega
      cases fail with
      | true =>
        simp only [if_true]
        obtain ⟨h₃, hfree, hblock⟩ := freeEntries_all hh₂
        rw [hslots] at hfree
        exact ⟨0, h₃, hfree, .inl ⟨rfl, hblock⟩⟩
      | false =>
        simp only [Bool.false_eq_true, if_false]
        have htexts : ds.map Prod.snd = cs.map text := htexts rfl
        have hcs_len : ds.length = cs.length := by
          simpa using congrArg List.length htexts
        rcases hm₂ : h₂.malloc A (.text []) with ⟨_ | out, h₃⟩
        · obtain ⟨h₄, hfree, hblock⟩ := freeEntries_all (hh₂.malloc_none hm₂)
          rw [hslots] at hfree
          exact ⟨0, h₄, hfree, .inl ⟨rfl, hblock⟩⟩
        · have hslots' : slots ds (cs.length - ds.length) = [] ++ ds.map Prod.fst := by
            simp [slots, hcs_len]
          have hh₃ := hh₂.malloc_some hm₂
          rw [hslots'] at hh₃
          have hh₃' : h₃.Holds ((entries, .pointers ([] ++ ds.map Prod.fst)) ::
              (textCells ds ++ [(out, .text [])])) h.block :=
            hh₃.perm ((List.Perm.swap ..).trans ((List.perm_append_singleton _ _).symm.cons _))
          have hopen : writeText (5 + lengthOf fmt ds) [] (ascii "[") = some (ascii "[") :=
            if_pos (show 0 + 1 + 1 ≤ 5 + lengthOf fmt ds by omega)
          have hroom : 1 + lengthOf fmt ds + 2 ≤ 5 + lengthOf fmt ds := by omega
          obtain ⟨h₄, ps, hloop, hfits, hh₄⟩ := composeEntries_spec (ascii "[") hh₃' hroom
          obtain ⟨h₅, hfree, hh₅⟩ := hh₄.free
          have hclose : writeText (5 + lengthOf fmt ds)
              (ascii "[" ++ (separator fmt).intercalate (ds.map Prod.snd)) (ascii "]") =
              some (ascii "[" ++ (separator fmt).intercalate (ds.map Prod.snd) ++ ascii "]") :=
            if_pos hfits
          obtain ⟨h₆, hstore, hh₆⟩ := hh₅.store (.text (arrayText fmt (cs.map text)))
          have hloop' : composeEntries entries (5 + lengthOf fmt ds) cs.length fmt cs.length h₃ 0
              (ascii "[") = some (ascii "[" ++ (separator fmt).intercalate (ds.map Prod.snd), h₄) := by
            simpa [hcs_len] using hloop
          refine ⟨out, h₆, ?_, .inr (hnew hh₆)⟩
          have htext : arrayText fmt (cs.map text) =
              ascii "[" ++ (separator fmt).intercalate (ds.map Prod.snd) ++ ascii "]" := by
            rw [htexts]
            rfl
          rw [htext] at hstore
          simp only [hopen, hloop', hfree, hclose, hstore, Option.bind_some, Option.map_some]

/-- A `print_value` for items of type `cJSON_True`. -/
def printTrue (A : Allocator Block) : PrintValue := fun h _ _ _ =>
  match h.malloc A (.text (ascii "true")) with
  | (none, h) => some (0, h)
  | (some p, h) => some (p, h)

theorem printsValue_printTrue (A : Allocator Block) (rest : Nat → Option Block) (depth : Int)
    (fmt : Bool) (item : Nat) :
    PrintsValue (printTrue A) rest depth fmt item (ascii "true") := by
  intro h own hh
  unfold printTrue
  rcases hm : h.malloc A (.text (ascii "true")) with ⟨_ | p, h'⟩
  · exact .inl ⟨h', rfl, hh.malloc_none hm⟩
  · exact .inr ⟨p, h', rfl, hh.malloc_some hm⟩

/-- An array at 1 with the items 2 and 3. -/
def pairHeap : Heap Block where
  block p :=
    if p = 1 then some (.item ⟨0, 2, 32, 0, 0⟩)
    else if p = 2 then some (.item ⟨3, 0, 2, 0, 0⟩)
    else if p = 3 then some (.item ⟨0, 0, 2, 0, 0⟩)
    else none
  asked := 3

theorem printArray_result_pair :
    ∃ out h', printArray (countingAllocator []) (printTrue (countingAllocator [])) 3 pairHeap 1 0
        true = some (out, h') ∧
      ((out = 0 ∧ h'.block = pairHeap.block) ∨
        (out ≠ 0 ∧ pairHeap.block out = none ∧ h'.block = Function.update pairHeap.block out
          (some (.text (arrayText true ([2, 3].map fun _ => ascii "true")))))) :=
  printArray_result (countingAllocator []) rfl
    (.cons (by decide) rfl (.cons (by decide) rfl .nil))
    (fun c _ => printsValue_printTrue _ _ _ _ c) (by decide) (by decide)

end Result

end ArmKernel.Json

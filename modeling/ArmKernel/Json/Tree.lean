/-
Deleting a JSON structure (`cJSON_Delete` of `src/cjson.c`).

An item in memory is a block, and so are its `valuestring` and its `string`. An item marked
`cJSON_IsReference` shares its `child` and `valuestring` with another, one marked
`cJSON_StringIsConst` does not own its `string`. `Items` is a list of siblings with all that
is reached from it through pointers an item owns.

`cjsonDelete_eq` is the meaning of `cJSON_Delete` on every such structure: it frees the blocks
of `Items.owned` and leaves every other block as it is, when these are distinct. When one of
them is reached twice it is used after it was freed.
-/
import ArmKernel.Support.Heap

namespace ArmKernel.Json

open ArmKernel.Support

/-- `cJSON_IsReference`. -/
def isReference : BitVec 32 := 256

/-- `cJSON_StringIsConst`. -/
def stringIsConst : BitVec 32 := 512

/-- `cJSON`, as far as the structure is concerned. -/
structure ItemBlock where
  next : Nat
  child : Nat
  type : BitVec 32
  valuestring : Nat
  string : Nat

/-- What a block holds: an item, a string without its NUL, or an array of pointers. -/
inductive Block where
  | item (i : ItemBlock)
  | text (s : List (BitVec 8))
  | pointers (ps : List Nat)

/-- `*c`. -/
def loadItem (h : Heap Block) (c : Nat) : Option ItemBlock :=
  match h.load c with
  | some (.item i) => some i
  | _ => none

/-- The string at `p`. -/
def loadText (h : Heap Block) (p : Nat) : Option (List (BitVec 8)) :=
  match h.load p with
  | some (.text s) => some s
  | _ => none

/-- `cJSON_Delete`; the loop over the siblings and the recursion into the child together make
at most `rounds` passes in depth. -/
def cjsonDelete : (rounds : Nat) → Heap Block → (c : Nat) → Option (Heap Block)
  | 0, _, _ => none
  | rounds + 1, h, c =>
    if c = 0 then some h
    else
      (loadItem h c).bind fun item =>
        (if item.type &&& isReference = 0 ∧ item.child ≠ 0 then cjsonDelete rounds h item.child
          else some h).bind fun h =>
          (loadItem h c).bind fun i =>
            (if i.type &&& isReference = 0 ∧ i.valuestring ≠ 0 then h.free i.valuestring
              else some h).bind fun h =>
              (loadItem h c).bind fun i =>
                (if i.type &&& stringIsConst = 0 ∧ i.string ≠ 0 then h.free i.string
                  else some h).bind fun h =>
                  (h.free c).bind fun h => cjsonDelete rounds h item.next

/-! ### Structures -/

/-- A string an item owns. -/
inductive Text where
  | null
  | block (p : Nat) (s : List (BitVec 8))

def Text.ptr : Text → Nat
  | .null => 0
  | .block p _ => p

def Text.cells : Text → List (Nat × Block)
  | .null => []
  | .block p s => [(p, .text s)]

/-- The `string` of an item of this type. -/
inductive Name (type : BitVec 32) where
  | owned (own : type &&& stringIsConst = 0) (t : Text)
  | const (shared : type &&& stringIsConst ≠ 0) (p : Nat)

def Name.ptr {type : BitVec 32} : Name type → Nat
  | .owned _ t => t.ptr
  | .const _ p => p

def Name.cells {type : BitVec 32} : Name type → List (Nat × Block)
  | .owned _ t => t.cells
  | .const _ _ => []

/-- A list of siblings: an item with its child, or a reference to the child of another. -/
inductive Items where
  | nil
  | item (p : Nat) (type : BitVec 32) (own : type &&& isReference = 0) (value : Text)
      (name : Name type) (child next : Items)
  | reference (p : Nat) (type : BitVec 32) (shared : type &&& isReference ≠ 0)
      (value child : Nat) (name : Name type) (next : Items)

/-- The pointer to the first item. -/
def Items.ptr : Items → Nat
  | .nil => 0
  | .item p .. => p
  | .reference p .. => p

/-- The blocks the items own, the child of an item before the item. -/
def Items.cells : Items → List (Nat × Block)
  | .nil => []
  | .item p type _ value name child next =>
    child.cells ++ value.cells ++ name.cells ++
      (p, .item ⟨next.ptr, child.ptr, type, value.ptr, name.ptr⟩) :: next.cells
  | .reference p type _ value child name next =>
    name.cells ++ (p, .item ⟨next.ptr, child, type, value, name.ptr⟩) :: next.cells

/-- The addresses of the blocks the items own. -/
def Items.owned (f : Items) : List Nat := f.cells.map Prod.fst

/-- How deep `cJSON_Delete` goes. -/
def Items.count : Items → Nat
  | .nil => 0
  | .item _ _ _ _ _ child next => max child.count next.count + 1
  | .reference _ _ _ _ _ _ next => next.count + 1

/-- Cells that are in memory. -/
def InHeap (h : Heap Block) (cells : List (Nat × Block)) : Prop :=
  ∀ c ∈ cells, c.1 ≠ 0 ∧ h.block c.1 = some c.2

theorem inHeap_append {h : Heap Block} {a b : List (Nat × Block)} :
    InHeap h (a ++ b) ↔ InHeap h a ∧ InHeap h b := List.forall_mem_append

theorem inHeap_cons {h : Heap Block} {c : Nat × Block} {l : List (Nat × Block)} :
    InHeap h (c :: l) ↔ (c.1 ≠ 0 ∧ h.block c.1 = some c.2) ∧ InHeap h l := List.forall_mem_cons

/-! ### What deleting does -/

section Delete

variable {h h₀ : Heap Block} {p : Nat} {i : ItemBlock} {l : List Nat}

/-- An item is read before it is freed: a program that goes on like freeing a list with the item
in it does the same when the item is gone. -/
theorem loadItem_bind {k : ItemBlock → Option (Heap Block)} (hwithin : h.Within h₀)
    (hp : p ≠ 0 ∧ h₀.block p = some (.item i)) (hmem : p ∈ l) (hk : k i = h.freeAll l) :
    (loadItem h p).bind k = h.freeAll l := by
  unfold loadItem Heap.load
  cases hblock : h.block p with
  | none => exact (Heap.freeAll_eq_none hmem hp.1 hblock).symm
  | some b =>
    cases hp.2.symm.trans (hwithin p b hblock)
    exact hk

/-- Freeing a list and going on. -/
theorem bind_freeAll {k : Heap Block → Option (Heap Block)} {l' : List Nat}
    (hk : ∀ h', h'.Within h → k h' = h'.freeAll l') :
    (h.freeAll l).bind k = h.freeAll (l ++ l') := by
  rw [Heap.freeAll_append]
  refine Option.bind_congr ?_
  intro h' hfree
  exact hk h' (Heap.within_freeAll hfree)

/-- An owned string is freed unless it is NULL. -/
theorem free_text (t : Text) (ht : InHeap h₀ t.cells) :
    (if t.ptr ≠ 0 then h.free t.ptr else some h) = h.freeAll (t.cells.map Prod.fst) := by
  cases t with
  | null => rfl
  | block q s =>
    have hq : q ≠ 0 := (ht (q, .text s) (List.mem_singleton_self _)).1
    exact (if_pos hq).trans Heap.freeAll_singleton.symm

theorem free_name {type : BitVec 32} (name : Name type) (hn : InHeap h₀ name.cells) :
    (if type &&& stringIsConst = 0 ∧ name.ptr ≠ 0 then h.free name.ptr else some h) =
      h.freeAll (name.cells.map Prod.fst) := by
  cases name with
  | owned own t =>
    have hsame : (type &&& stringIsConst = 0 ∧ t.ptr ≠ 0) ↔ t.ptr ≠ 0 := and_iff_right own
    exact (if_congr hsame rfl rfl).trans (free_text t hn)
  | const shared q => exact if_neg fun hc => shared hc.1

/-- The end of a pass: the item itself, and its siblings. -/
theorem free_item {next : Items} {rounds : Nat}
    (hnext : ∀ h', h'.Within h₀ → cjsonDelete rounds h' next.ptr = h'.freeAll next.owned)
    (hwithin : h.Within h₀) :
    ((h.free p).bind fun h => cjsonDelete rounds h next.ptr) = h.freeAll (p :: next.owned) := by
  rw [Heap.freeAll]
  refine Option.bind_congr ?_
  intro h' hfree
  exact hnext h' ((Heap.within_free hfree).trans hwithin)

theorem Items.ptr_ne_zero {f : Items} (hf : InHeap h₀ f.cells) (hne : f ≠ .nil) : f.ptr ≠ 0 := by
  cases f with
  | nil => exact absurd rfl hne
  | item p type own value name child next =>
    exact (hf _ (List.mem_append_right _ List.mem_cons_self)).1
  | reference p type shared value child name next =>
    exact (hf _ (List.mem_append_right _ List.mem_cons_self)).1

/-- **Deleting** is freeing what the items own. The heap may have lost blocks since the
structure was laid out. -/
theorem cjsonDelete_eq_freeAll {f : Items} {rounds : Nat} (hf : InHeap h₀ f.cells)
    (hwithin : h.Within h₀) (hrounds : f.count < rounds) :
    cjsonDelete rounds h f.ptr = h.freeAll f.owned := by
  induction f generalizing h rounds with
  | nil =>
    obtain ⟨rounds, rfl⟩ := Nat.exists_eq_succ_of_ne_zero (Nat.ne_zero_of_lt hrounds)
    rfl
  | item p type own value name child next ihchild ihnext =>
    obtain ⟨rounds, rfl⟩ := Nat.exists_eq_succ_of_ne_zero (Nat.ne_zero_of_lt hrounds)
    have hcount : max child.count next.count < rounds := Nat.lt_of_succ_lt_succ hrounds
    rw [Items.cells, inHeap_append, inHeap_append, inHeap_append, inHeap_cons] at hf
    obtain ⟨⟨⟨hchild, hvalue⟩, hname⟩, hp, hnext⟩ := hf
    have howned : Items.owned (.item p type own value name child next) =
        child.owned ++ (value.cells.map Prod.fst ++ (name.cells.map Prod.fst ++
          p :: next.owned)) := by
      simp [Items.owned, Items.cells]
    rw [cjsonDelete, Items.ptr, if_neg hp.1, howned]
    refine loadItem_bind hwithin hp (by simp) ?_
    have hrecursion : (if type &&& isReference = 0 ∧ child.ptr ≠ 0 then
        cjsonDelete rounds h child.ptr else some h) = h.freeAll child.owned := by
      rw [if_congr (and_iff_right own) rfl rfl]
      by_cases hnil : child = .nil
      · subst hnil
        rfl
      · rw [if_pos (Items.ptr_ne_zero hchild hnil)]
        exact ihchild hchild hwithin (Nat.lt_of_le_of_lt (Nat.le_max_left ..) hcount)
    simp only [hrecursion]
    refine bind_freeAll ?_
    intro h₁ hw₁
    have hw₁ := hw₁.trans hwithin
    refine loadItem_bind hw₁ hp (by simp) ?_
    simp only [if_congr (and_iff_right own) rfl rfl, free_text value hvalue]
    refine bind_freeAll ?_
    intro h₂ hw₂
    have hw₂ := hw₂.trans hw₁
    refine loadItem_bind hw₂ hp (by simp) ?_
    simp only [free_name name hname]
    refine bind_freeAll ?_
    intro h₃ hw₃
    refine free_item (fun h' hw => ihnext hnext hw ?_) (hw₃.trans hw₂)
    exact Nat.lt_of_le_of_lt (Nat.le_max_right ..) hcount
  | reference p type shared value child name next ihnext =>
    obtain ⟨rounds, rfl⟩ := Nat.exists_eq_succ_of_ne_zero (Nat.ne_zero_of_lt hrounds)
    rw [Items.cells, inHeap_append, inHeap_cons] at hf
    obtain ⟨hname, hp, hnext⟩ := hf
    have howned : Items.owned (.reference p type shared value child name next) =
        name.cells.map Prod.fst ++ p :: next.owned := by
      simp [Items.owned, Items.cells]
    rw [cjsonDelete, Items.ptr, if_neg hp.1, howned]
    -- The child and the value belong to another item.
    refine loadItem_bind hwithin hp (by simp) ?_
    simp only [shared, false_and, if_false, Option.bind_some]
    refine loadItem_bind hwithin hp (by simp) ?_
    simp only [shared, false_and, if_false, Option.bind_some]
    refine loadItem_bind hwithin hp (by simp) ?_
    simp only [free_name name hname]
    refine bind_freeAll ?_
    intro h₁ hw₁
    exact free_item (fun h' hw => ihnext hnext hw (Nat.lt_of_succ_lt_succ hrounds))
      (hw₁.trans hwithin)

/-- **`cJSON_Delete`**, for every structure in memory: when the blocks it owns are distinct, it
frees these and no other; when one of them is reached twice, a block is used after it was
freed. What a reference points to, and a constant `string`, is not touched. -/
theorem cjsonDelete_eq {f : Items} {rounds : Nat} (hf : InHeap h f.cells)
    (hrounds : f.count < rounds) :
    cjsonDelete rounds h f.ptr =
      if f.owned.Nodup then
        some { h with block := fun p => if p ∈ f.owned then none else h.block p }
      else none := by
  rw [cjsonDelete_eq_freeAll hf (Heap.Within.refl h) hrounds]
  refine Heap.freeAll_eq ?_
  intro p hp
  obtain ⟨c, hc, rfl⟩ := List.mem_map.mp hp
  obtain ⟨hne, hblock⟩ := hf c hc
  exact ⟨hne, hblock ▸ rfl⟩

end Delete

/-- An object at 1 with a member at 2, which has the string at 3 and a constant name at 9. Behind
it is a reference to that member. -/
def sharedObject : Items :=
  .item 1 64 rfl .null (.owned rfl .null)
    (.item 2 528 rfl (.block 3 [97#8]) (.const (by decide) 9) .nil
      (.reference 4 320 (by decide) 0 2 (.owned rfl .null) .nil)) .nil

/-- The object in memory. -/
def sharedHeap : Heap Block where
  block p :=
    if p = 1 then some (.item ⟨0, 2, 64, 0, 0⟩)
    else if p = 2 then some (.item ⟨4, 0, 528, 3, 9⟩)
    else if p = 3 then some (.text [97#8])
    else if p = 4 then some (.item ⟨0, 2, 320, 0, 0⟩)
    else if p = 9 then some (.text [98#8])
    else none
  asked := 0

/-- The constant name is left. -/
theorem cjsonDelete_eq_shared :
    ∃ h, cjsonDelete 5 sharedHeap sharedObject.ptr = some h ∧
      h.block = fun p => if p = 9 then some (.text [98#8]) else none := by
  have hf : InHeap sharedHeap sharedObject.cells := by
    simp [InHeap, sharedObject, Items.cells, Text.cells, Name.cells, sharedHeap, Items.ptr,
      Text.ptr, Name.ptr]
  refine ⟨_, (cjsonDelete_eq hf (by decide)).trans (if_pos (by decide)), ?_⟩
  funext p
  have howned : sharedObject.owned = [3, 2, 4, 1] := rfl
  simp only [howned, List.mem_cons, List.not_mem_nil, or_false, sharedHeap]
  split_ifs <;> first | rfl | omega

end ArmKernel.Json

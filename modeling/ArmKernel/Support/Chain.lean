/-
Null-terminated chains of nodes.

A store gives every node a `next` pointer, `none` playing the null pointer.
`Chain next head l` says that the nodes met from `head` are exactly those of `l`,
in order, and that the last one points nowhere. The head determines the list
(`Chain.unique`), so a chain is acyclic and meets no node twice (`Chain.nodup`).

`OnChain next head x` is plain reachability: it says nothing about the chain
ending. On a chain it is membership (`Chain.onChain_iff`).

`walkLast` follows the pointers to the last node with a bound on the number of
steps; on a finite store the number of nodes is a bound that suffices
(`Chain.walkLast_eq`). `walkFind` looks for the first node with a property, `walkTo`
for a node and the one before it, and `walkWhile` for the last node before the property
fails, with the same kind of bound. The edits are `Chain.append_fresh` (link a new last
node in), `Chain.insert_after` (link one in behind a member), `Chain.unlink` (take one
out of the middle) and `Chain.update` (write a pointer of a node elsewhere).

`drain` takes node after node off the head and clears its pointer. It needs no chain: from
any pointers it ends, and it takes the nodes met from the head (`mem_drain`).
-/
import Mathlib.Data.List.Nodup
import Mathlib.Data.Fintype.Card
import Mathlib.Data.Finset.Filter
import Mathlib.Logic.Function.Basic

namespace ArmKernel.Support

variable {P : Type*} {next next' : P → Option P} {head : Option P} {x y : P} {l : List P}

/-- The nodes met from `head` are those of the list, and then the null pointer. -/
def Chain (next : P → Option P) : Option P → List P → Prop
  | head, [] => head = none
  | head, x :: l => head = some x ∧ Chain next (next x) l

/-- `x` is met from `head`. -/
inductive OnChain (next : P → Option P) : Option P → P → Prop where
  | here {x : P} : OnChain next (some x) x
  | there {x y : P} : OnChain next (next x) y → OnChain next (some x) y

/-- Follow `next` from `x` to a node that points nowhere, in at most the given
number of hops; `none` when the walk does not get there. -/
def walkLast (next : P → Option P) : Nat → P → Option P
  | 0, _ => none
  | hops + 1, x =>
    match next x with
    | none => some x
    | some y => walkLast next hops y

@[simp] theorem chain_nil : Chain next head [] ↔ head = none := Iff.rfl

@[simp] theorem chain_cons : Chain next head (x :: l) ↔ head = some x ∧ Chain next (next x) l :=
  Iff.rfl

/-- The head pointer determines the list. -/
theorem Chain.unique {l₁ l₂ : List P} (h₁ : Chain next head l₁) (h₂ : Chain next head l₂) :
    l₁ = l₂ := by
  induction l₁ generalizing head l₂ with
  | nil =>
    cases l₂ with
    | nil => rfl
    | cons y l₂ => exact absurd (h₁.symm.trans h₂.1) (by simp)
  | cons x l₁ ih =>
    cases l₂ with
    | nil => exact absurd (h₂.symm.trans h₁.1) (by simp)
    | cons y l₂ =>
      obtain rfl : x = y := Option.some.inj (h₁.1.symm.trans h₂.1)
      rw [ih h₁.2 h₂.2]

/-- The head points to the first node of the list. -/
theorem Chain.head_eq (h : Chain next head l) : head = l.head? := by
  cases l with
  | nil => exact h
  | cons x l => exact h.1

theorem Chain.mem_onChain (h : Chain next head l) (hx : x ∈ l) : OnChain next head x := by
  induction l generalizing head with
  | nil => simp at hx
  | cons y l ih =>
    obtain ⟨rfl, hrest⟩ := h
    rcases List.mem_cons.mp hx with rfl | hx
    · exact .here
    · exact .there (ih hrest hx)

/-- The nodes reachable from the head of a chain are its members. -/
theorem Chain.onChain_iff (h : Chain next head l) : OnChain next head x ↔ x ∈ l := by
  refine ⟨?_, h.mem_onChain⟩
  intro hx
  induction hx generalizing l with
  | here =>
    cases l with
    | nil => exact absurd h (by simp)
    | cons y l =>
      obtain rfl := Option.some.inj h.1
      exact List.mem_cons_self
  | there _ ih =>
    cases l with
    | nil => exact absurd h (by simp)
    | cons y l =>
      obtain rfl := Option.some.inj h.1
      exact List.mem_cons_of_mem _ (ih h.2)

/-- Every member starts a chain of its own, the rest of the list. -/
theorem Chain.suffix {l₁ l₂ : List P} (h : Chain next head (l₁ ++ x :: l₂)) :
    Chain next (some x) (x :: l₂) := by
  induction l₁ generalizing head with
  | nil => exact ⟨rfl, h.2⟩
  | cons y l₁ ih => exact ih h.2

/-- A chain meets no node twice. -/
theorem Chain.nodup (h : Chain next head l) : l.Nodup := by
  induction l generalizing head with
  | nil => exact List.nodup_nil
  | cons x l ih =>
    refine List.nodup_cons.mpr ⟨fun hx => ?_, ih h.2⟩
    -- A second visit of `x` would give `x` two lists, one inside the other.
    obtain ⟨l₁, l₂, rfl⟩ := List.append_of_mem hx
    have hinner : Chain next (some x) (x :: l₂) := Chain.suffix h.2
    have houter : Chain next (some x) (x :: (l₁ ++ x :: l₂)) := ⟨rfl, h.2⟩
    have hlen := congrArg List.length (houter.unique hinner)
    simp at hlen
    omega

/-- A chain reads only the pointers of its own nodes. -/
theorem Chain.congr (h : Chain next head l) (agree : ∀ x ∈ l, next' x = next x) :
    Chain next' head l := by
  induction l generalizing head with
  | nil => exact h
  | cons x l ih =>
    refine ⟨h.1, ?_⟩
    rw [agree x List.mem_cons_self]
    exact ih h.2 fun y hy => agree y (List.mem_cons_of_mem _ hy)

/-- What follows a reachable node is reachable. -/
theorem OnChain.step (h : OnChain next head x) (hxy : next x = some y) : OnChain next head y := by
  induction h with
  | here => exact .there (hxy ▸ .here)
  | there _ ih => exact .there (ih hxy)

/-- Pointers written from a node on leave it reachable. -/
theorem Chain.onChain_prefix {r : List P} (h : Chain next head (l ++ x :: r))
    (agree : ∀ y ∈ l, next' y = next y) : OnChain next' head x := by
  induction l generalizing head with
  | nil => exact h.1 ▸ .here
  | cons y l ih =>
    obtain ⟨rfl, hrest⟩ := h
    refine .there ?_
    rw [agree y List.mem_cons_self]
    exact ih hrest fun z hz => agree z (List.mem_cons_of_mem y hz)

/-- A pointer written outside the chain leaves it alone. -/
theorem Chain.update [DecidableEq P] (h : Chain next head l) (hx : x ∉ l) (p : Option P) :
    Chain (Function.update next x p) head l :=
  h.congr fun y hy => Function.update_of_ne (fun e : y = x => hx (e ▸ hy)) p next

/-- Link `x` in as the last node. -/
theorem Chain.append_fresh [DecidableEq P] {last : P} (h : Chain next head (l ++ [last]))
    (hx : x ∉ l ++ [last]) (hnext : next x = none) :
    Chain (Function.update next last (some x)) head (l ++ [last] ++ [x]) := by
  have hne : x ≠ last := fun e => hx (by simp [e])
  induction l generalizing head with
  | nil =>
    refine ⟨h.1, ?_⟩
    simp [Function.update_of_ne hne, hnext]
  | cons y l ih =>
    have hylast : y ≠ last := by
      have := List.nodup_cons.mp h.nodup
      exact fun e => this.1 (by simp [e])
    refine ⟨h.1, ?_⟩
    rw [Function.update_of_ne hylast]
    exact ih h.2 (fun hmem => hx (List.mem_cons_of_mem _ hmem))

/-- The walk to the last node gets there when the bound exceeds the number of
nodes behind the first. -/
theorem Chain.walkLast_eq {last : P} {hops : Nat} (h : Chain next (some x) (l ++ [last]))
    (enough : l.length < hops) : walkLast next hops x = some last := by
  induction l generalizing x hops with
  | nil =>
    obtain ⟨hops, rfl⟩ := Nat.exists_eq_add_one_of_ne_zero (Nat.ne_zero_of_lt enough)
    obtain rfl := Option.some.inj h.1
    have hnext : next x = none := h.2
    simp [walkLast, hnext]
  | cons y l ih =>
    obtain ⟨hops, rfl⟩ := Nat.exists_eq_add_one_of_ne_zero (Nat.ne_zero_of_lt enough)
    obtain rfl := Option.some.inj h.1
    have hrest : Chain next (next x) (l ++ [last]) := h.2
    have hhops : l.length < hops := by simpa using enough
    cases hnx : next x with
    | none =>
      rw [hnx] at hrest
      cases l <;> simp at hrest
    | some z =>
      rw [hnx] at hrest
      simpa [walkLast, hnx] using ih hrest hhops

/-- The first node from `head` on with the property, in at most the given number of
hops; the outer `none` is a walk that goes on. -/
def walkFind (next : P → Option P) (p : P → Bool) : Nat → Option P → Option (Option P)
  | _, none => some none
  | 0, some _ => none
  | hops + 1, some x => if p x then some (some x) else walkFind next p hops (next x)

/-- The node `target`, and the node met before it; both are `none` when there is
none. -/
def walkTo [DecidableEq P] (next : P → Option P) (target : P) :
    Nat → (prev curr : Option P) → Option (Option P × Option P)
  | _, prev, none => some (prev, none)
  | hops, prev, some x =>
    if x = target then some (prev, some x)
    else
      match hops with
      | 0 => none
      | hops + 1 => walkTo next target hops (some x) (next x)

/-- Go on from a node as long as the next one has the property, in at most the given
number of hops; `none` is a walk that goes on. -/
def walkWhile (next : P → Option P) (p : P → Bool) : Nat → P → Option P
  | hops, x =>
    match next x with
    | none => some x
    | some y =>
      if p y then
        match hops with
        | 0 => none
        | hops + 1 => walkWhile next p hops y
      else some x

/-- The node met after the given number of hops. -/
def nodeAt (next : P → Option P) (p : Option P) : Nat → Option P
  | 0 => p
  | hops + 1 => (nodeAt next p hops).bind next

/-- The nodes met are those of any set that is closed under `next`, and so are the
pointers read. -/
theorem nodeAt_congr {S : P → Prop} (hhead : ∀ x, head = some x → S x)
    (hclosed : ∀ x y, S x → next x = some y → S y) (agree : ∀ x, S x → next' x = next x)
    (hops : Nat) :
    nodeAt next' head hops = nodeAt next head hops ∧ ∀ x, nodeAt next head hops = some x → S x := by
  induction hops with
  | zero => exact ⟨rfl, hhead⟩
  | succ hops ih =>
    obtain ⟨hsame, hmem⟩ := ih
    rw [nodeAt, nodeAt, hsame]
    cases hnode : nodeAt next head hops with
    | none => exact ⟨rfl, by simp⟩
    | some x =>
      have hx := hmem x hnode
      refine ⟨agree x hx, fun y hy => hclosed x y hx hy⟩

/-- A node reachable from a closed set is in it. -/
theorem OnChain.mem_closed {S : P → Prop} (h : OnChain next head x)
    (hhead : ∀ x, head = some x → S x) (hclosed : ∀ x y, S x → next x = some y → S y) : S x := by
  induction h with
  | here => exact hhead _ rfl
  | there _ ih => exact ih fun y hy => hclosed _ y (hhead _ rfl) hy

/-- A walk inside a closed set ends inside it. -/
theorem walkTo_closed [DecidableEq P] {S : P → Prop} {target : P} {hops : Nat}
    {prev prev' curr : Option P} (h : walkTo next target hops prev head = some (prev', curr))
    (hhead : ∀ x, head = some x → S x) (hprev : ∀ x, prev = some x → S x)
    (hclosed : ∀ x y, S x → next x = some y → S y) :
    (∀ x, prev' = some x → S x) ∧ ∀ x, curr = some x → S x := by
  induction hops generalizing prev head with
  | zero =>
    unfold walkTo at h
    split at h
    · cases h
      exact ⟨hprev, by simp⟩
    · split at h
      · cases h
        exact ⟨hprev, hhead⟩
      · cases h
  | succ hops ih =>
    unfold walkTo at h
    split at h
    · cases h
      exact ⟨hprev, by simp⟩
    · split at h
      · cases h
        exact ⟨hprev, hhead⟩
      · exact ih h (fun y hy => hclosed _ y (hhead _ rfl) hy) hhead

/-- On a chain the walk finds the first node of the list with the property. -/
theorem Chain.walkFind_eq {p : P → Bool} {hops : Nat} (h : Chain next head l)
    (enough : l.length ≤ hops) : walkFind next p hops head = some (l.find? p) := by
  induction l generalizing head hops with
  | nil =>
    obtain rfl := h
    cases hops <;> rfl
  | cons x l ih =>
    obtain ⟨rfl, hrest⟩ := h
    obtain ⟨hops, rfl⟩ := Nat.exists_eq_add_one_of_ne_zero (Nat.ne_zero_of_lt enough)
    rw [walkFind, List.find?_cons]
    split
    · rename_i hx
      rw [hx]
    · rename_i hx
      rw [Bool.not_eq_true] at hx
      rw [hx]
      exact ih hrest (Nat.le_of_succ_le_succ enough)

/-- On a chain the walk to a member stops there, with the member before it. -/
theorem Chain.walkTo_eq [DecidableEq P] {r : List P} {prev : Option P} {hops : Nat}
    (h : Chain next head (l ++ x :: r)) (enough : l.length ≤ hops) :
    walkTo next x hops prev head = some (l.getLast?.or prev, some x) := by
  induction l generalizing head hops prev with
  | nil =>
    obtain ⟨rfl, -⟩ := h
    unfold walkTo
    rw [if_pos rfl]
    rfl
  | cons y l ih =>
    have hyx : y ≠ x := by
      have hnodup := List.nodup_cons.mp h.nodup
      exact fun e => hnodup.1 (by simp [e])
    obtain ⟨rfl, hrest⟩ := h
    obtain ⟨hops, rfl⟩ := Nat.exists_eq_add_one_of_ne_zero (Nat.ne_zero_of_lt enough)
    rw [walkTo, if_neg hyx, ih hrest (Nat.le_of_succ_le_succ enough)]
    cases l with
    | nil => rfl
    | cons z l =>
      rw [List.getLast?_cons_cons, List.getLast?_eq_some_getLast (by simp)]
      rfl

/-- **Unlink.** The pointer of the node before `x` goes past it. -/
theorem Chain.unlink [DecidableEq P] {prev : P} {r : List P}
    (h : Chain next head (l ++ prev :: x :: r)) :
    Chain (Function.update next prev (next x)) head (l ++ prev :: r) := by
  induction l generalizing head with
  | nil =>
    have hnodup := List.nodup_cons.mp h.nodup
    obtain ⟨hhead, -, hrest⟩ := h
    refine ⟨hhead, ?_⟩
    rw [Function.update_self]
    exact hrest.update (fun hmem => hnodup.1 (List.mem_cons_of_mem _ hmem)) (next x)
  | cons y l ih =>
    have hne : y ≠ prev := by
      have hnodup := List.nodup_cons.mp h.nodup
      exact fun e => hnodup.1 (by simp [e])
    refine ⟨h.1, ?_⟩
    rw [Function.update_of_ne hne]
    exact ih h.2

/-- What follows the last node of a beginning is the first node of the rest. -/
theorem Chain.next_eq {r : List P} (h : Chain next head (l ++ x :: r)) : next x = r.head? := by
  obtain ⟨-, hrest⟩ := h.suffix
  cases r with
  | nil => exact hrest
  | cons y r => exact hrest.1

/-- **Link in.** `x` goes behind `prev`. -/
theorem Chain.insert_after [DecidableEq P] {prev : P} {r : List P}
    (h : Chain next head (l ++ prev :: r)) (hx : x ∉ l ++ prev :: r) :
    Chain (Function.update (Function.update next x (next prev)) prev (some x)) head
      (l ++ prev :: x :: r) := by
  induction l generalizing head with
  | nil =>
    have hprev : x ≠ prev := fun e => hx (by simp [e])
    have hr : x ∉ r := fun hmem => hx (List.mem_cons_of_mem _ hmem)
    have hprevr : prev ∉ r := (List.nodup_cons.mp h.nodup).1
    obtain ⟨hhead, hrest⟩ := h
    refine ⟨hhead, ?_⟩
    rw [Function.update_self]
    refine ⟨rfl, ?_⟩
    rw [Function.update_of_ne hprev, Function.update_self]
    exact (hrest.update hr (next prev)).update hprevr (some x)
  | cons y l ih =>
    have hyprev : y ≠ prev := by
      have hnodup := List.nodup_cons.mp h.nodup
      exact fun e => hnodup.1 (by simp [e])
    have hyx : y ≠ x := fun e => hx (by simp [e])
    refine ⟨h.1, ?_⟩
    rw [Function.update_of_ne hyprev, Function.update_of_ne hyx]
    exact ih h.2 fun hmem => hx (List.mem_cons_of_mem _ hmem)

/-- From any of the nodes `x :: l` that a chain begins with, the walk ends at the last
of them, when they have the property and the node behind them has not. -/
theorem Chain.walkWhile_eq {p : P → Bool} {r : List P} {hops : Nat}
    (h : Chain next (some x) (x :: (l ++ r))) (hp : ∀ z ∈ l, p z = true)
    (hstop : ∀ z, r.head? = some z → p z = false) (hy : y ∈ x :: l) (enough : l.length ≤ hops) :
    walkWhile next p hops y = some ((x :: l).getLast (by simp)) := by
  induction l generalizing x y hops with
  | nil =>
    obtain rfl := List.mem_singleton.mp hy
    have hnext : next y = r.head? := Chain.next_eq (l := []) h
    unfold walkWhile
    rw [hnext]
    split
    · rfl
    · rename_i z hz
      rw [if_neg (by simp [hstop z hz])]
      rfl
  | cons z l ih =>
    obtain ⟨hops, rfl⟩ := Nat.exists_eq_add_one_of_ne_zero (Nat.ne_zero_of_lt enough)
    obtain ⟨hnext, hrest⟩ := h.2
    have hchain : Chain next (some z) (z :: (l ++ r)) := ⟨rfl, hrest⟩
    have hshort : l.length ≤ hops := Nat.le_of_succ_le_succ enough
    have hpl : ∀ w ∈ l, p w = true := fun w hw => hp w (List.mem_cons_of_mem z hw)
    rw [List.getLast_cons_cons]
    rcases List.mem_cons.mp hy with rfl | hy
    · unfold walkWhile
      rw [hnext]
      simp only [hp z List.mem_cons_self, if_true]
      exact ih hchain hpl List.mem_cons_self hshort
    · exact ih hchain hpl hy (Nat.le_succ_of_le hshort)

/-- On a finite store a chain is no longer than the number of nodes. -/
theorem Chain.length_le [Fintype P] (h : Chain next head l) : l.length ≤ Fintype.card P :=
  h.nodup.length_le_card

/-! ### Taking a queue apart -/

section Drain

variable [DecidableEq P]

/-- The nodes taken off the head, each with its pointer cleared, in at most the given number
of rounds. -/
def drain : Nat → (P → Option P) → Option P → List P
  | 0, _, _ => []
  | _ + 1, _, none => []
  | rounds + 1, next, some x => x :: drain rounds (Function.update next x none) (next x)

/-- A walk either avoids `x`, or can be begun behind its last visit of `x`. -/
theorem OnChain.clear (h : OnChain next head y) (x : P) :
    y = x ∨ OnChain (Function.update next x none) head y ∨
      OnChain (Function.update next x none) (next x) y := by
  induction h with
  | here => exact .inr (.inl .here)
  | @there z y _ ih =>
    rcases ih with rfl | hfrom | hfrom
    · exact .inl rfl
    · by_cases hz : z = x
      · subst hz
        exact .inr (.inr hfrom)
      · refine .inr (.inl (.there ?_))
        rwa [Function.update_of_ne hz]
    · exact .inr (.inr hfrom)

theorem OnChain.of_clear (h : OnChain (Function.update next x none) head y) :
    OnChain next head y := by
  induction h with
  | here => exact .here
  | @there z y hrest ih =>
    refine .there ?_
    by_cases hz : z = x
    · subst hz
      rw [Function.update_self] at hrest
      cases hrest
    · rwa [Function.update_of_ne hz] at ih

/-- Clearing the pointer of the first node takes no other one out of reach. -/
theorem onChain_clear : OnChain next (some x) y ↔
    y = x ∨ OnChain (Function.update next x none) (next x) y := by
  constructor
  · intro h
    cases h with
    | here => exact .inl rfl
    | there hrest => exact (hrest.clear x).imp_right fun hfrom => hfrom.elim id id
  · rintro (rfl | hfrom)
    · exact .here
    · exact .there hfrom.of_clear

variable [Fintype P]

/-- The nodes that point to another one. -/
def links (next : P → Option P) : Finset P := Finset.univ.filter fun x => (next x).isSome

theorem links_clear (next : P → Option P) (x : P) :
    links (Function.update next x none) = (links next).erase x := by
  ext y
  by_cases hy : y = x
  · subst hy
    simp [links]
  · simp [links, hy]

/-- A round clears the pointer that it follows. -/
theorem card_links_clear (h : next x = some y) :
    (links (Function.update next x none)).card + 1 = (links next).card := by
  rw [links_clear]
  apply Finset.card_erase_add_one
  simp [links, h]

omit [DecidableEq P] in
theorem card_links_le (next : P → Option P) : (links next).card ≤ Fintype.card P :=
  Finset.card_le_univ _

/-- With a round for every pointer and one more, all nodes met from the head are taken. -/
theorem mem_drain {rounds : Nat} (enough : (links next).card < rounds) :
    y ∈ drain rounds next head ↔ OnChain next head y := by
  induction rounds generalizing next head with
  | zero => exact absurd enough (Nat.not_lt_zero _)
  | succ rounds ih =>
    cases head with
    | none =>
      simp only [drain, List.not_mem_nil, false_iff]
      intro h
      cases h
    | some x =>
      rw [drain, List.mem_cons, onChain_clear]
      refine or_congr_right ?_
      cases hx : next x with
      | none =>
        have hnone : ∀ next : P → Option P, ¬ OnChain next none y := by
          intro next h
          cases h
        refine ⟨fun h => ?_, fun h => absurd h (hnone _)⟩
        cases rounds <;> cases h
      | some z =>
        have hcard := card_links_clear hx
        exact ih (by omega)

end Drain

end ArmKernel.Support

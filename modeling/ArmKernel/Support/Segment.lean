/-
Doubly linked segments.

A node `b` of type `B` stands for a record in memory at `addr b`, and `holds b p q` says
that memory has the record with `prev = p` and `next = q`. `Segment addr holds p q l`
says so of all nodes of `l`: `next` leads to the following node (to `q` from the last)
and `prev` back to the one before (to `p` from the first).

* `segment_append`, `segment_cut`: cutting a segment, at any place and at a node.
* `Segment.imp`: the frame rule; what holds of every record holds of the segment.
* `Segment.replace`: exchanging a node for one at the same address.
-/
import Mathlib.Data.List.Basic

namespace ArmKernel.Support

variable {B : Type*} (addr : B → Nat)

/-- The address of the first node, `q` when there is none. -/
def firstAddr (q : Nat) : List B → Nat
  | [] => q
  | b :: _ => addr b

/-- The address of the last node, `p` when there is none. -/
def lastAddr (p : Nat) : List B → Nat
  | [] => p
  | b :: l => lastAddr (addr b) l

/-- The records of the nodes are linked from `p` to `q`. -/
def Segment (holds : B → Nat → Nat → Prop) (p q : Nat) : List B → Prop
  | [] => True
  | b :: l => holds b p (firstAddr addr q l) ∧ Segment holds (addr b) q l

variable {addr} {holds holds' : B → Nat → Nat → Prop} {p q : Nat} {b b' : B} {l r : List B}

theorem firstAddr_append : firstAddr addr q (l ++ r) = firstAddr addr (firstAddr addr q r) l := by
  cases l <;> rfl

theorem lastAddr_append : lastAddr addr p (l ++ r) = lastAddr addr (lastAddr addr p l) r := by
  induction l generalizing p with
  | nil => rfl
  | cons b l ih => exact ih

theorem segment_append : Segment addr holds p q (l ++ r) ↔
    Segment addr holds p (firstAddr addr q r) l ∧ Segment addr holds (lastAddr addr p l) q r := by
  induction l generalizing p with
  | nil => simp [Segment, lastAddr]
  | cons b l ih => simp [Segment, lastAddr, ih, firstAddr_append, and_assoc]

/-- **Cutting at a node.** -/
theorem segment_cut : Segment addr holds p q (l ++ b :: r) ↔
    Segment addr holds p (addr b) l ∧ holds b (lastAddr addr p l) (firstAddr addr q r) ∧
      Segment addr holds (addr b) q r := segment_append

/-- **Frame.** -/
theorem Segment.imp (h : Segment addr holds p q l)
    (sub : ∀ b ∈ l, ∀ p q, holds b p q → holds' b p q) : Segment addr holds' p q l := by
  induction l generalizing p with
  | nil => trivial
  | cons b l ih =>
    exact ⟨sub b List.mem_cons_self _ _ h.1, ih h.2 fun c hc => sub c (List.mem_cons_of_mem b hc)⟩

/-- **Exchange** of a node for one at the same address. -/
theorem Segment.replace (h : Segment addr holds p q (l ++ b :: r)) (haddr : addr b' = addr b)
    (hnode : ∀ p q, holds b p q → holds' b' p q)
    (hrest : ∀ c ∈ l ++ r, ∀ p q, holds c p q → holds' c p q) :
    Segment addr holds' p q (l ++ b' :: r) := by
  obtain ⟨hl, hb, hr⟩ := segment_cut.mp h
  rw [segment_cut, haddr]
  exact ⟨hl.imp fun c hc => hrest c (List.mem_append_left r hc), hnode _ _ hb,
    hr.imp fun c hc => hrest c (List.mem_append_right l hc)⟩

end ArmKernel.Support

/-
Identifiers handed out for objects with keys.

Objects are registered under a key that is free, and whoever registers one gets an
identifier for it. A later call looks its identifier up among the keys. `Addressed` says that
every identifier handed out leads to its own object; `Addressed.register_iff` is the exact
condition: the identifier handed out is the key. `Addressed.step_iff` is the same for a
step that may register nothing.
-/
import Mathlib.Data.List.Nodup

namespace ArmKernel.Support

variable {O K : Type*} {lookup lookup' : K → Option O} {issued : List (O × K)} {key id : K} {o : O}

/-- Each identifier handed out leads to the object it was handed out for, and no two objects
have one identifier. -/
structure Addressed (lookup : K → Option O) (issued : List (O × K)) : Prop where
  reaches : ∀ o id, (o, id) ∈ issued → lookup id = some o
  distinct : (issued.map Prod.snd).Nodup

/-- The lookup before and after a new object was registered under a free key. -/
structure Registers (lookup lookup' : K → Option O) (key : K) (o : O) : Prop where
  free : lookup key = none
  fresh : ∀ id, lookup id ≠ some o
  found : lookup' key = some o
  others : ∀ id, id ≠ key → lookup' id = lookup id

theorem addressed_nil (lookup : K → Option O) : Addressed lookup [] :=
  ⟨fun _ _ h => absurd h List.not_mem_nil, List.nodup_nil⟩

/-- Registering an object leaves the other identifiers alone. -/
theorem Addressed.register (h : Addressed lookup issued) (new : Registers lookup lookup' key o) :
    Addressed lookup' ((o, key) :: issued) where
  reaches := by
    intro o' id hmem
    rcases List.mem_cons.mp hmem with hnew | hold
    · cases hnew
      exact new.found
    · have hreach := h.reaches o' id hold
      rw [new.others id, hreach]
      rintro rfl
      rw [new.free] at hreach
      cases hreach
  distinct := by
    refine List.nodup_cons.mpr ⟨?_, h.distinct⟩
    intro hmem
    obtain ⟨⟨o', id⟩, hold, rfl⟩ := List.mem_map.mp hmem
    have hreach := h.reaches o' id hold
    rw [new.free] at hreach
    cases hreach

/-- **The identifier is the key.** After an object was registered, the identifiers lead to
their objects exactly when the new one is the key of the new object. -/
theorem Addressed.register_iff (h : Addressed lookup issued)
    (new : Registers lookup lookup' key o) :
    Addressed lookup' ((o, id) :: issued) ↔ id = key := by
  constructor
  · intro h'
    by_contra hne
    have hreach := h'.reaches o id List.mem_cons_self
    rw [new.others id hne] at hreach
    exact new.fresh id hreach
  · rintro rfl
    exact h.register new

/-- **Step.** A step that leaves the objects and the identifiers as they are, or registers an
object and hands `id` out for it, keeps the identifiers right exactly when the key it
registers under, if any, is `id`. -/
theorem Addressed.step_iff {issued' : List (O × K)} {ok : Prop} (h : Addressed lookup issued)
    (hstep : (issued' = issued ∧ lookup' = lookup ∧ ok) ∨
      ∃ key o, issued' = (o, id) :: issued ∧ Registers lookup lookup' key o ∧ (ok ↔ key = id)) :
    Addressed lookup' issued' ↔ ok := by
  rcases hstep with ⟨rfl, rfl, hok⟩ | ⟨key, o, rfl, hregisters, hok⟩
  · exact iff_of_true h hok
  · rw [h.register_iff hregisters, hok, eq_comm]

end ArmKernel.Support

/-
Lists of point updates of a function.

`applyUpdates m us` performs the updates of `us` in order. The last update of a
point decides its value (`applyUpdates_apply`). From this follow when the reverse
order gives the same function (`applyUpdates_reverse_eq_iff`: at every point the
first and the last update agree) and when a list of updates changes nothing
(`applyUpdates_eq_self_iff`).
-/
import Mathlib.Data.List.Induction
import Mathlib.Logic.Function.Basic

namespace ArmKernel.Support

variable {K V : Type*} [DecidableEq K] {m : K → V} {us vs : List (K × V)} {k : K} {v : V}

/-- The updates of a list, in order. -/
def applyUpdates (m : K → V) (us : List (K × V)) : K → V :=
  us.foldl (fun m u => Function.update m u.1 u.2) m

/-- The value of the first update of `k`. -/
def firstFor (us : List (K × V)) (k : K) : Option V := (us.find? fun u => u.1 = k).map Prod.snd

/-- The value of the last update of `k`. -/
def lastFor (us : List (K × V)) (k : K) : Option V := firstFor us.reverse k

@[simp] theorem applyUpdates_nil : applyUpdates m [] = m := rfl

theorem applyUpdates_cons {u : K × V} :
    applyUpdates m (u :: us) = applyUpdates (Function.update m u.1 u.2) us := rfl

theorem applyUpdates_append :
    applyUpdates m (us ++ vs) = applyUpdates (applyUpdates m us) vs :=
  List.foldl_append

theorem firstFor_cons {u : K × V} :
    firstFor (u :: us) k = if u.1 = k then some u.2 else firstFor us k := by
  unfold firstFor
  rw [List.find?_cons]
  by_cases h : u.1 = k <;> simp [h]

/-- A point is updated in a list and in its reverse. -/
theorem firstFor_reverse_isSome : (firstFor us.reverse k).isSome = (firstFor us k).isSome := by
  rw [Bool.eq_iff_iff]
  simp only [firstFor, Option.isSome_map, List.find?_isSome, List.mem_reverse]

@[simp] theorem lastFor_reverse : lastFor us.reverse k = firstFor us k := by
  rw [lastFor, List.reverse_reverse]

/-- **The last update of a point decides.** -/
theorem applyUpdates_apply : applyUpdates m us k = (lastFor us k).getD (m k) := by
  induction us using List.reverseRecOn with
  | nil => rfl
  | append_singleton us u ih =>
    rw [applyUpdates_append, applyUpdates_cons, applyUpdates_nil, lastFor, List.reverse_append,
      List.reverse_singleton, List.singleton_append, firstFor_cons]
    by_cases h : u.1 = k
    · subst h
      simp
    · rw [Function.update_of_ne (fun e => h e.symm), if_neg h, ih, lastFor]

/-- **Reverse order.** The updates in reverse give the same function exactly when at
every point the first and the last update agree. -/
theorem applyUpdates_reverse_eq_iff :
    applyUpdates m us.reverse = applyUpdates m us ↔ ∀ k, firstFor us k = lastFor us k := by
  have hpoint : ∀ k, applyUpdates m us.reverse k = applyUpdates m us k ↔
      firstFor us k = lastFor us k := by
    intro k
    rw [applyUpdates_apply, applyUpdates_apply, lastFor_reverse]
    have hboth : (lastFor us k).isSome = (firstFor us k).isSome := firstFor_reverse_isSome
    cases hfirst : firstFor us k with
    | none =>
      rw [hfirst] at hboth
      have hlast : lastFor us k = none := by simpa using hboth
      rw [hlast]
      simp
    | some v =>
      rw [hfirst] at hboth
      obtain ⟨w, hlast⟩ := Option.isSome_iff_exists.mp hboth
      rw [hlast]
      simp
  exact ⟨fun h k => (hpoint k).mp (congrFun h k), fun h => funext fun k => (hpoint k).mpr (h k)⟩

/-- **No change.** The updates change nothing exactly when the last update of every
point writes what is there. -/
theorem applyUpdates_eq_self_iff :
    applyUpdates m us = m ↔ ∀ k v, lastFor us k = some v → m k = v := by
  constructor
  · intro h k v hlast
    have hk := congrFun h k
    rw [applyUpdates_apply, hlast] at hk
    exact hk.symm
  · intro h
    funext k
    rw [applyUpdates_apply]
    cases hlast : lastFor us k with
    | none => rfl
    | some v => exact (h k v hlast).symm

end ArmKernel.Support

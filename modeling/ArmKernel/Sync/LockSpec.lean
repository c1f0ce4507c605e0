/-
What the mutexes are for, without pointers: locks that are handed over in line.

A lock has an owner or none and a line of tasks that wait for it. A call takes a
free lock, stands in line for a taken one, or gives the lock to the first in
line. `Step` lists these moves; `LockSpec.Inv` is what they keep, and
`LockSpec.Inv.returns_to_owner`, `LockSpec.Inv.exclusive` and
`LockSpec.Inv.order` what a caller relies on: a call returns to the owner only,
one task at a time is inside, and locks are granted in the order of arrival.

Task states may also be changed from outside (`LockSpec.withState`). The invariant
survives exactly as long as no task in a line is made ready
(`LockSpec.Inv.withState`).
-/
import ArmKernel.Tasks.Table

namespace ArmKernel.Sync

open ArmKernel.Tasks

/-- Tasks `T`, locks `M`. `pending` is the lock whose `lock` call a task sits in,
`holds` marks the tasks between a successful call and their unlock; the two orders
record who stood in line and who was given the lock, oldest first. -/
structure LockSpec (T M : Type) where
  state : T → TaskState
  owner : M → Option T
  line : M → List T
  pending : T → Option M
  holds : M → T → Bool
  blockedOrder : M → List T
  grantedOrder : M → List T

/-- The calls on the locks, by task and lock. `wake` is the scheduler coming back
to a task that waits in its `lock` call: the call returns. -/
inductive Call (T M : Type) where
  | lock (t : T) (m : M)
  | trylock (t : T) (m : M)
  | unlock (t : T) (m : M)
  | wake (t : T)
deriving DecidableEq

namespace LockSpec

variable {T M : Type}

section Moves

variable [DecidableEq T] [DecidableEq M]

/-- Mark a task as holding a lock, or not. -/
def setHolds (a : LockSpec T M) (m : M) (t : T) (b : Bool) : M → T → Bool :=
  Function.update a.holds m (Function.update (a.holds m) t b)

/-- `t` takes the free lock `m`. -/
def acquire (a : LockSpec T M) (t : T) (m : M) : LockSpec T M :=
  { a with owner := Function.update a.owner m (some t), holds := a.setHolds m t true }

/-- `t` blocks and stands in line for `m`. -/
def enqueue (a : LockSpec T M) (t : T) (m : M) : LockSpec T M :=
  { a with
    state := Function.update a.state t .blocked
    line := Function.update a.line m (a.line m ++ [t])
    pending := Function.update a.pending t (some m)
    blockedOrder := Function.update a.blockedOrder m (a.blockedOrder m ++ [t]) }

/-- `t` gives `m` to `w`, the first in line. -/
def handOff (a : LockSpec T M) (t : T) (m : M) (w : T) (rest : List T) : LockSpec T M :=
  { a with
    state := Function.update a.state w .ready
    owner := Function.update a.owner m (some w)
    line := Function.update a.line m rest
    holds := a.setHolds m t false
    grantedOrder := Function.update a.grantedOrder m (a.grantedOrder m ++ [w]) }

/-- `t` gives up `m`, for which nobody waits. -/
def release (a : LockSpec T M) (t : T) (m : M) : LockSpec T M :=
  { a with owner := Function.update a.owner m none, holds := a.setHolds m t false }

/-- The `lock` call of `t` on `m` returns. -/
def enter (a : LockSpec T M) (t : T) (m : M) : LockSpec T M :=
  { a with pending := Function.update a.pending t none, holds := a.setHolds m t true }

end Moves

/-- A ready task outside every `lock` call: it can make a call. -/
def CanCall (a : LockSpec T M) (t : T) : Prop := a.state t = .ready ∧ a.pending t = none

/-- The moves of the calls. -/
inductive Step [DecidableEq T] [DecidableEq M] (a : LockSpec T M) : Call T M → LockSpec T M → Prop where
  | lockFree {t m} : a.CanCall t → a.owner m = none → Step a (.lock t m) (a.acquire t m)
  | lockTaken {t m} : a.CanCall t → a.owner m ≠ none → Step a (.lock t m) (a.enqueue t m)
  | tryFree {t m} : a.CanCall t → a.owner m = none → Step a (.trylock t m) (a.acquire t m)
  | tryTaken {t m} : a.CanCall t → a.owner m ≠ none → Step a (.trylock t m) a
  | unlockOther {t m} : a.CanCall t → a.owner m ≠ some t → Step a (.unlock t m) a
  | unlockLast {t m} : a.CanCall t → a.owner m = some t → a.line m = [] →
      Step a (.unlock t m) (a.release t m)
  | unlockNext {t m w rest} : a.CanCall t → a.owner m = some t → a.line m = w :: rest →
      Step a (.unlock t m) (a.handOff t m w rest)
  | wake {t m} : a.state t = .ready → a.pending t = some m → Step a (.wake t) (a.enter t m)

/-- What holds between calls. -/
structure Inv (a : LockSpec T M) : Prop where
  nodup : ∀ m, (a.line m).Nodup
  calling : ∀ m t, t ∈ a.line m → a.pending t = some m
  waiting : ∀ m t, t ∈ a.line m → a.state t ≠ .ready
  granted : ∀ t m, a.pending t = some m → t ∈ a.line m ∨ a.owner m = some t
  holder : ∀ m t, a.holds m t = true → a.owner m = some t
  free : ∀ m, a.owner m = none → a.line m = []
  order : ∀ m, a.blockedOrder m = a.grantedOrder m ++ a.line m

/-- The call of an owner on its own lock: the call stands in line behind itself. -/
def Relock (a : LockSpec T M) : Call T M → Prop
  | .lock t m => a.owner m = some t
  | _ => False

/-- The stronger invariant of runs in which the tasks in line are left alone and no
owner asks for its own lock. -/
structure Strict (a : LockSpec T M) : Prop where
  blocked : ∀ m t, t ∈ a.line m → a.state t = .blocked
  ownerOut : ∀ m t, t ∈ a.line m → a.owner m ≠ some t

variable {a b : LockSpec T M}

/-- A `lock` call returns to the owner only. -/
theorem Inv.returns_to_owner (h : a.Inv) {t : T} {m : M} (hp : a.pending t = some m)
    (hready : a.state t = .ready) : a.owner m = some t :=
  (h.granted t m hp).resolve_left fun hmem => h.waiting m t hmem hready

/-- At most one task is inside. -/
theorem Inv.exclusive (h : a.Inv) {m : M} {t u : T} (ht : a.holds m t = true)
    (hu : a.holds m u = true) : t = u :=
  Option.some.inj ((h.holder m t ht).symm.trans (h.holder m u hu))

theorem Inv.not_mem_line (h : a.Inv) {t : T} (hcall : a.CanCall t) (m : M) : t ∉ a.line m := by
  intro hmem
  cases (h.calling m t hmem).symm.trans hcall.2

/-- Task states changed from outside. -/
def withState (a : LockSpec T M) (state : T → TaskState) : LockSpec T M :=
  { a with state }

/-- Outside changes keep the invariant exactly when no task in line is made ready. -/
theorem Inv.withState (h : a.Inv) {state : T → TaskState} :
    (a.withState state).Inv ↔ ∀ m t, t ∈ a.line m → state t ≠ .ready := by
  constructor
  · exact fun h' => h'.waiting
  · exact fun hline => { h with waiting := hline }

variable [DecidableEq T] [DecidableEq M]

theorem setHolds_eq (m m' : M) (t u : T) (v : Bool) :
    a.setHolds m t v m' u = if m' = m ∧ u = t then v else a.holds m' u := by
  unfold setHolds
  by_cases hm : m' = m
  · subst hm
    by_cases hu : u = t
    · subst hu; simp
    · simp [hu]
  · simp [hm]

/-- Whoever holds a mutex once `t` has given up `m` holds another one. -/
theorem Inv.holder_other (h : a.Inv) {t u : T} {m m' : M} (howner : a.owner m = some t)
    (hu : a.setHolds m t false m' u = true) : m' ≠ m ∧ a.owner m' = some u := by
  rw [setHolds_eq] at hu
  split at hu
  · cases hu
  · rename_i hother
    have hheld := h.holder m' u hu
    refine ⟨?_, hheld⟩
    rintro rfl
    exact hother ⟨rfl, Option.some.inj (hheld.symm.trans howner)⟩

theorem Inv.acquire (h : a.Inv) {t : T} {m : M} (hfree : a.owner m = none) :
    (a.acquire t m).Inv where
  nodup := h.nodup
  calling := h.calling
  waiting := h.waiting
  granted := by
    intro u m' hp
    rcases h.granted u m' hp with hmem | howner
    · exact .inl hmem
    · refine .inr ?_
      have hne : m' ≠ m := by rintro rfl; rw [hfree] at howner; cases howner
      simpa [LockSpec.acquire, hne] using howner
  holder := by
    intro m' u hu
    simp only [LockSpec.acquire, setHolds_eq] at hu ⊢
    by_cases hm : m' = m
    · subst hm
      by_cases hut : u = t
      · simp [hut]
      · -- Nobody else holds a lock without an owner.
        have := h.holder m' u (by simpa [hut] using hu)
        rw [hfree] at this
        cases this
    · have := h.holder m' u (by simpa [hm] using hu)
      simpa [hm] using this
  free := by
    intro m' howner
    by_cases hm : m' = m
    · subst hm
      exact h.free m' hfree
    · exact h.free m' (by simpa [LockSpec.acquire, hm] using howner)
  order := h.order

theorem Inv.enqueue (h : a.Inv) {t : T} {m : M} (hcall : a.CanCall t) (htaken : a.owner m ≠ none) :
    (a.enqueue t m).Inv where
  nodup := by
    intro m'
    by_cases hm : m' = m
    · subst hm
      simpa [LockSpec.enqueue] using
        (h.nodup m').append (List.nodup_singleton t)
          (by simpa [List.disjoint_singleton] using h.not_mem_line hcall m')
    · simpa [LockSpec.enqueue, hm] using h.nodup m'
  calling := by
    intro m' u hu
    by_cases hut : u = t
    · subst hut
      by_cases hm : m' = m
      · simp [LockSpec.enqueue, hm]
      · exact absurd (by simpa [LockSpec.enqueue, hm] using hu) (h.not_mem_line hcall m')
    · have hmem : u ∈ a.line m' := by
        by_cases hm : m' = m
        · subst hm; simpa [LockSpec.enqueue, hut] using hu
        · simpa [LockSpec.enqueue, hm] using hu
      simpa [LockSpec.enqueue, hut] using h.calling m' u hmem
  waiting := by
    intro m' u hu
    by_cases hut : u = t
    · subst hut; simp [LockSpec.enqueue]
    · have hmem : u ∈ a.line m' := by
        by_cases hm : m' = m
        · subst hm; simpa [LockSpec.enqueue, hut] using hu
        · simpa [LockSpec.enqueue, hm] using hu
      simpa [LockSpec.enqueue, hut] using h.waiting m' u hmem
  granted := by
    intro u m' hp
    by_cases hut : u = t
    · subst hut
      obtain rfl : m = m' := by simpa [LockSpec.enqueue] using hp
      exact .inl (by simp [LockSpec.enqueue])
    · rcases h.granted u m' (by simpa [LockSpec.enqueue, hut] using hp) with hmem | howner
      · refine .inl ?_
        by_cases hm : m' = m
        · subst hm; simp [LockSpec.enqueue, hmem]
        · simpa [LockSpec.enqueue, hm] using hmem
      · exact .inr howner
  holder := h.holder
  free := by
    intro m' howner
    have hm : m' ≠ m := by rintro rfl; exact htaken howner
    simpa [LockSpec.enqueue, hm] using h.free m' howner
  order := by
    intro m'
    by_cases hm : m' = m
    · subst hm
      simp [LockSpec.enqueue, h.order m']
    · simpa [LockSpec.enqueue, hm] using h.order m'

theorem Inv.release (h : a.Inv) {t : T} {m : M} (hcall : a.CanCall t)
    (howner : a.owner m = some t) (hline : a.line m = []) : (a.release t m).Inv where
  nodup := h.nodup
  calling := h.calling
  waiting := h.waiting
  granted := by
    intro u m' hp
    refine (h.granted u m' hp).imp_right fun hu => ?_
    -- The owner who leaves is not inside a call.
    have hm : m' ≠ m := by
      rintro rfl
      obtain rfl : t = u := Option.some.inj (howner.symm.trans hu)
      cases (hp.symm.trans hcall.2 : some m' = none)
    simpa [LockSpec.release, hm] using hu
  holder := by
    intro m' u hu
    obtain ⟨hm, hheld⟩ := h.holder_other howner hu
    simpa [LockSpec.release, hm] using hheld
  free := by
    intro m' hnone
    by_cases hm : m' = m
    · subst hm; exact hline
    · exact h.free m' (by simpa [LockSpec.release, hm] using hnone)
  order := h.order

theorem Inv.handOff (h : a.Inv) {t w : T} {m : M} {rest : List T} (hcall : a.CanCall t)
    (howner : a.owner m = some t) (hline : a.line m = w :: rest) :
    (a.handOff t m w rest).Inv where
  nodup := by
    intro m'
    by_cases hm : m' = m
    · subst hm
      have := h.nodup m'
      rw [hline] at this
      simpa [LockSpec.handOff] using (List.nodup_cons.mp this).2
    · simpa [LockSpec.handOff, hm] using h.nodup m'
  calling := by
    intro m' u hu
    by_cases hm : m' = m
    · subst hm
      apply h.calling m' u
      rw [hline]
      exact List.mem_cons_of_mem _ (by simpa [LockSpec.handOff] using hu)
    · exact h.calling m' u (by simpa [LockSpec.handOff, hm] using hu)
  waiting := by
    intro m' u hu
    have hw : a.pending w = some m := h.calling m w (by simp [hline])
    -- `w` has left its line and stands in no other.
    have hne : u ≠ w := by
      rintro rfl
      by_cases hm : m' = m
      · subst hm
        have := h.nodup m'
        rw [hline] at this
        exact (List.nodup_cons.mp this).1 (by simpa [LockSpec.handOff] using hu)
      · have := h.calling m' u (by simpa [LockSpec.handOff, hm] using hu)
        exact hm (Option.some.inj (this.symm.trans hw))
    have hmem : u ∈ a.line m' := by
      by_cases hm : m' = m
      · subst hm
        rw [hline]
        exact List.mem_cons_of_mem _ (by simpa [LockSpec.handOff] using hu)
      · simpa [LockSpec.handOff, hm] using hu
    simpa [LockSpec.handOff, hne] using h.waiting m' u hmem
  granted := by
    intro u m' hp
    by_cases hm : m' = m
    · subst hm
      rcases h.granted u m' hp with hmem | hu
      · rw [hline] at hmem
        rcases List.mem_cons.mp hmem with rfl | hmem
        · exact .inr (by simp [LockSpec.handOff])
        · exact .inl (by simpa [LockSpec.handOff] using hmem)
      · obtain rfl : t = u := Option.some.inj (howner.symm.trans hu)
        cases (hp.symm.trans hcall.2 : some m' = none)
    · simpa [LockSpec.handOff, hm] using h.granted u m' hp
  holder := by
    intro m' u hu
    obtain ⟨hm, hheld⟩ := h.holder_other howner hu
    simpa [LockSpec.handOff, hm] using hheld
  free := by
    intro m' hnone
    by_cases hm : m' = m
    · subst hm; simp [LockSpec.handOff] at hnone
    · simpa [LockSpec.handOff, hm] using h.free m' (by simpa [LockSpec.handOff, hm] using hnone)
  order := by
    intro m'
    by_cases hm : m' = m
    · subst hm
      simp [LockSpec.handOff, h.order m', hline]
    · simpa [LockSpec.handOff, hm] using h.order m'

theorem Inv.enter (h : a.Inv) {t : T} {m : M} (hready : a.state t = .ready)
    (hp : a.pending t = some m) : (a.enter t m).Inv where
  nodup := h.nodup
  calling := by
    intro m' u hu
    have hne : u ≠ t := by rintro rfl; exact h.waiting m' u hu hready
    simpa [LockSpec.enter, hne] using h.calling m' u hu
  waiting := h.waiting
  granted := by
    intro u m' hpu
    by_cases hut : u = t
    · subst hut; simp [LockSpec.enter] at hpu
    · exact h.granted u m' (by simpa [LockSpec.enter, hut] using hpu)
  holder := by
    intro m' u hu
    simp only [LockSpec.enter, setHolds_eq] at hu
    by_cases hmu : m' = m ∧ u = t
    · obtain ⟨rfl, rfl⟩ := hmu
      exact h.returns_to_owner hp hready
    · exact h.holder m' u (by simpa [hmu] using hu)
  free := h.free
  order := h.order

/-- **Every move keeps the invariant.** -/
theorem Inv.step (h : a.Inv) {c : Call T M} (hstep : Step a c b) : b.Inv := by
  cases hstep with
  | lockFree _ hfree => exact h.acquire hfree
  | lockTaken hcall htaken => exact h.enqueue hcall htaken
  | tryFree _ hfree => exact h.acquire hfree
  | tryTaken => exact h
  | unlockOther => exact h
  | unlockLast hcall howner hline => exact h.release hcall howner hline
  | unlockNext hcall howner hline => exact h.handOff hcall howner hline
  | wake hready hp => exact h.enter hready hp

/-- Without such calls, tasks in line stay blocked and never own what they wait
for. -/
theorem Strict.step (hs : a.Strict) (h : a.Inv) {c : Call T M} (hno : ¬ a.Relock c)
    (hstep : Step a c b) : b.Strict := by
  cases hstep with
  | @lockFree t m hcall hfree | @tryFree t m hcall hfree =>
    refine ⟨hs.blocked, ?_⟩
    intro m' u hu howner
    by_cases hm : m' = m
    · subst hm
      have hline : a.line m' = [] := h.free m' hfree
      simp [LockSpec.acquire, hline] at hu
    · exact hs.ownerOut m' u hu (by simpa [LockSpec.acquire, hm] using howner)
  | @lockTaken t m hcall htaken =>
    constructor
    · intro m' u hu
      by_cases hut : u = t
      · simp [LockSpec.enqueue, hut]
      · have hmem : u ∈ a.line m' := by
          by_cases hm : m' = m
          · subst hm; simpa [LockSpec.enqueue, hut] using hu
          · simpa [LockSpec.enqueue, hm] using hu
        simpa [LockSpec.enqueue, hut] using hs.blocked m' u hmem
    · intro m' u hu howner
      have howner' : a.owner m' = some u := howner
      by_cases hm : m' = m
      · subst hm
        rcases List.mem_append.mp (by simpa [LockSpec.enqueue] using hu : u ∈ a.line m' ++ [t])
          with hmem | hmem
        · exact hs.ownerOut m' u hmem howner'
        · obtain rfl := List.mem_singleton.mp hmem
          exact hno howner'
      · exact hs.ownerOut m' u (by simpa [LockSpec.enqueue, hm] using hu) howner'
  | tryTaken | unlockOther => exact hs
  | @unlockLast t m hcall howner hline =>
    refine ⟨hs.blocked, ?_⟩
    intro m' u hu hown
    by_cases hm : m' = m
    · subst hm; simp [LockSpec.release] at hown
    · exact hs.ownerOut m' u hu (by simpa [LockSpec.release, hm] using hown)
  | @unlockNext t m w rest hcall howner hline =>
    have hw : a.pending w = some m := h.calling m w (by simp [hline])
    have hnd := h.nodup m
    rw [hline] at hnd
    have hmem : ∀ m' u, u ∈ (a.handOff t m w rest).line m' → u ∈ a.line m' ∧ u ≠ w := by
      intro m' u hu
      by_cases hm : m' = m
      · subst hm
        have hrest : u ∈ rest := by simpa [LockSpec.handOff] using hu
        refine ⟨by simp [hline, hrest], ?_⟩
        rintro rfl
        exact (List.nodup_cons.mp hnd).1 hrest
      · have hu' : u ∈ a.line m' := by simpa [LockSpec.handOff, hm] using hu
        refine ⟨hu', ?_⟩
        rintro rfl
        exact hm (Option.some.inj ((h.calling m' u hu').symm.trans hw))
    constructor
    · intro m' u hu
      obtain ⟨hu', hne⟩ := hmem m' u hu
      simpa [LockSpec.handOff, hne] using hs.blocked m' u hu'
    · intro m' u hu hown
      obtain ⟨hu', hne⟩ := hmem m' u hu
      by_cases hm : m' = m
      · subst hm
        exact hne (by simpa [LockSpec.handOff] using hown.symm)
      · exact hs.ownerOut m' u hu' (by simpa [LockSpec.handOff, hm] using hown)
  | wake => exact ⟨hs.blocked, hs.ownerOut⟩

end LockSpec

end ArmKernel.Sync

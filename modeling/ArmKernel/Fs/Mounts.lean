/-
Finding the mount of a path (`src/fs_core.c`: `find_mount_point`).

A C string is the bytes before its NUL. `strncmp` is that of the C standard.

`Covers mount path` says that a mount is responsible for a path: it is the path, or a prefix of
it that ends at a component. The search asks for a prefix of the characters only
(`Longest.loop`), and `find_mount_point_iff` says for which tables and paths it gives the mount
that covers the path.
-/
import Mathlib.Data.List.Infix
import Mathlib.Data.Nat.Basic

namespace ArmKernel.Fs

/-- A C string. -/
structure CString where
  bytes : List (BitVec 8)
  noNul : 0#8 ∉ bytes

/-- `'/'`. -/
def slash : BitVec 8 := 0x2f#8

/-- `MAX_MOUNT_POINTS`. -/
def maxMountPoints : Nat := 16

/-- `strncmp`. A string that ends compares as its NUL. -/
def strncmp : List (BitVec 8) → List (BitVec 8) → Nat → Int
  | _, _, 0 => 0
  | [], [], _ + 1 => 0
  | [], d :: _, _ + 1 => 0 - d.toNat
  | c :: _, [], _ + 1 => c.toNat
  | c :: s, d :: t, n + 1 => if c = d then strncmp s t n else c.toNat - d.toNat

/-- `mount_point_t`, as far as the search reads it. -/
structure MountPoint where
  mountPoint : CString
  mounted : Bool

/-- The path of an entry. -/
def MountPoint.path (m : MountPoint) : List (BitVec 8) := m.mountPoint.bytes

/-- The loop of `find_mount_point`; `longest` is `longest_match`. -/
def findLoop (mountPoints : Nat → MountPoint) (path : CString) :
    (rounds i longest : Nat) → Option Nat → Option Nat
  | 0, _, _, found => found
  | rounds + 1, i, longest, found =>
    if (mountPoints i).mounted then
      let len := (mountPoints i).path.length
      if strncmp path.bytes (mountPoints i).path len = 0 ∧ longest < len then
        findLoop mountPoints path rounds (i + 1) len (some i)
      else findLoop mountPoints path rounds (i + 1) longest found
    else findLoop mountPoints path rounds (i + 1) longest found

/-- `find_mount_point`: the index of the entry. -/
def findMountPoint (mountPoints : Nat → MountPoint) (path : CString) : Option Nat :=
  findLoop mountPoints path maxMountPoints 0 0 none

/-- A mount path is the path, or a prefix of it that ends at a component. -/
def Covers (mount path : List (BitVec 8)) : Prop :=
  mount = path ∨ mount = [slash] ∧ mount <+: path ∨ mount ++ [slash] <+: path

instance (mount path : List (BitVec 8)) : Decidable (Covers mount path) :=
  inferInstanceAs (Decidable (_ ∨ _ ∨ _))

/-- The entries that are mounted. -/
def IsMounted (mountPoints : Nat → MountPoint) (i : Nat) : Prop :=
  i < maxMountPoints ∧ (mountPoints i).mounted = true

instance (mountPoints : Nat → MountPoint) (i : Nat) : Decidable (IsMounted mountPoints i) :=
  inferInstanceAs (Decidable (_ ∧ _))

/-- The table: the paths of the mounted entries are absolute and different, and none but `/`
ends with a slash. -/
structure MountTable (mountPoints : Nat → MountPoint) : Prop where
  absolute : ∀ i, IsMounted mountPoints i → (mountPoints i).path.head? = some slash
  noTrailing : ∀ i, IsMounted mountPoints i → (mountPoints i).path ≠ [slash] →
    (mountPoints i).path.getLast? ≠ some slash
  distinct : ∀ i j, IsMounted mountPoints i → IsMounted mountPoints j →
    (mountPoints i).path = (mountPoints j).path → i = j

/-- The result is the mounted entry with the longest path that covers the given one, or nothing
if no entry does. -/
def Resolves (mountPoints : Nat → MountPoint) (path : CString) : Option Nat → Prop
  | some i => IsMounted mountPoints i ∧ Covers (mountPoints i).path path.bytes ∧
      ∀ j, IsMounted mountPoints j → Covers (mountPoints j).path path.bytes → j ≠ i →
        (mountPoints j).path.length < (mountPoints i).path.length
  | none => ∀ j, IsMounted mountPoints j → ¬ Covers (mountPoints j).path path.bytes

/-! ### The search -/

section Search

variable {mountPoints : Nat → MountPoint} {path : CString} {i j n rounds longest : Nat}
  {found : Option Nat}

/-- Comparing as many characters as a string has asks whether it is a prefix. -/
theorem strncmp_eq_zero_iff {s t : List (BitVec 8)} (ht : 0#8 ∉ t) :
    strncmp s t t.length = 0 ↔ t <+: s := by
  induction t generalizing s with
  | nil => cases s <;> simp [strncmp]
  | cons d t ih =>
    have hd : d.toNat ≠ 0 := fun hzero => ht (by
      rw [show d = 0#8 from BitVec.eq_of_toNat_eq hzero]
      exact List.mem_cons_self)
    cases s with
    | nil => simp [strncmp, hd]
    | cons c s =>
      rw [List.length_cons, strncmp, List.cons_prefix_cons]
      split
      · rename_i heq
        rw [ih fun hmem => ht (List.mem_cons_of_mem d hmem)]
        exact ⟨fun h => ⟨heq.symm, h⟩, fun h => h.2⟩
      · rename_i hne
        have hbytes : c.toNat ≠ d.toNat := fun h => hne (BitVec.eq_of_toNat_eq h)
        have hdiff : (c.toNat : Int) - d.toNat ≠ 0 := by omega
        exact ⟨fun h => absurd h hdiff, fun h => absurd h.1.symm hne⟩

/-- The entries that the loop considers. -/
structure Candidate (mountPoints : Nat → MountPoint) (path : CString) (i : Nat) : Prop where
  mounted : (mountPoints i).mounted = true
  isPrefix : (mountPoints i).path <+: path.bytes
  nonempty : 0 < (mountPoints i).path.length

/-- The invariant of the loop: the longest of the first `n` candidates. -/
structure Longest (mountPoints : Nat → MountPoint) (path : CString) (n longest : Nat)
    (found : Option Nat) : Prop where
  isFound : ∀ i, found = some i → i < n ∧ Candidate mountPoints path i ∧
    (mountPoints i).path.length = longest
  isNone : found = none → longest = 0
  bound : ∀ j < n, Candidate mountPoints path j → (mountPoints j).path.length ≤ longest

/-- The next entry is no candidate, or not a longer one. -/
theorem Longest.skip (h : Longest mountPoints path n longest found)
    (hskip : Candidate mountPoints path n → (mountPoints n).path.length ≤ longest) :
    Longest mountPoints path (n + 1) longest found where
  isFound i hi := ⟨Nat.lt_succ_of_lt (h.isFound i hi).1, (h.isFound i hi).2⟩
  isNone := h.isNone
  bound j hj hcandidate := by
    rcases Nat.lt_or_eq_of_le (Nat.le_of_lt_succ hj) with hlt | rfl
    · exact h.bound j hlt hcandidate
    · exact hskip hcandidate

/-- The next entry is a longer candidate. -/
theorem Longest.take (h : Longest mountPoints path n longest found)
    (hcandidate : Candidate mountPoints path n) (hlonger : longest < (mountPoints n).path.length) :
    Longest mountPoints path (n + 1) (mountPoints n).path.length (some n) where
  isFound i hi := by
    cases hi
    exact ⟨Nat.lt_succ_self n, hcandidate, rfl⟩
  isNone hnone := by cases hnone
  bound j hj hcandidate := by
    rcases Nat.lt_or_eq_of_le (Nat.le_of_lt_succ hj) with hlt | rfl
    · exact (h.bound j hlt hcandidate).trans (Nat.le_of_lt hlonger)
    · exact Nat.le_refl _

/-- **Loop lemma**, by induction on the rounds. -/
theorem Longest.loop (h : Longest mountPoints path n longest found) (rounds : Nat) :
    ∃ longest', Longest mountPoints path (n + rounds) longest'
      (findLoop mountPoints path rounds n longest found) := by
  induction rounds generalizing n longest found with
  | zero => exact ⟨longest, h⟩
  | succ rounds ih =>
    have hnext : n + (rounds + 1) = n + 1 + rounds := by omega
    have hbegins := strncmp_eq_zero_iff (s := path.bytes) (mountPoints n).mountPoint.noNul
    rw [hnext]
    unfold findLoop
    dsimp only
    split
    · rename_i hmounted
      split
      · rename_i htest
        have hcandidate : Candidate mountPoints path n :=
          ⟨hmounted, hbegins.mp htest.1, Nat.zero_lt_of_lt htest.2⟩
        exact ih (h.take hcandidate htest.2)
      · rename_i htest
        refine ih (h.skip ?_)
        intro hcandidate
        by_contra hlonger
        exact htest ⟨hbegins.mpr hcandidate.isPrefix, Nat.not_le.mp hlonger⟩
    · rename_i hmounted
      exact ih (h.skip fun hcandidate => absurd hcandidate.mounted hmounted)

/-- **`find_mount_point`** gives the longest candidate. -/
theorem findMountPoint_longest (mountPoints : Nat → MountPoint) (path : CString) :
    ∃ longest, Longest mountPoints path maxMountPoints longest
      (findMountPoint mountPoints path) := by
  have hstart : Longest mountPoints path 0 0 none :=
    ⟨(by rintro _ ⟨⟩), fun _ => rfl, fun _ hj => absurd hj (Nat.not_lt_zero _)⟩
  have hloop := hstart.loop maxMountPoints
  rwa [Nat.zero_add] at hloop

/-! ### Components -/

theorem Covers.isPrefix {mount path : List (BitVec 8)} (h : Covers mount path) : mount <+: path := by
  rcases h with rfl | ⟨-, h⟩ | h
  · exact List.prefix_refl mount
  · exact h
  · exact (List.prefix_append mount [slash]).trans h

theorem MountTable.candidate (h : MountTable mountPoints) (hi : IsMounted mountPoints i)
    (hbegins : (mountPoints i).path <+: path.bytes) : Candidate mountPoints path i := by
  refine ⟨hi.2, hbegins, List.length_pos_iff.mpr ?_⟩
  intro hnil
  have habsolute := h.absolute i hi
  rw [hnil] at habsolute
  cases habsolute

/-- Two mounts that are prefixes of one path and of one length are one. -/
theorem MountTable.eq_of_length (h : MountTable mountPoints) (hi : IsMounted mountPoints i)
    (hj : IsMounted mountPoints j) (hbegins : (mountPoints i).path <+: path.bytes)
    (hbegins' : (mountPoints j).path <+: path.bytes)
    (hlength : (mountPoints i).path.length = (mountPoints j).path.length) : i = j :=
  h.distinct i j hi hj ((List.prefix_of_prefix_length_le hbegins hbegins' (Nat.le_of_eq hlength)).eq_of_length
    hlength)

/-- **Mount resolution.** The search gives the mount that covers a path exactly when every
mount whose path is a prefix of its characters covers it or is shorter than one that does. -/
theorem find_mount_point_iff (h : MountTable mountPoints) :
    Resolves mountPoints path (findMountPoint mountPoints path) ↔
      ∀ i, IsMounted mountPoints i → (mountPoints i).path <+: path.bytes →
        Covers (mountPoints i).path path.bytes ∨
          ∃ j, IsMounted mountPoints j ∧ Covers (mountPoints j).path path.bytes ∧
            (mountPoints i).path.length < (mountPoints j).path.length := by
  obtain ⟨longest, hlongest⟩ := findMountPoint_longest mountPoints path
  cases hfound : findMountPoint mountPoints path with
  | none =>
    rw [hfound] at hlongest
    have hzero := hlongest.isNone rfl
    -- There are no candidates at all.
    have hno : ∀ i, IsMounted mountPoints i → ¬ (mountPoints i).path <+: path.bytes := by
      intro i hi hbegins
      have hcandidate := h.candidate hi hbegins
      have hbound := hlongest.bound i hi.1 hcandidate
      exact absurd (hbound.trans_eq hzero) (Nat.not_le.mpr hcandidate.nonempty)
    exact ⟨fun _ i hi hbegins => absurd hbegins (hno i hi),
      fun _ j hj hcovers => hno j hj hcovers.isPrefix⟩
  | some k =>
    rw [hfound] at hlongest
    obtain ⟨hlt, hcandidate, hlength⟩ := hlongest.isFound k rfl
    have hk : IsMounted mountPoints k := ⟨hlt, hcandidate.mounted⟩
    have hbound : ∀ j, IsMounted mountPoints j → (mountPoints j).path <+: path.bytes →
        (mountPoints j).path.length ≤ (mountPoints k).path.length := fun j hj hbegins =>
      hlength ▸ hlongest.bound j hj.1 (h.candidate hj hbegins)
    constructor
    · rintro ⟨-, hcovers, -⟩ i hi hbegins
      rcases Nat.lt_or_eq_of_le (hbound i hi hbegins) with hshorter | heq
      · exact .inr ⟨k, hk, hcovers, hshorter⟩
      · rw [h.eq_of_length hi hk hbegins hcandidate.isPrefix heq]
        exact .inl hcovers
    · intro hall
      have hcovers : Covers (mountPoints k).path path.bytes := by
        rcases hall k hk hcandidate.isPrefix with hcovers | ⟨j, hj, hcovers, hlonger⟩
        · exact hcovers
        · exact absurd (hbound j hj hcovers.isPrefix) (Nat.not_le.mpr hlonger)
      refine ⟨hk, hcovers, ?_⟩
      intro j hj hcovers' hjk
      refine Nat.lt_of_le_of_ne (hbound j hj hcovers'.isPrefix) fun heq => hjk ?_
      exact h.eq_of_length hj hk hcovers'.isPrefix hcandidate.isPrefix heq

end Search

/-! ### Two mounts -/

/-- `/`, and the directory `/mnt`. -/
def twoMounts : Nat → MountPoint
  | 0 => { mountPoint := ⟨[slash], by decide⟩, mounted := true }
  | 1 => { mountPoint := ⟨[slash, 0x6d#8, 0x6e#8, 0x74#8], by decide⟩, mounted := true }
  | _ => { mountPoint := ⟨[], by decide⟩, mounted := false }

theorem twoMounts_mounted {i : Nat} (hi : IsMounted twoMounts i) : i = 0 ∨ i = 1 := by
  rcases i with _ | _ | i
  · exact .inl rfl
  · exact .inr rfl
  · exact absurd hi.2 Bool.false_ne_true

theorem twoMounts_table : MountTable twoMounts where
  absolute i hi := by rcases twoMounts_mounted hi with rfl | rfl <;> rfl
  noTrailing i hi hne := by
    rcases twoMounts_mounted hi with rfl | rfl
    · exact absurd rfl hne
    · decide
  distinct i j hi hj heq := by
    rcases twoMounts_mounted hi with rfl | rfl <;> rcases twoMounts_mounted hj with rfl | rfl
    · rfl
    · exact absurd heq (by decide)
    · exact absurd heq (by decide)
    · rfl

/-- `/mnt/a` is in `/mnt`. -/
theorem find_mount_point_iff_inside :
    findMountPoint twoMounts ⟨[slash, 0x6d#8, 0x6e#8, 0x74#8, slash, 0x61#8], by decide⟩ = some 1 ∧
      Resolves twoMounts ⟨[slash, 0x6d#8, 0x6e#8, 0x74#8, slash, 0x61#8], by decide⟩
        (findMountPoint twoMounts ⟨[slash, 0x6d#8, 0x6e#8, 0x74#8, slash, 0x61#8], by decide⟩) := by
  refine ⟨by decide, (find_mount_point_iff twoMounts_table).mpr fun i hi _ => ?_⟩
  rcases twoMounts_mounted hi with rfl | rfl
  · exact .inl (by decide)
  · exact .inl (by decide)

/-- `/mntx` is not in `/mnt`, whose characters it begins with. -/
theorem sibling_resolves_to_mount :
    findMountPoint twoMounts ⟨[slash, 0x6d#8, 0x6e#8, 0x74#8, 0x78#8], by decide⟩ = some 1 ∧
      ¬ Resolves twoMounts ⟨[slash, 0x6d#8, 0x6e#8, 0x74#8, 0x78#8], by decide⟩
        (findMountPoint twoMounts ⟨[slash, 0x6d#8, 0x6e#8, 0x74#8, 0x78#8], by decide⟩) := by
  have hfound : findMountPoint twoMounts ⟨[slash, 0x6d#8, 0x6e#8, 0x74#8, 0x78#8], by decide⟩ =
      some 1 := by decide
  refine ⟨hfound, ?_⟩
  intro h
  rw [hfound] at h
  exact absurd h.2.1 (by decide)

end ArmKernel.Fs

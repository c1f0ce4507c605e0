/-
Address translation at run time (`src/mmu.c`).

The first-level table lies in the memory that it maps: `first_level_table[index] = entry` is a
store to a virtual address, and so is every store of a program. The hardware keeps entries in the
TLB; it may read one from the table whenever it likes, also between the store of
`mmu_map_section` and the invalidation behind it, and drop one whenever it likes.

**Main results:**
* `physical_eq`: with a coherent TLB an access goes where the mapping of its section says;
* `sections_translate`: after `mmu_init`, in any order of calls, stores, walks and evictions, every
  access goes where the last `mmu_map_section` of its section says. Which stores of programs
  reach the table is decided by the mappings alone.
-/
import ArmKernel.Mmu.Sections
import ArmKernel.Support.Run
import ArmKernel.Support.Updates

namespace ArmKernel.Mmu.Translation

open Support

/-! ### The hardware -/

/-- The unit, its TLB, and the memory by words. -/
structure Machine where
  mem : BitVec 30 → BitVec 32
  /-- Bit 0 of the control register. -/
  enabled : Bool
  /-- Domain access control. -/
  dacr : BitVec 32
  /-- Translation table base. -/
  ttbr : BitVec 32
  /-- The entries held, by section. -/
  tlb : BitVec 12 → Option (BitVec 32)

/-- The section of an address. -/
def sectionIndex (addr : BitVec 32) : BitVec 12 := addr.extractLsb' 20 12

/-- The word of an address. -/
def wordOf (addr : BitVec 32) : BitVec 30 := addr.extractLsb' 2 30

/-- The word of the table at `ttbr` that is read for a section. -/
def entryWord (ttbr : BitVec 32) (i : BitVec 12) : BitVec 30 := ttbr.extractLsb' 14 18 ++ i

/-- The entry is that of a section. The source writes no others but zero. -/
def IsSection (entry : BitVec 32) : Prop :=
  entry.extractLsb' 0 2 = 2 ∧ entry.extractLsb' 18 1 = 0

instance (entry : BitVec 32) : Decidable (IsSection entry) :=
  inferInstanceAs (Decidable (_ ∧ _))

/-- The access permission bits: 1 is system only, with 2 users read, with 3 they write. Bit 15 of
an entry takes the right to write. -/
def apPermits (ap : BitVec 2) (readOnly user write : Bool) : Bool :=
  if write && readOnly then false
  else if ap = 0 then false
  else if ap = 1 then !user
  else if ap = 2 then !(user && write)
  else true

/-- A domain without access refuses, the manager of one is not checked, a client is. -/
def entryPermits (dacr entry : BitVec 32) (user write : Bool) : Bool :=
  let domain := (dacr >>> (2 * (entry.extractLsb' 5 4).toNat)).extractLsb' 0 2
  if domain = 1 then
    apPermits (entry.extractLsb' 10 2) (entry.extractLsb' 15 1 = 1) user write
  else domain = 3

namespace Machine

variable (m : Machine)

/-- The entry of a section in the table. -/
def fetch (i : BitVec 12) : BitVec 32 := m.mem (entryWord m.ttbr i)

/-- The entry that an access to a section uses. -/
def lookup (i : BitVec 12) : BitVec 32 := (m.tlb i).getD (m.fetch i)

/-- Where an access goes; `none` is an abort. -/
def physical (user write : Bool) (va : BitVec 32) : Option (BitVec 32) :=
  if m.enabled then
    let entry := m.lookup (sectionIndex va)
    if IsSection entry ∧ entryPermits m.dacr entry user write then some (translate entry va)
    else none
  else some va

/-- A store of a word. -/
def store (user : Bool) (va value : BitVec 32) : Option Machine :=
  (m.physical user true va).map fun pa =>
    { m with mem := Function.update m.mem (wordOf pa) value }

/-- A table walk. Faults are not held. -/
def walk (i : BitVec 12) : Machine :=
  if m.enabled ∧ IsSection (m.fetch i) then
    { m with tlb := Function.update m.tlb i (some (m.fetch i)) }
  else m

/-- The entry of a section leaves the TLB. -/
def evict (i : BitVec 12) : Machine := { m with tlb := Function.update m.tlb i none }

end Machine

/-! ### The source -/

/-- `first_level_table`. -/
def firstLevelTable : BitVec 32 := 0x70004000

/-- `AP_SYS_ACCESS`. -/
def apSysAccess : BitVec 32 := 1

/-- `AP_USER_RW`. -/
def apUserRw : BitVec 32 := 3

/-- `SECTION_TYPE`. -/
def sectionType : BitVec 32 := 2

/-- `first_level_table[i] = value`, in kernel mode. -/
def writeEntry (m : Machine) (i value : BitVec 32) : Option Machine :=
  m.store false (firstLevelTable + 4 * i) value

/-- A loop of `mmu_init`: `n` entries from `i`. -/
def writeEntries (value : BitVec 32 → BitVec 32) : Nat → BitVec 32 → Machine → Option Machine
  | 0, _, m => some m
  | n + 1, i, m => (writeEntry m i (value i)).bind (writeEntries value n (i + 1))

/-- The entries of the first loop that maps. -/
def deviceEntry (i : BitVec 32) : BitVec 32 :=
  i <<< 20 ||| sectionType ||| 0#32 <<< 3 ||| 0#32 <<< 2 ||| 0#32 <<< 5 ||| apSysAccess <<< 10

/-- The entries of the second. -/
def ramEntry (i : BitVec 32) : BitVec 32 :=
  i <<< 20 ||| sectionType ||| 1#32 <<< 3 ||| 1#32 <<< 2 ||| 0#32 <<< 5 ||| apUserRw <<< 10

/-- `mmu_init`. -/
def mmuInit (m : Machine) : Option Machine :=
  (writeEntries (fun _ => 0) 4096 0 m).bind fun m =>
  (writeEntries deviceEntry 1024 0 { m with dacr := 0x55555555 }).bind fun m =>
  (writeEntries ramEntry 1024 1024 m).map fun m =>
  { m with ttbr := firstLevelTable, tlb := fun _ => none }

/-- `mmu_enable`. -/
def mmuEnable (m : Machine) : Machine := { m with enabled := true }

/-- `mmu_disable`. -/
def mmuDisable (m : Machine) : Machine := { m with enabled := false }

/-- `mmu_map_section`, with the walks that the hardware makes before the invalidation. -/
def mmuMapSection (walks : List (BitVec 12)) (m : Machine) (va pa flags : BitVec 32) :
    Option Machine :=
  (writeEntry m (va >>> 20) (pa &&& 0xFFF00000 ||| flags ||| sectionType)).map fun m =>
  (walks.foldl Machine.walk m).evict (sectionIndex va)

/-- What programs, the kernel and the hardware do. -/
inductive Action where
  | walk (i : BitVec 12)
  | evict (i : BitVec 12)
  /-- A store of a program. When it aborts, nothing is stored. -/
  | store (user : Bool) (va value : BitVec 32)
  | mapSection (va pa flags : BitVec 32) (walks : List (BitVec 12))
  | enable
  | disable

/-- A step; `none` is an abort in the kernel. -/
def step (m : Machine) : Action → Option Machine
  | .walk i => some (m.walk i)
  | .evict i => some (m.evict i)
  | .store user va value => some ((m.store user va value).getD m)
  | .mapSection va pa flags walks => mmuMapSection walks m va pa flags
  | .enable => some (mmuEnable m)
  | .disable => some (mmuDisable m)

/-! ### Mappings -/

/-- What a section is mapped to: the section of the physical address, and the access bits. -/
structure Mapping where
  base : BitVec 12
  ap : BitVec 2
deriving DecidableEq

/-- Where an access to an address of the section goes. -/
def Mapping.reach (mapping : Mapping) (user write : Bool) (va : BitVec 32) : Option (BitVec 32) :=
  if apPermits mapping.ap false user write then some (mapping.base ++ va.extractLsb' 0 20)
  else none

/-- The mappings of `mmu_init`: the lower gigabyte is its own, for the kernel; the next one is its
own, for all; behind is nothing. -/
def bootMapping (i : BitVec 12) : Option Mapping :=
  if i.toNat < 1024 then some ⟨i, 1⟩ else if i.toNat < 2048 then some ⟨i, 3⟩ else none

/-- What a call of `mmu_map_section` asks for. -/
def Action.mapping : Action → Option (BitVec 12 × Option Mapping)
  | .mapSection va pa flags _ =>
    some (sectionIndex va, some ⟨pa.extractLsb' 20 12, flags.extractLsb' 10 2⟩)
  | _ => none

/-- The mappings after a run: the last call for a section decides. -/
def mappings (actions : List Action) : BitVec 12 → Option Mapping :=
  applyUpdates bootMapping (actions.filterMap Action.mapping)

/-- The section of the table. -/
def tableSection : BitVec 12 := 0x700

/-- The flags are made of those of the header. -/
def OfHeader (flags : BitVec 32) : Prop := flags &&& 0xC0E = flags

theorem OfHeader.eq {flags : BitVec 32} (h : OfHeader flags) : flags &&& 0xC0E = flags := h

instance (flags : BitVec 32) : Decidable (OfHeader flags) := inferInstanceAs (Decidable (_ = _))

/-- No program stores into the table, and no call takes its section from the kernel. -/
def Action.Allowed (m : Machine) : Action → Prop
  | .store user va _ => ∀ pa ∈ m.physical user true va, ∀ i, wordOf pa ≠ entryWord firstLevelTable i
  | .mapSection va pa flags _ => OfHeader flags ∧ (sectionIndex va = tableSection →
      pa.extractLsb' 20 12 = tableSection ∧ flags.extractLsb' 10 2 ≠ 0)
  | _ => True

/-! ### Entries -/

section Entries

variable {b flags entry : BitVec 32} {base : BitVec 12} {mapping : Option Mapping}

/-- The entry maps its section as `mapping` says. -/
def Encodes (entry : BitVec 32) : Option Mapping → Prop
  | none => entry.extractLsb' 0 2 = 0
  | some mapping => IsSection entry ∧ entry.extractLsb' 20 12 = mapping.base ∧
      entry.extractLsb' 10 2 = mapping.ap ∧ entry.extractLsb' 15 1 = 0

theorem extract_of_mod {start len : Nat} (hb : b.toNat % 2 ^ 20 = 0) (hlow : start + len ≤ 20) :
    b.extractLsb' start len = 0 := by
  obtain ⟨q, hq⟩ := Nat.dvd_of_mod_eq_zero hb
  obtain ⟨d, hd⟩ := Nat.exists_eq_add_of_le hlow
  have hpow : 2 ^ 20 = 2 ^ start * (2 ^ len * 2 ^ d) := by
    rw [← Nat.mul_assoc, ← Nat.pow_add, ← Nat.pow_add, ← hd]
  refine BitVec.eq_of_toNat_eq ?_
  rw [BitVec.extractLsb'_toNat, hq, hpow, Nat.shiftRight_eq_div_pow, Nat.mul_assoc,
    Nat.mul_div_cancel_left _ (Nat.two_pow_pos start), Nat.mul_assoc, Nat.mul_mod_right]
  rfl

/-- A base and the fields below it. -/
theorem encodes_or (flags : BitVec 32) (hb : b.toNat % 2 ^ 20 = 0)
    (hbase : flags.extractLsb' 20 12 = 0) (htype : IsSection flags)
    (hapx : flags.extractLsb' 15 1 = 0) :
    Encodes (b ||| flags) (some ⟨b.extractLsb' 20 12, flags.extractLsb' 10 2⟩) := by
  have hlow : ∀ start len, start + len ≤ 20 →
      (b ||| flags).extractLsb' start len = flags.extractLsb' start len := by
    intro start len h
    rw [BitVec.extractLsb'_or, extract_of_mod hb h]
    exact BitVec.zero_or
  refine ⟨⟨?_, ?_⟩, ?_, ?_, ?_⟩
  · rw [hlow 0 2 (by decide), htype.1]
  · rw [hlow 18 1 (by decide), htype.2]
  · rw [BitVec.extractLsb'_or, hbase]
    exact BitVec.or_zero
  · exact hlow 10 2 (by decide)
  · rw [hlow 15 1 (by decide), hapx]

theorem shifted_mod (i : BitVec 32) : (i <<< 20).toNat % 2 ^ 20 = 0 := by
  rw [BitVec.toNat_shiftLeft, Nat.shiftLeft_eq]
  omega

theorem shifted_base (i : BitVec 32) : (i <<< 20).extractLsb' 20 12 = i.setWidth 12 := by
  refine BitVec.eq_of_toNat_eq ?_
  rw [BitVec.extractLsb'_toNat, BitVec.toNat_shiftLeft, Nat.shiftLeft_eq,
    Nat.shiftRight_eq_div_pow, BitVec.toNat_setWidth]
  omega

theorem encodes_deviceEntry (i : BitVec 32) :
    Encodes (deviceEntry i) (some ⟨i.setWidth 12, 1⟩) := by
  have h := encodes_or 0x402 (shifted_mod i) (by decide) (by decide) (by decide)
  rw [shifted_base] at h
  simp only [deviceEntry, BitVec.or_assoc]
  exact h

theorem encodes_ramEntry (i : BitVec 32) : Encodes (ramEntry i) (some ⟨i.setWidth 12, 3⟩) := by
  have h := encodes_or 0xC0E (shifted_mod i) (by decide) (by decide) (by decide)
  rw [shifted_base] at h
  simp only [ramEntry, BitVec.or_assoc]
  exact h

/-- The entry of `mmu_map_section`. -/
theorem encodes_mapped (pa : BitVec 32) (h : OfHeader flags) :
    Encodes (pa &&& 0xFFF00000 ||| flags ||| sectionType)
      (some ⟨pa.extractLsb' 20 12, flags.extractLsb' 10 2⟩) := by
  have hfield : ∀ start len, (flags ||| sectionType).extractLsb' start len =
      flags.extractLsb' start len &&& (0xC0E : BitVec 32).extractLsb' start len |||
        sectionType.extractLsb' start len := by
    intro start len
    rw [BitVec.extractLsb'_or, ← BitVec.extractLsb'_and, h.eq]
  have hmod : (pa &&& 0xFFF00000).toNat % 2 ^ 20 = 0 := by
    rw [BitVec.toNat_and, Nat.and_mod_two_pow]
    exact Nat.and_zero _
  have hbase : (pa &&& 0xFFF00000).extractLsb' 20 12 = pa.extractLsb' 20 12 := by
    rw [BitVec.extractLsb'_and]
    exact BitVec.and_allOnes
  have hap : (flags ||| sectionType).extractLsb' 10 2 = flags.extractLsb' 10 2 := by
    rw [hfield]
    exact BitVec.or_zero.trans BitVec.and_allOnes
  have henc := encodes_or (flags ||| sectionType) hmod
    ((hfield 20 12).trans (BitVec.or_zero.trans BitVec.and_zero))
    ⟨?_, (hfield 18 1).trans (BitVec.or_zero.trans BitVec.and_zero)⟩
    ((hfield 15 1).trans (BitVec.or_zero.trans BitVec.and_zero))
  · rw [hbase, hap] at henc
    rwa [BitVec.or_assoc]
  · rw [hfield]
    generalize flags.extractLsb' 0 2 = x
    revert x
    decide

end Entries

/-! ### `mmu_init` -/

section Init

variable {m : Machine} {i : BitVec 32}

theorem toNat_entryWord (i : BitVec 12) :
    (entryWord firstLevelTable i).toNat = 0x1C001 * 4096 + i.toNat := by
  have hbase : firstLevelTable.extractLsb' 14 18 = 0x1C001#18 := by decide
  rw [entryWord, hbase, BitVec.toNat_append, ← Nat.shiftLeft_add_eq_or_of_lt i.isLt,
    Nat.shiftLeft_eq]
  rfl

theorem entryWord_inj {i j : BitVec 12} :
    entryWord firstLevelTable i = entryWord firstLevelTable j ↔ i = j := by
  refine ⟨fun h => BitVec.eq_of_toNat_eq ?_, fun h => h ▸ rfl⟩
  have hnat := congrArg BitVec.toNat h
  rw [toNat_entryWord, toNat_entryWord] at hnat
  omega

/-- An element of the array is the entry that the hardware reads. -/
theorem wordOf_entry (hi : i.toNat < 4096) :
    wordOf (firstLevelTable + 4 * i) = entryWord firstLevelTable (i.setWidth 12) := by
  refine BitVec.eq_of_toNat_eq ?_
  have hmul : (4 * i).toNat = 4 * i.toNat := by
    rw [BitVec.toNat_mul]
    exact Nat.mod_eq_of_lt (by show 4 * i.toNat < 4294967296; omega)
  have hadd : (firstLevelTable + 4 * i).toNat = 0x70004000 + 4 * i.toNat := by
    rw [BitVec.toNat_add, hmul]
    exact Nat.mod_eq_of_lt (by show 0x70004000 + 4 * i.toNat < 4294967296; omega)
  rw [toNat_entryWord, wordOf, BitVec.extractLsb'_toNat, hadd, BitVec.toNat_setWidth,
    Nat.shiftRight_eq_div_pow]
  omega

/-- What the table holds after a loop that wrote `n` entries from `i`. -/
def Wrote (value : BitVec 32 → BitVec 32) (n : Nat) (i : BitVec 32)
    (old new : BitVec 30 → BitVec 32) : Prop :=
  ∀ j : BitVec 12, new (entryWord firstLevelTable j) =
    if i.toNat ≤ j.toNat ∧ j.toNat < i.toNat + n then value (j.setWidth 32)
    else old (entryWord firstLevelTable j)

/-- A loop before the unit is enabled. -/
theorem writeEntries_off (value : BitVec 32 → BitVec 32) {n : Nat} (hoff : m.enabled = false)
    (hn : i.toNat + n ≤ 4096) :
    ∃ mem, writeEntries value n i m = some { m with mem } ∧ Wrote value n i m.mem mem := by
  induction n generalizing i m with
  | zero =>
    refine ⟨m.mem, rfl, fun j => ?_⟩
    rw [if_neg (by omega)]
  | succ n ih =>
    have hi : i.toNat < 4096 := by omega
    have hnext : (i + 1).toNat = i.toNat + 1 := by
      rw [BitVec.toNat_add]
      exact Nat.mod_eq_of_lt (by show i.toNat + 1 < 4294967296; omega)
    have hstore : writeEntry m i (value i) = some { m with
        mem := Function.update m.mem (entryWord firstLevelTable (i.setWidth 12)) (value i) } := by
      rw [writeEntry, Machine.store, Machine.physical, hoff, if_neg Bool.false_ne_true,
        Option.map_some, wordOf_entry hi]
    obtain ⟨mem, hloop, hwrote⟩ := @ih { m with
      mem := Function.update m.mem (entryWord firstLevelTable (i.setWidth 12)) (value i) } (i + 1)
      hoff (by omega)
    refine ⟨mem, by rw [writeEntries, hstore, Option.bind_some, hloop], fun j => ?_⟩
    rw [hwrote j, hnext]
    by_cases hj : j = i.setWidth 12
    · have hnat : j.toNat = i.toNat := by
        rw [hj, BitVec.toNat_setWidth, Nat.mod_eq_of_lt hi]
      have hback : j.setWidth 32 = i := BitVec.eq_of_toNat_eq (by
        rw [BitVec.toNat_setWidth, hnat]
        exact Nat.mod_eq_of_lt i.isLt)
      rw [if_neg (by omega), if_pos (by omega), hback, hj]
      exact Function.update_self ..
    · have hnat : j.toNat ≠ i.toNat := fun h => hj (BitVec.eq_of_toNat_eq (by
        rw [h, BitVec.toNat_setWidth, Nat.mod_eq_of_lt hi]))
      have hkeep : Function.update m.mem (entryWord firstLevelTable (i.setWidth 12)) (value i)
          (entryWord firstLevelTable j) = m.mem (entryWord firstLevelTable j) :=
        Function.update_of_ne (fun h => hj (entryWord_inj.mp h)) _ _
      have hrange : (i.toNat + 1 ≤ j.toNat ∧ j.toNat < i.toNat + 1 + n) ↔
          (i.toNat ≤ j.toNat ∧ j.toNat < i.toNat + (n + 1)) := by omega
      simp only [hrange]
      rw [hkeep]

/-- **The unit holds what it should**: the table encodes the mappings, and what the TLB has is in
the table. -/
structure Coherent (maps : BitVec 12 → Option Mapping) (m : Machine) : Prop where
  ttbr : m.ttbr = firstLevelTable
  dacr : m.dacr = 0x55555555
  table : ∀ i, Encodes (m.mem (entryWord firstLevelTable i)) (maps i)
  tlb : ∀ i, ∀ entry ∈ m.tlb i, entry = m.mem (entryWord firstLevelTable i)
  /-- The kernel writes the table. -/
  own : ∃ ap : BitVec 2, ap ≠ 0 ∧ maps tableSection = some ⟨tableSection, ap⟩

/-- `mmu_init`, as `startup.s` calls it: before the unit is enabled. -/
theorem mmuInit_coherent (hoff : m.enabled = false) :
    ∃ m', mmuInit m = some m' ∧ m'.enabled = false ∧ Coherent bootMapping m' := by
  obtain ⟨mem₁, hclear, hwrote₁⟩ := writeEntries_off (fun _ => 0) (n := 4096) (i := 0)
    hoff (by decide)
  obtain ⟨mem₂, hdevice, hwrote₂⟩ := writeEntries_off deviceEntry (n := 1024) (i := 0)
    (m := { m with mem := mem₁, dacr := 0x55555555 }) hoff (by decide)
  obtain ⟨mem₃, hram, hwrote₃⟩ := writeEntries_off ramEntry (n := 1024) (i := 1024)
    (m := { m with mem := mem₂, dacr := 0x55555555 }) hoff (by decide)
  refine ⟨⟨mem₃, m.enabled, 0x55555555, firstLevelTable, fun _ => none⟩, ?_, hoff,
    rfl, rfl, fun j => ?_, nofun, ⟨3, by decide, rfl⟩⟩
  · rw [mmuInit, hclear, Option.bind_some, hdevice, Option.bind_some, hram]
    rfl
  have hj := j.isLt
  have hback : (j.setWidth 32).setWidth 12 = j := by
    rw [BitVec.setWidth_setWidth_of_le _ (by decide), BitVec.setWidth_eq]
  show Encodes (mem₃ (entryWord firstLevelTable j)) (bootMapping j)
  rw [hwrote₃ j]
  show Encodes (if 1024 ≤ j.toNat ∧ j.toNat < 1024 + 1024 then _ else mem₂ _) _
  by_cases hhigh : 1024 ≤ j.toNat ∧ j.toNat < 2048
  · have hboot : bootMapping j = some ⟨j, 3⟩ := by
      rw [bootMapping, if_neg (by omega), if_pos hhigh.2]
    rw [if_pos hhigh, hboot]
    have henc := encodes_ramEntry (j.setWidth 32)
    rwa [hback] at henc
  · rw [if_neg hhigh, hwrote₂ j]
    show Encodes (if 0 ≤ j.toNat ∧ j.toNat < 0 + 1024 then _ else mem₁ _) _
    by_cases hlow : j.toNat < 1024
    · have hboot : bootMapping j = some ⟨j, 1⟩ := if_pos hlow
      rw [if_pos ⟨Nat.zero_le _, by omega⟩, hboot]
      have henc := encodes_deviceEntry (j.setWidth 32)
      rwa [hback] at henc
    · have hboot : bootMapping j = none := by
        rw [bootMapping, if_neg hlow, if_neg (by omega)]
      rw [if_neg (by omega), hboot, hwrote₁ j]
      show Encodes (if 0 ≤ j.toNat ∧ j.toNat < 0 + 4096 then (0 : BitVec 32) else m.mem _) none
      rw [if_pos ⟨Nat.zero_le _, by omega⟩]
      rfl

end Init

/-! ### Accesses -/

section Access

variable {maps : BitVec 12 → Option Mapping} {m : Machine} {user write : Bool}
  {va value : BitVec 32}

/-- `mmu_init` makes every domain a client. -/
theorem entryPermits_client (entry : BitVec 32) : entryPermits 0x55555555 entry user write =
    apPermits (entry.extractLsb' 10 2) (entry.extractLsb' 15 1 = 1) user write := by
  have hclient : ∀ d : BitVec 4,
      ((0x55555555 : BitVec 32) >>> (2 * d.toNat)).extractLsb' 0 2 = 1 := by decide
  rw [entryPermits, hclient, if_pos rfl]

theorem Coherent.lookup (h : Coherent maps m) (i : BitVec 12) :
    m.lookup i = m.mem (entryWord firstLevelTable i) := by
  rw [Machine.lookup, Machine.fetch, h.ttbr]
  cases hheld : m.tlb i with
  | none => rfl
  | some entry => exact h.tlb i entry hheld

/-- **Accesses** go where the mapping of their section says. -/
theorem physical_eq (h : Coherent maps m) (hon : m.enabled = true) :
    m.physical user write va =
      (maps (sectionIndex va)).bind fun mapping => mapping.reach user write va := by
  rw [Machine.physical, if_pos hon, h.lookup, h.dacr]
  have henc := h.table (sectionIndex va)
  simp only [entryPermits_client]
  generalize m.mem (entryWord firstLevelTable (sectionIndex va)) = entry at henc
  cases hmap : maps (sectionIndex va) with
  | none =>
    rw [hmap] at henc
    have hzero : ¬IsSection entry := fun hs => absurd (henc.symm.trans hs.1) (by decide)
    rw [if_neg fun hand => hzero hand.1]
    rfl
  | some mapping =>
    rw [hmap] at henc
    obtain ⟨hsection, hbase, hap, hapx⟩ := henc
    have hro : decide (entry.extractLsb' 15 1 = 1) = false := by
      rw [hapx]
      rfl
    simp only [hsection, true_and, hap, hro, Option.bind_some, Mapping.reach, translate, hbase]

/-- The kernel's store to an element of the table is a store to the table. -/
theorem writeEntry_eq (h : Coherent maps m) {i : BitVec 32} (hi : i.toNat < 4096) :
    writeEntry m i value = some { m with
      mem := Function.update m.mem (entryWord firstLevelTable (i.setWidth 12)) value } := by
  have hword := wordOf_entry hi
  have htable : sectionIndex (firstLevelTable + 4 * i) = tableSection := by
    have hnat := congrArg BitVec.toNat hword
    rw [toNat_entryWord, wordOf, BitVec.extractLsb'_toNat, Nat.shiftRight_eq_div_pow] at hnat
    have hlow := (i.setWidth 12).isLt
    have hfit := (firstLevelTable + 4 * i).isLt
    refine BitVec.eq_of_toNat_eq ?_
    rw [sectionIndex, BitVec.extractLsb'_toNat, Nat.shiftRight_eq_div_pow]
    show _ = 0x700
    omega
  have hreach : m.physical false true (firstLevelTable + 4 * i) =
      some (firstLevelTable + 4 * i) := by
    by_cases hon : m.enabled = true
    · obtain ⟨ap, hap, hown⟩ := h.own
      have hpermits : ∀ ap : BitVec 2, ap ≠ 0 → apPermits ap false false true = true := by decide
      rw [physical_eq h hon, htable, hown, Option.bind_some, Mapping.reach,
        if_pos (hpermits ap hap), ← htable]
      exact congrArg some (BitVec.extractLsb'_append_extractLsb' (x := firstLevelTable + 4 * i))
    · rw [Machine.physical, if_neg hon]
  rw [writeEntry, Machine.store, hreach, Option.map_some, hword]

theorem toNat_index (va : BitVec 32) : (va >>> 20).toNat < 4096 := by
  have hva := va.isLt
  rw [BitVec.toNat_ushiftRight, Nat.shiftRight_eq_div_pow]
  omega

theorem setWidth_index (va : BitVec 32) : (va >>> 20).setWidth 12 = sectionIndex va :=
  BitVec.eq_of_toNat_eq (by
    rw [BitVec.toNat_setWidth, BitVec.toNat_ushiftRight, sectionIndex, BitVec.extractLsb'_toNat])

end Access

/-! ### Steps -/

section Steps

variable {maps : BitVec 12 → Option Mapping} {m : Machine}

theorem Coherent.evict (h : Coherent maps m) (i : BitVec 12) : Coherent maps (m.evict i) where
  ttbr := h.ttbr
  dacr := h.dacr
  table := h.table
  tlb j entry hheld := by
    by_cases heq : j = i
    · subst heq
      simp [Machine.evict] at hheld
    · exact h.tlb j entry ((Function.update_of_ne heq ..).symm.trans hheld)
  own := h.own

/-- A walk changes the TLB, and takes from the table. -/
theorem walk_eq (m : Machine) (i : BitVec 12) :
    ∃ tlb, m.walk i = { m with tlb } ∧
      ∀ j, ∀ entry ∈ tlb j, entry ∈ m.tlb j ∨ entry = m.fetch j := by
  by_cases h : m.enabled ∧ IsSection (m.fetch i)
  · refine ⟨_, if_pos h, fun j entry hheld => ?_⟩
    by_cases heq : j = i
    · subst heq
      rw [Function.update_self] at hheld
      exact .inr (Option.some.inj hheld).symm
    · rw [Function.update_of_ne heq] at hheld
      exact .inl hheld
  · exact ⟨m.tlb, if_neg h, fun j entry hheld => .inl hheld⟩

theorem foldl_walk_eq (m : Machine) (walks : List (BitVec 12)) :
    ∃ tlb, walks.foldl Machine.walk m = { m with tlb } ∧
      ∀ j, ∀ entry ∈ tlb j, entry ∈ m.tlb j ∨ entry = m.fetch j := by
  induction walks generalizing m with
  | nil => exact ⟨m.tlb, rfl, fun _ _ hheld => .inl hheld⟩
  | cons i walks ih =>
    obtain ⟨tlb₁, hwalk, hfrom₁⟩ := walk_eq m i
    obtain ⟨tlb₂, hwalks, hfrom₂⟩ := ih (m.walk i)
    rw [hwalk] at hwalks hfrom₂
    refine ⟨tlb₂, by rw [List.foldl_cons, hwalk, hwalks], fun j entry hheld => ?_⟩
    exact (hfrom₂ j entry hheld).elim (hfrom₁ j entry) .inr

theorem Coherent.walk (h : Coherent maps m) (i : BitVec 12) : Coherent maps (m.walk i) := by
  obtain ⟨tlb, hwalk, hfrom⟩ := walk_eq m i
  rw [hwalk]
  refine ⟨h.ttbr, h.dacr, h.table, fun j entry hheld => ?_, h.own⟩
  rcases hfrom j entry hheld with hold | hnew
  · exact h.tlb j entry hold
  · rw [hnew, Machine.fetch, h.ttbr]

/-- The mappings after a step. -/
def Action.after (maps : BitVec 12 → Option Mapping) (a : Action) : BitVec 12 → Option Mapping :=
  applyUpdates maps a.mapping.toList

/-- **`mmu_map_section`**: whatever the hardware reads while it runs, the new mapping is in place
when it returns, and the others are as before. -/
theorem mmuMapSection_coherent (h : Coherent maps m) {va pa flags : BitVec 32}
    (walks : List (BitVec 12)) (hallowed : (Action.mapSection va pa flags walks).Allowed m) :
    ∃ m', mmuMapSection walks m va pa flags = some m' ∧
      Coherent ((Action.mapSection va pa flags walks).after maps) m' := by
  obtain ⟨hflags, hown⟩ := hallowed
  let mem := Function.update m.mem (entryWord firstLevelTable (sectionIndex va))
    (pa &&& 0xFFF00000 ||| flags ||| sectionType)
  have hkeep : ∀ i, i ≠ sectionIndex va →
      mem (entryWord firstLevelTable i) = m.mem (entryWord firstLevelTable i) :=
    fun i hi => Function.update_of_ne (fun hw => hi (entryWord_inj.mp hw)) _ _
  obtain ⟨tlb, hwalks, hfrom⟩ := foldl_walk_eq { m with mem } walks
  refine ⟨({ m with mem, tlb } : Machine).evict (sectionIndex va), ?_, h.ttbr, h.dacr,
    ?_, ?_, ?_⟩
  · rw [mmuMapSection, writeEntry_eq h (toNat_index va), setWidth_index, Option.map_some]
    exact congrArg (fun m : Machine => some (m.evict (sectionIndex va))) hwalks
  · intro i
    show Encodes (mem (entryWord firstLevelTable i)) (Function.update maps (sectionIndex va) _ i)
    by_cases heq : i = sectionIndex va
    · have hnew : mem (entryWord firstLevelTable (sectionIndex va)) =
          pa &&& 0xFFF00000 ||| flags ||| sectionType := Function.update_self ..
      rw [heq, Function.update_self, hnew]
      exact encodes_mapped pa hflags
    · rw [Function.update_of_ne heq, hkeep i heq]
      exact h.table i
  · intro i entry hheld
    show entry = mem (entryWord firstLevelTable i)
    by_cases heq : i = sectionIndex va
    · subst heq
      simp [Machine.evict] at hheld
    · have htlb : entry ∈ tlb i := (Function.update_of_ne heq ..).symm.trans hheld
      rcases hfrom i entry htlb with hold | hnew
      · rw [hkeep i heq]
        exact h.tlb i entry hold
      · rw [hnew, Machine.fetch, h.ttbr]
  · show ∃ ap : BitVec 2, ap ≠ 0 ∧
      Function.update maps (sectionIndex va) _ tableSection = some ⟨tableSection, ap⟩
    by_cases heq : sectionIndex va = tableSection
    · obtain ⟨hbase, hap⟩ := hown heq
      exact ⟨_, hap, by rw [heq, Function.update_self, hbase]⟩
    · rw [Function.update_of_ne (Ne.symm heq)]
      exact h.own

/-- **A step** keeps the unit coherent, and the kernel does not abort. -/
theorem step_coherent (h : Coherent maps m) (a : Action) (hallowed : a.Allowed m) :
    ∃ m', step m a = some m' ∧ Coherent (a.after maps) m' := by
  cases a with
  | walk i => exact ⟨_, rfl, h.walk i⟩
  | evict i => exact ⟨_, rfl, h.evict i⟩
  | store user va value =>
    refine ⟨_, rfl, ?_⟩
    cases hreach : m.physical user true va with
    | none =>
      rw [Machine.store, hreach]
      exact h
    | some pa =>
      have hkeep : ∀ i, Function.update m.mem (wordOf pa) value (entryWord firstLevelTable i) =
          m.mem (entryWord firstLevelTable i) :=
        fun i => Function.update_of_ne (Ne.symm (hallowed pa hreach i)) _ _
      have hstore : (m.store user va value).getD m =
          { m with mem := Function.update m.mem (wordOf pa) value } := by
        rw [Machine.store, hreach]
        rfl
      rw [hstore]
      exact ⟨h.ttbr, h.dacr, fun i => (congrArg (Encodes · (maps i)) (hkeep i)).mpr (h.table i),
        fun i entry hheld => (h.tlb i entry hheld).trans (hkeep i).symm, h.own⟩
  | mapSection va pa flags walks => exact mmuMapSection_coherent h walks hallowed
  | enable => exact ⟨_, rfl, h.ttbr, h.dacr, h.table, h.tlb, h.own⟩
  | disable => exact ⟨_, rfl, h.ttbr, h.dacr, h.table, h.tlb, h.own⟩

theorem run_coherent {actions : List Action} (h : Coherent maps m)
    (hallowed : Each step (fun m a => a.Allowed m) m actions) :
    ∃ m', run step m actions = some m' ∧
      Coherent (applyUpdates maps (actions.filterMap Action.mapping)) m' := by
  induction actions generalizing maps m with
  | nil => exact ⟨m, rfl, h⟩
  | cons a actions ih =>
    obtain ⟨hok, hrest⟩ := hallowed
    obtain ⟨m₁, hstep, h₁⟩ := step_coherent h a hok
    obtain ⟨m', hrun, h'⟩ := ih h₁ (hrest m₁ hstep)
    refine ⟨m', run_cons_eq_some.mpr ⟨m₁, hstep, hrun⟩, ?_⟩
    rw [Action.after, ← applyUpdates_append] at h'
    cases hmap : a.mapping with
    | none => rwa [hmap, Option.toList_none, List.nil_append, ← List.filterMap_cons_none hmap] at h'
    | some u => rwa [hmap, Option.toList_some, List.singleton_append,
        ← List.filterMap_cons_some hmap] at h'

end Steps

/-! ### Runs -/

section Runs

variable {m : Machine}

/-- A store of a user reaches the table exactly through a section that is mapped to the table's,
for users to write. -/
theorem userStore_iff {maps : BitVec 12 → Option Mapping} (h : Coherent maps m)
    (hon : m.enabled = true) (i : BitVec 12) :
    (∃ va, (m.physical true true va).map wordOf = some (entryWord firstLevelTable i)) ↔
      ∃ j, maps j = some ⟨tableSection, 3⟩ := by
  have honly : ∀ ap : BitVec 2, apPermits ap false true true = true ↔ ap = 3 := by decide
  have hi := i.isLt
  simp only [physical_eq h hon]
  constructor
  · rintro ⟨va, hva⟩
    obtain ⟨pa, hpa, hword⟩ := Option.map_eq_some_iff.mp hva
    obtain ⟨⟨base, ap⟩, hmap, hreach⟩ := Option.bind_eq_some_iff.mp hpa
    rw [Mapping.reach] at hreach
    split at hreach
    · next hpermits =>
      cases (honly ap).mp hpermits
      refine ⟨_, hmap.trans ?_⟩
      have hnat := congrArg BitVec.toNat hword
      rw [← Option.some.inj hreach, toNat_entryWord, wordOf, BitVec.extractLsb'_toNat,
        BitVec.toNat_append, ← Nat.shiftLeft_add_eq_or_of_lt (va.extractLsb' 0 20).isLt,
        Nat.shiftLeft_eq, Nat.shiftRight_eq_div_pow] at hnat
      dsimp only at hnat
      have hbase := base.isLt
      have hoffset := (va.extractLsb' 0 20).isLt
      have hsame : base = tableSection := BitVec.eq_of_toNat_eq (by
        show base.toNat = 0x700
        omega)
      rw [hsame]
    · cases hreach
  · rintro ⟨j, hmap⟩
    let offset := BitVec.ofNat 20 (0x4000 + 4 * i.toNat)
    have hoffset : offset.toNat = 0x4000 + 4 * i.toNat :=
      Nat.mod_eq_of_lt (by show 0x4000 + 4 * i.toNat < 1048576; omega)
    have hsection : sectionIndex (j ++ offset) = j := BitVec.extractLsb'_append_eq_left
    have hlow : (j ++ offset).extractLsb' 0 20 = offset := BitVec.extractLsb'_append_eq_right
    have hword : wordOf (tableSection ++ offset) = entryWord firstLevelTable i := by
      refine BitVec.eq_of_toNat_eq ?_
      rw [toNat_entryWord, wordOf, BitVec.extractLsb'_toNat, BitVec.toNat_append,
        ← Nat.shiftLeft_add_eq_or_of_lt offset.isLt, Nat.shiftLeft_eq, Nat.shiftRight_eq_div_pow,
        hoffset]
      show (0x700 * 1048576 + (0x4000 + 4 * i.toNat)) / 4 % 1073741824 = _
      omega
    refine ⟨j ++ offset, ?_⟩
    rw [hsection, hmap, Option.bind_some, Mapping.reach, if_pos ((honly 3).mpr rfl), hlow,
      Option.map_some, hword]

/-- **Address translation.** After `mmu_init`, whatever calls, stores, walks and evictions follow,
in any order: the kernel never aborts, and every access goes where the last `mmu_map_section` of
its section says, or where `mmu_init` put it. Users can store into the table as long as some
section is mapped to it for them, as `mmu_init` does. -/
theorem sections_translate (actions : List Action) (hoff : m.enabled = false)
    (hallowed : ∀ m₀ ∈ mmuInit m, Each step (fun m a => a.Allowed m) m₀ actions) :
    ∃ s, (mmuInit m).bind (run step · actions) = some s ∧ (s.enabled = true →
      (∀ user write va, s.physical user write va = (mappings actions (sectionIndex va)).bind
        fun mapping => mapping.reach user write va) ∧
      ∀ i, (∃ va, (s.physical true true va).map wordOf = some (entryWord firstLevelTable i)) ↔
        ∃ j, mappings actions j = some ⟨tableSection, 3⟩) := by
  obtain ⟨m₀, hinit, -, h₀⟩ := mmuInit_coherent hoff
  obtain ⟨s, hrun, h⟩ := run_coherent h₀ (hallowed m₀ hinit)
  exact ⟨s, by rw [hinit, Option.bind_some, hrun], fun hon =>
    ⟨fun _ _ _ => physical_eq h hon, userStore_iff h hon⟩⟩

/-- A section above the memory of `mmu_init`, for users. -/
theorem sections_translate_user :
    ∃ s, (mmuInit ⟨fun _ => 0, false, 0, 0, fun _ => none⟩).bind
        (run step · [.mapSection 0x80000000 0x10000000 0xC00 [0x800], .enable]) = some s ∧
      s.physical true true 0x80000004 = some 0x10000004 := by
  obtain ⟨s, hrun, h⟩ := sections_translate (m := ⟨fun _ => 0, false, 0, 0, fun _ => none⟩)
    [.mapSection 0x80000000 0x10000000 0xC00 [0x800], .enable] rfl
    fun _ _ => ⟨⟨by decide, by decide⟩, fun _ _ => ⟨trivial, fun _ _ => trivial⟩⟩
  have hon : s.enabled = true := by
    obtain ⟨m₀, -, hrun⟩ := Option.bind_eq_some_iff.mp hrun
    obtain ⟨m₁, -, hrun⟩ := run_cons_eq_some.mp hrun
    obtain ⟨m₂, henable, hrun⟩ := run_cons_eq_some.mp hrun
    cases henable
    cases hrun
    rfl
  refine ⟨s, hrun, ((h hon).1 true true 0x80000004).trans ?_⟩
  decide

end Runs

end ArmKernel.Mmu.Translation

/-
The boot page table (`src/mmu_config.c`).

The first-level table is indexed by sections of 1 MB. `configure_memory_region` writes the entries
of a region; the loop is counted by the rounds that it has made.

`Faithful` says that the entries of a region do what its descriptor asks for. The initialiser
of a descriptor narrows the access constant to `uint8_t`, and the constant is already in the
place where `create_section_entry` shifts it to: of both constants nothing is left.
-/
import Mathlib.Logic.Function.Basic
import Mathlib.Data.List.Basic
import Mathlib.Algebra.Order.Group.Nat

namespace ArmKernel.Mmu

/-- `SECTION_SIZE`. -/
def sectionSize : BitVec 32 := 0x100000

/-- `TOTAL_SECTIONS`. -/
def totalSections : Nat := 4096

/-- `MMU_SECTION`. -/
def mmuSection : BitVec 32 := 0x2

/-- `MMU_CACHEABLE`. -/
def mmuCacheable : BitVec 32 := 1#32 <<< 3

/-- `MMU_BUFFERABLE`. -/
def mmuBufferable : BitVec 32 := 1#32 <<< 2

/-- `MMU_ACCESS_RW`. -/
def mmuAccessRw : BitVec 32 := 0x3#32 <<< 10

/-- `MMU_ACCESS_RO`. -/
def mmuAccessRo : BitVec 32 := 0x2#32 <<< 10

/-- `MMU_DOMAIN`. -/
def mmuDomain : BitVec 32 := 0x0#32 <<< 5

/-- `memory_type_t`. -/
inductive MemoryType where
  | unmapped
  | stronglyOrdered
  | device
  | normalCached
  | normalUncached

/-- `memory_region_t`. -/
structure MemoryRegion where
  virtualAddr : BitVec 32
  physicalAddr : BitVec 32
  size : BitVec 32
  type : MemoryType
  accessPermissions : BitVec 8
  executable : BitVec 8

/-- The first-level table. -/
abbrev PageTable := BitVec 32 → BitVec 32

/-- `create_section_entry`: the `switch`. -/
def MemoryType.flags : MemoryType → BitVec 32
  | .unmapped => 0
  | .stronglyOrdered => 0
  | .device => mmuBufferable
  | .normalCached => mmuCacheable ||| mmuBufferable
  | .normalUncached => 0

/-- `create_section_entry`. -/
def createSectionEntry (physicalAddr : BitVec 32) (type : MemoryType) (ap : BitVec 8) :
    BitVec 32 :=
  (physicalAddr &&& (0xFFF00000 : BitVec 32)) ||| mmuSection ||| mmuDomain ||| type.flags |||
    (ap.setWidth 32 <<< 10)

/-- `configure_memory_region`: the loop, after `i` rounds. -/
def configureLoop (region : MemoryRegion) (table : PageTable) : Nat → PageTable
  | 0 => table
  | i + 1 =>
    Function.update (configureLoop region table i)
      (region.virtualAddr / sectionSize + BitVec.ofNat 32 i)
      (createSectionEntry ((region.physicalAddr / sectionSize + BitVec.ofNat 32 i) * sectionSize)
        region.type region.accessPermissions)

/-- `configure_memory_region`. -/
def configureMemoryRegion (region : MemoryRegion) (table : PageTable) : PageTable :=
  configureLoop region table (region.size / sectionSize).toNat

/-- The access that a descriptor is initialised with. -/
inductive Access where
  | rw
  | ro

/-- The constant in the initialiser. -/
def Access.constant : Access → BitVec 32
  | .rw => mmuAccessRw
  | .ro => mmuAccessRo

/-- The access bits that the architecture has for it. -/
def Access.bits : Access → BitVec 2
  | .rw => 3
  | .ro => 2

/-- A region as `mmu_init` describes one: whole sections that lie in the 4 GB. -/
structure Request where
  virtualAddr : BitVec 32
  physicalAddr : BitVec 32
  size : BitVec 32
  type : MemoryType
  access : Access
  executable : BitVec 8
  virtual_dvd : 2 ^ 20 ∣ virtualAddr.toNat
  physical_dvd : 2 ^ 20 ∣ physicalAddr.toNat
  size_dvd : 2 ^ 20 ∣ size.toNat
  virtual_le : virtualAddr.toNat + size.toNat ≤ 2 ^ 32
  physical_le : physicalAddr.toNat + size.toNat ≤ 2 ^ 32

/-- The descriptor. Its field for the access is a `uint8_t`. -/
def Request.region (request : Request) : MemoryRegion where
  virtualAddr := request.virtualAddr
  physicalAddr := request.physicalAddr
  size := request.size
  type := request.type
  accessPermissions := request.access.constant.setWidth 8
  executable := request.executable

/-- The regions of `mmu_init`. -/
def bootRegions : List Request :=
  [ { virtualAddr := 0x10000000, physicalAddr := 0x10000000, size := 32 * sectionSize,
      type := .stronglyOrdered, access := .rw, executable := 0, virtual_dvd := by decide,
      physical_dvd := by decide, size_dvd := by decide, virtual_le := by decide,
      physical_le := by decide },
    { virtualAddr := 0x70000000, physicalAddr := 0x70000000, size := 128 * sectionSize,
      type := .normalCached, access := .rw, executable := 1, virtual_dvd := by decide,
      physical_dvd := by decide, size_dvd := by decide, virtual_le := by decide,
      physical_le := by decide },
    { virtualAddr := 0x80000000, physicalAddr := 0x70000000 + 128 * sectionSize,
      size := 256 * sectionSize, type := .normalCached, access := .ro, executable := 0,
      virtual_dvd := by decide, physical_dvd := by decide, size_dvd := by decide,
      virtual_le := by decide, physical_le := by decide } ]

/-- `mmu_init`: the page table. The first loop clears its sections. -/
def mmuInit (table : PageTable) : PageTable :=
  bootRegions.foldl (fun table request => configureMemoryRegion request.region table)
    fun i => if i.toNat < totalSections then 0 else table i

/-- The section of an address. -/
def sectionOf (addr : BitVec 32) : BitVec 32 := addr / sectionSize

/-- The address that a section entry maps `addr` to. -/
def translate (entry addr : BitVec 32) : BitVec 32 :=
  entry.extractLsb' 20 12 ++ addr.extractLsb' 0 20

/-- The C and the B bit of a type of memory. -/
def MemoryType.cacheBits : MemoryType → BitVec 2
  | .device => 1
  | .normalCached => 3
  | _ => 0

/-- The address lies in the region. -/
def Request.Contains (request : Request) (addr : BitVec 32) : Prop :=
  request.virtualAddr.toNat ≤ addr.toNat ∧
    addr.toNat < request.virtualAddr.toNat + request.size.toNat

/-- The entry maps `addr` as the request asks for, whatever access it gives. -/
structure Request.Mapped (request : Request) (addr entry : BitVec 32) : Prop where
  address : translate entry addr = request.physicalAddr + (addr - request.virtualAddr)
  valid : entry.extractLsb' 0 2 = 2
  cache : entry.extractLsb' 2 2 = request.type.cacheBits

/-- After `configure_memory_region` the entries of the region map it and give the access, and the
other entries are as before. -/
structure Faithful (request : Request) (table : PageTable) : Prop where
  mapped : ∀ addr, request.Contains addr →
    request.Mapped addr (configureMemoryRegion request.region table (sectionOf addr))
  access : ∀ addr, request.Contains addr →
    (configureMemoryRegion request.region table (sectionOf addr)).extractLsb' 10 2 =
      request.access.bits
  others : ∀ i, (∀ addr, request.Contains addr → sectionOf addr ≠ i) →
    configureMemoryRegion request.region table i = table i

section Entry

variable {addr : BitVec 32} {type : MemoryType} {ap : BitVec 8}

/-- The fields of an entry, each from the part that holds it. -/
theorem createSectionEntry_extract (start len : Nat) :
    (createSectionEntry addr type ap).extractLsb' start len =
      addr.extractLsb' start len &&& (0xFFF00000 : BitVec 32).extractLsb' start len |||
        mmuSection.extractLsb' start len ||| type.flags.extractLsb' start len |||
        (ap.setWidth 32 <<< 10).extractLsb' start len := by
  have hdomain : mmuDomain.extractLsb' start len = BitVec.ofNat len 0 := BitVec.extractLsb'_zero
  rw [createSectionEntry, BitVec.extractLsb'_or, BitVec.extractLsb'_or, BitVec.extractLsb'_or,
    BitVec.extractLsb'_or, BitVec.extractLsb'_and, hdomain, BitVec.or_zero]

theorem createSectionEntry_base :
    (createSectionEntry addr type ap).extractLsb' 20 12 = addr.extractLsb' 20 12 := by
  have hmask : (0xFFF00000 : BitVec 32).extractLsb' 20 12 = BitVec.allOnes 12 := rfl
  have hsection : mmuSection.extractLsb' 20 12 = 0#12 := rfl
  have hflags : type.flags.extractLsb' 20 12 = 0#12 := by cases type <;> rfl
  have hap : (ap.setWidth 32 <<< 10).extractLsb' 20 12 = 0#12 := by
    revert ap
    decide
  rw [createSectionEntry_extract, hmask, hsection, hflags, hap, BitVec.and_allOnes,
    BitVec.or_zero, BitVec.or_zero, BitVec.or_zero]

/-- The fields below the base do not depend on the address. -/
theorem createSectionEntry_low {start len : Nat}
    (hmask : (0xFFF00000 : BitVec 32).extractLsb' start len = BitVec.ofNat len 0) :
    (createSectionEntry addr type ap).extractLsb' start len =
      mmuSection.extractLsb' start len ||| type.flags.extractLsb' start len |||
        (ap.setWidth 32 <<< 10).extractLsb' start len := by
  rw [createSectionEntry_extract, hmask, BitVec.and_zero, BitVec.zero_or]

theorem createSectionEntry_valid : (createSectionEntry addr type ap).extractLsb' 0 2 = 2 := by
  have hflags : type.flags.extractLsb' 0 2 = 0#2 := by cases type <;> rfl
  have hap : (ap.setWidth 32 <<< 10).extractLsb' 0 2 = 0#2 := by
    revert ap
    decide
  rw [createSectionEntry_low rfl, hflags, hap, BitVec.or_zero, BitVec.or_zero]
  rfl

theorem createSectionEntry_cache :
    (createSectionEntry addr type ap).extractLsb' 2 2 = type.cacheBits := by
  have hsection : mmuSection.extractLsb' 2 2 = 0#2 := rfl
  have hflags : type.flags.extractLsb' 2 2 = type.cacheBits := by cases type <;> rfl
  have hap : (ap.setWidth 32 <<< 10).extractLsb' 2 2 = 0#2 := by
    revert ap
    decide
  rw [createSectionEntry_low rfl, hsection, hflags, hap, BitVec.zero_or, BitVec.or_zero]

/-- The access bits of an entry are the low bits of the field of the descriptor. -/
theorem createSectionEntry_access :
    (createSectionEntry addr type ap).extractLsb' 10 2 = ap.extractLsb' 0 2 := by
  have hsection : mmuSection.extractLsb' 10 2 = 0#2 := rfl
  have hflags : type.flags.extractLsb' 10 2 = 0#2 := by cases type <;> rfl
  have hap : (ap.setWidth 32 <<< 10).extractLsb' 10 2 = ap.extractLsb' 0 2 := by
    revert ap
    decide
  rw [createSectionEntry_low rfl, hsection, hflags, hap, BitVec.zero_or, BitVec.zero_or]

end Entry

section Loop

variable {region : MemoryRegion} {table : PageTable} {i n : Nat}

/-- **The loop** writes the entries of its rounds and no others. -/
theorem configureLoop_apply (hn : n ≤ 2 ^ 32) (i : BitVec 32) :
    configureLoop region table n i =
      if (i - region.virtualAddr / sectionSize).toNat < n then
        createSectionEntry ((region.physicalAddr / sectionSize +
          (i - region.virtualAddr / sectionSize)) * sectionSize) region.type
          region.accessPermissions
      else table i := by
  induction n with
  | zero => rfl
  | succ n ih =>
    have hround : (BitVec.ofNat 32 n).toNat = n := by
      rw [BitVec.toNat_ofNat, Nat.mod_eq_of_lt hn]
    rw [configureLoop]
    by_cases hi : i = region.virtualAddr / sectionSize + BitVec.ofNat 32 n
    · have hoffset : i - region.virtualAddr / sectionSize = BitVec.ofNat 32 n := by
        rw [hi, BitVec.add_comm, BitVec.add_sub_cancel]
      rw [hoffset, hround, if_pos (Nat.lt_succ_self n), hi, Function.update_self]
    · have hne : (i - region.virtualAddr / sectionSize).toNat ≠ n := by
        intro h
        refine hi ?_
        have hoffset : i - region.virtualAddr / sectionSize = BitVec.ofNat 32 n :=
          BitVec.eq_of_toNat_eq (h.trans hround.symm)
        rw [← hoffset, BitVec.add_comm, BitVec.sub_add_cancel]
      have hsame : (i - region.virtualAddr / sectionSize).toNat < n + 1 ↔
          (i - region.virtualAddr / sectionSize).toNat < n := by omega
      rw [Function.update_of_ne hi, ih (by omega)]
      simp only [hsame]

end Loop

section Request

variable {request : Request} {table : PageTable} {addr : BitVec 32}

theorem sectionOf_toNat (addr : BitVec 32) : (sectionOf addr).toNat = addr.toNat / 2 ^ 20 := rfl

/-- The place of an address among the sections of the region that has it. -/
theorem Request.Contains.offset (h : request.Contains addr) :
    (sectionOf addr - request.virtualAddr / sectionSize).toNat =
      addr.toNat / 2 ^ 20 - request.virtualAddr.toNat / 2 ^ 20 ∧
    (sectionOf addr - request.virtualAddr / sectionSize).toNat <
      (request.size / sectionSize).toNat := by
  obtain ⟨hlow, hhigh⟩ := h
  have hvirtual := request.virtual_dvd
  have hsize := request.size_dvd
  have hsection := sectionOf_toNat addr
  have hstart := sectionOf_toNat request.virtualAddr
  have hcount := sectionOf_toNat request.size
  rw [sectionOf] at hstart hcount
  have hle : request.virtualAddr / sectionSize ≤ sectionOf addr := by
    rw [BitVec.le_def, hstart, hsection]
    exact Nat.div_le_div_right hlow
  rw [BitVec.toNat_sub_of_le hle, hstart, hsection, hcount]
  omega

theorem configure_contains (h : request.Contains addr) :
    configureMemoryRegion request.region table (sectionOf addr) =
      createSectionEntry ((request.physicalAddr / sectionSize +
        (sectionOf addr - request.virtualAddr / sectionSize)) * sectionSize) request.type
        (request.access.constant.setWidth 8) := by
  have hcount : (request.size / sectionSize).toNat ≤ 2 ^ 32 :=
    Nat.le_of_lt (request.size / sectionSize).isLt
  exact (configureLoop_apply hcount (sectionOf addr)).trans (if_pos h.offset.2)

/-- The number of the physical section. -/
theorem Request.Contains.base (h : request.Contains addr) :
    ((request.physicalAddr / sectionSize +
      (sectionOf addr - request.virtualAddr / sectionSize)) * sectionSize).toNat / 2 ^ 20 =
      request.physicalAddr.toNat / 2 ^ 20 +
        (addr.toNat / 2 ^ 20 - request.virtualAddr.toNat / 2 ^ 20) := by
  obtain ⟨hoffset, hlt⟩ := h.offset
  have hphysical := request.physical_dvd
  have hsize := request.size_dvd
  have hle := request.physical_le
  have hstart := sectionOf_toNat request.physicalAddr
  have hcount := sectionOf_toNat request.size
  rw [sectionOf] at hstart hcount
  rw [hoffset, hcount] at hlt
  have hunit : sectionSize.toNat = 2 ^ 20 := rfl
  rw [BitVec.toNat_mul, BitVec.toNat_add, hstart, hoffset, hunit]
  omega

/-- **The address.** An entry with the base of the request translates as the request asks. -/
theorem Request.Contains.translate (h : request.Contains addr) :
    translate (configureMemoryRegion request.region table (sectionOf addr)) addr =
      request.physicalAddr + (addr - request.virtualAddr) := by
  have hbase := h.base
  have hconfigured := @configure_contains request table addr h
  obtain ⟨hlow, hhigh⟩ := h
  have hphysical := request.physical_dvd
  have hvirtual := request.virtual_dvd
  have hle := request.physical_le
  apply BitVec.eq_of_toNat_eq
  rw [Mmu.translate, hconfigured, createSectionEntry_base, BitVec.toNat_append,
    BitVec.extractLsb'_toNat, BitVec.extractLsb'_toNat, Nat.shiftRight_eq_div_pow, hbase,
    ← Nat.shiftLeft_add_eq_or_of_lt (Nat.mod_lt _ (by decide)), Nat.shiftLeft_eq,
    Nat.shiftRight_zero, BitVec.toNat_add, BitVec.toNat_sub_of_le hlow]
  omega

/-- **What `configure_memory_region` gets right**, for every region: the address, the type of the
descriptor and the cache bits. -/
theorem mapped_of_contains (h : request.Contains addr) :
    request.Mapped addr (configureMemoryRegion request.region table (sectionOf addr)) := by
  refine ⟨h.translate, ?_, ?_⟩
  · rw [configure_contains h]
    exact createSectionEntry_valid
  · rw [configure_contains h]
    exact createSectionEntry_cache

/-- And the entries of the other sections, which it leaves. -/
theorem configure_others {i : BitVec 32} (h : ∀ addr, request.Contains addr → sectionOf addr ≠ i) :
    configureMemoryRegion request.region table i = table i := by
  have hcount : (request.size / sectionSize).toNat ≤ 2 ^ 32 :=
    Nat.le_of_lt (request.size / sectionSize).isLt
  refine (configureLoop_apply hcount i).trans (if_neg ?_)
  intro hround
  have hin : (i - request.virtualAddr / sectionSize).toNat < (request.size / sectionSize).toNat :=
    hround
  have hvirtual := request.virtual_dvd
  have hsize := request.size_dvd
  have hle := request.virtual_le
  have hstart := sectionOf_toNat request.virtualAddr
  have hnum := sectionOf_toNat request.size
  rw [sectionOf] at hstart hnum
  rw [hnum] at hin
  have hsection : i.toNat = request.virtualAddr.toNat / 2 ^ 20 +
      (i - request.virtualAddr / sectionSize).toNat := by
    have hsplit : i = request.virtualAddr / sectionSize + (i - request.virtualAddr / sectionSize) :=
      by rw [BitVec.add_comm, BitVec.sub_add_cancel]
    have htoNat := congrArg BitVec.toNat hsplit
    rw [BitVec.toNat_add, hstart] at htoNat
    omega
  -- The section would be the one of its own first address, which lies in the region.
  have hfirst : (BitVec.ofNat 32 (i.toNat * 2 ^ 20)).toNat = i.toNat * 2 ^ 20 := by
    rw [BitVec.toNat_ofNat]
    omega
  refine h (BitVec.ofNat 32 (i.toNat * 2 ^ 20)) ⟨?_, ?_⟩ (BitVec.eq_of_toNat_eq ?_)
  · rw [hfirst]
    omega
  · rw [hfirst]
    omega
  · rw [sectionOf_toNat, hfirst]
    exact Nat.mul_div_cancel _ (by decide)

/-- Neither constant fits the field of the descriptor. -/
theorem constant_narrowed (access : Access) : access.constant.setWidth 8 = 0#8 := by
  cases access <;> rfl

/-- **What it gets wrong**: no address of any region gets an access. -/
theorem configure_access (h : request.Contains addr) :
    (configureMemoryRegion request.region table (sectionOf addr)).extractLsb' 10 2 = 0 := by
  rw [configure_contains h, createSectionEntry_access, constant_narrowed]
  rfl

/-- **Section mapping.** The entries do what the descriptor asks for only where there are none. -/
theorem faithful_iff (request : Request) (table : PageTable) :
    Faithful request table ↔ request.size = 0 := by
  constructor
  · intro h
    by_contra hsize
    have hpos : 0 < request.size.toNat := by
      refine Nat.pos_of_ne_zero ?_
      intro hzero
      exact hsize (BitVec.eq_of_toNat_eq hzero)
    have hstart : request.Contains request.virtualAddr :=
      ⟨Nat.le_refl _, Nat.lt_add_of_pos_right hpos⟩
    have haccess := h.access request.virtualAddr hstart
    rw [configure_access hstart] at haccess
    cases hrequest : request.access with
    | rw =>
      rw [hrequest] at haccess
      exact absurd haccess (by decide)
    | ro =>
      rw [hrequest] at haccess
      exact absurd haccess (by decide)
  · intro hsize
    have hempty : ∀ addr, ¬request.Contains addr := by
      rintro addr ⟨hlow, hhigh⟩
      rw [hsize] at hhigh
      exact absurd hhigh (Nat.not_lt.mpr hlow)
    exact ⟨fun addr h => absurd h (hempty addr), fun addr h => absurd h (hempty addr),
      fun _ => configure_others⟩

/-- One section of memory that may be written. -/
def writableSection : Request where
  virtualAddr := 0x70000000
  physicalAddr := 0x70000000
  size := sectionSize
  type := .normalCached
  access := .rw
  executable := 1
  virtual_dvd := by decide
  physical_dvd := by decide
  size_dvd := by decide
  virtual_le := by decide
  physical_le := by decide

/-- Its entry is a cached section at the right address, with the access bits 0. -/
theorem writableSection_denied : ¬Faithful writableSection fun _ => 0 := by
  intro h
  have haccess := h.access 0x70000000 ⟨by decide, by decide⟩
  have hentry : configureMemoryRegion writableSection.region (fun _ => 0) (sectionOf 0x70000000) =
      0x7000000E := rfl
  rw [hentry] at haccess
  exact absurd haccess (by decide)

end Request

section Boot

variable {request : Request} {table : PageTable}

/-- A section entry that gives no access. -/
def NoAccess (entry : BitVec 32) : Prop := entry.extractLsb' 10 2 = 0

theorem configure_noAccess {i : BitVec 32} (h : NoAccess (table i)) :
    NoAccess (configureMemoryRegion request.region table i) := by
  have hcount : (request.size / sectionSize).toNat ≤ 2 ^ 32 :=
    Nat.le_of_lt (request.size / sectionSize).isLt
  have happly := @configureLoop_apply request.region table _ hcount i
  rw [NoAccess, configureMemoryRegion]
  have hsize : request.region.size = request.size := rfl
  rw [hsize, happly]
  split
  · rw [createSectionEntry_access]
    have hfield : request.region.accessPermissions = 0#8 := constant_narrowed request.access
    rw [hfield]
    rfl
  · exact h

/-- **The boot table** gives no access to any section: `mmu_init` clears the sections, and none of
its regions sets an access bit. -/
theorem mmuInit_noAccess (table : PageTable) {i : BitVec 32} (h : i.toNat < totalSections) :
    NoAccess (mmuInit table i) := by
  have hclear : NoAccess (if i.toNat < totalSections then 0 else table i) := by
    rw [if_pos h]
    rfl
  rw [mmuInit]
  generalize hstart : (fun i : BitVec 32 => if i.toNat < totalSections then 0 else table i) = start
  have hnone : NoAccess (start i) := by
    rw [← hstart]
    exact hclear
  clear hstart hclear
  induction bootRegions generalizing start with
  | nil => exact hnone
  | cons request requests ih =>
    exact ih (configureMemoryRegion request.region start) (configure_noAccess hnone)

end Boot

end ArmKernel.Mmu

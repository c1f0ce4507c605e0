/-
Protection of a range of addresses (`src/mm_protect.c`).

The areas of the current task are a list. The page tables are not part of the source: `Mmu` takes
the calls that the source makes, with the permission in the entry of an address as what can be
seen of them. `none` in place of a result stands for a loop that goes on.

`mmProtect` stores the permission in the whole area, and takes the end of the range modulo `2 ^ 32`.
`Exact` is the law for one call, and `exact_iff` says for which calls it holds.
-/
import Mathlib.Data.List.Basic
import Mathlib.Data.List.Pairwise
import Mathlib.Algebra.Order.Group.Nat

namespace ArmKernel.Mm

/-- `PAGE_SIZE`. -/
def protPageSize : BitVec 32 := 4096

/-- `PAGE_MASK`. -/
def pageMask : BitVec 32 := ~~~(protPageSize - 1)

/-- `PROT_READ`. -/
def protRead : BitVec 32 := 0x1

/-- `PROT_WRITE`. -/
def protWrite : BitVec 32 := 0x2

/-- `PROT_EXEC`. -/
def protExec : BitVec 32 := 0x4

/-- `vm_area_t`. -/
structure VmArea where
  start : BitVec 32
  stop : BitVec 32
  flags : BitVec 32

/-- The page tables that the source calls. The entries of the addresses of a page are one entry;
changing its protection leaves the other entries. -/
structure Mmu (Table : Type) where
  permRead : BitVec 32
  permWrite : BitVec 32
  permExec : BitVec 32
  /-- `mmu_get_pte` gives an entry that is present. -/
  present : Table → BitVec 32 → Bool
  /-- The protection in the entry of an address. -/
  prot : Table → BitVec 32 → BitVec 32
  /-- `mmu_update_prot`. -/
  updateProt : Table → BitVec 32 → BitVec 32 → Table
  present_page : ∀ t addr, present t (addr &&& pageMask) = present t addr
  present_updateProt : ∀ t page p addr, present (updateProt t page p) addr = present t addr
  prot_updateProt : ∀ t page p addr, prot (updateProt t page p) addr =
    if addr &&& pageMask = page &&& pageMask then p else prot t addr

/-- `mm_struct_t`, as far as these functions use it, and the page tables. -/
structure AddressSpace (Table : Type) where
  mmap : List VmArea
  table : Table

variable {Table : Type}

/-- The permissions of the page tables for the flags of an area. -/
def Mmu.permissions (mmu : Mmu Table) (prot : BitVec 32) : BitVec 32 :=
  (if prot &&& protRead ≠ 0 then mmu.permRead else 0) |||
    (if prot &&& protWrite ≠ 0 then mmu.permWrite else 0) |||
    (if prot &&& protExec ≠ 0 then mmu.permExec else 0)

/-- The address lies in the area, as `page_fault_handler` compares. -/
def VmArea.Has (vma : VmArea) (addr : BitVec 32) : Prop := vma.start ≤ addr ∧ addr < vma.stop

instance (vma : VmArea) (addr : BitVec 32) : Decidable (vma.Has addr) :=
  inferInstanceAs (Decidable (_ ∧ _))

/-- `page_fault_handler`: the search. -/
def findArea (mmap : List VmArea) (faultAddr : BitVec 32) : Option VmArea :=
  mmap.find? fun vma => decide (vma.Has faultAddr)

/-- What `page_fault_handler` does: `task_exit`, or `mmu_map_page`. -/
inductive FaultAction where
  | taskExit
  | mapPage (addr page prot : BitVec 32)

/-- `page_fault_handler`; `page` is the result of `pra_alloc_page`. -/
def pageFaultHandler (mmu : Mmu Table) (mmap : List VmArea) (faultAddr errorCode : BitVec 32)
    (page : Option (BitVec 32)) : FaultAction :=
  match findArea mmap faultAddr with
  | none => .taskExit
  | some vma =>
    if errorCode &&& 2 ≠ 0 ∧ vma.flags &&& protWrite = 0 then .taskExit
    else if errorCode &&& 1 = 0 ∧ vma.flags &&& protRead = 0 then .taskExit
    else if errorCode &&& 4 ≠ 0 ∧ vma.flags &&& protExec = 0 then .taskExit
    else
      match page with
      | none => .taskExit
      | some page => .mapPage (faultAddr &&& pageMask) page (mmu.permissions vma.flags)

/-- `mm_protect`: the area that takes the range gets the flags. -/
def protectArea (start stop prot : BitVec 32) : List VmArea → Option (List VmArea)
  | [] => none
  | vma :: rest =>
    if vma.start ≤ start ∧ stop ≤ vma.stop then some ({ vma with flags := prot } :: rest)
    else (protectArea start stop prot rest).map fun rest => vma :: rest

/-- `mm_protect`: a page of the range. -/
def protectPage (mmu : Mmu Table) (prot : BitVec 32) (table : Table) (addr : BitVec 32) : Table :=
  if mmu.present table addr then mmu.updateProt table addr (mmu.permissions prot) else table

/-- `mm_protect`: the loop over the pages of the range. -/
def protectPages (mmu : Mmu Table) (stop prot : BitVec 32) :
    (rounds : Nat) → BitVec 32 → Table → Option Table
  | 0, _, _ => none
  | rounds + 1, addr, table =>
    if addr < stop then
      protectPages mmu stop prot rounds (addr + protPageSize) (protectPage mmu prot table addr)
    else some table

/-- The rounds after which the loop has ended, or comes back to address 0. -/
def protectRounds : Nat := 2 ^ 20 + 1

/-- The page of the first address. -/
def rangeStart (addr : BitVec 32) : BitVec 32 := addr &&& pageMask

/-- The end of the range, as the source computes it. -/
def rangeStop (addr length : BitVec 32) : BitVec 32 :=
  (addr + length + protPageSize - 1) &&& pageMask

/-- `mm_protect`. -/
def mmProtect (mmu : Mmu Table) (s : AddressSpace Table) (addr length prot : BitVec 32) :
    Option (Int × AddressSpace Table) :=
  let start := rangeStart addr
  let stop := rangeStop addr length
  match protectArea start stop prot s.mmap with
  | none => some (-1, s)
  | some mmap =>
    (protectPages mmu stop prot protectRounds start s.table).map fun table => (0, { mmap, table })

/-- The areas have no address in common. -/
def VmArea.Apart (vma vma' : VmArea) : Prop := ∀ addr, ¬(vma.Has addr ∧ vma'.Has addr)

instance : Std.Symm VmArea.Apart := ⟨fun _ _ h addr hboth => h addr hboth.symm⟩

/-- Areas of whole pages, none of which has an address of another. -/
structure Areas (mmap : List VmArea) : Prop where
  aligned : ∀ vma ∈ mmap, vma.start &&& pageMask = vma.start ∧ vma.stop &&& pageMask = vma.stop
  disjoint : mmap.Pairwise VmArea.Apart

/-- The first address of the range, and the one behind it, without wrapping. -/
def rangeLow (addr : BitVec 32) : Nat := addr.toNat / 4096 * 4096

def rangeHigh (addr length : BitVec 32) : Nat := (addr.toNat + length.toNat + 4095) / 4096 * 4096

/-- The permission that `page_fault_handler` finds for an address. -/
def flagsAt (mmap : List VmArea) (addr : BitVec 32) : Option (BitVec 32) :=
  (findArea mmap addr).map VmArea.flags

/-- **The law of a call**, with its result and the state after it. -/
structure Exact (mmu : Mmu Table) (s : AddressSpace Table) (addr length prot : BitVec 32)
    (result : Int) (s' : AddressSpace Table) : Prop where
  result_iff : result = 0 ↔ rangeLow addr < rangeHigh addr length ∧
    ∃ vma ∈ s.mmap, vma.start.toNat ≤ rangeLow addr ∧ rangeHigh addr length ≤ vma.stop.toNat
  inside : result = 0 → ∀ a : BitVec 32, rangeLow addr ≤ a.toNat ∧ a.toNat < rangeHigh addr length →
    flagsAt s'.mmap a = some prot ∧
      (mmu.present s'.table a = true → mmu.prot s'.table a = mmu.permissions prot)
  outside : result = 0 → ∀ a : BitVec 32,
    ¬(rangeLow addr ≤ a.toNat ∧ a.toNat < rangeHigh addr length) →
    flagsAt s'.mmap a = flagsAt s.mmap a ∧ mmu.prot s'.table a = mmu.prot s.table a
  failed : result ≠ 0 → result = -1 ∧ s' = s

/-- The call obeys the law. -/
def ProtectsExactly (mmu : Mmu Table) (s : AddressSpace Table) (addr length prot : BitVec 32) :
    Prop :=
  ∃ result s', mmProtect mmu s addr length prot = some (result, s') ∧
    Exact mmu s addr length prot result s'

/-- An area that the comparisons accept takes a range that is not empty and does not wrap, and the
range is the whole area or the area has the permission already. -/
def WholeAreas (mmap : List VmArea) (addr length prot : BitVec 32) : Prop :=
  ∀ vma ∈ mmap, vma.start ≤ rangeStart addr → rangeStop addr length ≤ vma.stop →
    (rangeLow addr < rangeHigh addr length ∧ rangeHigh addr length < 2 ^ 32) ∧
      (vma.start = rangeStart addr ∧ vma.stop = rangeStop addr length ∨ vma.flags = prot)

section Range

variable {x addr length : BitVec 32}

theorem and_pageMask (x : BitVec 32) : x &&& pageMask = (x >>> 12) <<< 12 := by
  have hmask : ∀ i < 32, pageMask.getLsbD i = decide (12 ≤ i) := by decide
  apply BitVec.eq_of_getLsbD_eq
  intro i hi
  rw [BitVec.getLsbD_and, hmask i hi, BitVec.getLsbD_shiftLeft, BitVec.getLsbD_ushiftRight]
  by_cases hlow : i < 12
  · have hnot : ¬12 ≤ i := Nat.not_le.mpr hlow
    rw [decide_eq_false hnot, decide_eq_true hlow, Bool.and_false, Bool.not_true, Bool.and_false,
      Bool.false_and]
  · have hle : 12 ≤ i := Nat.not_lt.mp hlow
    rw [decide_eq_true hle, decide_eq_true hi, decide_eq_false hlow, Bool.and_true, Bool.not_false,
      Bool.and_true, Bool.true_and, Nat.add_sub_cancel' hle]

theorem toNat_and_pageMask (x : BitVec 32) : (x &&& pageMask).toNat = x.toNat / 4096 * 4096 := by
  have hx := x.isLt
  rw [and_pageMask, BitVec.toNat_shiftLeft, BitVec.toNat_ushiftRight, Nat.shiftRight_eq_div_pow,
    Nat.shiftLeft_eq]
  omega

theorem toNat_rangeStart (addr : BitVec 32) : (rangeStart addr).toNat = rangeLow addr :=
  toNat_and_pageMask addr

/-- The end of the range is taken modulo `2 ^ 32`. -/
theorem toNat_rangeStop (addr length : BitVec 32) :
    (rangeStop addr length).toNat = rangeHigh addr length % 2 ^ 32 := by
  have hsize : protPageSize.toNat = 4096 := rfl
  have hone : (1 : BitVec 32).toNat = 1 := rfl
  have haddr := addr.isLt
  have hlength := length.isLt
  rw [rangeStop, toNat_and_pageMask, BitVec.toNat_sub, BitVec.toNat_add, BitVec.toNat_add, hsize,
    hone, rangeHigh]
  omega

/-- Two addresses are in one page exactly when their masked addresses are equal. -/
theorem samePage_iff (x y : BitVec 32) :
    x &&& pageMask = y &&& pageMask ↔ x.toNat / 4096 = y.toNat / 4096 := by
  rw [← BitVec.toNat_inj, toNat_and_pageMask, toNat_and_pageMask]
  omega

end Range

section Pages

variable {mmu : Mmu Table} {start stop prot : BitVec 32}

theorem present_protectPage (table : Table) (page a : BitVec 32) :
    mmu.present (protectPage mmu prot table page) a = mmu.present table a := by
  rw [protectPage]
  split
  · exact mmu.present_updateProt table page _ a
  · rfl

/-- **One page.** -/
theorem prot_protectPage (table : Table) (page a : BitVec 32) :
    mmu.prot (protectPage mmu prot table page) a =
      if page.toNat / 4096 = a.toNat / 4096 ∧ mmu.present table a = true then
        mmu.permissions prot
      else mmu.prot table a := by
  have hpresent : page.toNat / 4096 = a.toNat / 4096 →
      mmu.present table page = mmu.present table a := by
    intro h
    rw [← mmu.present_page table page, ← mmu.present_page table a, (samePage_iff page a).mpr h]
  rw [protectPage]
  by_cases hpage : page.toNat / 4096 = a.toNat / 4096
  · rw [hpresent hpage]
    by_cases hset : mmu.present table a = true
    · rw [if_pos hset, if_pos ⟨hpage, hset⟩, mmu.prot_updateProt,
        if_pos ((samePage_iff a page).mpr hpage.symm)]
    · rw [if_neg hset, if_neg fun h => hset h.2]
  · have hother : ¬(page.toNat / 4096 = a.toNat / 4096 ∧ mmu.present table a = true) :=
      fun h => hpage h.1
    have hmasked : ¬a &&& pageMask = page &&& pageMask :=
      fun h => hpage ((samePage_iff a page).mp h).symm
    rw [if_neg hother]
    split
    · rw [mmu.prot_updateProt, if_neg hmasked]
    · rfl

/-- A range of no addresses. -/
theorem not_between (h : ¬start < stop) (a : BitVec 32) : ¬(start ≤ a ∧ a < stop) := by
  intro hin
  have hlow : start.toNat ≤ a.toNat := hin.1
  have hhigh : a.toNat < stop.toNat := hin.2
  exact h (BitVec.lt_def.mpr (Nat.lt_of_le_of_lt hlow hhigh))

/-- The present pages of a range have the permission, and nothing else has changed. -/
def Protected (mmu : Mmu Table) (prot start stop : BitVec 32) (table table' : Table) : Prop :=
  ∀ a, mmu.present table' a = mmu.present table a ∧ mmu.prot table' a =
    if (start ≤ a ∧ a < stop) ∧ mmu.present table a = true then mmu.permissions prot
    else mmu.prot table a

theorem protectPages_done (h : ¬start < stop) (rounds : Nat) (table : Table) :
    ∃ table', protectPages mmu stop prot (rounds + 1) start table = some table' ∧
      Protected mmu prot start stop table table' := by
  refine ⟨table, ?_, fun a => ⟨rfl, ?_⟩⟩
  · rw [protectPages, if_neg h]
  · rw [if_neg fun hin => not_between h a hin.1]

/-- **The loop over the pages** of a range. -/
theorem protectPages_spec (hstart : start &&& pageMask = start) (hstop : stop &&& pageMask = stop)
    (rounds : Nat) (hrounds : stop.toNat ≤ start.toNat + 4096 * rounds) (table : Table) :
    ∃ table', protectPages mmu stop prot (rounds + 1) start table = some table' ∧
      Protected mmu prot start stop table table' := by
  induction rounds generalizing start table with
  | zero =>
    refine protectPages_done ?_ 0 table
    rw [BitVec.lt_def]
    omega
  | succ rounds ih =>
    by_cases hmore : start < stop
    · have hpage : start.toNat / 4096 * 4096 = start.toNat := by
        rw [← toNat_and_pageMask, hstart]
      have hpage' : stop.toNat / 4096 * 4096 = stop.toNat := by
        rw [← toNat_and_pageMask, hstop]
      have hlt : start.toNat < stop.toNat := hmore
      have hbound := stop.isLt
      have hnext : (start + protPageSize).toNat = start.toNat + 4096 := by
        have hsize : protPageSize.toNat = 4096 := rfl
        rw [BitVec.toNat_add, hsize]
        omega
      have haligned : (start + protPageSize) &&& pageMask = start + protPageSize := by
        apply BitVec.eq_of_toNat_eq
        rw [toNat_and_pageMask, hnext, Nat.add_div_right _ (by decide), Nat.succ_mul, hpage]
      obtain ⟨table', hloop, hprotected⟩ :=
        ih haligned (by omega) (protectPage mmu prot table start)
      refine ⟨table', ?_, ?_⟩
      · rw [protectPages, if_pos hmore]
        exact hloop
      · intro a
        obtain ⟨hpresent, hprot⟩ := hprotected a
        rw [present_protectPage] at hpresent hprot
        refine ⟨hpresent, hprot.trans ?_⟩
        rw [prot_protectPage]
        simp only [BitVec.le_def, BitVec.lt_def, hnext]
        -- The address is in this page, or the range that is left decides.
        by_cases hthis : start.toNat / 4096 = a.toNat / 4096
        · have hleft : ¬((start.toNat + 4096 ≤ a.toNat ∧ a.toNat < stop.toNat) ∧
              mmu.present table a = true) := by omega
          have hin : start.toNat ≤ a.toNat ∧ a.toNat < stop.toNat := by omega
          rw [if_neg hleft]
          simp only [hthis, hin, and_self, true_and]
        · have hsame : (start.toNat + 4096 ≤ a.toNat ∧ a.toNat < stop.toNat) ↔
              (start.toNat ≤ a.toNat ∧ a.toNat < stop.toNat) := by omega
          simp only [hthis, hsame, false_and, if_false]
    · exact protectPages_done hmore (rounds + 1) table

end Pages

section Search

variable {mmap pre post : List VmArea} {vma : VmArea} {start stop prot : BitVec 32}

/-- The search finds no area, or changes the flags of one that the comparisons accept. -/
theorem protectArea_cases (start stop prot : BitVec 32) (mmap : List VmArea) :
    (protectArea start stop prot mmap = none ∧
      ∀ vma ∈ mmap, ¬(vma.start ≤ start ∧ stop ≤ vma.stop)) ∨
    ∃ pre vma post, mmap = pre ++ vma :: post ∧ (vma.start ≤ start ∧ stop ≤ vma.stop) ∧
      protectArea start stop prot mmap = some (pre ++ { vma with flags := prot } :: post) := by
  induction mmap with
  | nil => exact Or.inl ⟨rfl, fun vma h => absurd h List.not_mem_nil⟩
  | cons first rest ih =>
    by_cases hfirst : first.start ≤ start ∧ stop ≤ first.stop
    · refine Or.inr ⟨[], first, rest, rfl, hfirst, ?_⟩
      rw [protectArea, if_pos hfirst]
      rfl
    · rcases ih with ⟨hnone, hall⟩ | ⟨pre, vma, post, rfl, hvma, hsome⟩
      · refine Or.inl ⟨?_, ?_⟩
        · rw [protectArea, if_neg hfirst, hnone]
          rfl
        · intro vma hvma
          rcases List.mem_cons.mp hvma with rfl | hvma
          · exact hfirst
          · exact hall vma hvma
      · refine Or.inr ⟨first :: pre, vma, post, rfl, hvma, ?_⟩
        rw [protectArea, if_neg hfirst, hsome]
        rfl

/-- Two areas with an address in common are one. -/
theorem Areas.eq_of_has (h : Areas mmap) {vma vma' : VmArea} (hvma : vma ∈ mmap)
    (hvma' : vma' ∈ mmap) {a : BitVec 32} (ha : vma.Has a) (ha' : vma'.Has a) : vma = vma' := by
  by_contra hne
  exact h.disjoint.forall hvma hvma' hne a ⟨ha, ha'⟩

/-- What the fault handler finds once an area has other flags. -/
theorem flagsAt_replace (h : Areas (pre ++ vma :: post)) (prot a : BitVec 32) :
    flagsAt (pre ++ { vma with flags := prot } :: post) a =
      if vma.Has a then some prot else flagsAt (pre ++ vma :: post) a := by
  have hsame : VmArea.Has { vma with flags := prot } a ↔ vma.Has a := Iff.rfl
  rw [flagsAt, flagsAt, findArea, findArea, List.find?_append, List.find?_append, List.find?_cons,
    List.find?_cons]
  by_cases hhas : vma.Has a
  · have hnone : pre.find? (fun vma => decide (vma.Has a)) = none := by
      rw [List.find?_eq_none]
      intro other hother hdec
      exact (List.pairwise_append.mp h.disjoint).2.2 other hother vma List.mem_cons_self a
        ⟨of_decide_eq_true hdec, hhas⟩
    rw [hnone, decide_eq_true (hsame.mpr hhas), if_pos hhas]
    rfl
  · rw [if_neg hhas, decide_eq_false hhas, decide_eq_false fun h => hhas (hsame.mp h)]

theorem flagsAt_of_has (h : Areas (pre ++ vma :: post)) {a : BitVec 32} (hhas : vma.Has a) :
    flagsAt (pre ++ vma :: post) a = some vma.flags :=
  (flagsAt_replace h vma.flags a).trans (if_pos hhas)

end Search

section Calls

variable {mmu : Mmu Table} {s : AddressSpace Table} {addr length prot : BitVec 32}

/-- **What a call does**: nothing, or the flags of one area that the comparisons accept and the
pages of the range. -/
theorem mmProtect_cases (mmu : Mmu Table) (s : AddressSpace Table) (addr length prot : BitVec 32) :
    (mmProtect mmu s addr length prot = some (-1, s) ∧
      ∀ vma ∈ s.mmap, ¬(vma.start ≤ rangeStart addr ∧ rangeStop addr length ≤ vma.stop)) ∨
    ∃ pre vma post table, s.mmap = pre ++ vma :: post ∧
      (vma.start ≤ rangeStart addr ∧ rangeStop addr length ≤ vma.stop) ∧
      mmProtect mmu s addr length prot =
        some (0, { mmap := pre ++ { vma with flags := prot } :: post, table }) ∧
      Protected mmu prot (rangeStart addr) (rangeStop addr length) s.table table := by
  have hrounds : (rangeStop addr length).toNat ≤ (rangeStart addr).toNat + 4096 * 2 ^ 20 := by
    have hlt := (rangeStop addr length).isLt
    omega
  have haligned : ∀ x : BitVec 32, x &&& pageMask &&& pageMask = x &&& pageMask := by
    intro x
    rw [BitVec.and_assoc, BitVec.and_self]
  obtain ⟨table, hpages, hprotected⟩ := @protectPages_spec Table mmu _ _ prot
    (haligned addr) (haligned (addr + length + protPageSize - 1)) (2 ^ 20) hrounds s.table
  rcases protectArea_cases (rangeStart addr) (rangeStop addr length) prot s.mmap with
    ⟨hnone, hall⟩ | ⟨pre, vma, post, hmmap, hvma, hsome⟩
  · refine Or.inl ⟨?_, hall⟩
    simp only [mmProtect, hnone]
  · refine Or.inr ⟨pre, vma, post, table, hmmap, hvma, ?_, hprotected⟩
    simp only [mmProtect, hsome]
    rw [protectRounds, rangeStart, rangeStop, hpages]
    rfl

/-- The range of a call that neither is empty nor wraps, in the words of the comparisons. -/
theorem range_iff (hhigh : rangeHigh addr length < 2 ^ 32) (a : BitVec 32) :
    (rangeStart addr ≤ a ∧ a < rangeStop addr length) ↔
      rangeLow addr ≤ a.toNat ∧ a.toNat < rangeHigh addr length := by
  rw [BitVec.le_def, BitVec.lt_def, toNat_rangeStart, toNat_rangeStop, Nat.mod_eq_of_lt hhigh]

/-- An area takes the whole range exactly when it passes the comparisons, unless the range wraps. -/
theorem takes_iff (hhigh : rangeHigh addr length < 2 ^ 32) (vma : VmArea) :
    (vma.start ≤ rangeStart addr ∧ rangeStop addr length ≤ vma.stop) ↔
      vma.start.toNat ≤ rangeLow addr ∧ rangeHigh addr length ≤ vma.stop.toNat := by
  rw [BitVec.le_def, BitVec.le_def, toNat_rangeStart, toNat_rangeStop, Nat.mod_eq_of_lt hhigh]

/-- No area takes a range that wraps. -/
theorem not_takes_of_le (hhigh : 2 ^ 32 ≤ rangeHigh addr length) (vma : VmArea) :
    ¬(vma.start.toNat ≤ rangeLow addr ∧ rangeHigh addr length ≤ vma.stop.toNat) := by
  intro h
  exact absurd (Nat.le_trans hhigh h.2) (Nat.not_le.mpr vma.stop.isLt)

/-- A call that no area passes the comparisons for. -/
theorem exact_of_none (h : ∀ vma ∈ s.mmap,
      ¬(vma.start ≤ rangeStart addr ∧ rangeStop addr length ≤ vma.stop)) :
    Exact mmu s addr length prot (-1) s := by
  have hminus : ¬(-1 : Int) = 0 := by decide
  refine ⟨⟨fun h0 => absurd h0 hminus, ?_⟩, fun h0 => absurd h0 hminus, fun h0 => absurd h0 hminus,
    fun _ => ⟨rfl, rfl⟩⟩
  rintro ⟨-, vma, hvma, htakes⟩
  by_cases hhigh : rangeHigh addr length < 2 ^ 32
  · exact absurd ((takes_iff hhigh vma).mpr htakes) (h vma hvma)
  · exact absurd htakes (not_takes_of_le (Nat.not_lt.mp hhigh) vma)

/-- A call that changes an area, of which the range is all or which has the flags already. -/
theorem exact_of_whole {pre post : List VmArea} {vma : VmArea} {table : Table}
    (hareas : Areas s.mmap) (hmmap : s.mmap = pre ++ vma :: post)
    (hvma : vma.start ≤ rangeStart addr ∧ rangeStop addr length ≤ vma.stop)
    (hrange : rangeLow addr < rangeHigh addr length) (hhigh : rangeHigh addr length < 2 ^ 32)
    (hwhole : vma.start = rangeStart addr ∧ vma.stop = rangeStop addr length ∨ vma.flags = prot)
    (hpages : Protected mmu prot (rangeStart addr) (rangeStop addr length) s.table table) :
    Exact mmu s addr length prot 0
      { mmap := pre ++ { vma with flags := prot } :: post, table } := by
  have hmem : vma ∈ s.mmap := hmmap ▸ List.mem_append_right pre List.mem_cons_self
  have hareas' : Areas (pre ++ vma :: post) := hmmap ▸ hareas
  have htakes := (takes_iff hhigh vma).mp hvma
  have hinside : ∀ a : BitVec 32, rangeLow addr ≤ a.toNat ∧ a.toNat < rangeHigh addr length →
      vma.Has a := by
    intro a ha
    exact ⟨BitVec.le_def.mpr (Nat.le_trans htakes.1 ha.1),
      BitVec.lt_def.mpr (Nat.lt_of_lt_of_le ha.2 htakes.2)⟩
  refine ⟨⟨fun _ => ⟨hrange, vma, hmem, htakes⟩, fun _ => rfl⟩, ?_, ?_, fun h => absurd rfl h⟩
  · intro _ a ha
    obtain ⟨hpresent, hprot⟩ := hpages a
    refine ⟨?_, ?_⟩
    · rw [flagsAt_replace hareas', if_pos (hinside a ha)]
    · intro hset
      rw [hprot, if_pos ⟨(range_iff hhigh a).mpr ha, hpresent ▸ hset⟩]
  · intro _ a ha
    have hout : ¬((rangeStart addr ≤ a ∧ a < rangeStop addr length) ∧
        mmu.present s.table a = true) := fun h => ha ((range_iff hhigh a).mp h.1)
    refine ⟨?_, ?_⟩
    · rw [flagsAt_replace hareas', hmmap]
      split
      · rename_i hhas
        rcases hwhole with ⟨hstart, hstop⟩ | hflags
        · exact absurd ((range_iff hhigh a).mp ⟨hstart ▸ hhas.1, hstop ▸ hhas.2⟩) ha
        · rw [flagsAt_of_has hareas' hhas, hflags]
      · rfl
    · rw [(hpages a).2, if_neg hout]

/-- An area that a call changed although it is more than the range has an address outside it. -/
theorem exists_outside {vma : VmArea}
    (hvma : vma.start ≤ rangeStart addr ∧ rangeStop addr length ≤ vma.stop)
    (hrange : rangeLow addr < rangeHigh addr length) (hhigh : rangeHigh addr length < 2 ^ 32)
    (hpart : ¬(vma.start = rangeStart addr ∧ vma.stop = rangeStop addr length)) :
    ∃ a, vma.Has a ∧ ¬(rangeLow addr ≤ a.toNat ∧ a.toNat < rangeHigh addr length) := by
  obtain ⟨hlow, htop⟩ := (takes_iff hhigh vma).mp hvma
  have hstart := toNat_rangeStart addr
  have hstop := toNat_rangeStop addr length
  rw [Nat.mod_eq_of_lt hhigh] at hstop
  by_cases heq : vma.start = rangeStart addr
  · have hne : rangeHigh addr length ≠ vma.stop.toNat :=
      fun h => hpart ⟨heq, BitVec.eq_of_toNat_eq (h.symm.trans hstop.symm)⟩
    refine ⟨rangeStop addr length, ⟨?_, ?_⟩, ?_⟩
    · rw [BitVec.le_def, hstop]
      omega
    · rw [BitVec.lt_def, hstop]
      omega
    · rw [hstop]
      omega
  · have hne : vma.start.toNat ≠ rangeLow addr :=
      fun h => heq (BitVec.eq_of_toNat_eq (h.trans hstart.symm))
    refine ⟨vma.start, ⟨BitVec.le_refl _, ?_⟩, ?_⟩
    · rw [BitVec.lt_def]
      omega
    · omega

/-- **Changing the protection.** A call changes exactly the range it was asked for, and refuses the
ranges that no area takes, exactly when the areas it may pick satisfy `WholeAreas`. -/
theorem exact_iff (mmu : Mmu Table) (s : AddressSpace Table) (hareas : Areas s.mmap)
    (addr length prot : BitVec 32) :
    ProtectsExactly mmu s addr length prot ↔ WholeAreas s.mmap addr length prot := by
  rcases mmProtect_cases mmu s addr length prot with
    ⟨hcall, hnone⟩ | ⟨pre, vma, post, table, hmmap, hvma, hcall, hpages⟩
  · constructor
    · intro _ vma hmem hstart hstop
      exact absurd ⟨hstart, hstop⟩ (hnone vma hmem)
    · intro _
      exact ⟨-1, s, hcall, exact_of_none hnone⟩
  · have hmem : vma ∈ s.mmap := hmmap ▸ List.mem_append_right pre List.mem_cons_self
    constructor
    · rintro ⟨result, s', hresult, hexact⟩
      rw [hcall] at hresult
      cases hresult
      obtain ⟨hrange, taker, htaker, htakes⟩ := hexact.result_iff.mp rfl
      have hhigh : rangeHigh addr length < 2 ^ 32 :=
        Nat.lt_of_le_of_lt htakes.2 taker.stop.isLt
      intro other hother hstart hstop
      -- The first address of the range is in both areas.
      have hfirst : ∀ v : VmArea, v.start ≤ rangeStart addr ∧ rangeStop addr length ≤ v.stop →
          v.Has (rangeStart addr) := by
        intro v hv
        obtain ⟨hvlow, hvhigh⟩ := (takes_iff hhigh v).mp hv
        refine ⟨hv.1, ?_⟩
        rw [BitVec.lt_def, toNat_rangeStart]
        omega
      have hsame : other = vma :=
        hareas.eq_of_has hother hmem (hfirst other ⟨hstart, hstop⟩) (hfirst vma hvma)
      subst hsame
      refine ⟨⟨hrange, hhigh⟩, ?_⟩
      by_contra hpart
      obtain ⟨hparts, hflags⟩ := not_or.mp hpart
      obtain ⟨a, hhas, hout⟩ := exists_outside hvma hrange hhigh hparts
      have hareas' : Areas (pre ++ other :: post) := hmmap ▸ hareas
      have hsaved := (hexact.outside rfl a hout).1
      rw [flagsAt_replace hareas', if_pos hhas, hmmap, flagsAt_of_has hareas' hhas] at hsaved
      exact hflags (Option.some.inj hsaved).symm
    · intro hwhole
      obtain ⟨⟨hrange, hhigh⟩, hpart⟩ := hwhole vma hmem hvma.1 hvma.2
      exact ⟨0, _, hcall, exact_of_whole hareas hmmap hvma hrange hhigh hpart hpages⟩

/-- The fault handler asks the areas for nothing but the flags of the address. -/
theorem pageFaultHandler_congr {mmap mmap' : List VmArea} {a : BitVec 32}
    (h : flagsAt mmap a = flagsAt mmap' a) (errorCode : BitVec 32) (page : Option (BitVec 32)) :
    pageFaultHandler mmu mmap a errorCode page = pageFaultHandler mmu mmap' a errorCode page := by
  rw [flagsAt, flagsAt] at h
  rw [pageFaultHandler, pageFaultHandler]
  cases hfind : findArea mmap a with
  | none =>
    rw [hfind, Option.map_none] at h
    rw [Option.map_eq_none_iff.mp h.symm]
  | some vma =>
    rw [hfind, Option.map_some] at h
    obtain ⟨vma', hfind', hflags⟩ := Option.map_eq_some_iff.mp h.symm
    rw [hfind']
    simp only [hflags]

/-- After a call that obeys the law, a fault outside the range is handled as before it. -/
theorem Exact.fault_outside {s' : AddressSpace Table} (h : Exact mmu s addr length prot 0 s')
    {a : BitVec 32} (ha : ¬(rangeLow addr ≤ a.toNat ∧ a.toNat < rangeHigh addr length))
    (errorCode : BitVec 32) (page : Option (BitVec 32)) :
    pageFaultHandler mmu s'.mmap a errorCode page =
      pageFaultHandler mmu s.mmap a errorCode page :=
  pageFaultHandler_congr (h.outside rfl a ha).1 errorCode page

end Calls

section Example

/-- Page tables in which every page is present. -/
def flatMmu : Mmu (BitVec 32 → BitVec 32) where
  permRead := 1
  permWrite := 2
  permExec := 4
  present _ _ := true
  prot t addr := t (addr &&& pageMask)
  updateProt t page p := fun a => if a = page &&& pageMask then p else t a
  present_page _ _ := rfl
  present_updateProt _ _ _ _ := rfl
  prot_updateProt _ _ _ _ := rfl

/-- Two pages that may be read and written. -/
def twoPages : AddressSpace (BitVec 32 → BitVec 32) where
  mmap := [{ start := 0x1000, stop := 0x3000, flags := 3 }]
  table := fun _ => 3

theorem twoPages_areas : Areas twoPages.mmap := by
  refine ⟨?_, List.pairwise_singleton _ _⟩
  intro vma hvma
  rw [List.mem_singleton.mp hvma]
  decide

theorem twoPages_whole : WholeAreas twoPages.mmap 0x1000 0x2000 1 := by
  intro vma hvma
  rw [List.mem_singleton.mp hvma]
  decide

/-- Both pages become read-only, and nothing else changes. -/
theorem protect_twoPages : ProtectsExactly flatMmu twoPages 0x1000 0x2000 1 :=
  (exact_iff flatMmu twoPages twoPages_areas 0x1000 0x2000 1).mpr twoPages_whole

/-- The first page is to be read-only, and the second one is, too. -/
theorem protect_firstPage : ¬ProtectsExactly flatMmu twoPages 0x1000 0x1000 1 := by
  rintro ⟨result, s', hcall, hexact⟩
  have hresult : mmProtect flatMmu twoPages 0x1000 0x1000 1 =
      some (0, { mmap := [{ start := 0x1000, stop := 0x3000, flags := 1 }],
                 table := flatMmu.updateProt twoPages.table 0x1000 1 }) := rfl
  rw [hresult] at hcall
  cases hcall
  have hsecond := (hexact.outside rfl 0x2000 (by decide)).1
  exact absurd hsecond (by decide)

end Example

end ArmKernel.Mm

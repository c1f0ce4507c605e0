/-
Shared memory (`src/shared_mem.c`).

The segments are a list, the one created last at the head. The page tables are not part of the
source: `PageTables` takes the two calls that the source makes, with the page at an address as
what can be seen of them. `shmAttach` and `shmDetach` call them page by page, with a 32-bit
offset that a segment of the last page of the address space would wrap; `none` is a loop that
goes on.

`pageLoop_spec` says what the loop leaves in the page tables. `shmDetach_cases` says what
detaching does: whatever segment was attached at the address, the head of the list pays
for it, because the test of the search does not look at the segment.
-/
import ArmKernel.Support.Word
import Mathlib.Data.List.Basic

namespace ArmKernel.Ipc

open ArmKernel.Support

/-- `PAGE_SIZE`. -/
def pageSize : Nat := 4096

/-- `shm_segment_t`, less its lock. -/
structure ShmSegment where
  key : Int
  size : Nat
  physAddr : Nat
  refCount : Nat

/-- The first address of a page. -/
def pageOf (addr : Nat) : Nat := addr / pageSize * pageSize

/-- The page tables that the source calls. A page that is mapped gets its entry, one that is
unmapped loses it, and the other entries stay. -/
structure PageTables (Table : Type) where
  permRead : Nat
  permWrite : Nat
  permUser : Nat
  /-- The page in the entry of an address. -/
  entry : Table → Nat → Option Nat
  /-- `mmu_map_page`. -/
  mapPage : Table → (addr phys perm : Nat) → Table
  /-- `mmu_unmap_page`. -/
  unmapPage : Table → Nat → Table
  entry_mapPage : ∀ t {addr va} phys perm, pageSize ∣ addr → pageSize ∣ va →
    entry (mapPage t addr phys perm) va = if va = addr then some (pageOf phys) else entry t va
  entry_unmapPage : ∀ t {addr va}, pageSize ∣ addr → pageSize ∣ va →
    entry (unmapPage t addr) va = if va = addr then none else entry t va

/-- `shm_segments`, the page tables, and the counters of `ipc_stats`. -/
structure Shm (Table : Type) where
  segments : List ShmSegment
  table : Table
  shmSegments : Nat
  shmAttaches : Nat

variable {Table : Type}

/-- `size / PAGE_SIZE + 1`. -/
def ShmSegment.pageCount (seg : ShmSegment) : Nat := seg.size / pageSize + 1

/-- `find_shm_segment`. -/
def findShmSegment (shm : Shm Table) (key : Int) : Option ShmSegment :=
  shm.segments.find? fun seg => decide (seg.key = key)

/-- `shm_create`. `segAlloc` says that `malloc` succeeds, `phys` is the result of
`mm_alloc_pages`. -/
def shmCreate (shm : Shm Table) (key : Int) (size : Nat) (segAlloc : Bool) (phys : Option Nat) :
    Int × Shm Table :=
  match findShmSegment shm key with
  | some _ => (-1, shm)
  | none =>
    if !segAlloc then (-1, shm)
    else
      match phys with
      | none => (-1, shm)
      | some physAddr =>
        (0, { shm with
          segments := { key, size, physAddr, refCount := 0 } :: shm.segments
          shmSegments := wrap32 (shm.shmSegments + 1) })

/-- The loop over the pages of a segment: `call` is made with the offset of each. -/
def pageLoop (call : Nat → Table → Table) (size : Nat) :
    (rounds offset : Nat) → Table → Option Table
  | 0, _, _ => none
  | rounds + 1, offset, table =>
    if offset < size then
      pageLoop call size rounds (wrap32 (offset + pageSize)) (call offset table)
    else some table

/-- The rounds after which the loop has ended, or comes back to offset 0. -/
def pageRounds : Nat := 2 ^ 20 + 1

/-- The segment with this key gets a new count. -/
def setRefCount (segments : List ShmSegment) (key : Int) (refCount : Nat) : List ShmSegment :=
  segments.map fun seg => if seg.key = key then { seg with refCount } else seg

/-- The mapping of one page of a segment. -/
def PageTables.mapSegment (tables : PageTables Table) (addr : Nat) (seg : ShmSegment) (offset : Nat)
    (table : Table) : Table :=
  tables.mapPage table (wrap32 (addr + offset)) (wrap32 (seg.physAddr + offset))
    (tables.permRead ||| tables.permWrite ||| tables.permUser)

/-- `shm_attach`; `virt` is the result of `mm_alloc_virt_pages`. -/
def shmAttach (tables : PageTables Table) (shm : Shm Table) (shmid : Int) (virt : Option Nat) :
    Option (Option Nat × Shm Table) :=
  match findShmSegment shm shmid with
  | none => some (none, shm)
  | some seg =>
    match virt with
    | none => some (none, shm)
    | some addr =>
      (pageLoop (tables.mapSegment addr seg) seg.size pageRounds 0 shm.table).map fun table =>
        (some addr,
          { shm with
            segments := setRefCount shm.segments seg.key (wrap32 (seg.refCount + 1))
            table
            shmAttaches := wrap32 (shm.shmAttaches + 1) })

/-- `shm_detach`: the search. The test is the same for every segment. -/
def detachSearch (areas : Option Nat) (addr : Nat) : List ShmSegment → Option ShmSegment
  | [] => none
  | seg :: segments => if areas = some addr then some seg else detachSearch areas addr segments

/-- The unmapping of one page. -/
def PageTables.unmapSegment (tables : PageTables Table) (addr offset : Nat) (table : Table) :
    Table :=
  tables.unmapPage table (wrap32 (addr + offset))

/-- `shm_detach`; `areas` is `shm_areas->addr` of the current task, if `shm_areas` is not
null. -/
def shmDetach (tables : PageTables Table) (shm : Shm Table) (addr : Nat) (areas : Option Nat) :
    Option (Int × Shm Table) :=
  match detachSearch areas addr shm.segments with
  | none => some (-1, shm)
  | some seg =>
    (pageLoop (tables.unmapSegment addr) seg.size pageRounds 0 shm.table).map fun table =>
      (0, { shm with
        segments := setRefCount shm.segments seg.key (sub32 seg.refCount 1)
        table })

/-! ### The pages of a segment -/

/-- The address is that of a page of a segment of this size at `addr`. -/
def IsPage (addr size va : Nat) : Prop := addr ≤ va ∧ va - addr < size ∧ pageSize ∣ va - addr

instance (addr size va : Nat) : Decidable (IsPage addr size va) :=
  inferInstanceAs (Decidable (_ ∧ _ ∧ _))

/-- The pages of a segment at `addr` have got these entries, and the others are as before. -/
def SetPages (tables : PageTables Table) (table : Table) (addr size : Nat)
    (entry : Nat → Option Nat) (table' : Table) : Prop :=
  ∀ va, pageSize ∣ va → tables.entry table' va =
    if IsPage addr size va then entry (va - addr) else tables.entry table va

/-- The call of the loop gives the page at an offset its entry. -/
def SetsPage (tables : PageTables Table) (addr : Nat) (entry : Nat → Option Nat)
    (call : Nat → Table → Table) : Prop :=
  ∀ offset table va, pageSize ∣ offset → pageSize ∣ va → tables.entry (call offset table) va =
    if va = wrap32 (addr + offset) then entry offset else tables.entry table va

section Pages

variable {tables : PageTables Table} {addr size : Nat} {entry : Nat → Option Nat}
  {call : Nat → Table → Table}

/-- The address space has a whole number of pages. -/
theorem dvd_wrap32 {x : Nat} (h : pageSize ∣ x) : pageSize ∣ wrap32 x := by
  unfold pageSize wrap32 at *
  omega

/-- The loop from page `k` on, with as many rounds left as the segment has pages. -/
theorem pageLoop_from (hcall : SetsPage tables addr entry call)
    (hend : addr + pageSize * (size / pageSize + 1) ≤ 2 ^ 32) (hsize : size ≤ 2 ^ 32 - pageSize)
    (rounds : Nat) {k : Nat} (table : Table) (hrounds : size ≤ pageSize * (k + rounds)) :
    ∃ table', pageLoop call size (rounds + 1) (pageSize * k) table = some table' ∧
      ∀ va, pageSize ∣ va → tables.entry table' va =
        if IsPage addr size va ∧ addr + pageSize * k ≤ va then entry (va - addr)
        else tables.entry table va := by
  induction rounds generalizing k table with
  | zero =>
    rw [Nat.add_zero] at hrounds
    refine ⟨table, ?_, ?_⟩
    · rw [pageLoop, if_neg (Nat.not_lt.mpr hrounds)]
    · intro va _
      rw [if_neg]
      rintro ⟨⟨-, hlt, -⟩, hva⟩
      omega
  | succ rounds ih =>
    by_cases hk : pageSize * k < size
    · have hnext : wrap32 (pageSize * k + pageSize) = pageSize * (k + 1) := by
        unfold pageSize at *
        rw [wrap32_of_lt (by omega)]
        omega
      have hva : wrap32 (addr + pageSize * k) = addr + pageSize * k := by
        unfold pageSize at *
        exact wrap32_of_lt (by omega)
      obtain ⟨table', hloop, hentry⟩ :=
        ih (k := k + 1) (call (pageSize * k) table) (by rwa [Nat.add_right_comm])
      refine ⟨table', ?_, ?_⟩
      · rw [pageLoop, if_pos hk, hnext, hloop]
      · intro va hpage
        rw [hentry va hpage, hcall _ table va (Nat.dvd_mul_right _ _) hpage, hva]
        by_cases hthis : va = addr + pageSize * k
        · subst hthis
          have hfirst : IsPage addr size (addr + pageSize * k) :=
            ⟨Nat.le_add_right _ _, by omega, ⟨k, Nat.add_sub_cancel_left _ _⟩⟩
          rw [if_neg (by unfold pageSize; omega), if_pos rfl, if_pos ⟨hfirst, Nat.le_refl _⟩,
            Nat.add_sub_cancel_left]
        · rw [if_neg hthis]
          refine if_congr (and_congr_right ?_) rfl rfl
          rintro ⟨hlo, -, j, hj⟩
          unfold pageSize at *
          omega
    · refine ⟨table, ?_, ?_⟩
      · rw [pageLoop, if_neg hk]
      · intro va _
        rw [if_neg]
        rintro ⟨⟨-, hlt, -⟩, hva⟩
        omega

/-- **The loop over the pages** of a segment that ends inside the address space. -/
theorem pageLoop_spec (hcall : SetsPage tables addr entry call) (hpos : 0 < addr)
    (hend : addr + pageSize * (size / pageSize + 1) ≤ 2 ^ 32) (table : Table) :
    ∃ table', pageLoop call size pageRounds 0 table = some table' ∧
      SetPages tables table addr size entry table' := by
  have hsize : size ≤ 2 ^ 32 - pageSize := by
    unfold pageSize at *
    omega
  have hrounds : size ≤ pageSize * (0 + 2 ^ 20) := by
    unfold pageSize at *
    omega
  obtain ⟨table', hloop, hentry⟩ := pageLoop_from hcall hend hsize (2 ^ 20) table hrounds
  refine ⟨table', hloop, ?_⟩
  intro va hpage
  rw [hentry va hpage]
  refine if_congr (and_iff_left_of_imp ?_) rfl rfl
  intro hthis
  exact hthis.1

/-- The entry of a page of a segment that is attached. -/
def ShmSegment.entryAt (seg : ShmSegment) (offset : Nat) : Option Nat :=
  some (pageOf (wrap32 (seg.physAddr + offset)))

theorem ShmSegment.entryAt_congr {seg seg' : ShmSegment} (h : seg.physAddr = seg'.physAddr)
    (offset : Nat) : seg.entryAt offset = seg'.entryAt offset := by
  rw [entryAt, entryAt, h]

theorem setsPage_mapSegment (tables : PageTables Table) (haddr : pageSize ∣ addr)
    (seg : ShmSegment) : SetsPage tables addr seg.entryAt (tables.mapSegment addr seg) :=
  fun _ table _ hoffset hva =>
    tables.entry_mapPage table _ _ (dvd_wrap32 (Nat.dvd_add haddr hoffset)) hva

theorem setsPage_unmapSegment (tables : PageTables Table) (haddr : pageSize ∣ addr) :
    SetsPage tables addr (fun _ => none) (tables.unmapSegment addr) :=
  fun _ table _ hoffset hva =>
    tables.entry_unmapPage table (dvd_wrap32 (Nat.dvd_add haddr hoffset)) hva

/-- **Attaching** a segment at pages that end inside the address space. -/
theorem shmAttach_spec (tables : PageTables Table) {shm : Shm Table} {shmid : Int}
    {seg : ShmSegment} (hfind : findShmSegment shm shmid = some seg) (hpos : 0 < addr)
    (haddr : pageSize ∣ addr) (hend : addr + pageSize * seg.pageCount ≤ 2 ^ 32) :
    ∃ table', shmAttach tables shm shmid (some addr) = some (some addr,
        { shm with
          segments := setRefCount shm.segments seg.key (wrap32 (seg.refCount + 1))
          table := table'
          shmAttaches := wrap32 (shm.shmAttaches + 1) }) ∧
      SetPages tables shm.table addr seg.size seg.entryAt table' := by
  obtain ⟨table', hloop, hpages⟩ :=
    pageLoop_spec (setsPage_mapSegment tables haddr seg) hpos hend shm.table
  refine ⟨table', ?_, hpages⟩
  simp only [shmAttach, hfind, hloop, Option.map_some]

/-- The search of `shm_detach` ends at the head of the list, or finds nothing. -/
theorem detachSearch_eq (areas : Option Nat) (addr : Nat) (segments : List ShmSegment) :
    detachSearch areas addr segments = if areas = some addr then segments.head? else none := by
  induction segments with
  | nil => simp [detachSearch]
  | cons seg segments ih =>
    rw [detachSearch, ih]
    split <;> rfl

/-- **Detaching.** It fails when the address is not the one in `shm_areas` or there is no
segment, and changes nothing then; otherwise it is of the head of the list. -/
theorem shmDetach_cases {shm shm' : Shm Table} {areas : Option Nat} {result : Int}
    (h : shmDetach tables shm addr areas = some (result, shm')) :
    (result = -1 ∧ shm' = shm ∧ (areas ≠ some addr ∨ shm.segments = [])) ∨
      ∃ seg ∈ shm.segments.head?, areas = some addr ∧ result = 0 ∧
        shm'.segments = setRefCount shm.segments seg.key (sub32 seg.refCount 1) ∧
        (0 < addr → pageSize ∣ addr → addr + pageSize * seg.pageCount ≤ 2 ^ 32 →
          SetPages tables shm.table addr seg.size (fun _ => none) shm'.table) := by
  unfold shmDetach at h
  rw [detachSearch_eq] at h
  by_cases hareas : areas = some addr
  · rw [if_pos hareas] at h
    cases hhead : shm.segments.head? with
    | none =>
      rw [hhead] at h
      cases h
      exact Or.inl ⟨rfl, rfl, Or.inr (List.head?_eq_none_iff.mp hhead)⟩
    | some seg =>
      rw [hhead] at h
      obtain ⟨table, hloop, hresult⟩ := Option.map_eq_some_iff.mp h
      cases hresult
      refine Or.inr ⟨seg, rfl, hareas, rfl, rfl, ?_⟩
      intro hpos haddr hend
      obtain ⟨table', hloop', hpages⟩ :=
        pageLoop_spec (setsPage_unmapSegment tables haddr) hpos hend shm.table
      obtain rfl := Option.some.inj (hloop.symm.trans hloop')
      exact hpages
  · rw [if_neg hareas] at h
    cases h
    exact Or.inl ⟨rfl, rfl, Or.inl hareas⟩

end Pages

end ArmKernel.Ipc

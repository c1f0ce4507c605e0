/-
Demand paging (`page_fault_handler` of `src/mm_protect.c` on `pra_alloc_page` of `src/mm_pra.c`).

The page tables are not part of the source: `PageMmu` takes the calls of `Mmu` and those that map
and unmap a page. `pageFault` is the handler as a whole: it looks for the area, asks for a page,
which may take another one out of the frame table, and maps it. `handled` remembers the faults that
got a page, the latest first.

The frame table has the addresses of the pages, not the addresses that they are mapped at, and it
is the former that a replacement unmaps.

* `pageAt_unmapPage`: where the areas have no address in these pages, unmapping one of them takes
  nothing from an area.
* `backed_fault`, `backed_protect`: what a fault and a change of protection keep.
* `paging_keeps_pages`: hence no page is ever taken from the address it was mapped at, no two
  addresses share one, and as many pages are in use as faults were handled.
-/
import ArmKernel.Mm.Protect
import ArmKernel.Mm.Victims

namespace ArmKernel.Mm

open ArmKernel.Support

/-! ### The page tables -/

/-- The page tables with the calls that map a page. The addresses of a page have one entry. -/
structure PageMmu (Table : Type) extends Mmu Table where
  /-- The page that an address is mapped to. -/
  pageAt : Table → BitVec 32 → Option (BitVec 32)
  /-- `mmu_map_page`. -/
  mapPage : Table → (addr page prot : BitVec 32) → Table
  /-- `mmu_unmap_page`. -/
  unmapPage : Table → BitVec 32 → Table
  pageAt_updateProt : ∀ t addr p a, pageAt (updateProt t addr p) a = pageAt t a
  pageAt_mapPage : ∀ t addr page p a, pageAt (mapPage t addr page p) a =
    if a &&& pageMask = addr &&& pageMask then some page else pageAt t a
  pageAt_unmapPage : ∀ t addr a, pageAt (unmapPage t addr) a =
    if a &&& pageMask = addr &&& pageMask then none else pageAt t a

variable {Table : Type}

theorem and_pageMask_idem (x : BitVec 32) : x &&& pageMask &&& pageMask = x &&& pageMask := by
  rw [BitVec.and_assoc, BitVec.and_self]

/-! ### A page fault -/

/-- `page_fault_handler`, up to the call of `pra_alloc_page`: the area, when the access is
allowed. -/
def faultArea (mmap : List VmArea) (faultAddr errorCode : BitVec 32) : Option VmArea :=
  match findArea mmap faultAddr with
  | none => none
  | some vma =>
    if errorCode &&& 2 ≠ 0 ∧ vma.flags &&& protWrite = 0 then none
    else if errorCode &&& 1 = 0 ∧ vma.flags &&& protRead = 0 then none
    else if errorCode &&& 4 ≠ 0 ∧ vma.flags &&& protExec = 0 then none
    else some vma

/-- Without an area the handler ends the task, whatever page there were. -/
theorem pageFaultHandler_eq (mmu : Mmu Table) (mmap : List VmArea)
    (faultAddr errorCode : BitVec 32) (page : Option (BitVec 32)) :
    pageFaultHandler mmu mmap faultAddr errorCode page =
      match faultArea mmap faultAddr errorCode, page with
      | some vma, some page => .mapPage (faultAddr &&& pageMask) page (mmu.permissions vma.flags)
      | _, _ => .taskExit := by
  rw [pageFaultHandler, faultArea]
  cases findArea mmap faultAddr with
  | none => rfl
  | some vma =>
    dsimp only
    split
    · rfl
    · split
      · rfl
      · split
        · rfl
        · cases page <;> rfl

/-- The address space, the frames, and the faults. -/
structure Paging (Table : Type) where
  space : AddressSpace Table
  memory : PraMemory
  /-- The first address and the page of each fault that was handled. -/
  handled : List (BitVec 32 × Nat)

/-- The addresses that `pra_alloc_page` called `mmu_unmap_page` with. -/
def newlyUnmapped (m m' : PraMemory) : List Nat :=
  m'.unmapped.take (m'.unmapped.length - m.unmapped.length)

/-- `page_fault_handler`; `page` is the result of `mm_alloc_pages`. A task that is ended has no
more faults. `none` stands for the use of a null frame. -/
def pageFault (mmu : PageMmu Table) (s : Paging Table) (faultAddr errorCode : BitVec 32)
    (swapOut : Bool) (page : Option Nat) : Option (Paging Table) :=
  match faultArea s.space.mmap faultAddr errorCode with
  | none => some s
  | some _ =>
    match praAllocPage s.memory swapOut page with
    | none => none
    | some (result, memory) =>
      let table := (newlyUnmapped s.memory memory).foldl
        (fun t v => mmu.unmapPage t (BitVec.ofNat 32 v)) s.space.table
      match pageFaultHandler mmu.toMmu s.space.mmap faultAddr errorCode
          (result.map (BitVec.ofNat 32)) with
      | .taskExit => some { s with memory, space := { s.space with table } }
      | .mapPage addr p prot =>
        some { space := { s.space with table := mmu.mapPage table addr p prot }, memory
               handled := (addr, p.toNat) :: s.handled }

/-! ### Runs -/

/-- Where `mm_alloc_pages` takes its pages from. -/
structure PageRange where
  low : Nat
  high : Nat

/-- A page of the range. -/
def PageRange.Has (range : PageRange) (p : Nat) : Prop :=
  0 < p ∧ range.low ≤ p ∧ p + 4096 ≤ range.high ∧ p % 4096 = 0 ∧ p < 2 ^ 32

instance (range : PageRange) (p : Nat) : Decidable (range.Has p) :=
  inferInstanceAs (Decidable (_ ∧ _))

/-- The area has no address in the range. -/
def PageRange.Outside (range : PageRange) (vma : VmArea) : Prop :=
  vma.stop.toNat ≤ range.low ∨ range.high ≤ vma.start.toNat

/-- What happens in the address space. -/
inductive PagingAction where
  | fault (faultAddr errorCode : BitVec 32) (swapOut : Bool) (page : Option Nat)
  | access (addr : Nat)
  | protect (addr length prot : BitVec 32)

/-- `mm_alloc_pages` gives a page of the range that is not in use, or none. -/
def pagingStep (mmu : PageMmu Table) (range : PageRange) (s : Paging Table) :
    PagingAction → Option (Paging Table)
  | .fault faultAddr errorCode swapOut page =>
    if ∀ p ∈ page, range.Has p ∧ ¬Held s.memory p then
      pageFault mmu s faultAddr errorCode swapOut page
    else none
  | .access addr => some { s with memory := praAccessPage s.memory addr }
  | .protect addr length prot =>
    (mmProtect mmu.toMmu s.space addr length prot).map fun r => { s with space := r.2 }

/-- No fault has been handled. -/
def pagingStart (type : PraType) (mmap : List VmArea) (table : Table) : Paging Table where
  space := { mmap, table }
  memory := praStart type
  handled := []

/-- The pages that the faults got. -/
def Paging.pages (s : Paging Table) : List Nat := s.handled.map Prod.snd

/-- The page of the latest fault at a first address. -/
def Paging.latest (s : Paging Table) (addr : BitVec 32) : Option (BitVec 32) :=
  (s.handled.find? fun h => decide (h.1 = addr)).map fun h => BitVec.ofNat 32 h.2

/-- **What a run keeps.** -/
structure Backed (mmu : PageMmu Table) (range : PageRange) (s : Paging Table) : Prop where
  linked : Linked s.memory.ctx
  frames : ∀ i < s.memory.ctx.frameCount,
    (s.memory.ctx.frames i).vaddr ≠ 0 → (s.memory.ctx.frames i).vaddr ∈ s.pages
  returned : ∀ p, s.memory.returned p = 0
  held : ∀ p, Held s.memory p ↔ p ∈ s.pages
  nodup : s.pages.Nodup
  inRange : ∀ p ∈ s.pages, range.Has p
  areas : ∀ vma ∈ s.space.mmap, range.Outside vma
  outside : ∀ h ∈ s.handled, ∀ p, range.Has p → h.1 ≠ BitVec.ofNat 32 p
  mapped : ∀ addr, mmu.pageAt s.space.table addr = s.latest (addr &&& pageMask)

theorem latest_cons {s s' : Paging Table} {first : BitVec 32} {p : Nat}
    (h : s'.handled = (first, p) :: s.handled) (addr : BitVec 32) :
    s'.latest addr = if first = addr then some (BitVec.ofNat 32 p) else s.latest addr := by
  rw [Paging.latest, h, List.find?_cons]
  by_cases heq : first = addr
  · rw [if_pos heq, decide_eq_true heq]
    rfl
  · rw [if_neg heq, decide_eq_false heq]
    rfl

section Unmap

variable {mmu : PageMmu Table} {range : PageRange} {s : Paging Table} {p v : Nat} {table : Table}

/-- The first address of a page of the range is its own. -/
theorem PageRange.Has.and_pageMask (h : range.Has p) :
    BitVec.ofNat 32 p &&& pageMask = BitVec.ofNat 32 p := by
  obtain ⟨-, -, -, halign, hlt⟩ := h
  apply BitVec.eq_of_toNat_eq
  rw [toNat_and_pageMask, BitVec.toNat_ofNat, Nat.mod_eq_of_lt hlt]
  omega

/-- An address of an area is in no page of the range. -/
theorem PageRange.Has.ne_of_outside (h : range.Has p) {vma : VmArea} (hout : range.Outside vma)
    {addr : BitVec 32} (hhas : vma.Has addr) : addr &&& pageMask ≠ BitVec.ofNat 32 p := by
  intro heq
  obtain ⟨-, hlow, hhigh, -, hlt⟩ := h
  have hstart : vma.start.toNat ≤ addr.toNat := hhas.1
  have hstop : addr.toNat < vma.stop.toNat := hhas.2
  have hpage : addr.toNat / 4096 * 4096 = p := by
    rw [← toNat_and_pageMask, heq, BitVec.toNat_ofNat, Nat.mod_eq_of_lt hlt]
  rcases hout with hbelow | habove
  · omega
  · omega

/-- **Unmapping a page of the frame table** takes nothing from an area. -/
theorem pageAt_unmapPage (hk : Backed mmu range s)
    (htable : ∀ addr, mmu.pageAt table addr = s.latest (addr &&& pageMask)) (hv : range.Has v)
    (addr : BitVec 32) :
    mmu.pageAt (mmu.unmapPage table (BitVec.ofNat 32 v)) addr = s.latest (addr &&& pageMask) := by
  rw [mmu.pageAt_unmapPage, hv.and_pageMask]
  by_cases heq : addr &&& pageMask = BitVec.ofNat 32 v
  · have hnone : s.handled.find? (fun h => decide (h.1 = BitVec.ofNat 32 v)) = none := by
      rw [List.find?_eq_none]
      intro h hh hdec
      exact hk.outside h hh v hv (of_decide_eq_true hdec)
    rw [if_pos heq, heq, Paging.latest, hnone]
    rfl
  · rw [if_neg heq]
    exact htable addr

end Unmap

/-! ### A fault -/

section Fault

variable {mmu : PageMmu Table} {range : PageRange} {s : Paging Table} {m' : PraMemory}
  {page result : Option Nat} {swapOut : Bool}

/-- What `pra_alloc_page` did: it unmapped a page of the table, or none, and has put the page, if it
got one, into a frame. -/
structure Allocated (range : PageRange) (s : Paging Table) (page : Option Nat) (m' : PraMemory) :
    Prop where
  linked : Linked m'.ctx
  frames : ∀ i < m'.ctx.frameCount, (m'.ctx.frames i).vaddr ≠ 0 →
    (m'.ctx.frames i).vaddr ∈ page.toList ++ s.pages
  returned : ∀ p, m'.returned p = 0
  held : ∀ p, Held m' p ↔ p ∈ page.toList ++ s.pages
  unmapped : ∀ v ∈ newlyUnmapped s.memory m', range.Has v

/-- The end of `pra_alloc_page`. -/
theorem allocated_install {m₁ : PraMemory} {i : Nat} (hk : Backed mmu range s)
    (hsame : SameTable s.memory.ctx m₁.ctx) (hlinked : Linked m₁.ctx)
    (hobtained : m₁.obtained = s.memory.obtained) (hreturned : m₁.returned = s.memory.returned)
    (hunmapped : ∀ v ∈ newlyUnmapped s.memory m₁, range.Has v) :
    Allocated range s page (installPage m₁ i page).2 := by
  have hframes : ∀ j < m₁.ctx.frameCount, (m₁.ctx.frames j).vaddr ≠ 0 →
      (m₁.ctx.frames j).vaddr ∈ s.pages := by
    intro j hj
    rw [hsame.vaddr]
    exact hk.frames j (hsame.count ▸ hj)
  have hheld : ∀ p, 0 < m₁.obtained p ↔ p ∈ s.pages := by
    intro p
    rw [hobtained, ← hk.held p, Held, hk.returned p]
  have hzero : ∀ p, m₁.returned p = 0 := fun p => by rw [hreturned, hk.returned p]
  cases page with
  | none =>
    refine ⟨hlinked, hframes, hzero, fun p => ?_, hunmapped⟩
    show m₁.returned p < m₁.obtained p ↔ _
    rw [hzero p]
    exact hheld p
  | some q =>
    refine ⟨hlinked.install, ?_, hzero, ?_, hunmapped⟩
    · intro j hj hne
      by_cases hji : j = i
      · subst hji
        have hvaddr : ((installPage m₁ j (some q)).2.ctx.frames j).vaddr = q := by
          simp only [installPage, PraContext.setFrame, Function.update_self]
        rw [hvaddr]
        exact List.mem_cons_self
      · have hvaddr : ((installPage m₁ i (some q)).2.ctx.frames j) = m₁.ctx.frames j := by
          simp only [installPage, PraContext.setFrame, Function.update_of_ne hji]
        rw [hvaddr] at hne ⊢
        exact List.mem_cons_of_mem q (hframes j hj hne)
    · intro p
      show m₁.returned p < Function.update m₁.obtained q (m₁.obtained q + 1) p ↔ p ∈ q :: s.pages
      rw [hzero p, List.mem_cons]
      by_cases hp : p = q
      · subst hp
        rw [Function.update_self]
        exact iff_of_true (Nat.succ_pos _) (.inl rfl)
      · rw [Function.update_of_ne hp, hheld p]
        exact ⟨.inr, fun h => h.resolve_left hp⟩

/-- **`pra_alloc_page`**, with a free frame or without. -/
theorem allocated_of_alloc (hk : Backed mmu range s)
    (hcall : praAllocPage s.memory swapOut page = some (result, m')) :
    result = page ∧ Allocated range s page m' := by
  by_cases hfree : HasFree s.memory
  · obtain ⟨i, hi, -, -, heq⟩ := praAllocPage_of_free hfree swapOut page
    obtain ⟨hresult, hm⟩ := Prod.ext_iff.mp (Option.some.inj (hcall.symm.trans heq))
    dsimp only at hresult hm
    subst hm
    refine ⟨hresult.trans (installPage_fst _ i page), ?_⟩
    refine allocated_install hk .rfl hk.linked rfl rfl ?_
    intro v hv
    rw [newlyUnmapped, Nat.sub_self] at hv
    exact absurd hv List.not_mem_nil
  · rw [praAllocPage_of_full hk.linked hfree] at hcall
    obtain ⟨⟨i, ctx⟩, hselect, heq⟩ := Option.map_eq_some_iff.mp hcall
    obtain ⟨hresult, hm⟩ := Prod.ext_iff.mp heq
    dsimp only at hresult hm
    subst hm
    obtain ⟨hi, hsame, hlinked⟩ := selectVictim_spec hk.linked.faulted hselect
    refine ⟨hresult.symm.trans (installPage_fst _ i page), ?_⟩
    refine allocated_install hk ⟨hsame.count, hsame.vaddr⟩
      ⟨hlinked.nonempty, hlinked.next, hlinked.head, hlinked.hand, hlinked.clean⟩ rfl rfl ?_
    intro v hv
    have hone : newlyUnmapped s.memory (evicted s.memory ctx i) = [(ctx.frames i).vaddr] := by
      show List.take (s.memory.unmapped.length + 1 - s.memory.unmapped.length)
        ((ctx.frames i).vaddr :: s.memory.unmapped) = _
      rw [Nat.add_sub_cancel_left]
      rfl
    rw [hone, List.mem_singleton] at hv
    subst hv
    -- A full table has a page in each frame.
    have hvaddr : (ctx.frames i).vaddr = (s.memory.ctx.frames i).vaddr := hsame.vaddr i
    rw [hvaddr]
    exact hk.inRange _ (hk.frames i hi fun hzero => hfree ⟨i, hi, hzero⟩)

theorem foldl_unmapPage (hk : Backed mmu range s) (vs : List Nat) (hvs : ∀ v ∈ vs, range.Has v)
    {table : Table} (htable : ∀ addr, mmu.pageAt table addr = s.latest (addr &&& pageMask))
    (addr : BitVec 32) :
    mmu.pageAt (vs.foldl (fun t v => mmu.unmapPage t (BitVec.ofNat 32 v)) table) addr =
      s.latest (addr &&& pageMask) := by
  induction vs generalizing table with
  | nil => exact htable addr
  | cons v vs ih =>
    exact ih (fun w hw => hvs w (List.mem_cons_of_mem v hw))
      (pageAt_unmapPage hk htable (hvs v List.mem_cons_self))

/-- The area of an access that is allowed has the address. -/
theorem faultArea_spec {mmap : List VmArea} {faultAddr errorCode : BitVec 32} {vma : VmArea}
    (h : faultArea mmap faultAddr errorCode = some vma) : vma ∈ mmap ∧ vma.Has faultAddr := by
  rw [faultArea] at h
  cases hfind : findArea mmap faultAddr with
  | none =>
    rw [hfind] at h
    cases h
  | some found =>
    rw [hfind] at h
    have hfound : found ∈ mmap ∧ found.Has faultAddr :=
      ⟨List.mem_of_find?_eq_some hfind,
        of_decide_eq_true (List.find?_some (p := fun v : VmArea => decide (v.Has faultAddr)) hfind)⟩
    have hsame : found = vma := by
      dsimp only at h
      split at h
      · cases h
      · split at h
        · cases h
        · split at h
          · cases h
          · exact Option.some.inj h
    exact hsame ▸ hfound

/-- A fault that gets a page. -/
theorem pageFault_of_alloc {faultAddr errorCode : BitVec 32} {vma : VmArea}
    {p : Nat} {memory : PraMemory} (harea : faultArea s.space.mmap faultAddr errorCode = some vma)
    (hcall : praAllocPage s.memory swapOut page = some (some p, memory)) (hp : p < 2 ^ 32) :
    pageFault mmu s faultAddr errorCode swapOut page = some
      { space := { s.space with
          table := mmu.mapPage ((newlyUnmapped s.memory memory).foldl
            (fun t v => mmu.unmapPage t (BitVec.ofNat 32 v)) s.space.table)
            (faultAddr &&& pageMask) (BitVec.ofNat 32 p) (mmu.permissions vma.flags) }
        memory
        handled := (faultAddr &&& pageMask, p) :: s.handled } := by
  have hhandler : pageFaultHandler mmu.toMmu s.space.mmap faultAddr errorCode
      (some (BitVec.ofNat 32 p)) =
      .mapPage (faultAddr &&& pageMask) (BitVec.ofNat 32 p) (mmu.permissions vma.flags) := by
    rw [pageFaultHandler_eq, harea]
  have hnat : (BitVec.ofNat 32 p).toNat = p := by
    rw [BitVec.toNat_ofNat, Nat.mod_eq_of_lt hp]
  simp only [pageFault, harea, hcall, Option.map_some, hhandler, hnat]

/-- **A page fault** keeps what was mapped, and maps its page. -/
theorem backed_fault {s' : Paging Table} {faultAddr errorCode : BitVec 32}
    (hk : Backed mmu range s) (hpage : ∀ p ∈ page, range.Has p ∧ ¬Held s.memory p)
    (hfault : pageFault mmu s faultAddr errorCode swapOut page = some s') : Backed mmu range s' := by
  cases harea : faultArea s.space.mmap faultAddr errorCode with
  | none =>
    simp only [pageFault, harea] at hfault
    cases hfault
    exact hk
  | some vma =>
    obtain ⟨hvma, hhas⟩ := faultArea_spec harea
    cases hcall : praAllocPage s.memory swapOut page with
    | none =>
      simp only [pageFault, harea, hcall] at hfault
      cases hfault
    | some answer =>
      obtain ⟨result, memory⟩ := answer
      obtain ⟨rfl, halloc⟩ := allocated_of_alloc hk hcall
      have htable := foldl_unmapPage hk _ halloc.unmapped hk.mapped
      cases result with
      | none =>
        simp only [pageFault, harea, hcall, Option.map_none, pageFaultHandler_eq] at hfault
        cases hfault
        exact ⟨halloc.linked, halloc.frames, halloc.returned, halloc.held, hk.nodup, hk.inRange,
          hk.areas, hk.outside, htable⟩
      | some p =>
        obtain ⟨hhas', hnew⟩ := hpage p rfl
        rw [pageFault_of_alloc harea hcall hhas'.2.2.2.2] at hfault
        cases hfault
        refine ⟨halloc.linked, halloc.frames, halloc.returned, halloc.held, ?_, ?_, hk.areas, ?_,
          ?_⟩
        · exact List.nodup_cons.mpr ⟨fun hmem => hnew ((hk.held p).mpr hmem), hk.nodup⟩
        · intro q hq
          rcases List.mem_cons.mp hq with rfl | hq
          · exact hhas'
          · exact hk.inRange q hq
        · intro h hh q hq
          rcases List.mem_cons.mp hh with rfl | hh
          · exact hq.ne_of_outside (hk.areas vma hvma) hhas
          · exact hk.outside h hh q hq
        · intro addr
          have hmapped := mmu.pageAt_mapPage ((newlyUnmapped s.memory memory).foldl
            (fun t v => mmu.unmapPage t (BitVec.ofNat 32 v)) s.space.table)
            (faultAddr &&& pageMask) (BitVec.ofNat 32 p) (mmu.permissions vma.flags) addr
          rw [and_pageMask_idem, htable addr] at hmapped
          refine hmapped.trans (Eq.trans ?_ (latest_cons (s := s) rfl (addr &&& pageMask)).symm)
          exact if_congr eq_comm rfl rfl

end Fault

/-! ### A change of protection -/

section Protect

variable {mmu : PageMmu Table} {range : PageRange} {s : Paging Table}

/-- The loop of `mm_protect` leaves the pages where they are. -/
theorem pageAt_protectPages {stop prot addr : BitVec 32} {rounds : Nat} {table table' : Table}
    (h : protectPages mmu.toMmu stop prot rounds addr table = some table')
    (a : BitVec 32) : mmu.pageAt table' a = mmu.pageAt table a := by
  induction rounds generalizing addr table with
  | zero => cases h
  | succ rounds ih =>
    rw [protectPages] at h
    split at h
    · refine (ih h).trans ?_
      rw [protectPage]
      split
      · exact mmu.pageAt_updateProt ..
      · rfl
    · cases h
      rfl

/-- The areas have the addresses they had. -/
theorem outside_protectArea {start stop prot : BitVec 32} {mmap mmap' : List VmArea}
    (h : protectArea start stop prot mmap = some mmap') (hout : ∀ vma ∈ mmap, range.Outside vma) :
    ∀ vma ∈ mmap', range.Outside vma := by
  rcases protectArea_cases start stop prot mmap with ⟨hnone, -⟩ | ⟨pre, vma, post, rfl, -, hsome⟩
  · rw [hnone] at h
    cases h
  · rw [hsome] at h
    cases h
    intro v hv
    rcases List.mem_append.mp hv with hpre | hpost
    · exact hout v (List.mem_append_left _ hpre)
    · rcases List.mem_cons.mp hpost with rfl | hpost
      · exact hout vma (List.mem_append_right _ List.mem_cons_self)
      · exact hout v (List.mem_append_right _ (List.mem_cons_of_mem _ hpost))

theorem backed_protect {addr length prot : BitVec 32} {result : Int}
    {space : AddressSpace Table} (hk : Backed mmu range s)
    (h : mmProtect mmu.toMmu s.space addr length prot = some (result, space)) :
    Backed mmu range { s with space } := by
  have hspace : (∀ vma ∈ space.mmap, range.Outside vma) ∧
      ∀ a, mmu.pageAt space.table a = mmu.pageAt s.space.table a := by
    rw [mmProtect] at h
    split at h
    · cases h
      exact ⟨hk.areas, fun _ => rfl⟩
    · rename_i mmap hmmap
      obtain ⟨table, hpages, heq⟩ := Option.map_eq_some_iff.mp h
      cases heq
      exact ⟨outside_protectArea hmmap hk.areas, pageAt_protectPages hpages⟩
  exact ⟨hk.linked, hk.frames, hk.returned, hk.held, hk.nodup, hk.inRange, hspace.1, hk.outside,
    fun a => (hspace.2 a).trans (hk.mapped a)⟩

end Protect

section Runs

variable {mmu : PageMmu Table} {range : PageRange} {s s' : Paging Table} {table : Table}

theorem backed_access (hk : Backed mmu range s) (addr : Nat) :
    Backed mmu range { s with memory := praAccessPage s.memory addr } := by
  have hframes : SameTable s.memory.ctx (praAccessPage s.memory addr).ctx := by
    rw [praAccessPage]
    split
    · exact .rfl
    · exact sameTable_setFrame rfl
  have hcounts : (praAccessPage s.memory addr).obtained = s.memory.obtained ∧
      (praAccessPage s.memory addr).returned = s.memory.returned := by
    rw [praAccessPage]
    split <;> exact ⟨rfl, rfl⟩
  have hlinked : Linked (praAccessPage s.memory addr).ctx :=
    linked_step (.access addr) hk.linked rfl
  refine ⟨hlinked, ?_, ?_, ?_, hk.nodup, hk.inRange, hk.areas, hk.outside, hk.mapped⟩
  · intro i hi
    rw [hframes.vaddr]
    exact hk.frames i (hframes.count ▸ hi)
  · intro p
    rw [hcounts.2]
    exact hk.returned p
  · intro p
    rw [Held, hcounts.1, hcounts.2]
    exact hk.held p

theorem backed_step {action : PagingAction} (hk : Backed mmu range s)
    (hstep : pagingStep mmu range s action = some s') : Backed mmu range s' := by
  cases action with
  | fault faultAddr errorCode swapOut page =>
    simp only [pagingStep] at hstep
    split at hstep
    · rename_i hpage
      exact backed_fault hk hpage hstep
    · cases hstep
  | access addr =>
    cases hstep
    exact backed_access hk addr
  | protect addr length prot =>
    obtain ⟨⟨result, space⟩, hcall, rfl⟩ := Option.map_eq_some_iff.mp hstep
    exact backed_protect hk hcall

theorem backed_start (type : PraType) {mmap : List VmArea}
    (hout : ∀ vma ∈ mmap, range.Outside vma) (hempty : ∀ addr, mmu.pageAt table addr = none) :
    Backed mmu range (pagingStart type mmap table) where
  linked := (praInv_start type).linked
  frames _ _ hne := absurd rfl hne
  returned _ := rfl
  held _ := iff_of_false (Nat.lt_irrefl 0) List.not_mem_nil
  nodup := List.nodup_nil
  inRange _ hp := absurd hp List.not_mem_nil
  areas := hout
  outside _ hh := absurd hh List.not_mem_nil
  mapped := hempty

/-- **Demand paging takes no page away.** Where the areas have no address in the pages that
`mm_alloc_pages` gives: in every run of faults, accesses and changes of protection, each address is
mapped to the page that the latest fault in its page got, no two faults got the same page, and the
pages in use are those of the faults, however many. -/
theorem paging_keeps_pages (type : PraType) {mmap : List VmArea}
    (hout : ∀ vma ∈ mmap, range.Outside vma) (hempty : ∀ addr, mmu.pageAt table addr = none)
    {actions : List PagingAction}
    (hrun : run (pagingStep mmu range) (pagingStart type mmap table) actions = some s) :
    (∀ addr, mmu.pageAt s.space.table addr = s.latest (addr &&& pageMask)) ∧
      s.pages.Nodup ∧ ∀ p, Held s.memory p ↔ p ∈ s.pages := by
  have hk : Backed mmu range s :=
    run_invariant (fun _ _ _ hk hstep => backed_step hk hstep) (backed_start type hout hempty) hrun
  exact ⟨hk.mapped, hk.nodup, hk.held⟩

/-- An entry: the page, if one is present, and its protection. -/
structure Pte where
  page : Option (BitVec 32)
  prot : BitVec 32

/-- Page tables with an entry for the first address of each page. -/
def entryTables : PageMmu (BitVec 32 → Pte) where
  permRead := 1
  permWrite := 2
  permExec := 4
  present t addr := (t (addr &&& pageMask)).page.isSome
  prot t addr := (t (addr &&& pageMask)).prot
  updateProt t addr p a := if a = addr &&& pageMask then { t a with prot := p } else t a
  present_page t addr := by rw [and_pageMask_idem]
  present_updateProt t addr p a := by
    dsimp only
    split <;> rfl
  prot_updateProt t addr p a := by
    dsimp only
    split <;> rfl
  pageAt t addr := (t (addr &&& pageMask)).page
  mapPage t addr page p a := if a = addr &&& pageMask then ⟨some page, p⟩ else t a
  unmapPage t addr a := if a = addr &&& pageMask then { t a with page := none } else t a
  pageAt_updateProt t addr p a := by
    dsimp only
    split <;> rfl
  pageAt_mapPage t addr page p a := by
    dsimp only
    split <;> rfl
  pageAt_unmapPage t addr a := by
    dsimp only
    split <;> rfl

/-- A read at an area that may be read and written. -/
theorem run_twoPages :
    ∃ s, run (pagingStep entryTables ⟨0x10000, 0x20000⟩)
        (pagingStart .fifo twoPages.mmap fun _ => ⟨none, 0⟩)
        [.fault 0x1004 1 true (some 0x10000)] = some s ∧ s.handled = [(0x1000, 0x10000)] := by
  have hfree : HasFree (praStart .fifo) := ⟨0, Nat.zero_lt_succ 1023, rfl⟩
  obtain ⟨i, -, -, -, hcall⟩ := praAllocPage_of_free hfree true (some 0x10000)
  let start : Paging (BitVec 32 → Pte) := pagingStart .fifo twoPages.mmap fun _ => ⟨none, 0⟩
  have hguard : ∀ p ∈ some 0x10000, PageRange.Has ⟨0x10000, 0x20000⟩ p ∧
      ¬Held start.memory p := by
    intro p hp
    cases hp
    exact ⟨by decide, Nat.lt_irrefl 0⟩
  have harea : faultArea start.space.mmap 0x1004 1 = some ⟨0x1000, 0x3000, 3⟩ := rfl
  obtain ⟨s, hfault, hhandled⟩ : ∃ s, pageFault entryTables start 0x1004 1 true (some 0x10000) =
      some s ∧ s.handled = [(0x1000, 0x10000)] :=
    ⟨_, pageFault_of_alloc harea hcall (by decide), rfl⟩
  have hstep : pagingStep entryTables ⟨0x10000, 0x20000⟩ start
      (.fault 0x1004 1 true (some 0x10000)) = some s := by
    rw [pagingStep, if_pos hguard, hfault]
  exact ⟨s, run_cons_eq_some.mpr ⟨s, hstep, rfl⟩, hhandled⟩

theorem paging_keeps_pages_twoPages :
    ∃ s, run (pagingStep entryTables ⟨0x10000, 0x20000⟩)
        (pagingStart .fifo twoPages.mmap fun _ => ⟨none, 0⟩)
        [.fault 0x1004 1 true (some 0x10000)] = some s ∧ s.handled = [(0x1000, 0x10000)] ∧
      (∀ addr, entryTables.pageAt s.space.table addr = s.latest (addr &&& pageMask)) ∧
      s.pages.Nodup ∧ ∀ p, Held s.memory p ↔ p ∈ s.pages := by
  have hout : ∀ vma ∈ twoPages.mmap, PageRange.Outside ⟨0x10000, 0x20000⟩ vma := by
    intro vma hvma
    rw [List.mem_singleton.mp hvma]
    exact .inl (by decide)
  obtain ⟨s, hrun, hhandled⟩ := run_twoPages
  exact ⟨s, hrun, hhandled, paging_keeps_pages .fifo hout (fun _ => rfl) hrun⟩

end Runs

end ArmKernel.Mm

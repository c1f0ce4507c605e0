/-
What the block cache is for: a flat store of blocks.

`FsRun` is the file system with the flat store beside it: `flat m n` is what the
latest `write_block` to block `n` of mount `m` stored, or what the device held at
the start. The two must agree on every `read_block`, however the cache moved the
block between memory and device.

`Coherent` is the invariant that ties them: entries hold the flat contents, clean
ones equal their device block, and a block that is not cached is on its device.
Each call keeps it when the entry it finds is for its own mount, and the byte
offsets it uses are those of the blocks (`KeepsApart`).

* `coherent_step`, `intact_along`: the step and the run.
* `one_mount_coherent`: with one mount the condition always holds.
* `blocks_apart`: with any number of mounts, the runs whose steps meet it.
* `shared_cache_aliases`: two mounts, one block number.
-/
import ArmKernel.Fs.BlockCache
import ArmKernel.Support.Run

namespace ArmKernel.Fs

open ArmKernel.Support FsState

variable {M Dev D : Type*}

/-- The device law for the blocks numbered by `blocks`: they can be read, a read
returns what was last written, and writing one leaves the others alone. -/
structure DeviceOps.Reliable (ops : DeviceOps Dev D) (blocks : Nat → Prop) : Prop where
  readable : ∀ d n, blocks n → (ops.deviceRead d (n * blockSize)).isSome
  stored : ∀ d n x, blocks n →
    ops.deviceRead (ops.deviceWrite d (n * blockSize) x) (n * blockSize) = some x
  apart : ∀ d n n' x, blocks n → blocks n' → n ≠ n' →
    ops.deviceRead (ops.deviceWrite d (n * blockSize) x) (n' * blockSize)
      = ops.deviceRead d (n' * blockSize)

/-! ### The system -/

/-- A call of one of the two functions; `cache` is what `malloc` returns to it. -/
inductive BlockCall (M D : Type*) where
  | read (mp : M) (blockNo cache : Nat)
  | write (mp : M) (blockNo : Nat) (buffer : D) (cache : Nat)

namespace BlockCall

def mount : BlockCall M D → M
  | read mp _ _ => mp
  | write mp _ _ _ => mp

def blockNo : BlockCall M D → Nat
  | read _ n _ => n
  | write _ n _ _ => n

def cache : BlockCall M D → Nat
  | read _ _ c => c
  | write _ _ _ c => c

end BlockCall

/-- The file system with the flat store, and the last call's `read_block`: mount,
block number and what the buffer got. -/
structure FsRun (M Dev D : Type*) where
  fs : FsState M Dev D
  flat : M → Nat → D
  lastRead : Option (M × Nat × Option D)

/-- The flat store after a write. -/
def store [DecidableEq M] (flat : M → Nat → D) (mp : M) (n : Nat) (x : D) : M → Nat → D :=
  Function.update flat mp (Function.update (flat mp) n x)

@[simp] theorem store_self [DecidableEq M] {flat : M → Nat → D} {mp : M} {n : Nat} {x : D} :
    store flat mp n x mp n = x := by simp [store]

theorem store_of_ne [DecidableEq M] {flat : M → Nat → D} {mp m : M} {n k : Nat} {x : D}
    (h : ¬ (m = mp ∧ k = n)) : store flat mp n x m k = flat m k := by
  unfold store
  rcases eq_or_ne m mp with rfl | hm
  · rw [Function.update_self, Function.update_of_ne (fun e => h ⟨rfl, e⟩)]
  · rw [Function.update_of_ne hm]

section System

variable [DecidableEq M] (ops : DeviceOps Dev D)
  (cacheGetBlock : FsState M Dev D → Nat → Option Nat)

/-- `malloc` returns an entry that is not in use; a call that hits does not ask. -/
def Served (fs : FsState M Dev D) (c : BlockCall M D) : Prop :=
  (cacheGetBlock fs c.blockNo).isSome ∨
    (0 < c.cache ∧ c.cache < 2 ^ 32) ∧ c.cache ∉ fs.allocated

instance (fs : FsState M Dev D) (c : BlockCall M D) : Decidable (Served cacheGetBlock fs c) :=
  inferInstanceAs (Decidable (_ ∨ _))

omit [DecidableEq M] in
theorem Served.of_miss {cacheGetBlock : FsState M Dev D → Nat → Option Nat}
    {fs : FsState M Dev D} {c : BlockCall M D} (h : Served cacheGetBlock fs c)
    (hmiss : cacheGetBlock fs c.blockNo = none) :
    (0 < c.cache ∧ c.cache < 2 ^ 32) ∧ c.cache ∉ fs.allocated := by
  rcases h with h | h
  · rw [hmiss] at h
    simp at h
  · exact h

/-- One call. -/
def fsStep (s : FsRun M Dev D) (c : BlockCall M D) : Option (FsRun M Dev D) :=
  if Served cacheGetBlock s.fs c then
    match c with
    | .read mp n cache =>
      (readBlock ops cacheGetBlock s.fs mp n cache).map fun r =>
        { s with fs := r.1, lastRead := some (mp, n, r.2) }
    | .write mp n x cache =>
      some { fs := writeBlock cacheGetBlock s.fs mp n x cache
             flat := store s.flat mp n x
             lastRead := none }
  else none

end System

/-- Every `read_block` returned the flat contents. -/
def ReadsLatest (s : FsRun M Dev D) : Prop :=
  ∀ m n r, s.lastRead = some (m, n, r) → r = some (s.flat m n)

/-- Every write-back went to the device and the offset of its block. -/
def WritesBackHome (fs : FsState M Dev D) : Prop :=
  ∀ w ∈ fs.writeBacks, w.mount = w.block.home ∧ w.offset = w.block.blockNo * blockSize

/-! ### The invariant -/

/-- The entries `l`, the flat store and the devices agree on the blocks `valid`. -/
structure Coherent (ops : DeviceOps Dev D) (valid : M → Nat → Prop) (flat : M → Nat → D)
    (fs : FsState M Dev D) (l : List Nat) : Prop where
  oneEach : ∀ p ∈ l, ∀ q ∈ l, (lineAt fs.mem p).blockNo = (lineAt fs.mem q).blockNo → p = q
  isValid : ∀ p ∈ l, valid (lineAt fs.mem p).home (lineAt fs.mem p).blockNo
  cached : ∀ p ∈ l, (lineAt fs.mem p).data = flat (lineAt fs.mem p).home (lineAt fs.mem p).blockNo
  clean : ∀ p ∈ l, (lineAt fs.mem p).dirty = false →
    ops.deviceRead (fs.devices (lineAt fs.mem p).home) ((lineAt fs.mem p).blockNo * blockSize)
      = some (lineAt fs.mem p).data
  uncached : ∀ m n, valid m n →
    (∀ p ∈ l, ¬ ((lineAt fs.mem p).home = m ∧ (lineAt fs.mem p).blockNo = n)) →
    ops.deviceRead (fs.devices m) (n * blockSize) = some (flat m n)

/-- Evicting the entry on behalf of `mp` writes it where it belongs. -/
def Evictable (mp : M) (line : Line M D) : Prop :=
  line.dirty = true → line.home = mp ∧ line.blockNo * blockSize < 2 ^ 32

section Steps

variable [DecidableEq M] {ops : DeviceOps Dev D} {valid : M → Nat → Prop} {blocks : Nat → Prop}
  {flat : M → Nat → D} {fs fs' : FsState M Dev D} {l : List Nat} {mp : M} {n p o c : Nat} {x : D}

/-- Reading a device after a write-back to the right offset. -/
theorem read_writeBack (hops : ops.Reliable blocks) (hblock : blocks (fs.mem o).blockNo)
    (hoff : (fs.mem o).blockNo * blockSize < 2 ^ 32) {m : M} (hn : blocks n) :
    ops.deviceRead ((writeBack ops fs mp o).devices m) (n * blockSize)
      = if m = mp ∧ n = (fs.mem o).blockNo then some (fs.mem o).data
        else ops.deviceRead (fs.devices m) (n * blockSize) := by
  show ops.deviceRead (Function.update fs.devices mp
    (ops.deviceWrite (fs.devices mp) (wrap32 ((fs.mem o).blockNo * blockSize)) (fs.mem o).data) m)
    (n * blockSize) = _
  rw [wrap32_of_lt hoff]
  rcases eq_or_ne m mp with rfl | hm
  · rw [Function.update_self]
    rcases eq_or_ne n (fs.mem o).blockNo with rfl | hne
    · rw [hops.stored _ _ _ hn, if_pos ⟨rfl, rfl⟩]
    · rw [hops.apart _ _ _ _ hblock hn hne.symm, if_neg (fun h => hne h.2)]
  · rw [Function.update_of_ne hm, if_neg (fun h => hm h.1)]

/-- **Eviction.** The evicted block is on its device afterwards. -/
theorem Coherent.evict (hops : ops.Reliable blocks) (hblocks : ∀ m n, valid m n → blocks n)
    (hc : Coherent ops valid flat fs (l ++ [o])) (hev : Evictable mp (lineAt fs.mem o))
    (hnodup : (l ++ [o]).Nodup)
    (hline : lineAt fs'.mem = lineAt fs.mem) (hdev : fs'.devices = (flushed ops fs mp o).devices) :
    Coherent ops valid flat fs' l := by
  have hol : o ∈ l ++ [o] := by simp
  have hsub : ∀ p ∈ l, p ∈ l ++ [o] := fun p hp => List.mem_append_left _ hp
  have hvo := hc.isValid o hol
  -- The devices as `clean` and `uncached` see them.
  have hread : ∀ m n, valid m n → ops.deviceRead (fs'.devices m) (n * blockSize)
      = if (lineAt fs.mem o).dirty = true ∧ m = mp ∧ n = (lineAt fs.mem o).blockNo
        then some (lineAt fs.mem o).data
        else ops.deviceRead (fs.devices m) (n * blockSize) := by
    intro m n hn
    rw [hdev, flushed]
    cases hdirty : (fs.mem o).dirty with
    | false => simp [lineAt, CacheBlock.line, hdirty]
    | true =>
      rw [if_pos rfl, read_writeBack hops (hblocks _ _ hvo) (hev hdirty).2 (hblocks m n hn)]
      simp [lineAt, CacheBlock.line, hdirty]
  refine ⟨?_, ?_, ?_, ?_, ?_⟩
  · rw [hline]
    exact fun p hp q hq => hc.oneEach p (hsub p hp) q (hsub q hq)
  · rw [hline]
    exact fun p hp => hc.isValid p (hsub p hp)
  · rw [hline]
    exact fun p hp => hc.cached p (hsub p hp)
  · rw [hline]
    intro p hp hclean
    have hpo : p ≠ o := fun e => (List.disjoint_of_nodup_append hnodup) hp (by simp [e])
    rw [hread _ _ (hc.isValid p (hsub p hp)), if_neg, hc.clean p (hsub p hp) hclean]
    rintro ⟨-, -, hno⟩
    exact hpo (hc.oneEach p (hsub p hp) o hol hno)
  · rw [hline]
    intro m n hn habsent
    rw [hread m n hn]
    by_cases ho : (lineAt fs.mem o).home = m ∧ (lineAt fs.mem o).blockNo = n
    · obtain ⟨rfl, rfl⟩ := ho
      cases hdirty : (lineAt fs.mem o).dirty with
      | true => rw [if_pos ⟨rfl, (hev hdirty).1, rfl⟩, hc.cached o hol]
      | false => rw [if_neg (by simp), hc.clean o hol hdirty, hc.cached o hol]
    · rw [if_neg, hc.uncached m n hn]
      · intro p hp
        rcases List.mem_append.mp hp with h | h
        · exact habsent p h
        · rw [List.mem_singleton.mp h]
          exact ho
      · rintro ⟨hdirty, rfl, rfl⟩
        exact ho ⟨(hev hdirty).1, rfl⟩

omit [DecidableEq M] in
/-- **Putting a block into the cache**, in a new entry `c` or in the one that
holds it. The flat store changes at that block only. -/
theorem Coherent.put {flat' : M → Nat → D} {l' : List Nat} {dirty : Bool}
    (hc : Coherent ops valid flat fs l) (hn : valid mp n)
    (hl' : ∀ q, q ∈ l' ↔ q ∈ l ∨ q = c)
    (hold : c ∈ l → (lineAt fs.mem c).home = mp ∧ (lineAt fs.mem c).blockNo = n)
    (hothers : ∀ q ∈ l, q ≠ c → (lineAt fs.mem q).blockNo ≠ n)
    (hline : lineAt fs'.mem = Function.update (lineAt fs.mem) c ⟨mp, n, x, dirty⟩)
    (hdev : fs'.devices = fs.devices)
    (hflat : ∀ m k, ¬ (m = mp ∧ k = n) → flat' m k = flat m k) (hx : flat' mp n = x)
    (hclean : dirty = false → ops.deviceRead (fs.devices mp) (n * blockSize) = some x) :
    Coherent ops valid flat' fs' l' := by
  have hnew : lineAt fs'.mem c = ⟨mp, n, x, dirty⟩ := by rw [hline, Function.update_self]
  have hkept : ∀ q, q ≠ c → lineAt fs'.mem q = lineAt fs.mem q := by
    intro q hq
    rw [hline, Function.update_of_ne hq]
  have hmem : ∀ q ∈ l', q ≠ c → q ∈ l := fun q hq hne => ((hl' q).mp hq).resolve_right hne
  refine ⟨?_, ?_, ?_, ?_, ?_⟩
  · intro p hp q hq heq
    rcases eq_or_ne p c with rfl | hpc <;> rcases eq_or_ne q p with rfl | hqp
    · rfl
    · rw [hnew, hkept q hqp] at heq
      exact absurd heq.symm (hothers q (hmem q hq hqp) hqp)
    · rfl
    · rcases eq_or_ne q c with rfl | hqc
      · rw [hnew, hkept p hpc] at heq
        exact absurd heq (hothers p (hmem p hp hpc) hpc)
      · rw [hkept p hpc, hkept q hqc] at heq
        exact hc.oneEach p (hmem p hp hpc) q (hmem q hq hqc) heq
  · intro q hq
    rcases eq_or_ne q c with rfl | hne
    · rw [hnew]
      exact hn
    · rw [hkept q hne]
      exact hc.isValid q (hmem q hq hne)
  · intro q hq
    rcases eq_or_ne q c with rfl | hne
    · rw [hnew]
      exact hx.symm
    · rw [hkept q hne, hflat _ _ (fun h => hothers q (hmem q hq hne) hne h.2)]
      exact hc.cached q (hmem q hq hne)
  · intro q hq
    rw [hdev]
    rcases eq_or_ne q c with rfl | hne
    · rw [hnew]
      exact hclean
    · rw [hkept q hne]
      exact hc.clean q (hmem q hq hne)
  · intro m k hk habsent
    rw [hdev]
    have hne : ¬ (m = mp ∧ k = n) := by
      rintro ⟨rfl, rfl⟩
      refine habsent c ((hl' c).mpr (Or.inr rfl)) ?_
      rw [hnew]
      exact ⟨rfl, rfl⟩
    rw [hflat m k hne]
    apply hc.uncached m k hk
    intro q hq hqk
    rcases eq_or_ne q c with rfl | hqc
    · obtain ⟨hm, hn⟩ := hold hq
      exact hne ⟨hqk.1.symm.trans hm, hqk.2.symm.trans hn⟩
    · refine habsent q ((hl' q).mpr (Or.inl hq)) ?_
      rw [hkept q hqc]
      exact hqk

/-! ### One call -/

/-- What a call that misses reads from and writes to a device has the offset and the
device of its block. -/
def FetchesApart (fs : FsState M Dev D) : BlockCall M D → Prop
  | .read mp n _ => n * blockSize < 2 ^ 32 ∧
      ∀ q ∈ fs.entries.drop maxCacheBlocks, Evictable mp (lineAt fs.mem q)
  | .write _ _ _ _ => True

/-- The call finds an entry of its own mount; or it finds none and goes to the right
places. -/
def KeepsApart (cacheGetBlock : FsState M Dev D → Nat → Option Nat) (fs : FsState M Dev D)
    (call : BlockCall M D) : Prop :=
  (∀ p ∈ cacheGetBlock fs call.blockNo, (fs.mem p).home = call.mount) ∧
    (cacheGetBlock fs call.blockNo = none → FetchesApart fs call)

instance (mp : M) (line : Line M D) : Decidable (Evictable mp line) :=
  inferInstanceAs (Decidable (_ → _))

instance (fs : FsState M Dev D) : (call : BlockCall M D) → Decidable (FetchesApart fs call)
  | .read _ _ _ => inferInstanceAs (Decidable (_ ∧ _))
  | .write _ _ _ _ => isTrue trivial

instance (cacheGetBlock : FsState M Dev D → Nat → Option Nat) (fs : FsState M Dev D)
    (call : BlockCall M D) : Decidable (KeepsApart cacheGetBlock fs call) :=
  inferInstanceAs (Decidable (_ ∧ _))

/-- The invariant of a run: the cache list, its coherence with the flat store, and
what the calls have returned and written back so far. -/
structure Intact (ops : DeviceOps Dev D) (valid : M → Nat → Prop) (s : FsRun M Dev D) : Prop where
  entries : ∃ l, CacheList s.fs l ∧ Coherent ops valid s.flat s.fs l
  reads : ReadsLatest s
  writesBack : WritesBackHome s.fs

/-- The eviction loop ends and keeps coherence when the entries it takes may go. -/
theorem Coherent.evictLoop (hops : ops.Reliable blocks) (hblocks : ∀ m n, valid m n → blocks n)
    (hl : CacheList fs l) (hc : Coherent ops valid flat fs l) (hwb : WritesBackHome fs)
    (hev : ∀ q ∈ l.drop maxCacheBlocks, Evictable mp (lineAt fs.mem q)) :
    ∃ fs', evictLoop ops fs.cacheSize fs mp = some fs' ∧
      (∃ l', CacheList fs' l' ∧ Coherent ops valid flat fs' l') ∧ WritesBackHome fs' := by
  obtain ⟨fs', hloop, hl', hc', hwb', -⟩ := evictLoop_rule ops mp
    (I := fun fs l => Coherent ops valid flat fs l ∧ WritesBackHome fs ∧
      ∀ q ∈ l.drop maxCacheBlocks, Evictable mp (lineAt fs.mem q))
    (fun fs fs' l o hlen hl hI _ hline hdev hwb => by
      obtain ⟨hc, hhome, hev⟩ := hI
      rw [List.drop_append_of_le_length hlen] at hev
      have ho : Evictable mp (lineAt fs.mem o) := hev o (by simp)
      refine ⟨hc.evict hops hblocks ho hl.nodup hline hdev, ?_, ?_⟩
      · intro w hw
        rw [hwb, flushed] at hw
        split at hw
        · rename_i hdirty
          rcases List.mem_cons.mp hw with rfl | hw
          · exact ⟨(ho hdirty).1.symm, wrap32_of_lt (ho hdirty).2⟩
          · exact hhome w hw
        · exact hhome w hw
      · intro q hq
        rw [hline]
        exact hev q (List.mem_append_left _ hq))
    fs.cacheSize hl ⟨hc, hwb, hev⟩ hl.size.ge
  exact ⟨fs', hloop, ⟨_, hl', hc'⟩, hwb'⟩

variable {cacheGetBlock : FsState M Dev D → Nat → Option Nat} {s : FsRun M Dev D}

/-- `read_block` returns the flat contents and keeps the invariant. -/
theorem readBlock_spec (hops : ops.Reliable blocks) (hblocks : ∀ m n, valid m n → blocks n)
    (hget : LookupSpec cacheGetBlock) (hl : CacheList fs l) (hc : Coherent ops valid flat fs l)
    (hwb : WritesBackHome fs) (hserved : Served cacheGetBlock fs (.read mp n c))
    (hn : valid mp n) (hok : KeepsApart cacheGetBlock fs (.read mp n c)) :
    ∃ fs', readBlock ops cacheGetBlock fs mp n c = some (fs', some (flat mp n)) ∧
      (∃ l', CacheList fs' l' ∧ Coherent ops valid flat fs' l') ∧ WritesBackHome fs' := by
  unfold readBlock
  cases hfound : cacheGetBlock fs n with
  | some p =>
    obtain ⟨hp, hpn⟩ := hget.found hl hfound
    have hhome : (fs.mem p).home = mp := hok.1 p hfound
    have hdata : (fs.mem p).data = flat mp n := by
      have := hc.cached p hp
      simp only [lineAt, CacheBlock.line] at this
      rw [this, hpn, hhome]
    exact ⟨fs, by simp only [hdata], ⟨l, hl, hc⟩, hwb⟩
  | none =>
    obtain ⟨hoff, hev⟩ : FetchesApart fs (.read mp n c) := hok.2 hfound
    obtain ⟨haddr, hfresh⟩ := hserved.of_miss hfound
    have habsent : ∀ q ∈ l, (lineAt fs.mem q).blockNo ≠ n := hget.absent hl hfound
    have hread : ops.deviceRead (fs.devices mp) (n * blockSize) = some (flat mp n) :=
      hc.uncached mp n hn fun q hq h => habsent q hq h.2
    have hcl : c ∉ l := fun h => hfresh (hl.owned c h)
    have hl₁ : CacheList (insertCache fs c mp n (flat mp n) false) (l ++ [c]) :=
      insertCache_list hl haddr hfresh
    have hc₁ : Coherent ops valid flat (insertCache fs c mp n (flat mp n) false) (l ++ [c]) :=
      hc.put hn (by simp) (fun h => absurd h hcl) (fun q hq _ => habsent q hq)
        insertCache_line rfl (fun _ _ _ => rfl) rfl (fun _ => hread)
    have hev₁ : ∀ q ∈ (l ++ [c]).drop maxCacheBlocks,
        Evictable mp (lineAt (insertCache fs c mp n (flat mp n) false).mem q) := by
      intro q hq
      rw [insertCache_line]
      rcases eq_or_ne q c with rfl | hqc
      · intro hdirty
        simp at hdirty
      · rw [Function.update_of_ne hqc]
        apply hev
        rw [hl.entries_eq]
        rw [List.drop_append] at hq
        rcases List.mem_append.mp hq with h | h
        · exact h
        · exact absurd (List.mem_singleton.mp (List.mem_of_mem_drop h)) hqc
    obtain ⟨fs', hloop, hl', hwb'⟩ := hc₁.evictLoop hops hblocks hl₁ hwb hev₁
    refine ⟨fs', ?_, hl', hwb'⟩
    simp only [wrap32_of_lt hoff, hread, hloop, Option.map_some]

/-- `write_block` stores into the flat store and keeps the invariant. -/
theorem writeBlock_spec (hget : LookupSpec cacheGetBlock) (hl : CacheList fs l)
    (hc : Coherent ops valid flat fs l) (hserved : Served cacheGetBlock fs (.write mp n x c))
    (hn : valid mp n) (hok : KeepsApart cacheGetBlock fs (.write mp n x c)) :
    (∃ l', CacheList (writeBlock cacheGetBlock fs mp n x c) l' ∧
      Coherent ops valid (store flat mp n x) (writeBlock cacheGetBlock fs mp n x c) l') ∧
    (writeBlock cacheGetBlock fs mp n x c).writeBacks = fs.writeBacks := by
  unfold writeBlock
  cases hfound : cacheGetBlock fs n with
  | some p =>
    obtain ⟨hp, hpn⟩ := hget.found hl hfound
    have hhome : (fs.mem p).home = mp := hok.1 p hfound
    have hline : lineAt (modify fs.mem p fun b => { b with data := x, dirty := true })
        = Function.update (lineAt fs.mem) p ⟨mp, n, x, true⟩ := by
      apply (modify_view CacheBlock.line _).trans
      simp only [CacheBlock.line, hpn, hhome]
      rfl
    refine ⟨⟨l, ?_, ?_⟩, rfl⟩
    · exact hl.congr rfl rfl rfl (modify_view_of_eq CacheBlock.next rfl)
        (modify_view_of_eq CacheBlock.prev rfl)
    · refine hc.put hn (fun q => ?_) (fun _ => ⟨hhome, hpn⟩) (fun q hq hne h => ?_) hline rfl
        (fun _ _ => store_of_ne) store_self (fun h => absurd h (by simp))
      · exact ⟨Or.inl, fun h => h.elim id (fun h => h ▸ hp)⟩
      · exact hne (hc.oneEach q hq p hp (h.trans hpn.symm))
  | none =>
    obtain ⟨haddr, hfresh⟩ := hserved.of_miss hfound
    have habsent : ∀ q ∈ l, (lineAt fs.mem q).blockNo ≠ n := hget.absent hl hfound
    refine ⟨⟨l ++ [c], insertCache_list hl haddr hfresh, ?_⟩, rfl⟩
    exact hc.put hn (by simp) (fun h => absurd (hl.owned c h) hfresh)
      (fun q hq _ => habsent q hq) insertCache_line rfl (fun _ _ => store_of_ne) store_self
      (fun h => absurd h (by simp))

/-- **The step.** A call that keeps blocks apart completes and keeps the invariant. -/
theorem coherent_step (hops : ops.Reliable blocks) (hblocks : ∀ m n, valid m n → blocks n)
    (hget : LookupSpec cacheGetBlock) (hs : Intact ops valid s) {call : BlockCall M D}
    (hserved : Served cacheGetBlock s.fs call) (hvalid : valid call.mount call.blockNo)
    (hok : KeepsApart cacheGetBlock s.fs call) :
    ∃ s', fsStep ops cacheGetBlock s call = some s' ∧ Intact ops valid s' := by
  obtain ⟨⟨l, hl, hc⟩, hreads, hwb⟩ := hs
  cases call with
  | read mp n cache =>
    obtain ⟨fs', hread, hl', hwb'⟩ :=
      readBlock_spec hops hblocks hget hl hc hwb hserved hvalid hok
    refine ⟨{ s with fs := fs', lastRead := some (mp, n, some (s.flat mp n)) }, ?_, hl', ?_, hwb'⟩
    · simp [fsStep, hserved, hread]
    · rintro m k r h
      obtain ⟨rfl, rfl, rfl⟩ : mp = m ∧ n = k ∧ some (s.flat mp n) = r := by simpa using h
      rfl
  | write mp n x cache =>
    obtain ⟨hl', hwb'⟩ := writeBlock_spec hget hl hc hserved hvalid hok
    refine ⟨{ fs := writeBlock cacheGetBlock s.fs mp n x cache
              flat := store s.flat mp n x
              lastRead := none }, ?_, hl', ?_, ?_⟩
    · simp [fsStep, hserved]
    · intro m k r h
      simp at h
    · intro w hw
      exact hwb w (hwb' ▸ hw)

end Steps

/-! ### Runs -/

/-- The state after `fs_init`, with the contents of the devices as the flat store. -/
def FsRun.start (mem : Nat → CacheBlock M D) (devices : M → Dev) (flat : M → Nat → D) :
    FsRun M Dev D :=
  ⟨fsInit mem devices, flat, none⟩

section Runs

variable [DecidableEq M] {ops : DeviceOps Dev D} {valid : M → Nat → Prop} {blocks : Nat → Prop}
  {cacheGetBlock : FsState M Dev D → Nat → Option Nat} {mem : Nat → CacheBlock M D}
  {devices : M → Dev} {flat : M → Nat → D} {s s' : FsRun M Dev D}

omit [DecidableEq M] in
theorem intact_start (hflat : ∀ m n, valid m n →
    ops.deviceRead (devices m) (n * blockSize) = some (flat m n)) :
    Intact ops valid (FsRun.start mem devices flat) where
  entries := ⟨[], cacheList_fsInit mem devices,
    ⟨by simp, by simp, by simp, by simp, fun m n hn _ => hflat m n hn⟩⟩
  reads := by simp [ReadsLatest, FsRun.start]
  writesBack := by simp [WritesBackHome, FsRun.start, fsInit]

theorem fsStep_served {call : BlockCall M D} (h : fsStep ops cacheGetBlock s call = some s') :
    Served cacheGetBlock s.fs call := by
  unfold fsStep at h
  split at h
  · assumption
  · simp at h

/-- **The run.** The invariant holds in every state of a run whose calls are on
valid blocks and keep blocks apart. -/
theorem intact_along (hops : ops.Reliable blocks) (hblocks : ∀ m n, valid m n → blocks n)
    (hget : LookupSpec cacheGetBlock) (start : Intact ops valid s) {calls : List (BlockCall M D)}
    (hcalls : Meets (fsStep ops cacheGetBlock) (fun s call =>
      Intact ops valid s → valid call.mount call.blockNo ∧ KeepsApart cacheGetBlock s.fs call)
      s calls) :
    Along (fsStep ops cacheGetBlock) (Intact ops valid) s calls := by
  refine along_of_meets ?_ start hcalls
  intro s call s' hs hok hstep
  obtain ⟨hvalid, hapart⟩ := hok hs
  obtain ⟨t, ht, hintact⟩ :=
    coherent_step hops hblocks hget hs (fsStep_served hstep) hvalid hapart
  rw [hstep] at ht
  exact Option.some.inj ht ▸ hintact

/-- What the blocks hold after the calls: the data of the latest `write_block`, or
what `flat` says. -/
def latest (flat : M → Nat → D) : List (BlockCall M D) → M → Nat → D
  | [] => flat
  | .read _ _ _ :: calls => latest flat calls
  | .write mp n x _ :: calls => latest (store flat mp n x) calls

theorem latest_append (flat : M → Nat → D) (before after : List (BlockCall M D)) :
    latest flat (before ++ after) = latest (latest flat before) after := by
  induction before generalizing flat with
  | nil => rfl
  | cons call before ih =>
    cases call with
    | read => exact ih flat
    | write mp n x => exact ih (store flat mp n x)

/-- Calls on other blocks leave a block of the flat store alone. -/
theorem latest_of_others {m : M} {n : Nat} {others : List (BlockCall M D)}
    (h : ∀ call ∈ others, ¬ (call.mount = m ∧ call.blockNo = n)) (flat : M → Nat → D) :
    latest flat others m n = flat m n := by
  induction others generalizing flat with
  | nil => rfl
  | cons call others ih =>
    have hrest := fun flat => ih (fun c hc => h c (List.mem_cons_of_mem _ hc)) flat
    cases call with
    | read => exact hrest flat
    | write mp k x c =>
      have hne : ¬ (mp = m ∧ k = n) := h _ List.mem_cons_self
      exact (hrest _).trans (store_of_ne fun e => hne ⟨e.1.symm, e.2.symm⟩)

/-- The flat store of a run is that of its calls. -/
theorem flat_run {calls : List (BlockCall M D)}
    (h : run (fsStep ops cacheGetBlock) s calls = some s') : s'.flat = latest s.flat calls := by
  induction calls generalizing s with
  | nil => exact Option.some.inj h ▸ rfl
  | cons call calls ih =>
    obtain ⟨t, hstep, hrest⟩ := run_cons_eq_some.mp h
    rw [ih hrest]
    unfold fsStep at hstep
    split at hstep
    · cases call with
      | read mp n c =>
        obtain ⟨r, -, rfl⟩ := Option.map_eq_some_iff.mp hstep
        rfl
      | write mp n x c => exact Option.some.inj hstep ▸ rfl
    · simp at hstep

/-- A run that ends with a `read_block` ends with what that call returned. -/
theorem lastRead_run {before : List (BlockCall M D)} {m : M} {n c : Nat}
    (h : run (fsStep ops cacheGetBlock) s (before ++ [.read m n c]) = some s') :
    ∃ r, s'.lastRead = some (m, n, r) := by
  obtain ⟨t, -, hlast⟩ := run_append.mp h
  obtain ⟨u, hstep, hu⟩ := run_cons_eq_some.mp hlast
  obtain rfl := Option.some.inj hu
  simp only [fsStep, if_pos (fsStep_served hstep)] at hstep
  obtain ⟨r, -, rfl⟩ := Option.map_eq_some_iff.mp hstep
  exact ⟨r.2, rfl⟩

/-! ### One mount -/

/-- Block `n` lies on a device of `size` bytes. -/
def OnDevice (size n : Nat) : Prop := n * blockSize + blockSize ≤ size

/-- The cache of the mount `mp`: one entry per block number, `cache_size` of them, and
the clean ones equal to their block of the device. -/
def CacheInOrder (ops : DeviceOps Dev D) (mp : M) (fs : FsState M Dev D) : Prop :=
  ∃ l, CacheList fs l ∧ l.Nodup ∧ fs.cacheSize = l.length ∧
    (∀ p ∈ l, ∀ q ∈ l, (fs.mem p).blockNo = (fs.mem q).blockNo → p = q) ∧
    ∀ p ∈ l, (fs.mem p).dirty = false →
      ops.deviceRead (fs.devices mp) ((fs.mem p).blockNo * blockSize) = some (fs.mem p).data

variable {mp : M} {size : Nat}

omit [DecidableEq M] in
/-- With one mount every entry is its own, and 32 bits reach the whole device. -/
theorem Intact.keepsApart (hget : LookupSpec cacheGetBlock) (hsize : size ≤ 2 ^ 32)
    (hs : Intact ops (fun m n => m = mp ∧ OnDevice size n) s) {call : BlockCall M D}
    (hmount : call.mount = mp) (hon : OnDevice size call.blockNo) :
    KeepsApart cacheGetBlock s.fs call := by
  obtain ⟨⟨l, hl, hc⟩, -, -⟩ := hs
  have hreach : ∀ n, OnDevice size n → n * blockSize < 2 ^ 32 := by
    intro n hn
    unfold OnDevice blockSize at *
    omega
  constructor
  · intro p hp
    exact (hc.isValid p (hget.found hl hp).1).1.trans hmount.symm
  · intro _
    cases call with
    | read m n c =>
      refine ⟨hreach n hon, ?_⟩
      intro q hq _
      rw [hl.entries_eq] at hq
      obtain ⟨hhome, hvalid⟩ := hc.isValid q (List.mem_of_mem_drop hq)
      exact ⟨hhome.trans hmount.symm, hreach _ hvalid⟩
    | write => trivial

/-- **One mount.** In every state of every run on the blocks of one device, reads
have returned the flat contents, the cache is in order, and the next call completes. -/
theorem one_mount_coherent (hops : ops.Reliable (OnDevice size)) (hsize : size ≤ 2 ^ 32)
    (hget : LookupSpec cacheGetBlock)
    (hflat : ∀ n, OnDevice size n →
      ops.deviceRead (devices mp) (n * blockSize) = some (flat mp n))
    (calls : List (BlockCall M D))
    (hcalls : ∀ call ∈ calls, call.mount = mp ∧ OnDevice size call.blockNo) :
    Along (fsStep ops cacheGetBlock)
      (fun s => ReadsLatest s ∧ CacheInOrder ops mp s.fs ∧
        ∀ call : BlockCall M D, call.mount = mp → OnDevice size call.blockNo →
          Served cacheGetBlock s.fs call → (fsStep ops cacheGetBlock s call).isSome)
      (FsRun.start mem devices flat) calls := by
  have hblocks : ∀ m n, m = mp ∧ OnDevice size n → OnDevice size n := fun _ _ h => h.2
  have hstart : Intact ops (fun m n => m = mp ∧ OnDevice size n) (FsRun.start mem devices flat) :=
    intact_start fun m n h => h.1 ▸ hflat n h.2
  refine (intact_along hops hblocks hget hstart (meets_of_forall ?_)).mono
    fun s hs => ⟨hs.reads, ?_, ?_⟩
  · intro s call hcall hs
    obtain ⟨hmount, hon⟩ := hcalls call hcall
    exact ⟨⟨hmount, hon⟩, hs.keepsApart hget hsize hmount hon⟩
  · obtain ⟨l, hl, hc⟩ := hs.entries
    refine ⟨l, hl, hl.nodup, hl.size, hc.oneEach, ?_⟩
    intro p hp hclean
    have hread := hc.clean p hp hclean
    rw [(hc.isValid p hp).1] at hread
    exact hread
  · intro call hmount hon hserved
    obtain ⟨s', hstep, -⟩ := coherent_step hops hblocks hget hs hserved ⟨hmount, hon⟩
      (hs.keepsApart hget hsize hmount hon)
    rw [hstep]
    rfl

end Runs

/-! ### A device to run on -/

/-- A device that stores blocks by their byte offset. -/
def arrayOps : DeviceOps (Nat → D) D where
  deviceRead d offset := some (d offset)
  deviceWrite d offset x := Function.update d offset x

theorem arrayOps_reliable (blocks : Nat → Prop) : (arrayOps (D := D)).Reliable blocks where
  readable _ _ _ := rfl
  stored _ _ _ _ := by simp [arrayOps]
  apart d n n' x _ _ hne := by
    have hoff : n' * blockSize ≠ n * blockSize := by
      unfold blockSize
      omega
    simp [arrayOps, hoff]

/-- Memory before the first call. -/
def blankMem (home : M) (x : D) : Nat → CacheBlock M D := fun _ => ⟨0, x, false, 0, 0, 0, home⟩

/-- Two blocks of a device whose contents are their offsets, written, read and
read again. -/
theorem one_mount_coherent_run :
    Along (fsStep arrayOps walkLookup)
      (fun s => ReadsLatest s ∧ CacheInOrder arrayOps () s.fs ∧
        ∀ call : BlockCall Unit Nat, call.mount = () → OnDevice (2 ^ 32) call.blockNo →
          Served walkLookup s.fs call → (fsStep arrayOps walkLookup s call).isSome)
      (FsRun.start (blankMem () 0) (fun _ offset => offset) fun _ n => n * blockSize)
      [.write () 0 7 1, .read () 9 2, .read () 0 3] :=
  one_mount_coherent (arrayOps_reliable _) (Nat.le_refl _) walkLookup_spec (fun _ _ => rfl) _
    (by simp [BlockCall.mount, BlockCall.blockNo, OnDevice, blockSize])

/-! ### Any number of mounts -/

section Mounts

variable [DecidableEq M] {ops : DeviceOps Dev D}
  {cacheGetBlock : FsState M Dev D → Nat → Option Nat} {mem : Nat → CacheBlock M D}
  {devices : M → Dev} {flat : M → Nat → D}

/-- Distinct blocks never alias in the run: reads return the flat contents and
write-backs go home; and a run that ends with a read of a block gets what the calls
before left there, whatever calls on other blocks came between. -/
def BlocksApart (ops : DeviceOps Dev D) (cacheGetBlock : FsState M Dev D → Nat → Option Nat)
    (start : FsRun M Dev D) (calls : List (BlockCall M D)) : Prop :=
  Along (fsStep ops cacheGetBlock) (fun s => ReadsLatest s ∧ WritesBackHome s.fs) start calls ∧
    ∀ before others m n c s', calls = before ++ others ++ [.read m n c] →
      (∀ call ∈ others, ¬ (call.mount = m ∧ call.blockNo = n)) →
      run (fsStep ops cacheGetBlock) start calls = some s' →
      s'.lastRead = some (m, n, some (latest start.flat before m n))

/-- **Any number of mounts.** Blocks stay apart in every run whose calls find entries of
their own mount only, fetch below the 32-bit limit, and evict dirty entries of their own
mount below that limit only. -/
theorem blocks_apart (hops : ops.Reliable fun _ => True) (hget : LookupSpec cacheGetBlock)
    (hflat : ∀ m n, ops.deviceRead (devices m) (n * blockSize) = some (flat m n))
    (calls : List (BlockCall M D))
    (hcalls : Meets (fsStep ops cacheGetBlock)
      (fun s call => KeepsApart cacheGetBlock s.fs call) (FsRun.start mem devices flat) calls) :
    BlocksApart ops cacheGetBlock (FsRun.start mem devices flat) calls := by
  have hstart : Intact ops (fun _ _ => True) (FsRun.start mem devices flat) :=
    intact_start fun m n _ => hflat m n
  have hintact : Along (fsStep ops cacheGetBlock) (Intact ops fun _ _ => True)
      (FsRun.start mem devices flat) calls :=
    intact_along hops (fun _ _ h => h) hget hstart
      (hcalls.mono fun _ _ hapart _ => ⟨trivial, hapart⟩)
  refine ⟨hintact.mono fun s hs => ⟨hs.reads, hs.writesBack⟩, ?_⟩
  rintro before others m n c s' rfl hothers hrun
  have hs' := hintact.last hrun
  obtain ⟨r, hr⟩ := lastRead_run hrun
  have hflat' : s'.flat m n = latest flat before m n := by
    rw [flat_run hrun, latest_append, latest_append]
    exact latest_of_others hothers _
  rw [hr, hs'.reads m n r hr, hflat']
  rfl

end Mounts

/-- Three calls on two mounts that find their own entries. -/
theorem blocks_apart_run :
    BlocksApart arrayOps walkLookup
      (FsRun.start (blankMem false 0) (fun _ offset => offset) fun _ n => n * blockSize)
      [.write false 5 1 1, .read true 6 2, .read false 5 3] :=
  blocks_apart (arrayOps_reliable _) walkLookup_spec (fun _ _ => rfl) _ (by decide)

/-- Two mounts, one block number: the second mount reads what the first one wrote. And
block `2 ^ 20` is read from the offset of block 0. -/
theorem shared_cache_aliases :
    ¬ BlocksApart arrayOps walkLookup
        (FsRun.start (blankMem false 0) (fun _ offset => offset) fun _ n => n * blockSize)
        [.write false 5 1 1, .read true 5 2] ∧
      ¬ BlocksApart arrayOps walkLookup
        (FsRun.start (blankMem () 0) (fun _ offset => offset) fun _ n => n * blockSize)
        [.read () (2 ^ 20) 1] := by
  constructor
  · intro h
    have hreturned : (run (fsStep arrayOps walkLookup)
        (FsRun.start (blankMem false 0) (fun _ offset => offset) fun _ n => n * blockSize)
        [.write false 5 1 1, .read true 5 2]).map FsRun.lastRead
          = some (some (true, 5, some 1)) := by decide
    obtain ⟨s', hrun, hlast⟩ := Option.map_eq_some_iff.mp hreturned
    have hlatest := h.2 [.write false 5 1 1] [] true 5 2 s' rfl (by simp) hrun
    rw [hlast] at hlatest
    revert hlatest
    decide
  · intro h
    have hreturned : (run (fsStep arrayOps walkLookup)
        (FsRun.start (blankMem () 0) (fun _ offset => offset) fun _ n => n * blockSize)
        [.read () (2 ^ 20) 1]).map FsRun.lastRead = some (some ((), 2 ^ 20, some 0)) := by decide
    obtain ⟨s', hrun, hlast⟩ := Option.map_eq_some_iff.mp hreturned
    have hlatest := h.2 [] [] () (2 ^ 20) 1 s' rfl (by simp) hrun
    rw [hlast] at hlatest
    revert hlatest
    decide

end ArmKernel.Fs

/-
Runs of `fs_open`, `fs_read`, `fs_write` and `fs_close` (`src/fs_file.c`), and the flags of the
descriptors (`include/mini_types.h`).

`Volumes` are the mounted devices, with the inodes that paths lead to. `lookup_path`,
`create_file` and `find_mount_point_by_inode` are called and not defined in the source: they are
parameters (`VolumeOps`), and `VolumeOps.Spec` says what the run needs of them.

`fs_open` stores the flags, and no function reads them again. `honours_iff` says when a call
does what they ask for all the same, and `open_flags_iff` says it for the calls of a run.
-/
import ArmKernel.Fs.Open
import ArmKernel.Fs.ReadBounds
import ArmKernel.Fs.Upkeep

namespace ArmKernel.Fs

open ArmKernel.Support

/-- `O_RDONLY`, `O_WRONLY`, `O_RDWR` and `O_APPEND`. -/
def oRdonly : Nat := 0x0000
def oWronly : Nat := 0x0001
def oRdwr : Nat := 0x0002
def oAppend : Nat := 0x0400

/-- The access mode among the flags. -/
def accessMode (flags : Nat) : Nat := flags &&& (oWronly ||| oRdwr)

/-- The mounted devices, and the inodes that paths lead to. -/
structure Volumes where
  mount : Nat → Mount
  regular : Nat → Finset Nat

/-- The functions that are not defined in the source. `byInode` is `find_mount_point_by_inode`;
nothing is mounted or unmounted in a run. -/
structure VolumeOps extends NameOps Volumes where
  byInode : Nat → Option Nat

/-- The files, and the flags that each descriptor was last opened with. -/
structure Session where
  fs : FileSystem Volumes
  openedWith : Nat → Nat

/-- A call, with what its locals and the clock hold. -/
inductive FileOp where
  | openPath (call : OpenCall)
  | read (fd : Int) (dst : Bytes) (count : BitVec 32) (stack : Nat → Nat)
  | write (fd : Int) (src : Bytes) (count : BitVec 32) (time : Nat) (stack : Stack)
  | close (fd : Int)

/-- `fs_close`. What `cache_sync` writes to the device, the callers see already. -/
def fsClose {S : Type*} (fs : FileSystem S) (fd : Int) : Int × FileSystem S :=
  match openDesc fs.descs fd with
  | none => (-1, fs)
  | some desc =>
    (0, { fs with
      descs := Function.update fs.descs fd.toNat { desc with count := desc.count - 1 } })

/-- The descriptors after a transfer. -/
def moveTo (descs : Nat → FileDesc) (fd : Int) (pos : Nat) : Nat → FileDesc :=
  match openDesc descs fd with
  | none => descs
  | some desc => Function.update descs fd.toNat { desc with pos }

section Model

variable (image : Superblock → Bytes) (ops : VolumeOps)

/-- The mount of the inode of a descriptor. -/
def mountOf (fs : FileSystem Volumes) (fd : Int) : Option Nat :=
  (openDesc fs.descs fd).bind fun desc => ops.byInode desc.inode

/-- What is mounted there. Calls that find no mount look at none. -/
def mountAt (fs : FileSystem Volumes) (fd : Int) : Mount :=
  fs.files.mount ((mountOf ops fs fd).getD 0)

def readIn (fs : FileSystem Volumes) (fd : Int) (dst : Bytes) (count : BitVec 32)
    (stack : Nat → Nat) : Option ReadResult :=
  fsRead (mountAt ops fs fd)
    { descs := fs.descs, fd, dst, count := count.toNat, mounted := (mountOf ops fs fd).isSome,
      stack }

def writeIn (fs : FileSystem Volumes) (fd : Int) (src : Bytes) (count : BitVec 32) (time : Nat)
    (stack : Stack) : Option WriteResult :=
  fsWrite image (mountAt ops fs fd)
    { descs := fs.descs, fd, src, count := count.toNat, mounted := (mountOf ops fs fd).isSome,
      time, stack }

def fileStep (s : Session) : FileOp → Option Session
  | .openPath call =>
    let (ret, fs) := fsOpen ops.toNameOps s.fs call
    some { fs, openedWith :=
      if 0 ≤ ret then Function.update s.openedWith ret.toNat call.flags else s.openedWith }
  | .read fd dst count stack =>
    (readIn ops s.fs fd dst count stack).map fun r =>
      { s with fs := { s.fs with descs := moveTo s.fs.descs fd r.pos } }
  | .write fd src count time stack =>
    (writeIn image ops s.fs fd src count time stack).map fun r =>
      { s with fs := { s.fs with
          files := { s.fs.files with
            mount := Function.update s.fs.files.mount ((mountOf ops s.fs fd).getD 0) r.mp }
          descs := moveTo s.fs.descs fd r.pos } }
  | .close fd => some { s with fs := (fsClose s.fs fd).2 }

/-- The call fails and changes nothing. -/
def Refused (mp : Mount) (desc : FileDesc) (r : WriteResult) : Prop :=
  r.ret = -1 ∧ r.pos = desc.pos ∧ r.mp = mp

/-- The bytes go to the end of the file, behind all it had. -/
def Appended (mp : Mount) (f : Nat) (src : Bytes) (r : WriteResult) : Prop :=
  ∃ old k, old.length = fileSize (readInode mp f) ∧ Reads mp f old ∧ r.ret = (k : Nat) ∧
    fileSize (readInode r.mp f) = old.length + k ∧ Reads r.mp f (old ++ readBytes src 0 k)

/-- What the flags that a descriptor was opened with ask of a call. -/
def HonoursFlags (s : Session) : FileOp → Prop
  | .read fd dst count stack => ∀ desc ∈ openDesc s.fs.descs fd,
      accessMode (s.openedWith fd.toNat) = oWronly →
        readIn ops s.fs fd dst count stack = some { ret := -1, pos := desc.pos, dst }
  | .write fd src count time stack => ∀ desc ∈ openDesc s.fs.descs fd,
      ∃ r, writeIn image ops s.fs fd src count time stack = some r ∧
        (accessMode (s.openedWith fd.toNat) = oRdonly → Refused (mountAt ops s.fs fd) desc r) ∧
        (s.openedWith fd.toNat &&& oAppend ≠ 0 → Refused (mountAt ops s.fs fd) desc r ∨
          Appended (mountAt ops s.fs fd) desc.inode src r)
  | _ => True

/-- A read through a descriptor that is not write-only; a write through one that is not
read-only, and that is at the end of its file when it appends. -/
def Permitted (s : Session) : FileOp → Prop
  | .read fd _ _ _ => ∀ desc ∈ openDesc s.fs.descs fd, ∀ _ ∈ ops.byInode desc.inode,
      accessMode (s.openedWith fd.toNat) ≠ oWronly
  | .write fd _ count _ _ => ∀ desc ∈ openDesc s.fs.descs fd, ∀ m ∈ ops.byInode desc.inode,
      accessMode (s.openedWith fd.toNat) ≠ oRdonly ∧
        (s.openedWith fd.toNat &&& oAppend ≠ 0 →
          desc.pos = fileSize (readInode (s.fs.files.mount m) desc.inode) ∨ count = 0)
  | _ => True

/-- A read whose end does not wrap, or that begins at the end of its file; a write that ends
before the doubly indirect block. -/
def InRange (s : Session) : FileOp → Prop
  | .read fd _ count _ => ∀ desc ∈ openDesc s.fs.descs fd, ∀ m ∈ ops.byInode desc.inode,
      desc.pos + count.toNat < 2 ^ 32 ∨
        fileSize (readInode (s.fs.files.mount m) desc.inode) ≤ desc.pos
  | .write fd _ count _ _ => ∀ desc ∈ openDesc s.fs.descs fd, ∀ _ ∈ ops.byInode desc.inode,
      desc.pos + count.toNat ≤ dataSlots * blockSize
  | _ => True

/-- The mounts that inodes lie on are healthy. -/
def AllHealthy (v : Volumes) : Prop :=
  ∀ i, ∀ m ∈ ops.byInode i, Healthy (v.mount m) (v.regular m)

end Model

/-- Every file is still there, and not shorter. -/
def Volumes.KeptIn (v v' : Volumes) : Prop :=
  ∀ m, ∀ f ∈ v.regular m, f ∈ v'.regular m ∧
    fileSize (readInode (v.mount m) f) ≤ fileSize (readInode (v'.mount m) f)

/-- What the functions without a definition do: the inode of a path, old or new, is one of its
mount, and a new file leaves the others and the device in order. -/
structure VolumeOps.Spec (ops : VolumeOps) : Prop where
  finds : ∀ (v : Volumes) m path i, ops.lookupPath v m path = some i →
    ∀ k ∈ ops.byInode i, i ∈ v.regular k
  creates : ∀ v m path, (ops.createFile v m path).1 ≠ 0 →
    ∀ k ∈ ops.byInode (ops.createFile v m path).1,
      (ops.createFile v m path).1 ∈ (ops.createFile v m path).2.regular k
  healthy : ∀ v m path, AllHealthy ops v → AllHealthy ops (ops.createFile v m path).2
  leaves : ∀ (v : Volumes) m path, v.KeptIn (ops.createFile v m path).2

/-- A descriptor is inside its file or at its end. -/
def Inside (ops : VolumeOps) (v : Volumes) (desc : FileDesc) : Prop :=
  ∀ m ∈ ops.byInode desc.inode, desc.inode ∈ v.regular m ∧
    desc.pos ≤ fileSize (readInode (v.mount m) desc.inode)

/-- The invariant of a run. -/
structure Orderly (ops : VolumeOps) (s : Session) : Prop where
  healthy : AllHealthy ops s.fs.files
  inside : ∀ fd, ∀ desc ∈ openDesc s.fs.descs fd, Inside ops s.fs.files desc
  flags : ∀ fd, ∀ desc ∈ openDesc s.fs.descs fd, desc.flags = s.openedWith fd.toNat

/-! ### Descriptors -/

section Descriptors

variable {ops : VolumeOps} {s : Session} {v v' : Volumes} {descs : Nat → FileDesc}
  {fd : Int} {d desc : FileDesc} {k m : Nat}

theorem Volumes.KeptIn.refl (v : Volumes) : v.KeptIn v := fun _ _ hf => ⟨hf, Nat.le_refl _⟩

theorem Inside.kept (h : Inside ops v desc) (hkept : v.KeptIn v') : Inside ops v' desc := by
  intro m hm
  obtain ⟨hfile, hpos⟩ := h m hm
  obtain ⟨hfile', hsize⟩ := hkept m _ hfile
  exact ⟨hfile', hpos.trans hsize⟩

/-- The open descriptors when one entry of the table is written. -/
theorem openDesc_update (h : openDesc (Function.update descs k d) fd = some desc) :
    fd.toNat = k ∧ desc = d ∨ fd.toNat ≠ k ∧ openDesc descs fd = some desc := by
  unfold openDesc at h ⊢
  by_cases hfd : fd.toNat = k
  · rw [hfd, Function.update_self] at h
    split at h
    · cases h
    · split at h
      · cases h
      · cases h
        exact .inl ⟨hfd, rfl⟩
  · rw [Function.update_of_ne hfd] at h
    exact .inr ⟨hfd, h⟩

/-- **One descriptor is written**, and the files are kept. -/
theorem Orderly.put (h : Orderly ops s) (hv : AllHealthy ops v) (hkept : s.fs.files.KeptIn v)
    (hinside : Inside ops v d) {flags : Nat → Nat} (hself : d.flags = flags k)
    (hothers : ∀ j, j ≠ k → flags j = s.openedWith j) :
    Orderly ops { fs := { s.fs with files := v, descs := Function.update s.fs.descs k d },
                  openedWith := flags } where
  healthy := hv
  inside fd desc hdesc := by
    rcases openDesc_update hdesc with ⟨-, rfl⟩ | ⟨-, hold⟩
    · exact hinside
    · exact (h.inside fd desc hold).kept hkept
  flags fd desc hdesc := by
    rcases openDesc_update hdesc with ⟨rfl, rfl⟩ | ⟨hne, hold⟩
    · exact hself
    · exact (h.flags fd desc hold).trans (hothers _ hne).symm

/-- **No descriptor is written**, and the files are kept. -/
theorem Orderly.keep (h : Orderly ops s) (hv : AllHealthy ops v) (hkept : s.fs.files.KeptIn v) :
    Orderly ops { s with fs := { s.fs with files := v } } where
  healthy := hv
  inside fd desc hdesc := (h.inside fd desc hdesc).kept hkept
  flags := h.flags

/-- **A transfer** leaves the files and moves the position of its descriptor. -/
theorem Orderly.move (h : Orderly ops s) (hv : AllHealthy ops v) (hkept : s.fs.files.KeptIn v)
    {pos : Nat} (hpos : ∀ desc ∈ openDesc s.fs.descs fd, Inside ops v { desc with pos }) :
    Orderly ops { s with fs := { s.fs with files := v, descs := moveTo s.fs.descs fd pos } } := by
  unfold moveTo
  cases hdesc : openDesc s.fs.descs fd with
  | none => exact h.keep hv hkept
  | some desc => exact h.put hv hkept (hpos desc hdesc) (h.flags fd desc hdesc) fun _ _ => rfl

end Descriptors

/-! ### Transfers -/

section Transfers

variable {image : Superblock → Bytes} {ops : VolumeOps} {s : Session} {fd : Int}
  {desc : FileDesc} {dst src : Bytes} {count : BitVec 32} {reads : Nat → Nat} {time m : Nat}
  {stack : Stack}

theorem mountOf_eq (hdesc : openDesc s.fs.descs fd = some desc) :
    mountOf ops s.fs fd = ops.byInode desc.inode := by
  rw [mountOf, hdesc, Option.bind_some]

theorem mountAt_eq (hdesc : openDesc s.fs.descs fd = some desc)
    (hm : ops.byInode desc.inode = some m) : mountAt ops s.fs fd = s.fs.files.mount m := by
  rw [mountAt, mountOf_eq hdesc, hm, Option.getD_some]

/-- Without a mount a read fails. -/
theorem readIn_unmounted (hdesc : openDesc s.fs.descs fd = some desc)
    (hnone : ops.byInode desc.inode = none) :
    readIn ops s.fs fd dst count reads = some { ret := -1, pos := desc.pos, dst } := by
  unfold readIn fsRead
  simp only [mountOf_eq hdesc, hnone, hdesc, Option.isSome_none, Bool.not_false, if_true]

/-- Without a mount a write fails. -/
theorem writeIn_unmounted (hdesc : openDesc s.fs.descs fd = some desc)
    (hnone : ops.byInode desc.inode = none) :
    writeIn image ops s.fs fd src count time stack =
      some { ret := -1, pos := desc.pos, mp := mountAt ops s.fs fd, stored := [] } := by
  unfold writeIn fsWrite
  simp only [mountOf_eq hdesc, hnone, hdesc, Option.isSome_none, Bool.not_false, if_true]

/-- So does a write without a descriptor. -/
theorem writeIn_closed (hdesc : openDesc s.fs.descs fd = none) :
    writeIn image ops s.fs fd src count time stack =
      some { ret := -1, pos := 0, mp := mountAt ops s.fs fd, stored := [] } := by
  unfold writeIn fsWrite
  simp only [hdesc]

/-- **A read** of a healthy file returns a number of bytes, and does not pass the end. -/
theorem Orderly.read (h : Orderly ops s) (hdesc : openDesc s.fs.descs fd = some desc)
    (hm : ops.byInode desc.inode = some m) (hrange : InRange ops s (.read fd dst count reads)) :
    ∃ r k, readIn ops s.fs fd dst count reads = some r ∧ r.ret = (k : Nat) ∧
      r.pos ≤ fileSize (readInode (s.fs.files.mount m) desc.inode) := by
  obtain ⟨hfile, hpos⟩ := h.inside fd desc hdesc m hm
  have hsize := ((h.healthy desc.inode m hm).present desc.inode hfile).1
  have hsmall : fileSize (readInode (s.fs.files.mount m) desc.inode) < 2 ^ 31 :=
    Nat.lt_of_le_of_lt hsize (by decide)
  obtain ⟨r, hr, hwithin⟩ := @fsRead_within (s.fs.files.mount m)
    ⟨s.fs.descs, fd, dst, count.toNat, true, reads⟩ desc hdesc rfl count.isLt hpos hsmall
    (hrange desc hdesc m hm)
  refine ⟨r, _, ?_, hwithin.ret, hwithin.within⟩
  rw [readIn, mountAt_eq hdesc hm, mountOf_eq hdesc, hm]
  exact hr

/-- **A write** to a healthy file. -/
theorem Orderly.write (image : Superblock → Bytes) (h : Orderly ops s)
    (hdesc : openDesc s.fs.descs fd = some desc) (hm : ops.byInode desc.inode = some m)
    (hrange : InRange ops s (.write fd src count time stack)) :
    ∃ r k, writeIn image ops s.fs fd src count time stack = some r ∧
      WroteBack image (s.fs.files.mount m) (s.fs.files.regular m)
        ⟨s.fs.descs, fd, src, count.toNat, true, time, stack⟩ desc r k ∧
      (desc.pos < fileSize (readInode (s.fs.files.mount m) desc.inode) → 0 < count.toNat → 0 < k) ∧
      Healthy r.mp (s.fs.files.regular m) ∧ ∀ g ∈ s.fs.files.regular m,
        fileSize (readInode r.mp g) = if g = desc.inode then
          max (fileSize (readInode (s.fs.files.mount m) g)) (desc.pos + k)
          else fileSize (readInode (s.fs.files.mount m) g) := by
  obtain ⟨hfile, hpos⟩ := h.inside fd desc hdesc m hm
  rw [writeIn, mountAt_eq hdesc hm, mountOf_eq hdesc, hm]
  exact fs_write_healthy image (h.healthy desc.inode m hm) hdesc rfl hfile hpos
    (hrange desc hdesc m hm)

/-- A read honours the flags exactly when they permit it. -/
theorem honours_read_iff (h : Orderly ops s) (hrange : InRange ops s (.read fd dst count reads)) :
    HonoursFlags image ops s (.read fd dst count reads) ↔
      Permitted ops s (.read fd dst count reads) := by
  unfold HonoursFlags Permitted
  cases hdesc : openDesc s.fs.descs fd with
  | none => simp [hdesc]
  | some desc =>
    simp only [hdesc, Option.mem_def, Option.some.injEq, forall_eq']
    cases hm : ops.byInode desc.inode with
    | none => exact ⟨fun _ => (by rintro _ ⟨⟩), fun _ _ => readIn_unmounted hdesc hm⟩
    | some m =>
      obtain ⟨r, k, hr, hret, -⟩ := h.read hdesc hm hrange
      refine ⟨?_, fun hpermitted hmode => absurd hmode (hpermitted m rfl)⟩
      intro hhonours _ _ hmode
      rw [hhonours hmode] at hr
      cases hr
      exact absurd hret (by simp only; omega)

/-- What a write at the end of a file leaves; inside it leaves something else, unless there is
nothing to write. -/
theorem appended_iff {mp : Mount} {files : Finset Nat} {call : WriteCall} {r : WriteResult}
    {k : Nat} (hwrote : WroteBack image mp files call desc r k)
    (hpos : desc.pos ≤ fileSize (readInode mp desc.inode))
    (hany : desc.pos < fileSize (readInode mp desc.inode) → 0 < call.count → 0 < k) :
    Appended mp desc.inode call.src r ↔
      desc.pos = fileSize (readInode mp desc.inode) ∨ call.count = 0 := by
  have hsize := hwrote.size
  constructor
  · rintro ⟨old, k', hold, -, hret, hnew, -⟩
    have hk : k = k' := Int.ofNat_inj.mp (hwrote.ret.symm.trans hret)
    by_contra hnot
    have := hany (by omega) (by omega)
    omega
  · intro hend
    obtain ⟨old, hold, hreads, hreads'⟩ := hwrote.contents
    refine ⟨old, k, hold, hreads, hwrote.ret, ?_, ?_⟩
    · have hwithin := hwrote.within
      omega
    · rcases hend with hend | hzero
      · rw [hend, ← hold, List.take_length, List.drop_eq_nil_of_le (Nat.le_add_right _ _),
          List.append_nil] at hreads'
        exact hreads'
      · have hk : k = 0 := Nat.le_zero.mp (hzero ▸ hwrote.within)
        subst hk
        rw [Nat.add_zero, show readBytes call.src 0 0 = [] from rfl, List.append_nil,
          List.take_append_drop] at hreads'
        rw [show readBytes call.src 0 0 = [] from rfl, List.append_nil]
        exact hreads'

/-- A write honours the flags exactly when they permit it. -/
theorem honours_write_iff (h : Orderly ops s)
    (hrange : InRange ops s (.write fd src count time stack)) :
    HonoursFlags image ops s (.write fd src count time stack) ↔
      Permitted ops s (.write fd src count time stack) := by
  unfold HonoursFlags Permitted
  cases hdesc : openDesc s.fs.descs fd with
  | none => simp [hdesc]
  | some desc =>
    simp only [hdesc, Option.mem_def, Option.some.injEq, forall_eq']
    cases hm : ops.byInode desc.inode with
    | none =>
      have hrefused : Refused (mountAt ops s.fs fd) desc
          { ret := -1, pos := desc.pos, mp := mountAt ops s.fs fd, stored := [] } := ⟨rfl, rfl, rfl⟩
      exact ⟨fun _ => (by rintro _ ⟨⟩),
        fun _ => ⟨_, writeIn_unmounted hdesc hm, fun _ => hrefused, fun _ => .inl hrefused⟩⟩
    | some m =>
      obtain ⟨r, k, hr, hwrote, hany, -⟩ := h.write image hdesc hm hrange
      have happended := appended_iff hwrote (h.inside fd desc hdesc m hm).2 hany
      have hnot : ¬ Refused (mountAt ops s.fs fd) desc r := fun hrefused => by
        have hret := hwrote.ret.symm.trans hrefused.1
        omega
      have hcount : count.toNat = 0 ↔ count = 0 := by
        rw [← BitVec.toNat_inj]
        rfl
      rw [mountAt_eq hdesc hm] at hnot ⊢
      simp only [hcount] at happended
      constructor
      · rintro ⟨r', hr', hrdonly, happend⟩ _ ⟨⟩
        cases hr.symm.trans hr'
        exact ⟨fun hmode => hnot (hrdonly hmode),
          fun hflag => happended.mp ((happend hflag).resolve_left hnot)⟩
      · intro hpermitted
        obtain ⟨hmode, hend⟩ := hpermitted m rfl
        exact ⟨r, hr, fun hrdonly => absurd hrdonly hmode,
          fun hflag => .inr (happended.mpr (hend hflag))⟩

end Transfers

/-! ### Runs -/

section Runs

variable {image : Superblock → Bytes} {ops : VolumeOps} {s s' : Session} {c : FileOp} {fd : Int}

/-- How `fs_open` ends when it leaves the volumes `v`: without a descriptor, or with one at the
start of a file. -/
def Ends (ops : VolumeOps) (fs : FileSystem Volumes) (flags : Nat) (v : Volumes)
    (result : Int × FileSystem Volumes) : Prop :=
  result = (-1, { fs with files := v }) ∨ ∃ (inode fd : Nat),
    (∀ m ∈ ops.byInode inode, inode ∈ v.regular m) ∧
      result = ((fd : Int), { fs with
        files := v
        descs := Function.update fs.descs fd { inode, pos := 0, flags, count := 1 } })

theorem openInode_ends (fs : FileSystem Volumes) (v : Volumes) {inode : Nat}
    (hinode : ∀ m ∈ ops.byInode inode, inode ∈ v.regular m) (flags : Nat) :
    Ends ops fs flags v (openInode { fs with files := v } inode flags) := by
  rcases openInode_outcome { fs with files := v } inode flags with ⟨fd, -, -, hfd⟩ | ⟨-, hnone⟩
  · exact .inr ⟨inode, fd, hinode, hfd⟩
  · exact .inl hnone

/-- `fs_open` keeps the files. -/
theorem fsOpen_kept (hops : ops.Spec) (fs : FileSystem Volumes) (hv : AllHealthy ops fs.files)
    (call : OpenCall) :
    ∃ v, AllHealthy ops v ∧ fs.files.KeptIn v ∧
      Ends ops fs call.flags v (fsOpen ops.toNameOps fs call) := by
  unfold fsOpen
  cases findMountPoint fs.mountPoints call.path with
  | none => exact ⟨fs.files, hv, .refl _, .inl rfl⟩
  | some mp =>
    dsimp only
    obtain ⟨path, hpath⟩ : ∃ path, localPath (fs.mountPoints mp) call = path := ⟨_, rfl⟩
    rw [hpath]
    cases hlookup : ops.lookupPath fs.files mp path with
    | some inode =>
      exact ⟨fs.files, hv, .refl _,
        openInode_ends fs fs.files (hops.finds _ _ _ _ hlookup) call.flags⟩
    | none =>
      dsimp only
      by_cases hflag : call.flags &&& oCreat = 0
      · rw [if_pos hflag]
        exact ⟨fs.files, hv, .refl _, .inl rfl⟩
      · rw [if_neg hflag]
        refine ⟨_, hops.healthy fs.files mp path hv, hops.leaves fs.files mp path, ?_⟩
        split
        · exact .inl rfl
        · rename_i hcreated
          exact openInode_ends fs _ (hops.creates _ _ _ hcreated) call.flags

/-- What a write does to the volumes. -/
theorem Orderly.writes (h : Orderly ops s) {src : Bytes} {count : BitVec 32} {time : Nat}
    {stack : Stack} (hrange : InRange ops s (.write fd src count time stack)) {r : WriteResult}
    (hr : writeIn image ops s.fs fd src count time stack = some r) {v : Volumes}
    (hv : v = { s.fs.files with
      mount := Function.update s.fs.files.mount ((mountOf ops s.fs fd).getD 0) r.mp }) :
    AllHealthy ops v ∧ s.fs.files.KeptIn v ∧
      ∀ desc ∈ openDesc s.fs.descs fd, Inside ops v { desc with pos := r.pos } := by
  -- A call that finds no mount changes nothing.
  have hsame : r.mp = mountAt ops s.fs fd → v = s.fs.files := fun hmp => by
    rw [hv, hmp, mountAt, Function.update_eq_self]
  cases hdesc : openDesc s.fs.descs fd with
  | none =>
    rw [writeIn_closed hdesc] at hr
    cases hr
    rw [hsame rfl]
    exact ⟨h.healthy, .refl _, by rintro _ ⟨⟩⟩
  | some desc =>
    simp only [Option.mem_def, Option.some.injEq, forall_eq']
    cases hm : ops.byInode desc.inode with
    | none =>
      rw [writeIn_unmounted hdesc hm] at hr
      cases hr
      rw [hsame rfl]
      exact ⟨h.healthy, .refl _, h.inside fd desc hdesc⟩
    | some m =>
      obtain ⟨r', k, hr', hwrote, -, hhealthy, hsizes⟩ := h.write image hdesc hm hrange
      cases hr.symm.trans hr'
      rw [mountOf_eq hdesc, hm, Option.getD_some] at hv
      subst hv
      obtain ⟨hfile, -⟩ := h.inside fd desc hdesc m hm
      refine ⟨?_, fun j f hf => ⟨hf, ?_⟩, ?_⟩
      · intro i k hk
        by_cases hkm : k = m
        · subst hkm
          simp only [Function.update_self]
          exact hhealthy
        · simp only [Function.update_of_ne hkm]
          exact h.healthy i k hk
      · by_cases hjm : j = m
        · subst hjm
          simp only [Function.update_self, hsizes f hf]
          split
          · exact Nat.le_max_left _ _
          · exact Nat.le_refl _
        · simp only [Function.update_of_ne hjm]
          exact Nat.le_refl _
      · intro j hj
        cases hm.symm.trans hj
        simp only [Function.update_self, hwrote.size, hwrote.pos]
        exact ⟨hfile, Nat.le_max_right _ _⟩

/-- **Step lemma.** -/
theorem Orderly.step (h : Orderly ops s) (hops : ops.Spec) (hrange : InRange ops s c)
    (hstep : fileStep image ops s c = some s') : Orderly ops s' := by
  cases c with
  | openPath call =>
    obtain ⟨v, hv, hkept, hfailed | ⟨inode, fd, hinode, hopened⟩⟩ :=
      fsOpen_kept hops s.fs h.healthy call
    · simp only [fileStep, hfailed] at hstep
      cases hstep
      exact h.keep hv hkept
    · simp only [fileStep, hopened, Int.natCast_nonneg, if_true, Int.toNat_natCast] at hstep
      cases hstep
      refine h.put hv hkept (fun m hm => ⟨hinode m hm, Nat.zero_le _⟩) ?_
        fun j hj => Function.update_of_ne hj ..
      rw [Function.update_self]
  | read fd dst count stack =>
    obtain ⟨r, hr, rfl⟩ := Option.map_eq_some_iff.mp hstep
    refine h.move h.healthy (.refl _) ?_
    intro desc hdesc m hm
    obtain ⟨r', k, hr', -, hpos⟩ := h.read hdesc hm hrange
    cases hr.symm.trans hr'
    exact ⟨(h.inside fd desc hdesc m hm).1, hpos⟩
  | write fd src count time stack =>
    obtain ⟨r, hr, rfl⟩ := Option.map_eq_some_iff.mp hstep
    obtain ⟨hv, hkept, hinside⟩ := h.writes hrange hr rfl
    exact h.move hv hkept hinside
  | close fd =>
    simp only [fileStep, fsClose] at hstep
    cases hdesc : openDesc s.fs.descs fd with
    | none =>
      rw [hdesc] at hstep
      cases hstep
      exact h
    | some desc =>
      rw [hdesc] at hstep
      cases hstep
      have hinside : Inside ops s.fs.files { desc with count := desc.count - 1 } :=
        h.inside fd desc hdesc
      exact h.put h.healthy (.refl _) hinside (h.flags fd desc hdesc) fun _ _ => rfl

/-- A call in a state of a run honours the flags exactly when they permit it. -/
theorem honours_iff (h : Orderly ops s) (hrange : InRange ops s c) :
    HonoursFlags image ops s c ↔ Permitted ops s c := by
  cases c with
  | openPath call => exact Iff.rfl
  | read fd dst count stack => exact honours_read_iff h hrange
  | write fd src count time stack => exact honours_write_iff h hrange
  | close fd => exact Iff.rfl

/-- Calls return. -/
theorem fileStep_total (image : Superblock → Bytes) (ops : VolumeOps) (s : Session) (c : FileOp) :
    ∃ s', fileStep image ops s c = some s' := by
  cases c with
  | openPath call => exact ⟨_, rfl⟩
  | read fd dst count stack =>
    obtain ⟨r, hr⟩ := @fsRead_total
      ⟨s.fs.descs, fd, dst, count.toNat, (mountOf ops s.fs fd).isSome, stack⟩
      (mountAt ops s.fs fd) count.isLt
    exact ⟨_, congrArg (Option.map _) hr⟩
  | write fd src count time stack =>
    obtain ⟨r, hr⟩ := @fsWrite_total image
      ⟨s.fs.descs, fd, src, count.toNat, (mountOf ops s.fs fd).isSome, time, stack⟩
      (mountAt ops s.fs fd) count.isLt
    exact ⟨_, congrArg (Option.map _) hr⟩
  | close fd => exact ⟨_, rfl⟩

/-- **Open flags.** In a run whose transfers stay in range, the calls do what the flags of their
descriptors ask for exactly when no call is made that the flags forbid, and those that append
find their descriptor at the end of the file. -/
theorem open_flags_iff (image : Superblock → Bytes) (hops : ops.Spec) (h : Orderly ops s)
    {calls : List FileOp} (hrange : Meets (fileStep image ops) (InRange ops) s calls) :
    Each (fileStep image ops) (HonoursFlags image ops) s calls ↔
      Each (fileStep image ops) (Permitted ops) s calls := by
  refine Each.congr (each_of_meets ?_ ?_ h hrange)
  · intro s c hs hok
    obtain ⟨s', hstep⟩ := fileStep_total image ops s c
    exact honours_iff hs (hok s' hstep)
  · intro s c s' hs hok hstep
    exact hs.step hops hok hstep

end Runs

/-! ### A log on a small device -/

section Log

instance (ops : VolumeOps) (s : Session) : ∀ c, Decidable (InRange ops s c)
  | .openPath _ => isTrue trivial
  | .read fd _ count _ => inferInstanceAs (Decidable (∀ desc ∈ openDesc s.fs.descs fd,
      ∀ m ∈ ops.byInode desc.inode, desc.pos + count.toNat < 2 ^ 32 ∨
        fileSize (readInode (s.fs.files.mount m) desc.inode) ≤ desc.pos))
  | .write fd _ count _ _ => inferInstanceAs (Decidable (∀ desc ∈ openDesc s.fs.descs fd,
      ∀ _ ∈ ops.byInode desc.inode, desc.pos + count.toNat ≤ dataSlots * blockSize))
  | .close _ => isTrue trivial

instance (ops : VolumeOps) (s : Session) : ∀ c, Decidable (Permitted ops s c)
  | .openPath _ => isTrue trivial
  | .read fd _ _ _ => inferInstanceAs (Decidable (∀ desc ∈ openDesc s.fs.descs fd,
      ∀ _ ∈ ops.byInode desc.inode, accessMode (s.openedWith fd.toNat) ≠ oWronly))
  | .write fd _ count _ _ => inferInstanceAs (Decidable (∀ desc ∈ openDesc s.fs.descs fd,
      ∀ m ∈ ops.byInode desc.inode, accessMode (s.openedWith fd.toNat) ≠ oRdonly ∧
        (s.openedWith fd.toNat &&& oAppend ≠ 0 →
          desc.pos = fileSize (readInode (s.fs.files.mount m) desc.inode) ∨ count = 0)))
  | .close _ => isTrue trivial

/-- The small device at `/`, where `a` is file 2. It has no free inode. -/
def tinyOps : VolumeOps where
  lookupPath v _ path := if path = [0x61#8] ∧ 2 ∈ v.regular 0 then some 2 else none
  createFile v _ _ := (0, v)
  byInode _ := some 0

theorem tinyOps_spec : tinyOps.Spec where
  finds v m path i hlookup k hk := by
    cases hk
    simp only [tinyOps, Option.ite_none_right_eq_some] at hlookup
    obtain ⟨⟨-, hfile⟩, hi⟩ := hlookup
    cases hi
    exact hfile
  creates v m path hne := absurd rfl hne
  healthy v m path hv := hv
  leaves v m path := .refl v

/-- Nothing is open. -/
def tinySession : Session where
  fs :=
    { mountPoints := twoMounts
      files := { mount := fun _ => tinyMount fun _ => 0#8, regular := fun _ => {1, 2} }
      descs := fun _ => { inode := 0, pos := 0, flags := 0, count := 0 } }
  openedWith _ := 0

theorem tinySession_closed (fd : Int) : openDesc tinySession.fs.descs fd = none := by
  unfold openDesc tinySession
  simp

theorem tinySession_orderly : Orderly tinyOps tinySession where
  healthy _ _ _ := tinyMount_healthy
  inside fd desc hdesc := by
    rw [tinySession_closed] at hdesc
    cases hdesc
  flags fd desc hdesc := by
    rw [tinySession_closed] at hdesc
    cases hdesc

/-- `fs_open("/a", flags)`. -/
def openA (flags : Nat) : FileOp := .openPath { createA with flags }

def writeVia (fd : Int) (count : BitVec 32) : FileOp :=
  .write fd (fun i => BitVec.ofNat 8 (i + 1)) count 7 ⟨fun _ => 3, fun _ _ => 0#8⟩

def readVia (fd : Int) (count : BitVec 32) : FileOp :=
  .read fd (fun _ => 0#8) count fun _ => 0

/-- A log that is opened once, and read through a descriptor of its own. -/
theorem open_flags_iff_log :
    Each (fileStep (fun _ _ => 0#8) tinyOps) (HonoursFlags (fun _ _ => 0#8) tinyOps) tinySession
      [openA (oWronly ||| oAppend), writeVia 0 5, openA oRdonly, readVia 1 5, writeVia 0 3,
        .close 0] := by
  refine (open_flags_iff _ tinyOps_spec tinySession_orderly ?_).mpr ?_
  · decide +kernel
  · decide +kernel

/-- The flags a write finds, its result, and the size of the file before and after it. -/
def observeWrite (image : Superblock → Bytes) (ops : VolumeOps) (fd : Int) (src : Bytes)
    (count : BitVec 32) (time : Nat) (stack : Stack) (s : Session) :
    Option (Nat × Int × Nat × Nat) :=
  (openDesc s.fs.descs fd).bind fun desc =>
    (writeIn image ops s.fs fd src count time stack).map fun r =>
      (s.openedWith fd.toNat, r.ret, fileSize (readInode (mountAt ops s.fs fd) desc.inode),
        fileSize (readInode r.mp desc.inode))

theorem HonoursFlags.observed {image : Superblock → Bytes} {ops : VolumeOps} {s : Session}
    {fd : Int} {src : Bytes} {count : BitVec 32} {time : Nat} {stack : Stack} {flags : Nat}
    {ret : Int} {before after : Nat}
    (h : HonoursFlags image ops s (.write fd src count time stack))
    (hobserved : observeWrite image ops fd src count time stack s =
      some (flags, ret, before, after)) :
    (accessMode flags = oRdonly → ret = -1) ∧
      (flags &&& oAppend ≠ 0 → ret = -1 ∨ (after : Int) = before + ret) := by
  obtain ⟨desc, hdesc, hwrite⟩ := Option.bind_eq_some_iff.mp hobserved
  obtain ⟨r, hr, hvalues⟩ := Option.map_eq_some_iff.mp hwrite
  obtain ⟨r', hr', hrdonly, happend⟩ := h desc hdesc
  cases hr.symm.trans hr'
  cases hvalues
  refine ⟨fun hmode => (hrdonly hmode).1, ?_⟩
  intro hflag
  rcases happend hflag with hrefused | ⟨old, k, hold, -, hret, hnew, -⟩
  · exact .inl hrefused.1
  · refine .inr ?_
    rw [hret, hnew, hold]
    exact Int.natCast_add _ _

/-- Five bytes are appended to the log, it is closed and opened again to append: the next byte
goes over the first one, and the file stays as long as it was. A write through a read-only
descriptor and a read through a write-only one succeed. -/
theorem reopened_log_overwritten :
    ¬ Each (fileStep (fun _ _ => 0#8) tinyOps) (HonoursFlags (fun _ _ => 0#8) tinyOps) tinySession
        ([openA (oWronly ||| oAppend), writeVia 0 5, .close 0, openA (oWronly ||| oAppend)] ++
          [writeVia 0 1]) ∧
      ¬ Each (fileStep (fun _ _ => 0#8) tinyOps) (HonoursFlags (fun _ _ => 0#8) tinyOps)
        tinySession ([openA oRdonly] ++ [writeVia 0 1]) ∧
      ¬ Each (fileStep (fun _ _ => 0#8) tinyOps) (HonoursFlags (fun _ _ => 0#8) tinyOps)
        tinySession ([openA oWronly, writeVia 0 5, openA oWronly] ++ [readVia 1 5]) := by
  refine ⟨?_, ?_, ?_⟩
  · intro h
    have hrun : (run (fileStep (fun _ _ => 0#8) tinyOps) tinySession
        [openA (oWronly ||| oAppend), writeVia 0 5, .close 0, openA (oWronly ||| oAppend)]).bind
        (observeWrite (fun _ _ => 0#8) tinyOps 0 (fun i => BitVec.ofNat 8 (i + 1)) 1 7
          ⟨fun _ => 3, fun _ _ => 0#8⟩) = some (oWronly ||| oAppend, 1, 5, 5) := by decide +kernel
    obtain ⟨t, ht, hobserved⟩ := Option.bind_eq_some_iff.mp hrun
    have happend := ((h.at_append ht).observed hobserved).2 (by decide)
    omega
  · intro h
    have hrun : (run (fileStep (fun _ _ => 0#8) tinyOps) tinySession [openA oRdonly]).bind
        (observeWrite (fun _ _ => 0#8) tinyOps 0 (fun i => BitVec.ofNat 8 (i + 1)) 1 7
          ⟨fun _ => 3, fun _ _ => 0#8⟩) = some (oRdonly, 1, 0, 1) := by decide +kernel
    obtain ⟨t, ht, hobserved⟩ := Option.bind_eq_some_iff.mp hrun
    have hrdonly := ((h.at_append ht).observed hobserved).1 (by decide)
    omega
  · intro h
    have hrun : (run (fileStep (fun _ _ => 0#8) tinyOps) tinySession
        [openA oWronly, writeVia 0 5, openA oWronly]).bind (fun t =>
          (openDesc t.fs.descs 1).bind fun desc =>
            (readIn tinyOps t.fs 1 (fun _ => 0#8) 5 fun _ => 0).map fun r =>
              (t.openedWith 1, desc.inode, r.ret)) = some (oWronly, 2, 5) := by decide +kernel
    obtain ⟨t, ht, hobserved⟩ := Option.bind_eq_some_iff.mp hrun
    obtain ⟨desc, hdesc, hread⟩ := Option.bind_eq_some_iff.mp hobserved
    obtain ⟨r, hr, hvalues⟩ := Option.map_eq_some_iff.mp hread
    have hmode : t.openedWith 1 = oWronly := congrArg (fun x => x.1) hvalues
    have hret : r.ret = 5 := congrArg (fun x => x.2.2) hvalues
    have hrefused := h.at_append ht desc hdesc (by
      rw [show t.openedWith (1 : Int).toNat = oWronly from hmode]
      decide)
    rw [hr] at hrefused
    cases hrefused
    cases hret

end Log

end ArmKernel.Fs

/-
Opening a file (`src/fs_file.c`: `fs_open`; `src/fs_core.c`: `find_free_fd`).

`lookup_path` and `create_file` are called and not defined in the source: they are parameters
over the state `S` of the mounted file systems (`NameOps`), and `CreateSpec` says what a call of
`create_file` does to the directory entries and inodes. `lookup_path` does not change them.

`fsOpen_outcome` lists the ways a call can end. A file is created before a descriptor is looked
for, and `failed_open_iff` says when this leaves a trace.
-/
import ArmKernel.Fs.FileBlocks
import ArmKernel.Fs.Mounts

namespace ArmKernel.Fs

open ArmKernel.Support

/-- `O_CREAT`. -/
def oCreat : Nat := 0x0100

/-- `MAX_PATH`. -/
def maxPath : Nat := 1024

/-- `lookup_path`, which fails with `none`, and `create_file` of a regular file, which fails with
inode number 0. Both take the mount and the path in it. -/
structure NameOps (S : Type*) where
  lookupPath : S → Nat → List (BitVec 8) → Option Nat
  createFile : S → Nat → List (BitVec 8) → Nat × S

/-- `mount_points`, what is mounted there, and `file_descs`. -/
structure FileSystem (S : Type*) where
  mountPoints : Nat → MountPoint
  files : S
  descs : Nat → FileDesc

/-- A call of `fs_open`. `stack` is what lies behind `local_path` before a NUL, which a path of
`MAX_PATH` bytes or more goes on with. -/
structure OpenCall where
  path : CString
  flags : Nat
  stack : List (BitVec 8)

/-- The string in `local_path` after `strncpy`. -/
def localPath (mount : MountPoint) (call : OpenCall) : List (BitVec 8) :=
  let rest := call.path.bytes.drop mount.path.length
  if rest.length < maxPath then rest else rest.take maxPath ++ call.stack

/-- `find_free_fd`, from descriptor `fd` on; `none` is -1. -/
def findFreeFd (descs : Nat → FileDesc) : (rounds fd : Nat) → Option Nat
  | 0, _ => none
  | rounds + 1, fd => if (descs fd).count = 0 then some fd else findFreeFd descs rounds (fd + 1)

variable {S : Type*}

/-- The end of `fs_open`: a descriptor for the inode. -/
def openInode (fs : FileSystem S) (inodeNo flags : Nat) : Int × FileSystem S :=
  match findFreeFd fs.descs maxOpenFiles 0 with
  | none => (-1, fs)
  | some fd =>
    (fd, { fs with
      descs := Function.update fs.descs fd { inode := inodeNo, pos := 0, flags, count := 1 } })

/-- `fs_open`. -/
def fsOpen (ops : NameOps S) (fs : FileSystem S) (call : OpenCall) : Int × FileSystem S :=
  match findMountPoint fs.mountPoints call.path with
  | none => (-1, fs)
  | some mp =>
    let path := localPath (fs.mountPoints mp) call
    match ops.lookupPath fs.files mp path with
    | some inodeNo => openInode fs inodeNo call.flags
    | none =>
      if call.flags &&& oCreat = 0 then (-1, fs)
      else
        let (inodeNo, files) := ops.createFile fs.files mp path
        if inodeNo = 0 then (-1, { fs with files })
        else openInode { fs with files } inodeNo call.flags

/-- What a call of `create_file` does, where `entries` are the directory entries of a state by
mount and path, and `inodes` its inodes. -/
structure CreateSpec (ops : NameOps S) (entries : S → Nat → List (BitVec 8) → Option Nat)
    (inodes : S → Nat → Nat → Option Bytes) : Prop where
  fails : ∀ s mp path, (ops.createFile s mp path).1 = 0 → (ops.createFile s mp path).2 = s
  adds : ∀ s mp path, (ops.createFile s mp path).1 ≠ 0 →
    entries s mp path = none ∧
      entries (ops.createFile s mp path).2 mp path = some (ops.createFile s mp path).1 ∧
      inodes s mp (ops.createFile s mp path).1 = none ∧
      (inodes (ops.createFile s mp path).2 mp (ops.createFile s mp path).1).isSome

/-- A call that fails changes neither the files nor the descriptors; a call that succeeds returns
a descriptor that was free, and changes no other. -/
structure LeavesNoTrace (ops : NameOps S) (fs : FileSystem S) (call : OpenCall) : Prop where
  failed : (fsOpen ops fs call).1 = -1 →
    (fsOpen ops fs call).2.files = fs.files ∧ (fsOpen ops fs call).2.descs = fs.descs
  opened : ∀ fd : Nat, (fsOpen ops fs call).1 = fd →
    fd < maxOpenFiles ∧ (fs.descs fd).count = 0 ∧
      ∀ fd', fd' ≠ fd → (fsOpen ops fs call).2.descs fd' = fs.descs fd'

/-- The call gets to `create_file`, which creates a file. -/
def Creates (ops : NameOps S) (fs : FileSystem S) (call : OpenCall) : Prop :=
  ∃ mp, findMountPoint fs.mountPoints call.path = some mp ∧
    ops.lookupPath fs.files mp (localPath (fs.mountPoints mp) call) = none ∧
    call.flags &&& oCreat ≠ 0 ∧
    (ops.createFile fs.files mp (localPath (fs.mountPoints mp) call)).1 ≠ 0

/-! ### Descriptors -/

section Descriptors

variable {fs : FileSystem S} {descs : Nat → FileDesc} {fd : Nat}

/-- The search finds a free descriptor, or all are in use. -/
theorem findFreeFd_spec (descs : Nat → FileDesc) (rounds fd : Nat) :
    (∃ k, findFreeFd descs rounds fd = some k ∧ k < fd + rounds ∧ (descs k).count = 0) ∨
      findFreeFd descs rounds fd = none ∧ ∀ k, fd ≤ k → k < fd + rounds → (descs k).count ≠ 0 := by
  induction rounds generalizing fd with
  | zero => exact .inr ⟨rfl, fun k hlow hhigh => absurd hhigh (Nat.not_lt.mpr hlow)⟩
  | succ rounds ih =>
    have hnext : fd + 1 + rounds = fd + (rounds + 1) := by omega
    unfold findFreeFd
    split
    · rename_i hfree
      exact .inl ⟨fd, rfl, by omega, hfree⟩
    · rename_i hused
      rcases ih (fd + 1) with ⟨k, hfound, hlt, hfree⟩ | ⟨hnone, hall⟩
      · exact .inl ⟨k, hfound, hnext ▸ hlt, hfree⟩
      · refine .inr ⟨hnone, ?_⟩
        intro k hlow hhigh
        rcases Nat.lt_or_eq_of_le hlow with hlt | rfl
        · exact hall k hlt (hnext ▸ hhigh)
        · exact hused

/-- A descriptor is free. -/
def HasFreeFd (descs : Nat → FileDesc) : Prop := ∃ fd < maxOpenFiles, (descs fd).count = 0

/-- The two ways in which the end of `fs_open` goes. -/
theorem openInode_outcome (fs : FileSystem S) (inodeNo flags : Nat) :
    (∃ fd < maxOpenFiles, (fs.descs fd).count = 0 ∧
        openInode fs inodeNo flags = ((fd : Int), { fs with
          descs := Function.update fs.descs fd { inode := inodeNo, pos := 0, flags, count := 1 } })) ∨
      ¬ HasFreeFd fs.descs ∧ openInode fs inodeNo flags = (-1, fs) := by
  unfold openInode
  rcases findFreeFd_spec fs.descs maxOpenFiles 0 with ⟨fd, hfound, hlt, hfree⟩ | ⟨hnone, hall⟩
  · rw [hfound]
    exact .inl ⟨fd, Nat.zero_add maxOpenFiles ▸ hlt, hfree, rfl⟩
  · rw [hnone]
    refine .inr ⟨fun ⟨fd, hlt, hfree⟩ => hall fd (Nat.zero_le fd) ?_ hfree, rfl⟩
    rwa [Nat.zero_add]

end Descriptors

/-! ### The call -/

section Open

variable {ops : NameOps S} {fs : FileSystem S} {call : OpenCall}
  {entries : S → Nat → List (BitVec 8) → Option Nat} {inodes : S → Nat → Nat → Option Bytes}

/-- How a call ends: it fails before anything has changed; or it is left to find a descriptor for
an inode, in the files as they were or with a new one. -/
theorem fsOpen_outcome (h : CreateSpec ops entries inodes) :
    (fsOpen ops fs call).1 = -1 ∧ (fsOpen ops fs call).2 = fs ∧ ¬ Creates ops fs call ∨
      (∃ inodeNo, fsOpen ops fs call = openInode fs inodeNo call.flags) ∧ ¬ Creates ops fs call ∨
      ∃ inodeNo files, fsOpen ops fs call = openInode { fs with files } inodeNo call.flags ∧
        Creates ops fs call ∧ files ≠ fs.files := by
  unfold fsOpen Creates
  cases hmount : findMountPoint fs.mountPoints call.path with
  | none => exact .inl ⟨rfl, rfl, by rintro ⟨mp, ⟨⟩, -⟩⟩
  | some mp =>
    dsimp only
    cases hlookup : ops.lookupPath fs.files mp (localPath (fs.mountPoints mp) call) with
    | some inodeNo =>
      refine .inr (.inl ⟨⟨inodeNo, rfl⟩, ?_⟩)
      rintro ⟨mp', ⟨⟩, hnone, -⟩
      rw [hlookup] at hnone
      cases hnone
    | none =>
      by_cases hflag : call.flags &&& oCreat = 0
      · rw [if_pos hflag]
        exact .inl ⟨rfl, rfl, fun ⟨_, _, _, hcreat, _⟩ => hcreat hflag⟩
      · rw [if_neg hflag]
        by_cases hzero : (ops.createFile fs.files mp (localPath (fs.mountPoints mp) call)).1 = 0
        · rw [if_pos hzero]
          refine .inl ⟨rfl, ?_, ?_⟩
          · rw [h.fails _ _ _ hzero]
          · rintro ⟨mp', ⟨⟩, -, -, hcreated⟩
            exact hcreated hzero
        · rw [if_neg hzero]
          refine .inr (.inr ⟨_, _, rfl, ⟨mp, rfl, hlookup, hflag, hzero⟩, ?_⟩)
          intro hsame
          obtain ⟨hbefore, hafter, -⟩ := h.adds _ _ _ hzero
          rw [hsame, hbefore] at hafter
          cases hafter

/-- An open that finds a descriptor changes that one only. -/
theorem leavesNoTrace_opened {files : S} {inodeNo fd : Nat} (hlt : fd < maxOpenFiles)
    (hfree : (fs.descs fd).count = 0)
    (hopen : fsOpen ops fs call = ((fd : Int), { fs with
      files
      descs := Function.update fs.descs fd
        { inode := inodeNo, pos := 0, flags := call.flags, count := 1 } })) :
    LeavesNoTrace ops fs call := by
  constructor
  · rw [hopen]
    intro hfailed
    exact absurd hfailed (by simp only; omega)
  · rw [hopen]
    intro fd' hfd
    have heq : fd = fd' := Int.ofNat_inj.mp hfd
    subst heq
    exact ⟨hlt, hfree, fun fd' hne => Function.update_of_ne hne ..⟩

/-- A failed open that changed nothing. -/
theorem leavesNoTrace_failed (hret : (fsOpen ops fs call).1 = -1)
    (hsame : (fsOpen ops fs call).2 = fs) : LeavesNoTrace ops fs call := by
  constructor
  · intro _
    rw [hsame]
    exact ⟨rfl, rfl⟩
  · intro fd hfd
    rw [hret] at hfd
    omega

/-- **A failed open** leaves no trace exactly when there is a descriptor for the file that it
creates, if it creates one. -/
theorem failed_open_iff (h : CreateSpec ops entries inodes) (fs : FileSystem S)
    (call : OpenCall) :
    LeavesNoTrace ops fs call ↔ (Creates ops fs call → HasFreeFd fs.descs) := by
  rcases @fsOpen_outcome S ops fs call _ _ h with
    ⟨hret, hsame, hnot⟩ | ⟨⟨inodeNo, hopen⟩, hnot⟩ | ⟨inodeNo, files, hopen, hcreates, hnew⟩
  · exact ⟨fun _ hcreates => absurd hcreates hnot, fun _ => leavesNoTrace_failed hret hsame⟩
  · refine ⟨fun _ hcreates => absurd hcreates hnot, ?_⟩
    intro _
    rcases openInode_outcome fs inodeNo call.flags with ⟨fd, hlt, hfree, hfd⟩ | ⟨-, hnone⟩
    · exact leavesNoTrace_opened hlt hfree (hopen.trans hfd)
    · rw [hnone] at hopen
      exact leavesNoTrace_failed (congrArg Prod.fst hopen) (congrArg Prod.snd hopen)
  · rcases openInode_outcome { fs with files } inodeNo call.flags with
      ⟨fd, hlt, hfree, hfd⟩ | ⟨hnofd, hnone⟩
    · exact ⟨fun _ _ => ⟨fd, hlt, hfree⟩,
        fun _ => leavesNoTrace_opened hlt hfree (hopen.trans hfd)⟩
    · rw [hnone] at hopen
      refine ⟨?_, fun hfd => absurd (hfd hcreates) hnofd⟩
      intro htrace
      have hfiles := (htrace.failed (congrArg Prod.fst hopen)).1
      rw [hopen] at hfiles
      exact absurd hfiles hnew

end Open

/-! ### A list of names -/

/-- Directory entries: mount, path and inode number. -/
abbrev NameTable := List (Nat × List (BitVec 8) × Nat)

namespace NameTable

def entry (t : NameTable) (mp : Nat) (path : List (BitVec 8)) : Option Nat :=
  (t.find? fun e => e.1 == mp && e.2.1 == path).map (·.2.2)

def inode (t : NameTable) (_ no : Nat) : Option Bytes :=
  if no ∈ t.map (·.2.2) then some fun _ => 0#8 else none

/-- A number that no entry has. -/
def nextInode : NameTable → Nat
  | [] => 1
  | e :: t => max (e.2.2 + 1) (nextInode t)

def ops : NameOps NameTable where
  lookupPath := entry
  createFile t mp path :=
    if t.entry mp path = none then (t.nextInode, (mp, path, t.nextInode) :: t) else (0, t)

theorem lt_nextInode (t : NameTable) : ∀ no ∈ t.map (·.2.2), no < t.nextInode := by
  induction t with
  | nil => exact fun _ h => absurd h List.not_mem_nil
  | cons e t ih =>
    intro no hno
    rw [List.map_cons] at hno
    rcases List.mem_cons.mp hno with rfl | hold
    · exact Nat.lt_of_lt_of_le (Nat.lt_succ_self _) (Nat.le_max_left _ _)
    · exact Nat.lt_of_lt_of_le (ih no hold) (Nat.le_max_right _ _)

theorem nextInode_pos (t : NameTable) : 0 < t.nextInode := by
  cases t with
  | nil => exact Nat.one_pos
  | cons e t => exact Nat.lt_of_lt_of_le (Nat.succ_pos _) (Nat.le_max_left _ _)

theorem ops_spec : CreateSpec ops entry inode where
  fails t mp path hzero := by
    unfold ops at hzero ⊢
    dsimp only at hzero ⊢
    split
    · rename_i hnew
      rw [if_pos hnew] at hzero
      exact absurd hzero (Nat.ne_of_gt t.nextInode_pos)
    · rfl
  adds t mp path hne := by
    unfold ops at hne ⊢
    dsimp only at hne ⊢
    split
    · rename_i hnew
      refine ⟨hnew, by simp [entry], if_neg fun hmem => ?_, by simp [inode]⟩
      exact Nat.lt_irrefl _ (t.lt_nextInode _ hmem)
    · rename_i hold
      rw [if_neg hold] at hne
      exact absurd rfl hne

end NameTable

/-- One mount, no files, and the first `used` descriptors open. -/
def emptyRoot (used : Nat) : FileSystem NameTable where
  mountPoints := twoMounts
  files := []
  descs fd := { inode := 1, pos := 0, flags := 0, count := if fd < used then 1 else 0 }

/-- `open("/a", O_CREAT)`. -/
def createA : OpenCall := { path := ⟨[slash, 0x61#8], by decide⟩, flags := oCreat, stack := [] }

theorem failed_open_iff_last : LeavesNoTrace NameTable.ops (emptyRoot 127) createA :=
  (failed_open_iff NameTable.ops_spec (emptyRoot 127) createA).mpr fun _ =>
    ⟨127, by decide, rfl⟩

/-- With all descriptors in use the call fails, and the file is there. -/
theorem failed_open_leaves_file :
    (fsOpen NameTable.ops (emptyRoot 128) createA).1 = -1 ∧
      (fsOpen NameTable.ops (emptyRoot 128) createA).2.files = [(0, [0x61#8], 1)] ∧
      ¬ LeavesNoTrace NameTable.ops (emptyRoot 128) createA := by
  have hret : (fsOpen NameTable.ops (emptyRoot 128) createA).1 = -1 := by decide +kernel
  have hfiles : (fsOpen NameTable.ops (emptyRoot 128) createA).2.files = [(0, [0x61#8], 1)] := by
    decide +kernel
  refine ⟨hret, hfiles, ?_⟩
  intro h
  have hsame := (h.failed hret).1
  rw [hfiles] at hsame
  cases hsame

end ArmKernel.Fs

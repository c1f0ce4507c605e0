/-
What a program sees of the files (`src/fs_file.c`: `fs_open`, `fs_read`, `fs_write`, `fs_close`).

`NamedFiles` is what the block devices are for: paths lead to inodes, and an inode of a regular
file is a list of bytes. `FilesAllow` says over it what a call may answer and do; `fs_open` and
`fs_close` are those of the source, run on named files. `FileSystem.view` reads the named files off
the devices.

`sessions_refine`: the calls of a run answer as the specification says. `lookup_path` and
`create_file` have no definition in the source; `VolumeOps.Names` says what the run needs of them.
-/
import ArmKernel.Fs.OpenFlags
import ArmKernel.Support.Simulation

namespace ArmKernel.Fs

open ArmKernel.Support

/-- Paths on a mount lead to inodes, and the inodes of regular files have bytes; a mount may be
full. -/
structure NamedFiles where
  names : Nat → List (BitVec 8) → Option Nat
  files : Nat → Nat → Option (List (BitVec 8))
  full : Nat → Prop

/-- What a call returns, with the memory of the buffer of a read. -/
inductive Answer where
  | ret (n : Int)
  | read (n : Int) (dst : Bytes)

namespace NamedFiles

variable (a : NamedFiles)

/-- The bytes of a file. -/
def setFile (m i : Nat) (data : List (BitVec 8)) : NamedFiles :=
  { a with files := Function.update a.files m (Function.update (a.files m) i (some data)) }

/-- What `create_file` may do: fail and leave the files, or add an empty file that the path leads
to. Other paths lead where they did, or to the new file as well. -/
inductive Created (m : Nat) (path : List (BitVec 8)) : Nat × NamedFiles → Prop where
  | failed : Created m path (0, a)
  | created (i : Nat) (names : Nat → List (BitVec 8) → Option Nat) (full : Nat → Prop) (hi : i ≠ 0)
      (hfree : a.files m i = none) (hpath : names m path = some i)
      (hnames : ∀ k p, names k p = a.names k p ∨ k = m ∧ a.names k p = none ∧ names k p = some i) :
      Created m path (i, { a.setFile m i [] with names, full })

end NamedFiles

/-- The bytes of `data` with `bytes` over them from `pos` on. -/
def overlay (data : List (BitVec 8)) (pos : Nat) (bytes : List (BitVec 8)) : List (BitVec 8) :=
  data.take pos ++ bytes ++ data.drop (pos + bytes.length)

section Spec

variable (byInode : Nat → Option Nat)

/-- `fs_open`, with a `create_file` that does what it may. -/
def OpenAllows (a : FileSystem NamedFiles) (call : OpenCall) (x : Answer)
    (a' : FileSystem NamedFiles) : Prop :=
  ∃ ops : NameOps NamedFiles, (∀ n : NamedFiles, ops.lookupPath n = n.names) ∧
    (∀ (n : NamedFiles) m path, n.names m path = none →
      n.Created m path (ops.createFile n m path)) ∧
    x = .ret (fsOpen ops a call).1 ∧ a' = (fsOpen ops a call).2

/-- `fs_read`: the bytes that there are from the position on, as many as are asked for. -/
def ReadAllows (a : FileSystem NamedFiles) (fd : Int) (dst : Bytes) (count : Nat) (x : Answer)
    (a' : FileSystem NamedFiles) : Prop :=
  match openDesc a.descs fd with
  | none => x = .read (-1) dst ∧ a' = a
  | some desc =>
    match byInode desc.inode with
    | none => x = .read (-1) dst ∧ a' = a
    | some m => ∃ data bytes, a.files.files m desc.inode = some data ∧
        bytes = (data.drop desc.pos).take count ∧
        x = .read bytes.length (storeBytes dst 0 bytes) ∧
        a' = { a with descs := moveTo a.descs fd (desc.pos + bytes.length) }

/-- `fs_write`: the first bytes of the buffer go over the file, some of them inside the file, and
all of them unless the mount is full then. -/
def WriteAllows (a : FileSystem NamedFiles) (fd : Int) (src : Bytes) (count : Nat) (x : Answer)
    (a' : FileSystem NamedFiles) : Prop :=
  match openDesc a.descs fd with
  | none => x = .ret (-1) ∧ a' = a
  | some desc =>
    match byInode desc.inode with
    | none => x = .ret (-1) ∧ a' = a
    | some m => ∃ data k full, a.files.files m desc.inode = some data ∧ k ≤ count ∧
        (desc.pos < data.length → 0 < count → 0 < k) ∧ (k < count → full m) ∧
        (∀ j, j ≠ m → full j = a.files.full j) ∧ x = .ret (k : Nat) ∧
        a' = { a with
          files := { a.files.setFile m desc.inode (overlay data desc.pos (readBytes src 0 k)) with
            full }
          descs := moveTo a.descs fd (desc.pos + k) }

/-- What a call may answer, and the files after it. -/
def FilesAllow (a : FileSystem NamedFiles) : FileOp → Answer → FileSystem NamedFiles → Prop
  | .openPath call, x, a' => OpenAllows a call x a'
  | .read fd dst count _, x, a' => ReadAllows byInode a fd dst count.toNat x a'
  | .write fd src count _ _, x, a' => WriteAllows byInode a fd src count.toNat x a'
  | .close fd, x, a' => x = .ret (fsClose a fd).1 ∧ a' = (fsClose a fd).2

end Spec

/-! ### The devices as named files -/

/-- The bytes of a regular file. -/
def fileData (mp : Mount) (f : Nat) : List (BitVec 8) :=
  readBytes (fileByte mp (readInode mp f)) 0 (fileSize (readInode mp f))

/-- The named files on the devices. A mount is full when `alloc_block` fails. -/
def Volumes.named (image : Superblock → Bytes) (ops : VolumeOps) (v : Volumes) : NamedFiles where
  names := ops.lookupPath v
  files m f := if f ∈ v.regular m then some (fileData (v.mount m) f) else none
  full m := (allocBlock image (v.mount m)).1 = 0

/-- A file system, seen with named files. -/
def FileSystem.view (image : Superblock → Bytes) (ops : VolumeOps) (fs : FileSystem Volumes) :
    FileSystem NamedFiles :=
  { mountPoints := fs.mountPoints, files := fs.files.named image ops, descs := fs.descs }

/-- What the functions without a definition do to names and files: `create_file` of a path that
leads nowhere does what it may, and what `fs_write` stores for a regular file changes no path. -/
structure VolumeOps.Names (image : Superblock → Bytes) (ops : VolumeOps) : Prop
    extends ops.Spec where
  created : ∀ v m path, AllHealthy ops v → ops.lookupPath v m path = none →
    (v.named image ops).Created m path
      ((ops.createFile v m path).1, (ops.createFile v m path).2.named image ops)
  written : ∀ (v : Volumes) m call desc r k,
    WroteBack image (v.mount m) (v.regular m) call desc r k → desc.inode ∈ v.regular m →
    ops.lookupPath { v with mount := Function.update v.mount m r.mp } = ops.lookupPath v

/-- A call, with its answer. -/
def fileCall (image : Superblock → Bytes) (ops : VolumeOps) (s : Session) (c : FileOp) :
    Option (Answer × Session) :=
  (fileStep image ops s c).bind fun s' =>
    match c with
    | .openPath call => some (.ret (fsOpen ops.toNameOps s.fs call).1, s')
    | .read fd dst count stack =>
      (readIn ops s.fs fd dst count stack).map fun r => (.read r.ret r.dst, s')
    | .write fd src count time stack =>
      (writeIn image ops s.fs fd src count time stack).map fun r => (.ret r.ret, s')
    | .close fd => some (.ret (fsClose s.fs fd).1, s')

section Data

variable {mp : Mount} {f : Nat} {data data' : List (BitVec 8)}

@[simp] theorem fileData_length : (fileData mp f).length = fileSize (readInode mp f) :=
  readBytes_length

/-- A reader of the whole file gets one list of bytes. -/
theorem Reads.unique (h : Reads mp f data) (h' : Reads mp f data') (hlt : data.length < 2 ^ 32)
    (hlt' : data'.length < 2 ^ 32) : data = data' := by
  obtain ⟨count, hle, hle', hcount⟩ : ∃ count, data.length ≤ count ∧ data'.length ≤ count ∧
      count < 2 ^ 32 := ⟨max data.length data'.length, Nat.le_max_left .., Nat.le_max_right ..,
    Nat.max_lt.mpr ⟨hlt, hlt'⟩⟩
  let call : ReadCall :=
    { descs := fun _ => { inode := f, pos := 0, flags := 0, count := 1 }, fd := 0,
      dst := fun _ => 0, count, mounted := true, stack := fun _ => 0 }
  obtain ⟨r, hr, hret, hbytes⟩ := h call _ rfl rfl rfl rfl hle hcount
  obtain ⟨r', hr', hret', hbytes'⟩ := h' call _ rfl rfl rfl rfl hle' hcount
  cases hr.symm.trans hr'
  have hlen : data.length = data'.length := Int.ofNat_inj.mp (hret.symm.trans hret')
  rw [← hbytes, ← hbytes', hlen]

/-- What a reader of a file that is there gets. -/
theorem Reads.eq_fileData (h : Reads mp f data) (hlen : data.length = fileSize (readInode mp f))
    (hpresent : Present mp (readInode mp f) (fileSize (readInode mp f))) :
    data = fileData mp f := by
  have hlt : fileSize (readInode mp f) < 2 ^ 32 := readWord_lt _ _
  refine h.unique (reads_of_present hpresent) (hlen ▸ hlt) ?_
  exact fileData_length.trans_lt hlt

/-- The bytes from a position on, as the reader finds them. -/
theorem readByte_eq_fileData (hpresent : Present mp (readInode mp f) (fileSize (readInode mp f)))
    (pos count : Nat) :
    readBytes (readByte mp (readInode mp f)) pos (readable (fileSize (readInode mp f)) pos count) =
      ((fileData mp f).drop pos).take count := by
  have hcount : readable (fileSize (readInode mp f)) pos count =
      min count (fileSize (readInode mp f) - pos) := by
    unfold readable
    split
    · rfl
    · omega
  rw [hcount, fileData, drop_readBytes, Nat.zero_add]
  have htake : ∀ n, (readBytes (fileByte mp (readInode mp f)) pos n).take count =
      readBytes (fileByte mp (readInode mp f)) pos (min count n) := fun n => by
    rcases Nat.le_total count n with hle | hle
    · rw [take_readBytes hle, Nat.min_eq_left hle]
    · rw [List.take_of_length_le (by rw [readBytes_length]; exact hle), Nat.min_eq_right hle]
  rw [htake]
  refine List.map_congr_left fun j hj => ?_
  have hj' := List.mem_range.mp hj
  obtain ⟨hslot, hpointer⟩ := hpresent.pointer (i := pos + j) (by omega)
  rw [readByte, fileByte, readFrom_eq hslot hpointer]

end Data

/-! ### The ways of an open -/

section Open

variable {S : Type} {ops : NameOps S} {fs : FileSystem S} {call : OpenCall} {m : Nat}

theorem fsOpen_unmounted (hmount : findMountPoint fs.mountPoints call.path = none) :
    fsOpen ops fs call = (-1, fs) := by
  unfold fsOpen
  rw [hmount]

theorem fsOpen_found {i : Nat} (hmount : findMountPoint fs.mountPoints call.path = some m)
    (hpath : ops.lookupPath fs.files m (localPath (fs.mountPoints m) call) = some i) :
    fsOpen ops fs call = openInode fs i call.flags := by
  unfold fsOpen
  simp only [hmount, hpath]

theorem fsOpen_missing (hmount : findMountPoint fs.mountPoints call.path = some m)
    (hpath : ops.lookupPath fs.files m (localPath (fs.mountPoints m) call) = none)
    (hflag : call.flags &&& oCreat = 0) : fsOpen ops fs call = (-1, fs) := by
  unfold fsOpen
  simp only [hmount, hpath, hflag, if_true]

theorem fsOpen_created {i : Nat} {files : S}
    (hmount : findMountPoint fs.mountPoints call.path = some m)
    (hpath : ops.lookupPath fs.files m (localPath (fs.mountPoints m) call) = none)
    (hflag : call.flags &&& oCreat ≠ 0)
    (hcreate : ops.createFile fs.files m (localPath (fs.mountPoints m) call) = (i, files)) :
    fsOpen ops fs call =
      if i = 0 then (-1, { fs with files }) else openInode { fs with files } i call.flags := by
  unfold fsOpen
  simp only [hmount, hpath, hflag, hcreate, if_false]

end Open

/-! ### The calls -/

section Calls

variable {image : Superblock → Bytes} {ops : VolumeOps} {s : Session} {fs : FileSystem Volumes}
  {fd : Int} {desc : FileDesc} {m : Nat}

theorem openInode_view (fs : FileSystem Volumes) (i flags : Nat) :
    openInode (fs.view image ops) i flags =
      ((openInode fs i flags).1, (openInode fs i flags).2.view image ops) := by
  unfold openInode
  change (match findFreeFd fs.descs maxOpenFiles 0 with | none => _ | some fd => _) = _
  cases findFreeFd fs.descs maxOpenFiles 0 <;> rfl

/-- The same `fs_open` on the devices and on named files. -/
theorem fsOpen_view {named : NameOps NamedFiles}
    (hlookup : named.lookupPath (fs.files.named image ops) = ops.lookupPath fs.files)
    (hcreate : ∀ m path, named.createFile (fs.files.named image ops) m path =
      ((ops.createFile fs.files m path).1, (ops.createFile fs.files m path).2.named image ops))
    (call : OpenCall) :
    fsOpen named (fs.view image ops) call =
      ((fsOpen ops.toNameOps fs call).1, (fsOpen ops.toNameOps fs call).2.view image ops) := by
  have hmounts : findMountPoint (fs.view image ops).mountPoints call.path =
    findMountPoint fs.mountPoints call.path := rfl
  have hpaths : ∀ m, named.lookupPath (fs.view image ops).files m
      (localPath ((fs.view image ops).mountPoints m) call) =
        ops.lookupPath fs.files m (localPath (fs.mountPoints m) call) := fun m =>
    congrFun (congrFun hlookup m) _
  cases hmount : findMountPoint fs.mountPoints call.path with
  | none => rw [fsOpen_unmounted hmount, fsOpen_unmounted (hmounts.trans hmount)]
  | some m =>
    have hmount' := hmounts.trans hmount
    cases hpath : ops.lookupPath fs.files m (localPath (fs.mountPoints m) call) with
    | some i =>
      rw [fsOpen_found hmount hpath, fsOpen_found hmount' ((hpaths m).trans hpath), openInode_view]
    | none =>
      have hpath' := (hpaths m).trans hpath
      by_cases hflag : call.flags &&& oCreat = 0
      · rw [fsOpen_missing hmount hpath hflag, fsOpen_missing hmount' hpath' hflag]
      · obtain ⟨⟨i, files⟩, hnew⟩ : ∃ r, ops.createFile fs.files m
            (localPath (fs.mountPoints m) call) = r := ⟨_, rfl⟩
        have hnew' : named.createFile (fs.view image ops).files m
            (localPath ((fs.view image ops).mountPoints m) call) = (i, files.named image ops) := by
          refine (hcreate m _).trans ?_
          change ((ops.createFile fs.files m (localPath (fs.mountPoints m) call)).1,
            (ops.createFile fs.files m (localPath (fs.mountPoints m) call)).2.named image ops) = _
          rw [hnew]
        rw [fsOpen_created hmount hpath hflag hnew, fsOpen_created hmount' hpath' hflag hnew']
        by_cases hi : i = 0
        · rw [if_pos hi, if_pos hi]
          rfl
        · rw [if_neg hi, if_neg hi]
          exact openInode_view { fs with files } i call.flags

/-- **An open** does on the devices what it does on named files. -/
theorem open_allowed (hops : ops.Names image) (hv : AllHealthy ops fs.files) (call : OpenCall) :
    OpenAllows (fs.view image ops) call (.ret (fsOpen ops.toNameOps fs call).1)
      ((fsOpen ops.toNameOps fs call).2.view image ops) := by
  classical
  -- The `create_file` of the named files does what that of the devices did.
  let named : NameOps NamedFiles :=
    { lookupPath := fun n => n.names
      createFile := fun n m path => if n = fs.files.named image ops then
        ((ops.createFile fs.files m path).1, (ops.createFile fs.files m path).2.named image ops)
        else (0, n) }
  have hsame : fsOpen named (fs.view image ops) call =
      ((fsOpen ops.toNameOps fs call).1, (fsOpen ops.toNameOps fs call).2.view image ops) :=
    fsOpen_view rfl (fun m path => if_pos rfl) call
  refine ⟨named, fun n => rfl, fun n m path hnone => ?_, ?_, ?_⟩
  · change n.Created m path (if _ then _ else _)
    split
    · rename_i hn
      subst hn
      exact hops.created fs.files m path hv hnone
    · exact .failed
  · rw [hsame]
  · rw [hsame]

/-- A transfer that fails. -/
theorem moveTo_self (descs : Nat → FileDesc) (fd : Int) :
    moveTo descs fd ((openDesc descs fd).elim 0 FileDesc.pos) = descs := by
  unfold moveTo
  cases hdesc : openDesc descs fd with
  | none => rfl
  | some desc =>
    have hself : desc = descs fd.toNat := by
      unfold openDesc at hdesc
      split at hdesc
      · cases hdesc
      · split at hdesc
        · cases hdesc
        · exact (Option.some.inj hdesc).symm
    subst hself
    exact Function.update_eq_self fd.toNat descs

/-- **A read** gets the bytes of the file. -/
theorem read_allowed (h : Orderly ops s) {dst : Bytes} {count : BitVec 32} {stack : Nat → Nat}
    (hrange : InRange ops s (.read fd dst count stack)) :
    ∃ r, readIn ops s.fs fd dst count stack = some r ∧
      ReadAllows ops.byInode (s.fs.view image ops) fd dst count.toNat (.read r.ret r.dst)
        ({ s.fs with descs := moveTo s.fs.descs fd r.pos }.view image ops) := by
  have hfailed {r : ReadResult}
      (hpos : r.pos = (openDesc s.fs.descs fd).elim 0 FileDesc.pos) :
      { s.fs with descs := moveTo s.fs.descs fd r.pos } = s.fs := by
    rw [hpos, moveTo_self]
  unfold ReadAllows
  change ∃ r, _ ∧ (match openDesc s.fs.descs fd with | none => _ | some desc => _)
  cases hdesc : openDesc s.fs.descs fd with
  | none =>
    have hr : readIn ops s.fs fd dst count stack = some { ret := -1, pos := 0, dst } := by
      unfold readIn fsRead
      simp only [hdesc]
    refine ⟨_, hr, rfl, ?_⟩
    rw [hfailed (by rw [hdesc]; rfl)]
  | some desc =>
    dsimp only
    cases hm : ops.byInode desc.inode with
    | none =>
      refine ⟨_, readIn_unmounted hdesc hm, rfl, ?_⟩
      rw [hfailed (by rw [hdesc]; rfl)]
    | some m =>
      obtain ⟨hfile, hpos⟩ := h.inside fd desc hdesc m hm
      have hpresent := (h.healthy desc.inode m hm).present desc.inode hfile
      have hsmall : fileSize (readInode (s.fs.files.mount m) desc.inode) < 2 ^ 31 :=
        Nat.lt_of_le_of_lt hpresent.1 (by decide)
      obtain ⟨r, hr, hwithin⟩ := @fsRead_within (s.fs.files.mount m)
        ⟨s.fs.descs, fd, dst, count.toNat, true, stack⟩ desc hdesc rfl count.isLt hpos hsmall
        (hrange desc hdesc m hm)
      have hbytes := readByte_eq_fileData hpresent desc.pos count.toNat
      have hlength : (((fileData (s.fs.files.mount m) desc.inode).drop desc.pos).take
          count.toNat).length =
            readable (fileSize (readInode (s.fs.files.mount m) desc.inode)) desc.pos
              count.toNat := by
        rw [← hbytes, readBytes_length]
      refine ⟨r, ?_, fileData (s.fs.files.mount m) desc.inode, _, if_pos hfile, rfl, ?_, ?_⟩
      · rw [readIn, mountAt_eq hdesc hm, mountOf_eq hdesc, hm]
        exact hr
      · rw [hwithin.ret, hwithin.dst, hbytes, hlength]
      · rw [hwithin.pos, hlength]
        rfl

/-- Writing an inode back neither frees a block nor takes one. -/
theorem allocBlock_writeInode {mp : Mount} {files : Finset Nat} {f : Nat} (h : Geometry mp.sb)
    (htable : InodesApart mp.sb files) (hf : f ∈ files) (inode : Bytes) :
    (allocBlock image (writeInode mp f inode)).1 = (allocBlock image mp).1 := by
  have hfree : handedOut (writeInode mp f inode).recounted 0 = handedOut mp.recounted 0 := by
    have hlist : freeList (writeInode mp f inode).recounted = freeList mp.recounted :=
      List.filter_congr fun b hb => congrArg not
        (used_writeInode htable hf inode (List.mem_range.mp hb))
    unfold handedOut
    rw [hlist]
    rfl
  have hfirst : ∀ mp' : Mount, mp'.sb = mp.sb →
      (allocBlock image mp').1 = (handedOut mp'.recounted 0).getD 0 := by
    intro mp' hsb
    have hlayout : Layout mp'.recounted.sb := by
      rw [Mount.recounted, hsb]
      exact h.layout
    have hsame := congrArg Prod.fst (@allocBlock_recounted image mp' _ rfl).1
    rw [allocBlock_eq _ hlayout] at hsame
    refine hsame.symm.trans ?_
    cases handedOut mp'.recounted 0 <;> rfl
  rw [hfirst mp rfl, hfirst (writeInode mp f inode) rfl, hfree]

/-- The files after a write to one of them. -/
theorem named_written (hops : ops.Names image) {v : Volumes} {call : WriteCall} {r : WriteResult}
    {k : Nat} (hv : Healthy (v.mount m) (v.regular m)) (hfile : desc.inode ∈ v.regular m)
    (hwrote : WroteBack image (v.mount m) (v.regular m) call desc r k)
    (hhealthy : Healthy r.mp (v.regular m))
    (hpos : desc.pos ≤ fileSize (readInode (v.mount m) desc.inode))
    (hsizes : ∀ g ∈ v.regular m, g ≠ desc.inode →
      fileSize (readInode r.mp g) = fileSize (readInode (v.mount m) g)) :
    ∃ full, (k < call.count → full m) ∧ (∀ j, j ≠ m → full j = (v.named image ops).full j) ∧
      { v with mount := Function.update v.mount m r.mp }.named image ops =
        { (v.named image ops).setFile m desc.inode
          (overlay (fileData (v.mount m) desc.inode) desc.pos (readBytes call.src 0 k)) with
          full } := by
  obtain ⟨old, hold, hreads, hreads'⟩ := hwrote.contents
  have hmine : fileData r.mp desc.inode =
      overlay (fileData (v.mount m) desc.inode) desc.pos (readBytes call.src 0 k) := by
    rw [← hreads.eq_fileData hold (hv.present _ hfile)]
    refine (hreads'.eq_fileData ?_ (hhealthy.present _ hfile)).symm.trans ?_
    · rw [hwrote.size, ← hold]
      simp only [List.length_append, List.length_take, List.length_drop, readBytes_length]
      omega
    · rw [overlay, readBytes_length]
  have hothers : ∀ g ∈ v.regular m, g ≠ desc.inode →
      fileData r.mp g = fileData (v.mount m) g := by
    intro g hg hne
    obtain ⟨data, hdata, hbefore, hafter⟩ := hwrote.others g hg hne
    rw [← hbefore.eq_fileData hdata (hv.present g hg)]
    exact (hafter.eq_fileData (hdata.trans (hsizes g hg hne).symm) (hhealthy.present g hg)).symm
  have hnames := hops.written v m call desc r k hwrote hfile
  refine ⟨fun j => (allocBlock image (Function.update v.mount m r.mp j)).1 = 0, fun hshort => ?_,
    fun j hj => ?_, ?_⟩
  · obtain ⟨mp, inode, hfull, hmp⟩ := hwrote.short hshort
    have hgeometry : Geometry mp.sb := by
      have hsb := hhealthy.geometry
      rw [hmp] at hsb
      exact hsb
    have htable : InodesApart mp.sb (v.regular m) := by
      have hnumbered := hhealthy.numbered
      rw [hmp] at hnumbered
      exact inodes_apart hgeometry hnumbered
    rw [Function.update_self, hmp, allocBlock_writeInode hgeometry htable hfile, hfull]
  · simp only [Function.update_of_ne hj]
    rfl
  · unfold Volumes.named NamedFiles.setFile
    simp only [hnames, NamedFiles.mk.injEq, true_and, and_true]
    funext j f
    by_cases hj : j = m
    · subst hj
      simp only [Function.update_self]
      by_cases hf : f = desc.inode
      · subst hf
        rw [Function.update_self, if_pos hfile, hmine]
      · rw [Function.update_of_ne hf]
        by_cases hreg : f ∈ v.regular j
        · rw [if_pos hreg, if_pos hreg, hothers f hreg hf]
        · rw [if_neg hreg, if_neg hreg]
    · simp only [Function.update_of_ne hj]

/-- **A write** goes over the bytes of the file. -/
theorem write_allowed (hops : ops.Names image) (h : Orderly ops s) {src : Bytes}
    {count : BitVec 32} {time : Nat} {stack : Stack}
    (hrange : InRange ops s (.write fd src count time stack)) :
    ∃ r, writeIn image ops s.fs fd src count time stack = some r ∧
      WriteAllows ops.byInode (s.fs.view image ops) fd src count.toNat (.ret r.ret)
        ({ s.fs with
          files := { s.fs.files with
            mount := Function.update s.fs.files.mount ((mountOf ops s.fs fd).getD 0) r.mp }
          descs := moveTo s.fs.descs fd r.pos }.view image ops) := by
  have hfailed {r : WriteResult} (hmp : r.mp = mountAt ops s.fs fd)
      (hpos : r.pos = (openDesc s.fs.descs fd).elim 0 FileDesc.pos) :
      { s.fs with
        files := { s.fs.files with
          mount := Function.update s.fs.files.mount ((mountOf ops s.fs fd).getD 0) r.mp }
        descs := moveTo s.fs.descs fd r.pos } = s.fs := by
    rw [hpos, moveTo_self, hmp, mountAt, Function.update_eq_self]
  unfold WriteAllows
  change ∃ r, _ ∧ (match openDesc s.fs.descs fd with | none => _ | some desc => _)
  cases hdesc : openDesc s.fs.descs fd with
  | none =>
    refine ⟨_, writeIn_closed hdesc, rfl, ?_⟩
    rw [hfailed rfl (by rw [hdesc]; rfl)]
  | some desc =>
    dsimp only
    cases hm : ops.byInode desc.inode with
    | none =>
      refine ⟨_, writeIn_unmounted hdesc hm, rfl, ?_⟩
      rw [hfailed rfl (by rw [hdesc]; rfl)]
    | some m =>
      obtain ⟨r, k, hr, hwrote, hsome, hhealthy, hsizes⟩ := h.write image hdesc hm hrange
      obtain ⟨hfile, hpos⟩ := h.inside fd desc hdesc m hm
      obtain ⟨full, hfull, hothers, hnamed⟩ := named_written hops (h.healthy desc.inode m hm) hfile
        hwrote hhealthy hpos fun g hg hne => (hsizes g hg).trans (if_neg hne)
      refine ⟨r, hr, fileData (s.fs.files.mount m) desc.inode, k, full, if_pos hfile,
        hwrote.within, ?_, hfull, hothers, ?_, ?_⟩
      · rw [fileData_length]
        exact hsome
      · rw [hwrote.ret]
      · rw [mountOf_eq hdesc, hm, Option.getD_some, hwrote.pos]
        unfold FileSystem.view
        rw [hnamed]

end Calls

/-! ### Runs -/

section Runs

variable {image : Superblock → Bytes} {ops : VolumeOps} {s s' : Session} {c : FileOp}

/-- The state after a call is that of `fileStep`. -/
theorem fileCall_step (s : Session) (c : FileOp) :
    (fileCall image ops s c).map Prod.snd = fileStep image ops s c := by
  cases c with
  | openPath call => rfl
  | read fd dst count stack =>
    simp only [fileCall, fileStep]
    cases readIn ops s.fs fd dst count stack <;> rfl
  | write fd src count time stack =>
    simp only [fileCall, fileStep]
    cases writeIn image ops s.fs fd src count time stack <;> rfl
  | close fd => rfl

/-- The same `fs_close` on the devices and on named files. -/
theorem fsClose_view (fs : FileSystem Volumes) (fd : Int) :
    fsClose (fs.view image ops) fd = ((fsClose fs fd).1, (fsClose fs fd).2.view image ops) := by
  unfold fsClose
  change (match openDesc fs.descs fd with | none => _ | some desc => _) = _
  cases openDesc fs.descs fd <;> rfl

/-- **A call** on the devices answers as the named files allow. -/
theorem fileCall_allowed (hops : ops.Names image) (h : Orderly ops s) (hrange : InRange ops s c) :
    ∃ x s', fileCall image ops s c = some (x, s') ∧
      FilesAllow ops.byInode (s.fs.view image ops) c x (s'.fs.view image ops) := by
  obtain ⟨s', hstep⟩ := fileStep_total image ops s c
  have hcall : ∀ x, fileCall image ops s c = some (x, s') →
      FilesAllow ops.byInode (s.fs.view image ops) c x (s'.fs.view image ops) →
      ∃ x s', fileCall image ops s c = some (x, s') ∧
        FilesAllow ops.byInode (s.fs.view image ops) c x (s'.fs.view image ops) :=
    fun x hx hallows => ⟨x, s', hx, hallows⟩
  cases c with
  | openPath call =>
    cases hstep
    exact hcall _ rfl (open_allowed hops h.healthy call)
  | read fd dst count stack =>
    obtain ⟨r, hr, hallows⟩ := read_allowed h hrange
    have hs' := hstep
    simp only [fileStep, hr, Option.map_some] at hs'
    cases hs'
    refine hcall (.read r.ret r.dst) ?_ hallows
    simp only [fileCall, hstep, hr, Option.bind_some, Option.map_some]
  | write fd src count time stack =>
    obtain ⟨r, hr, hallows⟩ := write_allowed hops h hrange
    have hs' := hstep
    simp only [fileStep, hr, Option.map_some] at hs'
    cases hs'
    refine hcall (.ret r.ret) ?_ hallows
    simp only [fileCall, hstep, hr, Option.bind_some, Option.map_some]
  | close fd =>
    cases hstep
    refine hcall _ rfl ?_
    change Answer.ret _ = .ret (fsClose (s.fs.view image ops) fd).1 ∧
      _ = (fsClose (s.fs.view image ops) fd).2
    rw [fsClose_view]
    exact ⟨rfl, rfl⟩

/-- **Files.** In a run whose transfers stay in range, on healthy devices, whatever is opened,
read, written and closed through any descriptors, in any order: every call returns, and the
answers are those of named lists of bytes. -/
theorem sessions_refine (hops : ops.Names image) (h : Orderly ops s) {calls : List FileOp}
    (hrange : Meets (fileStep image ops) (InRange ops) s calls) :
    ∃ answers s', serve (fileCall image ops) s calls = some (answers, s') ∧
      Allows (FilesAllow ops.byInode) (s.fs.view image ops) calls answers (s'.fs.view image ops) ∧
      Orderly ops s' := by
  have hstep : (fun s c => (fileCall image ops s c).map Prod.snd) = fileStep image ops :=
    funext fun s => funext fun c => fileCall_step s c
  have hsim : ∀ s a c, a = s.fs.view image ops ∧ Orderly ops s →
      (∀ s', (fileCall image ops s c).map Prod.snd = some s' → InRange ops s c) →
      ∃ x s' a', fileCall image ops s c = some (x, s') ∧ FilesAllow ops.byInode a c x a' ∧
        a' = s'.fs.view image ops ∧ Orderly ops s' := by
    rintro s _ c ⟨rfl, hs⟩ hok
    obtain ⟨s', hs'⟩ := fileStep_total image ops s c
    have hrange : InRange ops s c := hok s' (by rw [fileCall_step]; exact hs')
    obtain ⟨x, s'', hcall, hallows⟩ := fileCall_allowed hops hs hrange
    have hnext : fileStep image ops s c = some s'' := by
      rw [← fileCall_step, hcall]
      rfl
    exact ⟨x, s'', _, hcall, hallows, rfl, hs.step hops.toSpec hrange hnext⟩
  obtain ⟨answers, s', _, hserve, hallows, rfl, hlast⟩ :=
    serve_simulates hsim ⟨rfl, h⟩ (by rw [hstep]; exact hrange)
  exact ⟨answers, s', hserve, hallows, hlast⟩

end Runs

theorem tinyOps_names : tinyOps.Names (fun _ _ => 0#8) where
  toSpec := tinyOps_spec
  created _ _ _ _ _ := .failed
  written _ _ _ _ _ _ _ _ := rfl

/-- Two descriptors of one file. -/
theorem sessions_refine_shared :
    ∃ answers s', serve (fileCall (fun _ _ => 0#8) tinyOps) tinySession
        [openA oRdwr, openA oRdonly, writeVia 0 5, readVia 1 9, .close 0, .close 1] =
          some (answers, s') ∧
      Allows (FilesAllow tinyOps.byInode) (tinySession.fs.view (fun _ _ => 0#8) tinyOps)
        [openA oRdwr, openA oRdonly, writeVia 0 5, readVia 1 9, .close 0, .close 1] answers
        (s'.fs.view (fun _ _ => 0#8) tinyOps) ∧ Orderly tinyOps s' :=
  sessions_refine tinyOps_names tinySession_orderly (by decide +kernel)

end ArmKernel.Fs

/-
How far a call of `fs_read` reads (`src/fs_file.c`).

`readByte` is the byte of a file at a position by the block map of the reader, which has a
block for every 32-bit position. `Taken` is the invariant of the loop over it. The clamp of
the count compares the file size with a 32-bit sum, and `fs_read_ends_within` says for which
positions and counts the call stays in the file.
-/
import ArmKernel.Fs.FileRuns
import ArmKernel.Fs.FileRead

namespace ArmKernel.Fs

open ArmKernel.Support

/-- The byte of a file at a position, as the reader finds it. -/
def readByte (mp : Mount) (inode : Bytes) : Bytes := fun i =>
  mp.blocks (readFrom mp inode (i / blockSize) 0) (i % blockSize)

/-- How many bytes there are to read from a position on. -/
def readable (size pos count : Nat) : Nat := if pos < size then min count (size - pos) else 0

/-- The call reads and returns the bytes that there are, and the position does not pass the
end of the file. -/
structure ReadsWithin (mp : Mount) (call : ReadCall) (desc : FileDesc) (r : ReadResult) :
    Prop where
  ret : r.ret = readable (fileSize (readInode mp desc.inode)) desc.pos call.count
  dst : r.dst = storeBytes call.dst 0 (readBytes (readByte mp (readInode mp desc.inode)) desc.pos
    (readable (fileSize (readInode mp desc.inode)) desc.pos call.count))
  pos : r.pos =
    desc.pos + readable (fileSize (readInode mp desc.inode)) desc.pos call.count
  within : r.pos ≤ fileSize (readInode mp desc.inode)

/-! ### The loop -/

section Loop

variable {mp : Mount} {inode dst : Bytes} {stack : Nat → Nat} {r r' : Reading}
  {start count n : Nat}

/-- Every block of a file whose positions are 32-bit words is in the map. -/
theorem readFrom_assigned (hn : n < 2 ^ 32 / blockSize) (uninit uninit' : Nat) :
    readFrom mp inode n uninit = readFrom mp inode n uninit' := by
  have hmap : n < 12 + blockSize / 4 + blockSize / 4 * (blockSize / 4) := hn.trans (by decide)
  unfold readFrom
  simp only [hmap, if_true]

/-- The invariant of the loop: the bytes from `start` on are taken, and nothing else is written
to the memory of the caller. -/
structure Taken (mp : Mount) (inode dst : Bytes) (start count : Nat) (r : Reading) : Prop where
  within : r.bytesRead ≤ count
  pos : r.pos = start + r.bytesRead
  dst : r.dst = storeBytes dst 0 (readBytes (readByte mp inode) start r.bytesRead)

theorem taken_start (mp : Mount) (inode dst : Bytes) (start count : Nat) :
    Taken mp inode dst start count ⟨dst, start, 0⟩ :=
  ⟨Nat.zero_le _, rfl, (storeBytes_nil dst 0).symm⟩

/-- **Round lemma.** -/
theorem Taken.round (h : Taken mp inode dst start count r) (hend : start + count < 2 ^ 32)
    (hlt : r.bytesRead < count) (uninit : Nat) :
    Taken mp inode dst start count
      (copyRound mp count r (readFrom mp inode (r.pos / blockSize) uninit)) := by
  have hpos := h.pos
  have hmap : r.pos / blockSize < 2 ^ 32 / blockSize := by
    unfold blockSize
    omega
  obtain ⟨k, hle, hnext⟩ := @copyRound_eq mp r count (fun n => readFrom mp inode n 0) hlt
    (by omega) (by omega)
  have hbytes : byteAt mp (fun n => readFrom mp inode n 0) = readByte mp inode := rfl
  rw [readFrom_assigned hmap uninit 0, hnext, hbytes]
  refine ⟨hle, ?_, ?_⟩
  · simp only
    rw [hpos, Nat.add_assoc]
  · have hlen : (readBytes (readByte mp inode) start r.bytesRead).length = r.bytesRead :=
      readBytes_length
    simp only
    rw [readBytes_append, storeBytes_append, ← h.dst, hlen, Nat.zero_add, hpos]

/-- **Loop lemma.** -/
theorem Taken.loop (rounds : Nat) (h : Taken mp inode dst start count r)
    (hend : start + count < 2 ^ 32)
    (hloop : readLoop mp inode stack count rounds r = some r') :
    Taken mp inode dst start count r' :=
  (readLoop_induct (fun r h hlt => h.round hend hlt (stack r.bytesRead)) rounds h hloop).1

/-- The loop trusts the count. -/
theorem readLoop_bytesRead (hcount : count < 2 ^ 32) (rounds : Nat) (hread : r.bytesRead ≤ count)
    (hloop : readLoop mp inode stack count rounds r = some r') : r'.bytesRead = count := by
  obtain ⟨hle, hge⟩ := readLoop_induct (P := fun r => r.bytesRead ≤ count) (fun r _ hlt => by
    obtain ⟨-, hle⟩ := chunk_bounds r.pos hlt
    have hnext : ∀ b, (copyRound mp count r b).bytesRead =
        r.bytesRead + min (blockSize - r.pos % blockSize) (count - r.bytesRead) := fun b =>
      wrap32_of_lt (Nat.lt_of_le_of_lt hle hcount)
    rw [hnext]
    exact hle) rounds hread hloop
  exact Nat.le_antisymm hle hge

end Loop

/-! ### The call -/

section Call

variable {mp : Mount} {call : ReadCall} {desc : FileDesc} {r : ReadResult}

/-- The count after the clamp. -/
def clamped (size pos count : Nat) : Nat :=
  if size < wrap32 (pos + count) then sub32 size pos else count

theorem clamped_lt {size pos count : Nat} (hcount : count < 2 ^ 32) :
    clamped size pos count < 2 ^ 32 := by
  unfold clamped
  split
  · exact wrap32_lt _
  · exact hcount

/-- Without a wrap the clamp leaves the bytes that there are. -/
theorem clamped_eq {size pos count : Nat} (hsize : size < 2 ^ 32) (hpos : pos < size)
    (hsum : pos + count < 2 ^ 32) : clamped size pos count = min count (size - pos) := by
  unfold clamped
  rw [wrap32_of_lt hsum, sub32_of_le hsize (Nat.le_of_lt hpos)]
  split <;> omega

/-- A sum that wraps is not behind the end of the file. -/
theorem clamped_wrapped {size pos count : Nat} (hpos : pos < size) (hcount : count < 2 ^ 32)
    (hsum : 2 ^ 32 ≤ pos + count) : clamped size pos count = count := by
  unfold clamped
  rw [if_neg]
  unfold wrap32
  omega

theorem fsRead_at_end (hdesc : openDesc call.descs call.fd = some desc)
    (hmounted : call.mounted = true) (hend : fileSize (readInode mp desc.inode) ≤ desc.pos) :
    fsRead mp call = some { ret := 0, pos := desc.pos, dst := call.dst } := by
  unfold fsRead
  rw [hdesc, hmounted]
  simp only [Bool.not_true, Bool.false_eq_true, if_false, hend, if_true]

/-- **`fs_read` inside a file**: the clamped count decides what it takes. -/
theorem fsRead_inside (hdesc : openDesc call.descs call.fd = some desc)
    (hmounted : call.mounted = true) (hcount : call.count < 2 ^ 32)
    (hinside : desc.pos < fileSize (readInode mp desc.inode)) :
    ∃ r : Reading, fsRead mp call =
        some { ret := toInt32 r.bytesRead, pos := r.pos, dst := r.dst } ∧
      r.bytesRead = clamped (fileSize (readInode mp desc.inode)) desc.pos call.count ∧
      (desc.pos + clamped (fileSize (readInode mp desc.inode)) desc.pos call.count < 2 ^ 32 →
        Taken mp (readInode mp desc.inode) call.dst desc.pos
          (clamped (fileSize (readInode mp desc.inode)) desc.pos call.count) r) := by
  have hlt := @clamped_lt (fileSize (readInode mp desc.inode)) desc.pos call.count hcount
  obtain ⟨r, hloop⟩ := readLoop_total mp (readInode mp desc.inode) call.stack hlt
    (clamped (fileSize (readInode mp desc.inode)) desc.pos call.count)
    (r := ⟨call.dst, desc.pos, 0⟩) (Nat.zero_le _) (Nat.sub_le _ _)
  refine ⟨r, ?_, readLoop_bytesRead hlt _ (Nat.zero_le _) hloop,
    fun hend => (taken_start mp _ _ _ _).loop _ hend hloop⟩
  unfold fsRead
  rw [hdesc, hmounted]
  simp only [Bool.not_true, Bool.false_eq_true, if_false, Nat.not_le.mpr hinside]
  exact congrArg (Option.map _) hloop

/-- Inside the file the clamp holds unless the sum wraps, and the result is a number of bytes
unless it has the sign bit. -/
theorem readsWithin_inside {taken : Reading} (hcount : call.count < 2 ^ 32)
    (hinside : desc.pos < fileSize (readInode mp desc.inode))
    (hread : taken.bytesRead = clamped (fileSize (readInode mp desc.inode)) desc.pos call.count)
    (htaken : desc.pos + clamped (fileSize (readInode mp desc.inode)) desc.pos call.count < 2 ^ 32 →
      Taken mp (readInode mp desc.inode) call.dst desc.pos
        (clamped (fileSize (readInode mp desc.inode)) desc.pos call.count) taken) :
    ReadsWithin mp call desc { ret := toInt32 taken.bytesRead, pos := taken.pos, dst := taken.dst } ↔
      desc.pos + call.count < 2 ^ 32 ∧
        min call.count (fileSize (readInode mp desc.inode) - desc.pos) < 2 ^ 31 := by
  have hsize : fileSize (readInode mp desc.inode) < 2 ^ 32 := readWord_lt _ _
  have hthere : readable (fileSize (readInode mp desc.inode)) desc.pos call.count =
      min call.count (fileSize (readInode mp desc.inode) - desc.pos) := if_pos hinside
  constructor
  · intro h
    have hret : toInt32 taken.bytesRead =
        (min call.count (fileSize (readInode mp desc.inode) - desc.pos) : Nat) := hthere ▸ h.ret
    rw [hread] at hret
    have hword := @clamped_lt (fileSize (readInode mp desc.inode)) desc.pos call.count hcount
    have hpositive : clamped (fileSize (readInode mp desc.inode)) desc.pos call.count < 2 ^ 31 := by
      by_contra hbig
      have hneg := toInt32_lt_zero hword (Nat.not_lt.mp hbig)
      omega
    rw [toInt32_of_lt hpositive, Int.ofNat_inj] at hret
    have hsum : desc.pos + call.count < 2 ^ 32 := by
      by_contra hwrap
      rw [clamped_wrapped hinside hcount (Nat.not_lt.mp hwrap)] at hret
      omega
    exact ⟨hsum, hret ▸ hpositive⟩
  · rintro ⟨hsum, hsmall⟩
    rw [clamped_eq hsize hinside hsum] at hread htaken
    have htaken := htaken (by omega)
    have hends := htaken.pos
    rw [hread] at hends
    refine ⟨?_, ?_, ?_, ?_⟩
    · rw [hthere, hread]
      exact toInt32_of_lt hsmall
    · rw [hthere, ← hread]
      exact htaken.dst
    · rw [hthere]
      exact hends
    · simp only
      omega

/-- At the end and behind it nothing is read. -/
theorem readsWithin_at_end (hend : fileSize (readInode mp desc.inode) ≤ desc.pos) :
    ReadsWithin mp call desc { ret := 0, pos := desc.pos, dst := call.dst } ↔
      desc.pos = fileSize (readInode mp desc.inode) := by
  have hnone : readable (fileSize (readInode mp desc.inode)) desc.pos call.count = 0 :=
    if_neg (Nat.not_lt.mpr hend)
  refine ⟨fun h => Nat.le_antisymm h.within hend, fun heq => ⟨?_, ?_, ?_, Nat.le_of_eq heq⟩⟩
  · rw [hnone]
    rfl
  · rw [hnone]
    exact (storeBytes_nil _ _).symm
  · rw [hnone]
    rfl

/-- A call from inside a file, or from its end, that does not wrap. -/
theorem fsRead_within (hdesc : openDesc call.descs call.fd = some desc)
    (hmounted : call.mounted = true) (hcount : call.count < 2 ^ 32)
    (hpos : desc.pos ≤ fileSize (readInode mp desc.inode))
    (hsmall : fileSize (readInode mp desc.inode) < 2 ^ 31)
    (hrange : desc.pos + call.count < 2 ^ 32 ∨ fileSize (readInode mp desc.inode) ≤ desc.pos) :
    ∃ r, fsRead mp call = some r ∧ ReadsWithin mp call desc r := by
  rcases Nat.lt_or_eq_of_le hpos with hinside | hend
  · obtain ⟨r, hr, hread, htaken⟩ := @fsRead_inside mp call desc hdesc hmounted hcount hinside
    refine ⟨_, hr, (readsWithin_inside hcount hinside hread htaken).mpr ⟨?_, by omega⟩⟩
    exact hrange.resolve_right (Nat.not_le.mpr hinside)
  · exact ⟨_, fsRead_at_end hdesc hmounted (Nat.le_of_eq hend.symm),
      (readsWithin_at_end (Nat.le_of_eq hend.symm)).mpr hend⟩

/-- **End of file.** Where the sum of position and count wraps, the clamp fails; a count of
2^31 or more comes out negative. Nothing is read at or behind the end. -/
theorem fs_read_ends_within (hdesc : openDesc call.descs call.fd = some desc)
    (hmounted : call.mounted = true) (hcount : call.count < 2 ^ 32) :
    ∃ r, fsRead mp call = some r ∧
      (ReadsWithin mp call desc r ↔ desc.pos ≤ fileSize (readInode mp desc.inode) ∧
        (desc.pos = fileSize (readInode mp desc.inode) ∨ desc.pos + call.count < 2 ^ 32 ∧
          min call.count (fileSize (readInode mp desc.inode) - desc.pos) < 2 ^ 31)) ∧
      (fileSize (readInode mp desc.inode) ≤ desc.pos →
        r = { ret := 0, pos := desc.pos, dst := call.dst }) := by
  rcases Nat.lt_or_ge desc.pos (fileSize (readInode mp desc.inode)) with hinside | hend
  · obtain ⟨r, hr, hread, htaken⟩ := @fsRead_inside mp call desc hdesc hmounted hcount hinside
    refine ⟨_, hr, (readsWithin_inside hcount hinside hread htaken).trans ?_,
      fun hend => absurd hinside (Nat.not_lt.mpr hend)⟩
    exact ⟨fun h => ⟨Nat.le_of_lt hinside, .inr h⟩,
      fun h => h.2.resolve_left (Nat.ne_of_lt hinside)⟩
  · refine ⟨_, fsRead_at_end hdesc hmounted hend, (readsWithin_at_end hend).trans ?_, fun _ => rfl⟩
    exact ⟨fun heq => ⟨Nat.le_of_eq heq, .inl heq⟩, fun h => Nat.le_antisymm h.1 hend⟩

end Call

/-! ### A file of five bytes -/

/-- The small device, where file 2 has five bytes. -/
def fiveMount : Mount :=
  (tinyMount fun _ => 0#8).write 2 (writeWord tinyInodes (128 + sizeOffset) 5)

/-- A call with descriptor 0, which is at byte 2 of file 2. -/
def fiveRead (count : Nat) : ReadCall where
  descs := fun _ => { inode := 2, pos := 2, flags := 0, count := 1 }
  fd := 0
  dst := fun _ => 0#8
  count
  mounted := true
  stack := fun _ => 0

theorem fs_read_ends_within_five :
    ∃ r, fsRead fiveMount (fiveRead 100) = some r ∧
      ReadsWithin fiveMount (fiveRead 100) { inode := 2, pos := 2, flags := 0, count := 1 } r := by
  obtain ⟨r, hr, hiff, -⟩ := @fs_read_ends_within fiveMount (fiveRead 100)
    { inode := 2, pos := 2, flags := 0, count := 1 } rfl rfl (by decide)
  exact ⟨r, hr, hiff.mpr (by decide)⟩

/-- A count of 2^32 - 1 at byte 2: the sum is 1, which is no more than 5, and 2^32 - 1 bytes are
copied where there are three. The call returns -1. -/
theorem count_that_wraps :
    ∃ taken : Reading, fsRead fiveMount (fiveRead (2 ^ 32 - 1)) =
        some { ret := -1, pos := taken.pos, dst := taken.dst } ∧
      taken.bytesRead = 2 ^ 32 - 1 ∧
      ¬ ReadsWithin fiveMount (fiveRead (2 ^ 32 - 1))
        { inode := 2, pos := 2, flags := 0, count := 1 }
        { ret := -1, pos := taken.pos, dst := taken.dst } := by
  obtain ⟨r, hr, hread, -⟩ := @fsRead_inside fiveMount (fiveRead (2 ^ 32 - 1))
    { inode := 2, pos := 2, flags := 0, count := 1 } rfl rfl (by decide) (by decide)
  have hall : r.bytesRead = 2 ^ 32 - 1 := hread.trans (by decide)
  have hret : toInt32 (2 ^ 32 - 1) = -1 := by decide
  rw [hall, hret] at hr
  refine ⟨r, hr, hall, fun h => absurd h.ret ?_⟩
  dsimp only
  omega

end ArmKernel.Fs

/-
The inner loop of `client_thread` on any bytes (`src/server.c`, lines 119 to 145).

A pass that calls `handle_client_message` hands it a range of the buffer, and the next pass
begins behind that range. `PassInside` says that the range lies in the bytes received and
that the position moves on inside them, and `LoopSafe` that every pass does so and that the
loop ends.

The end of the range is computed in 64 bits. `loopSafe_iff` says that this sum is all that
goes wrong: a length that takes it past 2^64 passes the test, and leads back.
-/
import ArmKernel.Ws.Server
import ArmKernel.Support.Run

namespace ArmKernel.Ws

open ArmKernel.Support

/-- The variables of the loop. -/
structure LoopState where
  buffer : Bytes
  header : FrameHeader
  pos : Nat

/-- One pass; `none` when the loop ends. -/
def nextPass (bytes : Nat) (s : LoopState) (_ : Unit) : Option LoopState :=
  match framePass bytes s.buffer s.header s.pos with
  | .ends => none
  | .message _ _ _ buffer header pos => some { buffer, header, pos }

/-- The payload that the pass hands on lies inside the `bytes` bytes received, and the position
grows and stays inside them. -/
def PassInside (bytes : Nat) (s : LoopState) (_ : Unit) : Prop :=
  match framePass bytes s.buffer s.header s.pos with
  | .ends => True
  | .message _ payload _ _ header pos =>
    payload + header.payloadLength ≤ bytes ∧ s.pos < pos ∧ pos ≤ bytes

/-- The end of the frame is below 2^64, whenever there is a header in the rest of the bytes. -/
def EndFits (bytes : Nat) (s : LoopState) (_ : Unit) : Prop :=
  s.pos < bytes →
    let (headerSize, header) := wsParseFrameHeader s.buffer s.pos (bytes - s.pos) s.header
    0 ≤ headerSize → s.pos + headerSize.toNat + header.payloadLength < 2 ^ 64

/-- Every pass of the loop is inside the bytes received, and the loop ends. -/
def LoopSafe (bytes : Nat) (s : LoopState) : Prop :=
  (∀ n, Each (nextPass bytes) (PassInside bytes) s (List.replicate n ())) ∧
    ∃ rounds, (frameLoop bytes rounds s.buffer s.header s.pos).isSome

section Loop

variable {bytes data len headerSize n : Nat} {mem : Bytes} {header : FrameHeader} {s s' : LoopState}

theorem ofNetwork_lt (l : List (BitVec 8)) : ofNetwork l < 2 ^ (8 * l.length) := by
  induction l with
  | nil => exact Nat.zero_lt_one
  | cons b l ih =>
    have hb := b.isLt
    calc b.toNat * 2 ^ (8 * l.length) + ofNetwork l
        < b.toNat * 2 ^ (8 * l.length) + 2 ^ (8 * l.length) := Nat.add_lt_add_left ih _
      _ = (b.toNat + 1) * 2 ^ (8 * l.length) := (Nat.succ_mul _ _).symm
      _ ≤ 2 ^ 8 * 2 ^ (8 * l.length) := Nat.mul_le_mul_right _ hb
      _ = 2 ^ (8 * (b :: l).length) := by
        rw [← Nat.pow_add, List.length_cons, Nat.mul_succ, Nat.add_comm]

/-- A header in the bytes from `data` on: at least two of the `len` bytes, and a length of 64
bits; or there is none, and the result is -1. -/
def HeaderInside (len : Nat) (result : Int × FrameHeader) : Prop :=
  result.1 = -1 ∨
    ∃ k : Nat, result.1 = k ∧ 2 ≤ k ∧ k ≤ len ∧ result.2.payloadLength < 2 ^ 64

/-- The masking key takes four bytes, if it is there. -/
theorem parseMask_inside (htwo : 2 ≤ headerSize) (hlen : headerSize ≤ len)
    (hlength : header.payloadLength < 2 ^ 64) :
    HeaderInside len (parseMask mem data len header headerSize) := by
  unfold parseMask
  split
  · split
    · exact Or.inl rfl
    · rename_i hlong
      exact Or.inr ⟨headerSize + 4, rfl, Nat.le_add_right_of_le htwo, Nat.not_lt.mp hlong, hlength⟩
  · exact Or.inr ⟨headerSize, rfl, htwo, hlen, hlength⟩

/-- **The parser on any bytes.** -/
theorem wsParseFrameHeader_inside (mem : Bytes) (data len : Nat) (header : FrameHeader) :
    HeaderInside len (wsParseFrameHeader mem data len header) := by
  have hread : ∀ k ≤ 8, ofNetwork (readBytes mem (data + 2) k) < 2 ^ 64 := by
    intro k hk
    refine Nat.lt_of_lt_of_le (ofNetwork_lt _) (Nat.pow_le_pow_right (by decide) ?_)
    rw [readBytes_length]
    omega
  unfold wsParseFrameHeader
  split
  · exact Or.inl rfl
  · rename_i htwo
    simp only
    split
    · split
      · exact Or.inl rfl
      · rename_i hfour
        exact parseMask_inside (by decide) (Nat.not_lt.mp hfour) (hread 2 (by decide))
    · split
      · split
        · exact Or.inl rfl
        · rename_i hten
          exact parseMask_inside (by decide) (Nat.not_lt.mp hten) (hread 8 (Nat.le_refl 8))
      · refine parseMask_inside (Nat.le_refl 2) (Nat.not_lt.mp htwo) ?_
        exact Nat.lt_trans (BitVec.isLt _) (by decide)

/-- **One pass.** It stays inside the bytes received exactly when the end of its frame is below
2^64. -/
theorem passInside_iff (hbytes : bytes ≤ bufferSize) (u : Unit) :
    PassInside bytes s u ↔ EndFits bytes s u := by
  unfold bufferSize at hbytes
  unfold PassInside EndFits framePass
  by_cases hpos : s.pos < bytes
  · rw [if_pos hpos]
    have hinside := wsParseFrameHeader_inside s.buffer s.pos (bytes - s.pos) s.header
    generalize wsParseFrameHeader s.buffer s.pos (bytes - s.pos) s.header = result at *
    obtain ⟨size, header⟩ := result
    simp only [hpos, true_imp_iff]
    rcases hinside with hnone | ⟨k, hk, htwo, hle, hlength⟩
    · have hneg : size < 0 := by
        simp only at hnone
        omega
      rw [if_pos hneg]
      exact iff_of_true trivial fun h => absurd h (Int.not_le.mpr hneg)
    · simp only at hk hlength
      subst hk
      have hfront : wrap32 (s.pos + k) = s.pos + k := wrap32_of_lt (by omega)
      rw [if_neg (by omega)]
      simp only [Int.toNat_natCast, hfront]
      by_cases hfits : s.pos + k + header.payloadLength < 2 ^ 64
      · -- Nothing wraps, so the test keeps the range inside.
        rw [wrap64_of_lt hfits]
        refine iff_of_true ?_ fun _ => hfits
        by_cases hend : s.pos + k + header.payloadLength > bytes
        · rw [if_pos hend]
          trivial
        · have hnext : wrap32 (s.pos + k + header.payloadLength) =
              s.pos + k + header.payloadLength := wrap32_of_lt (by omega)
          rw [if_neg hend]
          simp only [hnext]
          exact ⟨Nat.not_lt.mp hend, by omega, Nat.not_lt.mp hend⟩
      · -- The sum wraps to a position before the payload, and passes the test.
        have hsmall : ¬ wrap64 (s.pos + k + header.payloadLength) > bytes := by
          unfold wrap64
          omega
        rw [if_neg hsmall]
        refine iff_of_false ?_ fun h => hfits (h (Int.natCast_nonneg k))
        rintro ⟨hrange, -⟩
        omega
  · rw [if_neg hpos]
    exact iff_of_true trivial fun h => absurd h hpos

/-- Passes inside the bytes come to an end: each moves on. -/
theorem frameLoop_ends (rounds : Nat) (hrounds : bytes - s.pos < rounds)
    (h : Each (nextPass bytes) (PassInside bytes) s (List.replicate rounds ())) :
    (frameLoop bytes rounds s.buffer s.header s.pos).isSome := by
  induction rounds generalizing s with
  | zero => exact absurd hrounds (Nat.not_lt_zero _)
  | succ rounds ih =>
    obtain ⟨hpass, hrest⟩ := h
    unfold PassInside at hpass
    rw [frameLoop]
    cases hframe : framePass bytes s.buffer s.header s.pos with
    | ends => rfl
    | message opcode payload len buffer header pos =>
      rw [hframe] at hpass
      obtain ⟨-, hmore, hle⟩ := hpass
      have hnext : nextPass bytes s () = some { buffer, header, pos } := by
        rw [nextPass, hframe]
      simp only
      rw [Option.isSome_map]
      exact ih (by simp only; omega) (hrest _ hnext)

/-- Behind the bytes received there is no pass. -/
theorem each_of_end (h : bytes ≤ s.pos) (l : List Unit) :
    Each (nextPass bytes) (EndFits bytes) s l := by
  cases l with
  | nil => trivial
  | cons u l =>
    refine ⟨fun hpos => absurd hpos (Nat.not_lt.mpr h), fun s' hstep => ?_⟩
    rw [nextPass, framePass, if_neg (Nat.not_lt.mpr h)] at hstep
    cases hstep

end Loop

/-- **The frame loop.** For all bytes received in one `recv`, whatever stands in the header. -/
theorem loopSafe_iff {bytes : Nat} (hbytes : bytes ≤ bufferSize) (buffer : Bytes)
    (header : FrameHeader) :
    LoopSafe bytes { buffer, header, pos := 0 } ↔
      ∀ n, Each (nextPass bytes) (EndFits bytes) { buffer, header, pos := 0 }
        (List.replicate n ()) := by
  have hsame : ∀ n, Each (nextPass bytes) (PassInside bytes) { buffer, header, pos := 0 }
      (List.replicate n ()) ↔ Each (nextPass bytes) (EndFits bytes) { buffer, header, pos := 0 }
      (List.replicate n ()) := by
    intro n
    refine Each.congr
      (each_of_preserved (I := fun _ => True) ?_ (fun _ _ _ _ _ => trivial) trivial _)
    exact fun s u _ => passInside_iff hbytes u
  constructor
  · rintro ⟨hinside, -⟩ n
    exact (hsame n).mp (hinside n)
  · intro hfits
    refine ⟨fun n => (hsame n).mpr (hfits n), bytes + 1, ?_⟩
    exact frameLoop_ends (bytes + 1) (Nat.lt_succ_self _) ((hsame _).mpr (hfits _))

/-- Eight bytes that are one masked frame: the loop takes it and ends behind it. -/
theorem hiFrame_loopSafe :
    LoopSafe 8 { buffer := storeBytes (fun _ => 0) 0 hiFrame.bytes, header := blankHeader
                 pos := 0 } := by
  refine (loopSafe_iff (by decide) _ _).mpr fun n => ?_
  cases n with
  | zero => trivial
  | succ n =>
    have hfirst : EndFits 8 { buffer := storeBytes (fun _ => 0) 0 hiFrame.bytes
                              header := blankHeader, pos := 0 } () :=
      fun _ _ => by decide
    have hnext : (nextPass 8 { buffer := storeBytes (fun _ => 0) 0 hiFrame.bytes
                               header := blankHeader, pos := 0 } ()).map LoopState.pos =
        some 8 := by decide
    refine ⟨hfirst, fun s' hstep => each_of_end ?_ _⟩
    rw [hstep] at hnext
    exact Nat.le_of_eq (Option.some.inj hnext).symm

/-- A frame of ten bytes with the length 2^64 - 10. -/
def wrappingFrame : List (BitVec 8) := [0x82, 0x7F, 0xFF, 0xFF, 0xFF, 0xFF, 0xFF, 0xFF, 0xFF, 0xF6]

/-- Its end is position 0 again: the payload is handed on with a length of 2^32 - 10, and the loop
comes back to the same frame. -/
theorem wrapping_frame_escapes :
    ¬ LoopSafe 10 { buffer := storeBytes (fun _ => 0) 0 wrappingFrame, header := blankHeader
                    pos := 0 } := by
  rintro ⟨hinside, -⟩
  have hpass := (hinside 1).1
  rw [passInside_iff (by decide)] at hpass
  have hfits := hpass (by decide)
  simp only at hfits
  exact absurd (hfits (by decide)) (by decide)

end ArmKernel.Ws

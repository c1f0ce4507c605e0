/-
Damage to a stored record (`write_block` and `read_block` of `src/storage.c`).

The checksum is a fold whose every step is injective: a byte that differs makes the sum
differ, and no later step makes the difference disappear (`calculateChecksum_set`).

`write_block` computes the sum of the key and then overwrites it with that of the value, and
`read_block` does the same. So the word in the header says nothing about the key, and a
changed byte is found exactly when it is a byte of the value (`damage_detected_iff`).
-/
import ArmKernel.Kv.Storage

namespace ArmKernel.Kv

open ArmKernel.Support

/-! ### The checksum -/

/-- A fold of injective steps is injective in what it starts from. -/
theorem foldl_injective {A B : Type*} {f : A → B → A}
    (h : ∀ b, Function.Injective fun a => f a b) (bytes : List B) :
    Function.Injective fun a => bytes.foldl f a := by
  induction bytes with
  | nil => exact fun a a' heq => heq
  | cons b bytes ih => exact fun a a' heq => h b (ih heq)

/-- The rotation by 8 bits loses none of them. -/
theorem rotate_injective : Function.Injective fun c : BitVec 32 => c <<< 8 ||| c >>> 24 := by
  intro c c' h
  have hbit : ∀ j, (c <<< 8 ||| c >>> 24).getLsbD j = (c' <<< 8 ||| c' >>> 24).getLsbD j :=
    fun j => congrArg (fun x : BitVec 32 => x.getLsbD j) h
  apply BitVec.eq_of_getLsbD_eq
  intro i hi
  by_cases hlow : i < 24
  · -- A low bit moves up by 8.
    have hshifted := hbit (i + 8)
    have hup : ∀ x : BitVec 32, (x <<< 8 ||| x >>> 24).getLsbD (i + 8) = x.getLsbD i := by
      intro x
      have hout : x.getLsbD (24 + (i + 8)) = false := BitVec.getLsbD_of_ge _ _ (by omega)
      have hin : i + 8 < 32 := by omega
      rw [BitVec.getLsbD_or, BitVec.getLsbD_shiftLeft, BitVec.getLsbD_ushiftRight, hout]
      simp [hin]
    rwa [hup, hup] at hshifted
  · -- One of the 8 high bits comes in below.
    have hshifted := hbit (i - 24)
    have hdown : ∀ x : BitVec 32, (x <<< 8 ||| x >>> 24).getLsbD (i - 24) = x.getLsbD i := by
      intro x
      have hin : i - 24 < 8 := by omega
      have hback : 24 + (i - 24) = i := by omega
      rw [BitVec.getLsbD_or, BitVec.getLsbD_shiftLeft, BitVec.getLsbD_ushiftRight, hback]
      simp [hin]
    rwa [hdown, hdown] at hshifted

/-- One round of `calculate_checksum`. -/
def checksumRound (checksum : BitVec 32) (p : BitVec 8) : BitVec 32 :=
  (checksum <<< 8 ||| checksum >>> 24) + p.setWidth 32

theorem checksumRound_injective (p : BitVec 8) :
    Function.Injective fun checksum => checksumRound checksum p := by
  intro c c' h
  exact rotate_injective ((BitVec.add_left_inj _).mp h)

/-- Different bytes give different sums. -/
theorem checksumRound_byte {checksum : BitVec 32} {p p' : BitVec 8}
    (h : checksumRound checksum p = checksumRound checksum p') : p = p' := by
  have hword : p.setWidth 32 = p'.setWidth 32 := (BitVec.add_right_inj _).mp h
  have hback : ∀ x : BitVec 8, (x.setWidth 32).setWidth 8 = x := by
    intro x
    rw [BitVec.setWidth_setWidth_of_le _ (by decide)]
    exact BitVec.setWidth_eq x
  rw [← hback p, hword, hback]

/-- The sum, taken apart at one byte. -/
theorem calculateChecksum_split (before after : List (BitVec 8)) (p : BitVec 8) :
    calculateChecksum (before ++ p :: after) =
      after.foldl checksumRound (checksumRound (calculateChecksum before) p) :=
  List.foldl_append

/-- **A changed byte changes the checksum**, at every place of data of every length. -/
theorem calculateChecksum_set {data : List (BitVec 8)} {i : Nat} {b : BitVec 8}
    (hi : i < data.length) (hb : data[i] ≠ b) :
    calculateChecksum (data.set i b) ≠ calculateChecksum data := by
  have hsplit : data = data.take i ++ data[i] :: data.drop (i + 1) := by
    rw [← List.drop_eq_getElem_cons hi, List.take_append_drop]
  have hset : data.set i b = data.take i ++ b :: data.drop (i + 1) := by
    rw [List.set_eq_take_append_cons_drop, if_pos hi]
  have hsum := congrArg calculateChecksum hsplit
  rw [calculateChecksum_split] at hsum
  intro h
  rw [hset, calculateChecksum_split, hsum] at h
  exact hb (checksumRound_byte (foldl_injective checksumRound_injective _ h)).symm

/-- **Every change of one byte is detected.** -/
theorem calculateChecksum_detects (data : List (BitVec 8)) (i : Fin data.length) (b : BitVec 8) :
    calculateChecksum (data.set i b) = calculateChecksum data ↔ b = data[i] := by
  constructor
  · intro hsum
    by_contra hne
    exact calculateChecksum_set i.isLt (Ne.symm hne) hsum
  · rintro rfl
    rw [Fin.getElem_fin, List.set_getElem_self]

/-! ### A damaged record -/

/-- The file after other bytes were appended to it and one byte was overwritten. -/
def DataFile.damaged (file : DataFile) (rest : List (BitVec 8)) (i : Nat) (b : BitVec 8) :
    DataFile :=
  { file with contents := (file.contents ++ rest).set i b }

/-- Byte `i` of key and value is overwritten, wherever the record stands. -/
theorem record_set {key value before after : List (BitVec 8)} {i : Nat} {b : BitVec 8}
    (hi : i < key.length + value.length) :
    (before ++ (record key value ++ after)).set (before.length + headerBytes + i) b =
      before ++ ((BlockHeader.mk blockMagic (calculateChecksum value).toNat (wrap32 key.length)
        (wrap32 value.length)).bytes ++ (key ++ value).set i b ++ after) := by
  have hin : i < (key ++ value).length := by
    rw [List.length_append]
    exact hi
  rw [Nat.add_assoc, List.set_append_right _ _ (Nat.le_add_right _ _), Nat.add_sub_cancel_left,
    record, List.append_assoc]
  rw [List.set_append_right _ _ (by rw [BlockHeader.bytes_length]; exact Nat.le_add_right _ _),
    BlockHeader.bytes_length, Nat.add_sub_cancel_left, List.set_append_left _ _ hin,
    List.append_assoc]

/-- **Which damage is found.** For every file, every record appended to it by an uninterrupted
`write_block`, whatever is appended behind it, and every byte of its key and its value that is
overwritten with a different one: `read_block` at the offset of the record reports it exactly
when the byte is one of the value. -/
theorem damage_detected_iff (file : DataFile) (key value rest : List (BitVec 8)) (fate : WriteFate)
    (i : Nat) (b : BitVec 8) (hkey : key ≠ [] ∧ key.length < 2 ^ 32)
    (hvalue : value ≠ [] ∧ value.length < 2 ^ 32) (hwritten : fate.Completes key value)
    (hi : i < key.length + value.length) (hb : (key ++ value)[i]? ≠ some b) :
    readBlock
        ((writeBlock file key value fate).2.damaged rest (file.contents.length + headerBytes + i) b)
        file.contents.length true true = .error .corrupt ↔
      key.length ≤ i := by
  have hcontents := (writeBlock_spec file key value fate).2.2 hwritten
  have hdamaged :
      ((writeBlock file key value fate).2.damaged rest
        (file.contents.length + headerBytes + i) b).contents = file.contents ++
      ((BlockHeader.mk blockMagic (calculateChecksum value).toNat (wrap32 key.length)
        (wrap32 value.length)).bytes ++ (key ++ value).set i b ++ rest) := by
    rw [DataFile.damaged, hcontents, List.append_assoc]
    exact record_set hi
  have hsum := (calculateChecksum value).isLt
  rcases Nat.lt_or_ge i key.length with hlt | hge
  · -- The sum of the value is still that in the header.
    have hkeyLength : (key.set i b).length = key.length := List.length_set
    rw [List.set_append_left _ _ hlt, ← hkeyLength] at hdamaged
    rw [readBlock_parts hsum (by rw [List.length_set]; exact hkey.2) hvalue.2 hdamaged,
      if_neg (not_not_intro rfl)]
    simp [Nat.not_le.mpr hlt]
  · have hvi : i - key.length < value.length := by omega
    have hchanged : value[i - key.length] ≠ b := by
      intro heq
      apply hb
      rw [List.getElem?_append_right hge, List.getElem?_eq_getElem hvi, heq]
    have hdiffers := calculateChecksum_set hvi hchanged
    have hvalueLength : (value.set (i - key.length) b).length = value.length := List.length_set
    rw [List.set_append_right _ _ hge, ← hvalueLength] at hdamaged
    rw [readBlock_parts hsum hkey.2 (by rw [List.length_set]; exact hvalue.2) hdamaged, if_pos]
    · simp [hge]
    · exact fun heq => hdiffers (BitVec.eq_of_toNat_eq heq)

/-- A byte of the value, in the first record of a file. -/
theorem damage_detected_value_byte :
    readBlock ((writeBlock ⟨[], 0⟩ [1] [2, 3] ⟨16, 1, 2, true⟩).2.damaged [] (0 + headerBytes + 1) 9)
      0 true true = .error .corrupt :=
  (damage_detected_iff ⟨[], 0⟩ [1] [2, 3] [] ⟨16, 1, 2, true⟩ 1 9 (by decide) (by decide) (by decide)
    (by decide) (by decide)).mpr (by decide)

/-- **A changed key byte is read as if it had been written.** -/
theorem damaged_key_accepted :
    readBlock ((writeBlock ⟨[], 0⟩ [1] [2, 3] ⟨16, 1, 2, true⟩).2.damaged [] (0 + headerBytes) 9)
      0 true true = .ok ([9], [2, 3]) ∧
    ¬ ∀ (file : DataFile) (key value rest : List (BitVec 8)) (fate : WriteFate) (i : Nat)
      (b : BitVec 8), key ≠ [] ∧ key.length < 2 ^ 32 → value ≠ [] ∧ value.length < 2 ^ 32 →
      fate.Completes key value → i < key.length + value.length → (key ++ value)[i]? ≠ some b →
      readBlock
        ((writeBlock file key value fate).2.damaged rest (file.contents.length + headerBytes + i) b)
        file.contents.length true true = .error .corrupt := by
  have haccepted : readBlock
      ((writeBlock ⟨[], 0⟩ [1] [2, 3] ⟨16, 1, 2, true⟩).2.damaged [] (0 + headerBytes) 9)
      0 true true = .ok ([9], [2, 3]) := rfl
  refine ⟨haccepted, ?_⟩
  intro hall
  have hfound := hall ⟨[], 0⟩ [1] [2, 3] [] ⟨16, 1, 2, true⟩ 0 9 (by decide) (by decide) (by decide)
    (by decide) (by decide)
  cases haccepted.symm.trans hfound

end ArmKernel.Kv

/-
The remaining length of an MQTT packet (`src/mqtt_protocol.c`, lines 24 to 59).

`mqtt_decode_remaining_length` reads the bytes it is given one after the other; a result
`none` is a read behind them. `remaining_length_codec` says that it reads back what
`mqtt_encode_remaining_length` wrote, whatever follows, and what it does with any bytes.
-/
import ArmKernel.Mqtt.ConnectPacket
import ArmKernel.Support.Word
import Mathlib.Tactic.Ring

namespace ArmKernel.Mqtt

open ArmKernel.Support

/-- `MQTT_ERR_PROTOCOL`. -/
def mqttErrProtocol : Int := -2

/-- The variables of the loop. -/
structure DecodeState where
  decoded : Nat
  multiplier : Nat
  length : Nat

/-- What one pass of the loop does with its digit. -/
def decodePass (s : DecodeState) (digit : BitVec 8) : DecodeState where
  decoded := s.decoded + 1
  multiplier := wrap32 (s.multiplier * 128)
  length := wrap32 (s.length + (digit &&& 127).toNat * s.multiplier)

/-- The loop, with the bytes it has not read. The second part of the result is what is
stored into `*value`. -/
def decodeLoop : (rounds : Nat) → DecodeState → List (BitVec 8) → Option (Int × Option Nat)
  | 0, _, _ => none
  | rounds + 1, s, bytes =>
    if 4 ≤ s.decoded then some (mqttErrProtocol, none)
    else
      match bytes with
      | [] => none
      | digit :: bytes =>
        let s := decodePass s digit
        if digit &&& 128 ≠ 0 then decodeLoop rounds s bytes
        else some ((s.decoded : Int), some s.length)

def decodeStart : DecodeState := { decoded := 0, multiplier := 1, length := 0 }

/-- `mqtt_decode_remaining_length`: the result, and `*value` after it. The fifth pass ends
the loop. -/
def mqttDecodeRemainingLength (bytes : List (BitVec 8)) (value : Nat) : Option (Int × Nat) :=
  (decodeLoop 5 decodeStart bytes).map fun (result, stored) => (result, stored.getD value)

/-- The digit says that another one follows. -/
abbrev Continues (digit : BitVec 8) : Prop := digit &&& 128 ≠ 0

/-- The encoder writes the least number of digits that hold the length, one to four of them, and
the decoder reads them back, whatever stands behind them. -/
structure CodesLength (mem : Bytes) (buf length : Nat) : Prop where
  bounds : 1 ≤ (mqttEncodeRemainingLength mem buf length).1 ∧
    (mqttEncodeRemainingLength mem buf length).1 ≤ 4
  holds : length < 128 ^ (mqttEncodeRemainingLength mem buf length).1
  least : ∀ k, 0 < k → length < 128 ^ k → (mqttEncodeRemainingLength mem buf length).1 ≤ k
  back : ∀ rest value,
    mqttDecodeRemainingLength
      (readBytes (mqttEncodeRemainingLength mem buf length).2 buf
        (mqttEncodeRemainingLength mem buf length).1 ++ rest) value =
      some (((mqttEncodeRemainingLength mem buf length).1 : Int), length)

/-- Four bytes are enough for the decoder, and it reads no further; it reports an error exactly
when all four announce another one, and then stores nothing; and in no pass of the loop does
the sum or the multiplier leave 32 bits. -/
structure DecodesSafely (bytes : List (BitVec 8)) (value : Nat) : Prop where
  enough : 4 ≤ bytes.length → (mqttDecodeRemainingLength bytes value).isSome
  reads : 4 ≤ bytes.length →
    mqttDecodeRemainingLength bytes value = mqttDecodeRemainingLength (bytes.take 4) value
  error_iff : (mqttDecodeRemainingLength bytes value).map Prod.fst = some mqttErrProtocol ↔
    4 ≤ bytes.length ∧ ∀ digit ∈ bytes.take 4, Continues digit
  untouched : ∀ v, mqttDecodeRemainingLength bytes value = some (mqttErrProtocol, v) → v = value
  inRange : ∀ passed digit rest, bytes = passed ++ digit :: rest → passed.length < 4 →
    let s := passed.foldl decodePass decodeStart
    s.length + (digit &&& 127).toNat * s.multiplier < 2 ^ 32 ∧ s.multiplier * 128 < 2 ^ 32

section Codec

variable {s : DecodeState} {bytes : List (BitVec 8)} {digit : BitVec 8} {length rounds k : Nat}

theorem decodeLoop_stop (h : 4 ≤ s.decoded) :
    decodeLoop (rounds + 1) s bytes = some (mqttErrProtocol, none) := by
  unfold decodeLoop
  rw [if_pos h]

theorem decodeLoop_nil (h : s.decoded < 4) : decodeLoop (rounds + 1) s [] = none := by
  unfold decodeLoop
  rw [if_neg (Nat.not_le_of_lt h)]

theorem decodeLoop_cons (h : s.decoded < 4) :
    decodeLoop (rounds + 1) s (digit :: bytes) =
      if Continues digit then decodeLoop rounds (decodePass s digit) bytes
      else some ((s.decoded + 1 : Nat), some (decodePass s digit).length) := by
  rw [decodeLoop, if_neg (Nat.not_le_of_lt h)]
  rfl

/-- After `decoded` digits the sum is below `128 ^ decoded`. -/
structure InRange (s : DecodeState) : Prop where
  decoded : s.decoded ≤ 4
  multiplier : s.multiplier = 128 ^ s.decoded
  length : s.length < 128 ^ s.decoded

theorem inRange_start : InRange decodeStart := ⟨Nat.zero_le 4, rfl, Nat.zero_lt_one⟩

/-- **One pass** does not wrap. -/
theorem InRange.noWrap (h : InRange s) (hs : s.decoded < 4) (digit : BitVec 8) :
    s.length + (digit &&& 127).toNat * s.multiplier < 128 ^ (s.decoded + 1) ∧
      128 ^ (s.decoded + 1) ≤ 2 ^ 28 := by
  have hdigit : (digit &&& 127).toNat ≤ 127 := Nat.and_le_right
  constructor
  · calc s.length + (digit &&& 127).toNat * s.multiplier
        < 128 ^ s.decoded + 127 * 128 ^ s.decoded := by
          rw [h.multiplier]
          exact Nat.add_lt_add_of_lt_of_le h.length (Nat.mul_le_mul_right _ hdigit)
      _ = 128 ^ (s.decoded + 1) := by rw [Nat.pow_succ]; omega
  · exact Nat.pow_le_pow_right (by decide) hs

theorem InRange.pass (h : InRange s) (hs : s.decoded < 4) (digit : BitVec 8) :
    InRange (decodePass s digit) := by
  obtain ⟨hsum, hbound⟩ := h.noWrap hs digit
  refine ⟨hs, ?_, ?_⟩
  · rw [decodePass, h.multiplier, ← Nat.pow_succ]
    exact wrap32_of_lt (by omega)
  · rw [decodePass]
    simp only
    rwa [wrap32_of_lt (by omega)]

/-! The digits that the encoder writes. -/

theorem continues_more (n : Nat) :
    Continues (BitVec.ofNat 8 (n % 128 ||| 0x80)) ∧
      (BitVec.ofNat 8 (n % 128 ||| 0x80) &&& 127).toNat = n % 128 := by
  have hall : ∀ m : Fin 128, BitVec.ofNat 8 (m ||| 0x80) &&& 128 ≠ 0 ∧
      (BitVec.ofNat 8 (m ||| 0x80) &&& 127).toNat = m := by decide
  exact hall ⟨n % 128, Nat.mod_lt n (by decide)⟩

theorem continues_last (n : Nat) :
    ¬ Continues (BitVec.ofNat 8 (n % 128)) ∧
      (BitVec.ofNat 8 (n % 128) &&& 127).toNat = n % 128 := by
  have hall : ∀ m : Fin 128, ¬ BitVec.ofNat 8 m &&& 128 ≠ 0 ∧
      (BitVec.ofNat 8 m &&& 127).toNat = m := by decide
  exact hall ⟨n % 128, Nat.mod_lt n (by decide)⟩

/-- The number of digits is enough for the length. -/
theorem lt_pow_lengthDigits (hrounds : 0 < rounds) (h : length < 128 ^ rounds) :
    1 ≤ (lengthDigits rounds length).length ∧
      length < 128 ^ (lengthDigits rounds length).length := by
  induction rounds generalizing length with
  | zero => exact absurd hrounds (Nat.lt_irrefl 0)
  | succ rounds ih =>
    rw [lengthDigits]
    split
    · rename_i hmore
      obtain ⟨hrest, hpos⟩ := rest_lt_pow h hmore
      obtain ⟨-, hlt⟩ := ih hpos hrest
      refine ⟨Nat.succ_pos _, ?_⟩
      rw [List.length_cons, Nat.pow_succ]
      omega
    · rename_i hlast
      refine ⟨Nat.le_refl 1, ?_⟩
      rw [List.length_singleton]
      omega

/-- **Reading back.** The loop adds the length that the digits say, in the places it has come
to. -/
theorem decodeLoop_digits {n : Nat} (rest : List (BitVec 8)) (hs : InRange s) (hk : 0 < k)
    (hfour : s.decoded + k ≤ 4) (hn : k ≤ n) (hrounds : k ≤ rounds) (h : length < 128 ^ k) :
    decodeLoop rounds s (lengthDigits n length ++ rest) =
      some (((s.decoded + (lengthDigits n length).length : Nat) : Int),
        some (s.length + length * 128 ^ s.decoded)) := by
  induction k generalizing s n rounds length with
  | zero => exact absurd hk (Nat.lt_irrefl 0)
  | succ k ih =>
    obtain ⟨n, rfl⟩ := Nat.exists_eq_succ_of_ne_zero (Nat.ne_zero_of_lt hn)
    obtain ⟨rounds, rfl⟩ := Nat.exists_eq_succ_of_ne_zero (Nat.ne_zero_of_lt hrounds)
    have hlt : s.decoded < 4 := by omega
    rw [lengthDigits]
    by_cases hmore : length / 128 > 0
    · obtain ⟨hrest, hpos⟩ := rest_lt_pow h hmore
      obtain ⟨hcontinues, hdigit⟩ := continues_more length
      obtain ⟨hsum, hbound⟩ := hs.noWrap hlt (BitVec.ofNat 8 (length % 128 ||| 0x80))
      rw [if_pos hmore, List.cons_append, decodeLoop_cons hlt, if_pos hcontinues,
        ih (hs.pass hlt _) hpos (by rw [decodePass]; simp only; omega) (Nat.le_of_succ_le_succ hn)
          (Nat.le_of_succ_le_succ hrounds) hrest]
      refine congrArg some (Prod.ext ?_ (congrArg some ?_))
      · simp only [decodePass, List.length_cons]
        omega
      · simp only [decodePass]
        rw [wrap32_of_lt (by omega), hdigit, hs.multiplier, Nat.pow_succ]
        calc s.length + length % 128 * 128 ^ s.decoded + length / 128 * (128 ^ s.decoded * 128)
            = s.length + (length % 128 + 128 * (length / 128)) * 128 ^ s.decoded := by ring
          _ = s.length + length * 128 ^ s.decoded := by rw [Nat.mod_add_div]
    · have hsmall : length % 128 = length := Nat.mod_eq_of_lt (by omega)
      obtain ⟨hlast, hdigit⟩ := continues_last length
      obtain ⟨hsum, hbound⟩ := hs.noWrap hlt (BitVec.ofNat 8 (length % 128))
      rw [if_neg hmore, List.singleton_append, decodeLoop_cons hlt, if_neg hlast]
      refine congrArg some (Prod.ext rfl (congrArg some ?_))
      simp only [decodePass]
      rw [wrap32_of_lt (by omega), hdigit, hs.multiplier, hsmall]

/-- The encoder's side. -/
theorem codesLength (mem : Bytes) (buf : Nat) (h : length < 2 ^ 28) :
    CodesLength mem buf length := by
  have hencoded : mqttEncodeRemainingLength mem buf length =
      ((lengthDigits 5 length).length, storeBytes mem buf (lengthDigits 5 length)) := by
    rw [mqttEncodeRemainingLength, encodeLoop_eq, Nat.zero_add]
    rfl
  have hfour : length < 128 ^ 4 := h
  have hfive : length < 128 ^ 5 := Nat.lt_trans hfour (by decide)
  obtain ⟨hone, hholds⟩ := lt_pow_lengthDigits (by decide) hfive
  constructor
  · rw [hencoded]
    exact ⟨hone, lengthDigits_length_le 5 (by decide) hfour⟩
  · rw [hencoded]
    exact hholds
  · intro k hk hlt
    rw [hencoded]
    exact lengthDigits_length_le 5 hk hlt
  · intro rest value
    rw [hencoded]
    simp only
    rw [readBytes_storeBytes_self, mqttDecodeRemainingLength,
      decodeLoop_digits rest inRange_start (by decide) (Nat.le_refl 4) (Nat.le_succ 4)
        (Nat.le_succ 4) hfour]
    simp [decodeStart]

/-! Any bytes. -/

/-- With `k` digits to go, `k` bytes are enough. -/
theorem decodeLoop_take (hs : s.decoded + k = 4) (hk : k ≤ bytes.length) :
    (decodeLoop (k + 1) s bytes).isSome ∧
      decodeLoop (k + 1) s bytes = decodeLoop (k + 1) s (bytes.take k) := by
  induction k generalizing s bytes with
  | zero =>
    rw [decodeLoop_stop (Nat.le_of_eq hs.symm), decodeLoop_stop (Nat.le_of_eq hs.symm)]
    exact ⟨rfl, rfl⟩
  | succ k ih =>
    cases bytes with
    | nil => exact absurd hk (Nat.not_succ_le_zero k)
    | cons digit bytes =>
      have hleft : (decodePass s digit).decoded + k = 4 := by
        rw [decodePass]
        simp only
        omega
      obtain ⟨hsome, htake⟩ := ih hleft (Nat.le_of_succ_le_succ hk)
      have hlt : s.decoded < 4 := by omega
      rw [List.take_succ_cons, decodeLoop_cons hlt, decodeLoop_cons hlt]
      split
      · exact ⟨hsome, htake⟩
      · exact ⟨rfl, rfl⟩

/-- The error is for digits that all continue, and stores nothing. -/
theorem decodeLoop_error (hs : s.decoded + k = 4) :
    ((decodeLoop (k + 1) s bytes).map Prod.fst = some mqttErrProtocol ↔
      k ≤ bytes.length ∧ ∀ digit ∈ bytes.take k, Continues digit) ∧
      ∀ stored, decodeLoop (k + 1) s bytes = some (mqttErrProtocol, stored) → stored = none := by
  induction k generalizing s bytes with
  | zero =>
    rw [decodeLoop_stop (Nat.le_of_eq hs.symm)]
    refine ⟨iff_of_true rfl ⟨Nat.zero_le _, nofun⟩, ?_⟩
    rintro stored ⟨⟩
    rfl
  | succ k ih =>
    have hlt : s.decoded < 4 := by omega
    cases bytes with
    | nil =>
      rw [decodeLoop_nil hlt]
      exact ⟨iff_of_false nofun fun h => Nat.not_succ_le_zero k h.1, nofun⟩
    | cons digit bytes =>
      have hleft : (decodePass s digit).decoded + k = 4 := by
        rw [decodePass]
        simp only
        omega
      obtain ⟨hiff, hstored⟩ := @ih _ bytes hleft
      rw [decodeLoop_cons hlt, List.take_succ_cons, List.forall_mem_cons, List.length_cons,
        Nat.add_le_add_iff_right]
      split
      · rename_i hcontinues
        rw [hiff]
        exact ⟨⟨fun h => ⟨h.1, hcontinues, h.2⟩, fun h => ⟨h.1, h.2.2⟩⟩, hstored⟩
      · rename_i hlast
        have hresult : ((s.decoded + 1 : Nat) : Int) ≠ mqttErrProtocol := by
          unfold mqttErrProtocol
          omega
        constructor
        · refine iff_of_false ?_ fun h => hlast h.2.1
          intro h
          exact hresult (Option.some.inj h)
        · intro stored h
          exact absurd (congrArg Prod.fst (Option.some.inj h)) hresult

/-- After fewer than five digits the state is in range. -/
theorem inRange_foldl (passed : List (BitVec 8)) (h : InRange s)
    (hlen : s.decoded + passed.length ≤ 4) :
    InRange (passed.foldl decodePass s) ∧
      (passed.foldl decodePass s).decoded = s.decoded + passed.length := by
  induction passed generalizing s with
  | nil => exact ⟨h, rfl⟩
  | cons digit passed ih =>
    rw [List.length_cons] at hlen
    have hdecoded : (decodePass s digit).decoded = s.decoded + 1 := rfl
    obtain ⟨hrange, heq⟩ := ih (h.pass (by omega) digit) (by omega)
    refine ⟨hrange, ?_⟩
    rw [List.foldl_cons, heq, hdecoded, List.length_cons]
    omega

/-- The decoder's side. -/
theorem decodesSafely (bytes : List (BitVec 8)) (value : Nat) : DecodesSafely bytes value := by
  have hstart : decodeStart.decoded + 4 = 4 := rfl
  obtain ⟨herror, hstored⟩ := @decodeLoop_error _ bytes _ hstart
  constructor
  · intro hlen
    rw [mqttDecodeRemainingLength, Option.isSome_map]
    exact (decodeLoop_take hstart hlen).1
  · intro hlen
    rw [mqttDecodeRemainingLength, (decodeLoop_take hstart hlen).2]
    rfl
  · rw [← herror, mqttDecodeRemainingLength, Option.map_map]
    rfl
  · intro v hv
    rw [mqttDecodeRemainingLength] at hv
    obtain ⟨⟨result, stored⟩, hloop, heq⟩ := Option.map_eq_some_iff.mp hv
    cases heq
    rw [hstored stored hloop]
    rfl
  · intro passed digit rest _ hlen
    have hzero : decodeStart.decoded = 0 := rfl
    obtain ⟨hrange, hdecoded⟩ := inRange_foldl passed inRange_start (by omega)
    have hlt : (passed.foldl decodePass decodeStart).decoded < 4 := by omega
    obtain ⟨hsum, hbound⟩ := hrange.noWrap hlt digit
    simp only
    refine ⟨by omega, ?_⟩
    rw [hrange.multiplier, ← Nat.pow_succ]
    omega

end Codec

/-- **The remaining length.** For every length below 2^28 and all bytes. -/
theorem remaining_length_codec (mem : Bytes) (buf : Nat) (bytes : List (BitVec 8)) (value : Nat) :
    (∀ length < 2 ^ 28, CodesLength mem buf length) ∧ DecodesSafely bytes value :=
  ⟨fun _ hlength => codesLength mem buf hlength, decodesSafely bytes value⟩

end ArmKernel.Mqtt

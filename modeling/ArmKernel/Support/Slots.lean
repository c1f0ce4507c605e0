/-
Records of one size in blocks, addressed by machine words.

Record `q` begins at `q * size % word`, of which the remainder by `block` is its offset. When
the size divides the block the records are whole and apart (`record_whole`, `records_apart`).
For other sizes `slots_disjoint` says that records which do not cross the end of a block are
apart as long as there are addresses for all of them, `n * gcd size word ≤ word`.
-/
import Mathlib.Data.Int.GCD

namespace ArmKernel.Support

/-- A record lies in one block, when its size divides that of the block. -/
theorem record_whole {size block : Nat} (hdvd : size ∣ block) (hblock : 0 < block) (index : Nat) :
    index * size % block + size ≤ block := by
  obtain ⟨q, hq⟩ : size ∣ index * size % block :=
    (Nat.dvd_mod_iff hdvd).mpr (Nat.dvd_mul_left _ _)
  obtain ⟨r, hr⟩ := hdvd
  have hlt : index * size % block < block := Nat.mod_lt _ hblock
  rw [hq, hr] at hlt
  have hnext : size * (q + 1) ≤ size * r := Nat.mul_le_mul_left _ (Nat.lt_of_mul_lt_mul_left hlt)
  rw [Nat.mul_succ] at hnext
  rw [hq, hr]
  exact hnext

/-- In one block the later record begins behind the earlier one. -/
theorem records_apart {size block index index' : Nat}
    (hblock : index * size / block = index' * size / block) (hlt : index < index') :
    index * size % block + size ≤ index' * size % block := by
  have hdiv := Nat.div_add_mod (index * size) block
  have hdiv' := Nat.div_add_mod (index' * size) block
  have hmul : (index + 1) * size ≤ index' * size := Nat.mul_le_mul_right _ hlt
  rw [Nat.succ_mul] at hmul
  rw [hblock] at hdiv
  omega

section Words

variable {size block word width n q q' : Nat}

/-- The address comes round to 0. -/
theorem address_wraps (size word : Nat) : word / Nat.gcd size word * size % word = 0 := by
  obtain ⟨m, hm⟩ := Nat.gcd_dvd_left size word
  have hword := Nat.div_mul_cancel (Nat.gcd_dvd_right size word)
  have hmul : word / Nat.gcd size word * size = word * m := by
    calc word / Nat.gcd size word * size
        = word / Nat.gcd size word * (Nat.gcd size word * m) := by rw [← hm]
      _ = word / Nat.gcd size word * Nat.gcd size word * m := (Nat.mul_assoc ..).symm
      _ = word * m := by rw [hword]
  rw [hmul, Nat.mul_mod_right]

/-- Before that no two addresses agree. -/
theorem address_inj (hword : 0 < word) (hn : n * Nat.gcd size word ≤ word) (hlt : q < q')
    (hq' : q' < n) : q * size % word ≠ q' * size % word := by
  intro heq
  have hgcd : 0 < Nat.gcd size word := Nat.gcd_pos_of_pos_right size hword
  obtain ⟨d, rfl⟩ := Nat.exists_eq_add_of_le (Nat.le_of_lt hlt)
  have hdvd : word ∣ d * size := by
    have hsub := Nat.dvd_of_mod_eq_zero (Nat.sub_mod_eq_zero_of_mod_eq heq.symm)
    rwa [Nat.add_mul, Nat.add_sub_cancel_left] at hsub
  obtain ⟨m, hm⟩ := Nat.gcd_dvd_left size word
  obtain ⟨k, hk⟩ := Nat.gcd_dvd_right size word
  have hcoprime : Nat.Coprime k m := by
    have h := Nat.coprime_div_gcd_div_gcd hgcd (m := size) (n := word)
    rw [Nat.div_eq_of_eq_mul_right hgcd hm, Nat.div_eq_of_eq_mul_right hgcd hk] at h
    exact h.symm
  have hprod : Nat.gcd size word * k ∣ Nat.gcd size word * (d * m) := by
    calc Nat.gcd size word * k = word := hk.symm
      _ ∣ d * size := hdvd
      _ = d * (Nat.gcd size word * m) := by rw [← hm]
      _ = Nat.gcd size word * (d * m) := Nat.mul_left_comm ..
  have hkd : k ∣ d := hcoprime.dvd_of_dvd_mul_right (Nat.dvd_of_mul_dvd_mul_left hgcd hprod)
  have hkle : k ≤ d := Nat.le_of_dvd (by omega) hkd
  have hnk : n ≤ k := by
    rw [Nat.mul_comm] at hn
    exact Nat.le_of_mul_le_mul_left (hn.trans_eq hk) hgcd
  omega

/-- An address depends on the index modulo a period. -/
theorem mul_mod_period {period : Nat} (hperiod : period * size % block = 0) (m : Nat) :
    m % period * size % block = m * size % block := by
  have hsplit : m * size = m % period * size + m / period * (period * size) := by
    calc m * size = (m % period + m / period * period) * size := by rw [Nat.mod_add_div']
      _ = m % period * size + m / period * (period * size) := by rw [Nat.add_mul, Nat.mul_assoc]
  rw [hsplit, Nat.add_mod, Nat.mul_mod (m / period), hperiod, Nat.mul_zero, Nat.zero_mod,
    Nat.add_zero, Nat.mod_mod]

/-- Some record begins one step, the common divisor of size and block, before the end of its
block. -/
theorem last_slot (size : Nat) (hblock : 0 < block) :
    ∃ q < block / Nat.gcd size block, q * size % block + Nat.gcd size block = block := by
  have hgcd : 0 < Nat.gcd size block := Nat.gcd_pos_of_pos_right size hblock
  have hle : Nat.gcd size block ≤ block := Nat.gcd_le_right size hblock
  have hperiod : block / Nat.gcd size block * size % block = 0 := address_wraps size block
  rcases Nat.lt_or_eq_of_le hle with hlt | heq
  · obtain ⟨m, -, hm⟩ := Nat.exists_mul_mod_eq_gcd hlt
    obtain ⟨period, hp⟩ : ∃ p, p = block / Nat.gcd size block := ⟨_, rfl⟩
    rw [← hp] at hperiod ⊢
    -- `m` brings the address one step behind the start of a block, so its complement to the
    -- period brings it one step before the end.
    have hstep : m % period * size % block = Nat.gcd size block := by
      rw [mul_mod_period hperiod, Nat.mul_comm, hm]
    have hperiodPos : 0 < period := hp ▸ Nat.div_pos hle hgcd
    have hpos : 0 < m % period := by
      by_contra hzero
      rw [Nat.eq_zero_of_not_pos hzero, Nat.zero_mul, Nat.zero_mod] at hstep
      omega
    have hmod : m % period < period := Nat.mod_lt _ hperiodPos
    refine ⟨period - m % period, by omega, ?_⟩
    have hsum : (period - m % period) * size + m % period * size = period * size := by
      rw [← Nat.add_mul, Nat.sub_add_cancel (Nat.le_of_lt hmod)]
    have hzero := congrArg (· % block) hsum
    simp only [Nat.add_mod _ (m % period * size), hstep, hperiod] at hzero
    have hlt' : (period - m % period) * size % block < block := Nat.mod_lt _ hblock
    rcases Nat.lt_or_ge ((period - m % period) * size % block + Nat.gcd size block) block with
      hbelow | habove
    · rw [Nat.mod_eq_of_lt hbelow] at hzero
      omega
    · rw [Nat.mod_eq_sub_mod habove, Nat.mod_eq_of_lt (by omega)] at hzero
      omega
  · exact ⟨0, Nat.div_pos hle hgcd, by rw [Nat.zero_mul, Nat.zero_mod, Nat.zero_add, heq]⟩

/-- Two multiples are a step apart. -/
theorem multiples_apart {step a b : Nat} (ha : step ∣ a) (hb : step ∣ b) (hlt : a < b) :
    a + step ≤ b := by
  obtain ⟨i, rfl⟩ := ha
  obtain ⟨j, rfl⟩ := hb
  have hij : i < j := Nat.lt_of_mul_lt_mul_left hlt
  rw [← Nat.mul_succ]
  exact Nat.mul_le_mul_left step hij

/-- **Slots.** Records that do not cross the end of a block are apart, when each has an address
of its own. -/
theorem slots_disjoint (hblock : 0 < block) (hwidth : width ≤ size) (hsize : size ≤ block)
    (hdvd : block ∣ word) (hsquare : block * block ≤ word) (hword : 0 < word)
    (hgcd : Nat.gcd size word ∣ block)
    (hwhole : ∀ q < n, q * size % block + width ≤ block) (hn : n * Nat.gcd size word ≤ word)
    (hlt : q < q') (hq' : q' < n)
    (hsame : q * size % word / block = q' * size % word / block) :
    q * size % block + width ≤ q' * size % block ∨
      q' * size % block + width ≤ q * size % block := by
  have hcommon : Nat.gcd size block = Nat.gcd size word :=
    Nat.dvd_antisymm (Nat.gcd_dvd_gcd_of_dvd_right size hdvd)
      (Nat.dvd_gcd (Nat.gcd_dvd_left ..) hgcd)
  rcases Nat.lt_or_ge n (block / Nat.gcd size block) with hfew | hmany
  · -- The addresses do not wrap.
    have hsmall : ∀ k, k ≤ q' → k * size < word := by
      intro k hk
      have hk' : k < block := by
        have := Nat.div_le_self block (Nat.gcd size block)
        omega
      calc k * size ≤ k * block := Nat.mul_le_mul_left k hsize
        _ < block * block := Nat.mul_lt_mul_of_pos_right hk' hblock
        _ ≤ word := hsquare
    rw [Nat.mod_eq_of_lt (hsmall q (Nat.le_of_lt hlt)), Nat.mod_eq_of_lt (hsmall q' (Nat.le_refl _))]
      at hsame
    exact .inl ((Nat.add_le_add_left hwidth _).trans (records_apart hsame hlt))
  · -- The last step of a block is the offset of a record, so a step is as wide as a record.
    obtain ⟨k, hk, hend⟩ := last_slot size hblock
    have hfits := hwhole k (Nat.lt_of_lt_of_le hk hmany)
    have hstep : width ≤ Nat.gcd size word := by omega
    have hne := address_inj hword hn hlt hq'
    have hoffset : ∀ k, Nat.gcd size word ∣ k * size % block := fun k =>
      (Nat.dvd_mod_iff hgcd).mpr ((Nat.gcd_dvd_left size word).mul_left k)
    have hrem : ∀ k, k * size % word % block = k * size % block := fun k =>
      Nat.mod_mod_of_dvd _ hdvd
    have hoffsets : q * size % block ≠ q' * size % block := by
      intro heq
      apply hne
      rw [← Nat.div_add_mod (q * size % word) block, ← Nat.div_add_mod (q' * size % word) block,
        hsame, hrem, hrem, heq]
    rcases Nat.lt_or_gt_of_ne hoffsets with hbefore | hafter
    · exact .inl ((Nat.add_le_add_left hstep _).trans
        (multiples_apart (hoffset q) (hoffset q') hbefore))
    · exact .inr ((Nat.add_le_add_left hstep _).trans
        (multiples_apart (hoffset q') (hoffset q) hafter))

end Words

end ArmKernel.Support

import FlowTube.Proofs.Binary64.Integers
import FlowTube.Proofs.Decimal.Text

/-! A decimal becomes the number nearest to it. With few digits and a small exponent it is a
product or a quotient of two exact numbers, one of them from a table of powers of ten. Any other
decimal is multiplied or divided out as a whole and rounded once; only exponents that lead out of
the range at any rate are not, and then the result is infinity or zero. -/

namespace FlowTube.Binary64

open Float.Model (UnpackedFloat Format)
open Float.Model.UnpackedFloat (Sign)

variable {m n : ℕ} {d e : ℤ} {r : ℝ}

/-! ### Powers of ten -/

theorem units_exactlyRepresentablePowersOfTen : ∀ k : Fin 23,
    (Float.exactlyRepresentablePowersOfTen[k]).isFinite = true ∧
      units Float.exactlyRepresentablePowersOfTen[k] = 10 ^ (k : ℕ) * unitsPerOne := by
  decide +kernel

theorem real_exactlyRepresentablePowersOfTen (k : Fin 23) :
    real Float.exactlyRepresentablePowersOfTen[k] = 10 ^ (k : ℕ) := by
  obtain ⟨hfin, hunits⟩ := units_exactlyRepresentablePowersOfTen k
  rw [real_eq_units hfin, hunits]
  push_cast
  rw [mul_assoc, unitsPerOne_mul_leastPlace, mul_one]

/-- Digits that fit into a mantissa become an exact number. -/
theorem real_toUInt64_toFloat (hm : m < 2 ^ 53) :
    m.toUInt64.toFloat.isFinite = true ∧ real m.toUInt64.toFloat = m := by
  have hnat : m.toUInt64.toNat = m := by
    rw [Nat.toUInt64, UInt64.toNat_ofNat']
    exact Nat.mod_eq_of_lt (hm.trans (by norm_num))
  have h := toFloat_exact (n := m.toUInt64) (by rw [hnat]; exact hm.le)
  rwa [hnat] at h

theorem roundsTo_mul_powerOfTen (hm : m < 2 ^ 53) (k : Fin 23) :
    RoundsTo (m * 10 ^ (k : ℤ))
      (m.toUInt64.toFloat * Float.exactlyRepresentablePowersOfTen[k]) := by
  obtain ⟨hfin, hreal⟩ := real_toUInt64_toFloat hm
  have h := roundsTo_mul hfin (units_exactlyRepresentablePowersOfTen k).1
  rwa [hreal, real_exactlyRepresentablePowersOfTen, ← zpow_natCast] at h

theorem roundsTo_div_powerOfTen (hm : m < 2 ^ 53) (k : Fin 23) :
    RoundsTo (m * 10 ^ (-k : ℤ))
      (m.toUInt64.toFloat / Float.exactlyRepresentablePowersOfTen[k]) := by
  obtain ⟨hfin, hreal⟩ := real_toUInt64_toFloat hm
  have hpow := real_exactlyRepresentablePowersOfTen k
  have hfin' := (units_exactlyRepresentablePowersOfTen k).1
  have h0 : (Float.exactlyRepresentablePowersOfTen[k] == 0.0) = false := by
    refine Bool.eq_false_iff.2 fun hzero => ?_
    rw [beq_iff_real hfin' rfl, hpow, real_zero] at hzero
    exact absurd hzero (by positivity)
  have h := roundsTo_div hfin hfin' h0
  rwa [hreal, hpow, ← zpow_natCast, div_eq_mul_inv, ← zpow_neg] at h

/-! ### Long products and quotients -/

theorem roundsTo_inf (hn : 2 ^ 53 * topPlace ≤ n) : RoundsTo n inf := by
  have h := unpackedRounds_normalize n 0 .positive
  rw [zpow_zero, mul_one, Int.cast_natCast] at h
  exact .above rfl _ h.rounds (h.rounds.le_of_le representable_beyond hn)

theorem roundsTo_zero (h0 : 0 ≤ r) (hr : r ≤ leastPlace / 2) : RoundsTo r 0.0 := by
  have hpos := leastPlace_pos
  have habs := abs_of_nonneg h0
  refine .finite rfl ⟨-1074, le_rfl, ?_, Or.inr rfl, zero_mem _, ?_, fun _ => zero_mem _⟩
  · rw [habs, ← leastPlace]
    linarith
  · rw [real_zero, sub_zero, habs, ← leastPlace]
    exact hr

theorem lt_of_log2 (he : e ≤ 0) : (m : ℝ) * 10 ^ e < 2 ^ ((m.log2 + 1 : ℕ) + e) := by
  have hm : (m : ℝ) < 2 ^ (m.log2 + 1) := by exact_mod_cast Nat.lt_log2_self
  have hpow : (10 : ℝ) ^ e ≤ 2 ^ e := by
    obtain ⟨k, hk⟩ := Int.eq_ofNat_of_zero_le (neg_nonneg.2 he)
    obtain rfl : e = -k := by omega
    rw [zpow_neg, zpow_neg, zpow_natCast, zpow_natCast]
    exact inv_anti₀ (by positivity) (by gcongr; norm_num)
  rw [← two_pow_mul_zpow]
  calc (m : ℝ) * 10 ^ e ≤ m * 2 ^ e := by gcongr
    _ < 2 ^ (m.log2 + 1) * 2 ^ e := by gcongr

/-- Beyond the range even the least significand overflows. -/
theorem roundsTo_inf_of_exponent (hm : m ≠ 0) (he : 1024 ≤ e) : RoundsTo (m * 10 ^ e) inf := by
  obtain ⟨k, rfl⟩ := Int.eq_ofNat_of_zero_le (by omega : 0 ≤ e)
  have hcast : (m : ℝ) * 10 ^ (k : ℤ) = (m * 10 ^ k : ℕ) := by push_cast; rw [zpow_natCast]
  rw [hcast]
  refine roundsTo_inf ?_
  have hm1 : (1 : ℝ) ≤ m := by exact_mod_cast Nat.one_le_iff_ne_zero.2 hm
  rw [topPlace, two_pow_mul_zpow]
  push_cast
  calc (2 : ℝ) ^ (53 + 971 : ℤ) ≤ 2 ^ (k : ℤ) := zpow_mono (by omega)
    _ = 2 ^ k := zpow_natCast _ _
    _ ≤ 10 ^ k := pow_le_pow_left₀ zero_le_two (by norm_num) _
    _ ≤ m * 10 ^ k := le_mul_of_one_le_left (by positivity) hm1

theorem roundsTo_zero_of_exponent (he : e ≤ 0) (hbits : m.log2 + 1 + e ≤ -1075) :
    RoundsTo (m * 10 ^ e) 0.0 := by
  refine roundsTo_zero (by positivity) ((lt_of_log2 he).le.trans ?_)
  calc (2 : ℝ) ^ ((m.log2 + 1 : ℕ) + e) ≤ 2 ^ (-1075 : ℤ) := zpow_mono (by push_cast; omega)
    _ = leastPlace / 2 := by
      rw [leastPlace, show (-1074 : ℤ) = -1075 + 1 by norm_num, zpow_succ]
      ring

/-- Exponents beyond the range are not multiplied out, all others are, with one rounding. -/
theorem roundsTo_ofScientific_model (m : ℕ) (e : ℤ) :
    RoundsTo (m * 10 ^ e) (.ofModel (Float.Model.ofScientific m e)) := by
  unfold Float.Model.ofScientific UnpackedFloat.ofScientific
  split_ifs with hm hlarge hsmall hsign
  · rw [hm, Nat.cast_zero, zero_mul]
    exact roundsTo_pack (unpackedRounds_zero _)
  · have hbits : (2 : ℤ) ^ Format.binary64.exponentBits = 2048 := rfl
    rw [hbits] at hlarge
    exact roundsTo_inf_of_exponent hm (by omega)
  · have hbits : (2 : ℤ) ^ Format.binary64.exponentBits = 2048 := rfl
    rw [hbits] at hsmall
    exact roundsTo_zero_of_exponent (by omega) (by omega)
  · have hlong : 52 ≤ (m <<< Format.binary64.mantissaBits * 10 ^ e.toNat).log2 := by
      have hpos : 0 < m <<< Format.binary64.mantissaBits * 10 ^ e.toNat := by
        rw [Nat.shiftLeft_eq]
        positivity
      rw [Nat.le_log2 hpos.ne', Nat.shiftLeft_eq]
      calc 2 ^ 52 ≤ 2 ^ Format.binary64.mantissaBits := Nat.pow_le_pow_right two_pos (by decide)
        _ ≤ m * 2 ^ Format.binary64.mantissaBits := Nat.le_mul_of_pos_left _ (by omega)
        _ ≤ _ := Nat.le_mul_of_pos_right _ (by positivity)
    have h := unpackedRounds_mul_of_places (s := .positive) (t := .positive)
      (d := -(Format.binary64.mantissaBits : ℤ)) (e := 0)
      (by rw [Nat.shiftLeft_eq]; positivity) (by positivity) (Or.inl hlong)
    rw [unpackedReal_positive, unpackedReal_positive, zpow_zero, mul_one,
      ← zero_sub, shiftLeft_mul_zpow, zpow_zero, mul_one] at h
    have hpow : ((10 ^ e.toNat : ℕ) : ℝ) = 10 ^ e := by
      rw [Nat.cast_pow, ← zpow_natCast, Int.toNat_of_nonneg hsign]
      rfl
    rw [hpow] at h
    exact roundsTo_pack h
  · have h := unpackedRounds_div (u := .finite .positive m 0 (Nat.pos_of_ne_zero hm)) rfl
      (t := .positive) (n := 10 ^ (-e).toNat) (e := 0) (by positivity)
    have hpow : ((10 ^ (-e).toNat : ℕ) : ℝ) = (10 ^ e)⁻¹ := by
      rw [Nat.cast_pow, ← zpow_natCast, Int.toNat_of_nonneg (by omega), ← zpow_neg]
      rfl
    rw [unpackedReal_positive, unpackedReal_positive, zpow_zero, mul_one, mul_one, hpow,
      div_inv_eq_mul] at h
    exact roundsTo_pack h

/-- A decimal literal of the core library is rounded to the nearest number. -/
theorem roundsTo_ofScientific (m : ℕ) (negative : Bool) (k : ℕ) :
    RoundsTo (m * 10 ^ (if negative then -k else k : ℤ)) (Float.ofScientific m negative k) := by
  unfold Float.ofScientific
  by_cases hshort : m < 2 ^ 53 ∧ k ≤ 22
  · rw [dif_pos hshort]
    cases negative with
    | false => exact roundsTo_mul_powerOfTen hshort.1 ⟨k, by omega⟩
    | true => exact roundsTo_div_powerOfTen hshort.1 ⟨k, by omega⟩
  · rw [dif_neg hshort]
    cases negative with
    | false => exact roundsTo_ofScientific_model m k
    | true =>
      have h := roundsTo_ofScientific_model m (Int.negOfNat k)
      rwa [Int.negOfNat_eq] at h ⊢

end FlowTube.Binary64

namespace FlowTube.Decimal

open Binary64

theorem roundsTo_toFloat (d : Decimal) : RoundsTo d.exact d.toFloat := by
  unfold exact toFloat
  split_ifs with h
  · have hround := roundsTo_ofScientific d.digits false d.exponent.toNat
    rwa [if_neg Bool.false_ne_true, Int.toNat_of_nonneg h] at hround
  · have hround := roundsTo_ofScientific d.digits true (-d.exponent).toNat
    rwa [if_pos rfl, Int.toNat_of_nonneg (by omega), neg_neg] at hround

end FlowTube.Decimal

import FlowTube.Proofs.Binary64.Monotone

/-! Integers among the binary64 numbers. The integer part of a number is found through a
conversion to 64 bits, below the magnitude from which on all numbers are integers; so the test
for a fraction is exact, and so are the integers of up to 53 bits in either direction. -/

namespace FlowTube.Binary64

open Float.Model (UnpackedFloat)
open Float.Model.UnpackedFloat (Sign)

variable {x : Float}

/-! ### Magnitudes -/

theorem unpackedReal_abs (u : UnpackedFloat) : unpackedReal u.abs = |unpackedReal u| := by
  cases u with
  | notANumber => exact abs_zero.symm
  | infinity s => exact abs_zero.symm
  | zero s => exact abs_zero.symm
  | finite s m e hm =>
    have hpos : (0 : ℝ) < m * 2 ^ e := by positivity
    cases s with
    | negative =>
      rw [unpackedReal_negative, abs_neg, abs_of_pos hpos]
      exact unpackedReal_positive hm
    | positive =>
      rw [unpackedReal_positive, abs_of_pos hpos]
      exact unpackedReal_positive hm

theorem unpack_abs (x : Float) : x.abs.toModel.unpack = x.toModel.unpack.abs := by
  have hc : Canonical x.toModel.unpack.abs := by
    have hx := canonical_toModel x
    cases hu : x.toModel.unpack <;> rw [hu] at hx <;> exact hx
  refine unpack_pack hc fun s m e hm h => ?_
  cases hu : x.toModel.unpack with
  | finite t n d hn =>
    rw [hu, UnpackedFloat.abs, UnpackedFloat.finite.injEq] at h
    rw [← h.2.2]
    exact exponent_le_of_unpack hu
  | notANumber => rw [hu] at h; contradiction
  | infinity t => rw [hu] at h; contradiction
  | zero t => rw [hu] at h; contradiction

@[simp] theorem real_abs (x : Float) : real x.abs = |real x| := by
  rw [real, unpack_abs, unpackedReal_abs, real]

@[simp] theorem isFinite_abs (x : Float) : x.abs.isFinite = x.isFinite := by
  change x.abs.toModel.unpack.isFinite = x.toModel.unpack.isFinite
  rw [unpack_abs]
  cases x.toModel.unpack <;> rfl

/-! ### Conversions -/

theorem fiftyThreeBits_le_maxFinite : (2 : ℝ) ^ 53 ≤ real maxFinite := by
  have hpow : (2 : ℝ) ^ (1 : ℤ) ≤ topPlace := zpow_mono (by norm_num)
  rw [real_maxFinite]
  rw [zpow_one] at hpow
  linarith

/-- Integers of up to 53 bits. -/
theorem representable_intCast {n : ℤ} (hn : |n| ≤ 2 ^ 53) : Representable (n : ℝ) := by
  refine representable_of_le (e := 0) (by norm_num) (mem_grid.2 ⟨n, by simp⟩) ?_
  rw [zpow_zero, mul_one]
  exact_mod_cast hn

theorem roundsTo_toFloat (n : UInt64) : RoundsTo n.toNat n.toFloat := by
  have h := unpackedRounds_normalize (n.toNat : ℤ) 0 .positive
  rw [zpow_zero, mul_one, Int.cast_natCast] at h
  exact roundsTo_pack h

theorem toFloat_exact {n : UInt64} (hn : n.toNat ≤ 2 ^ 53) :
    n.toFloat.isFinite = true ∧ real n.toFloat = n.toNat := by
  have hle : |(n.toNat : ℤ)| ≤ 2 ^ 53 := by rw [Nat.abs_cast]; exact_mod_cast hn
  have hle' : |(n.toNat : ℝ)| ≤ 2 ^ 53 := by exact_mod_cast hle
  exact (roundsTo_toFloat n).eq_of_representable (by exact_mod_cast representable_intCast hle)
    (hle'.trans fiftyThreeBits_le_maxFinite)

/-- Cutting the places below the point off is rounding down, for a number without a sign. -/
theorem toInt_unpacked (a b : ℤ) {u : UnpackedFloat} (hu : u.isFinite = true)
    (h0 : 0 ≤ unpackedReal u) : u.toInt a b = ⌊unpackedReal u⌋ := by
  cases u, hu using finite_cases with
  | zero s => exact Int.floor_zero.symm
  | finite s m e hm =>
    cases s with
    | negative =>
      have hpos : (0 : ℝ) < m * 2 ^ e := by positivity
      rw [unpackedReal_negative] at h0
      linarith
    | positive =>
      obtain ⟨d, hd⟩ : ∃ d, d = e - (e - 0).toNat := ⟨_, rfl⟩
      have hstands := (standsFor_exact (m <<< (e - 0).toNat)).shiftRight (0 - d).toNat
      have hreal : ((m <<< (e - 0).toNat : ℕ) : ℝ) / 2 ^ (0 - d).toNat = m * 2 ^ e := by
        rw [← shiftLeft_mul_zpow m (e - 0).toNat e, ← hd, div_eq_mul_inv, ← zpow_natCast,
          ← zpow_neg]
        congr 2
        omega
      rw [hreal] at hstands
      obtain ⟨hlow, hup⟩ := hstands.bounds
      rw [unpackedReal_positive, eq_comm, Int.floor_eq_iff]
      change ((UnpackedFloat.roundToInt .positive m e : ℤ) : ℝ) ≤ m * 2 ^ e ∧
        m * 2 ^ e < ((UnpackedFloat.roundToInt .positive m e : ℤ) : ℝ) + 1
      unfold UnpackedFloat.roundToInt UnpackedFloat.decreaseExponent UnpackedFloat.shiftToExponent
      dsimp only
      rw [← hd]
      simpa [Sign.apply] using And.intro hlow hup

theorem toNat_toUInt64 (hx : x.isFinite) (h0 : 0 ≤ real x) (hlt : real x < 2 ^ 64) :
    x.toUInt64.toNat = ⌊real x⌋₊ := by
  have hfloor : ⌊real x⌋₊ < UInt64.size := by
    rw [Nat.floor_lt h0]
    exact hlt.trans_eq (by norm_num [UInt64.size])
  change (UInt64.ofNatClamp (x.toModel.unpack.toInt 0 (UInt64.size - 1)).toNat).toNat = _
  rw [toInt_unpacked _ _ hx h0, show unpackedReal x.toModel.unpack = real x from rfl,
    ← Int.natCast_floor_eq_floor h0, Int.toNat_natCast, UInt64.ofNatClamp, dif_pos hfloor]
  rfl

/-! ### Integer parts -/

theorem real_fiftyThreeBits : real 9007199254740992.0 = 2 ^ 53 := by
  change (((2 ^ 52 : ℕ) : ℤ) : ℝ) * 2 ^ (1 : ℤ) = 2 ^ 53
  norm_num

/-- Beyond 53 bits there are no places below the point. -/
theorem exists_intCast_of_le (h : 2 ^ 53 ≤ |real x|) : ∃ n : ℤ, real x = n := by
  obtain ⟨e, he, hmem, hlt⟩ := representable_real x
  have he0 : (0 : ℤ) ≤ e := by
    by_contra hneg
    have hpow : (2 : ℝ) ^ e ≤ 2 ^ (0 : ℤ) := zpow_mono (by omega)
    rw [zpow_zero] at hpow
    linarith
  obtain ⟨n, hn⟩ := mem_grid.1 (grid_mono he0 hmem)
  exact ⟨n, by rw [hn, zpow_zero, mul_one]⟩

/-- Below 53 bits, what stands after the point is dropped. -/
theorem real_trunc (hx : x.isFinite) (hlt : |real x| < 2 ^ 53) : (trunc x).isFinite = true ∧
    real (trunc x) = if real x < 0 then -(⌊|real x|⌋₊ : ℝ) else ⌊|real x|⌋₊ := by
  have hsmall : x.abs < 9007199254740992.0 := by
    rwa [lt_iff_real (by simpa using hx) rfl, real_abs, real_fiftyThreeBits]
  have hnat : x.abs.toUInt64.toNat = ⌊|real x|⌋₊ := by
    rw [← real_abs]
    refine toNat_toUInt64 (by simpa using hx) (by rw [real_abs]; exact abs_nonneg _) ?_
    rw [real_abs]
    exact hlt.trans (by norm_num)
  have hle : x.abs.toUInt64.toNat ≤ 2 ^ 53 := by
    rw [hnat]
    exact Nat.floor_le_of_le (by exact_mod_cast hlt.le)
  obtain ⟨hfin, hreal⟩ := toFloat_exact hle
  rw [hnat] at hreal
  have hneg : x < 0.0 ↔ real x < 0 := by rw [lt_iff_real hx rfl, real_zero]
  rw [trunc, if_pos hsmall]
  simp only [hneg]
  split_ifs with h
  · exact ⟨by rwa [isFinite_neg_eq], by rw [real_neg, hreal]⟩
  · exact ⟨hfin, hreal⟩

theorem floor_abs_eq_iff (r : ℝ) :
    (if r < 0 then -(⌊|r|⌋₊ : ℝ) else ⌊|r|⌋₊) = r ↔ ∃ n : ℤ, r = n := by
  constructor
  · intro h
    rw [← h]
    split_ifs
    · exact ⟨-⌊|r|⌋₊, by push_cast; rfl⟩
    · exact ⟨⌊|r|⌋₊, by push_cast; rfl⟩
  · rintro ⟨n, rfl⟩
    rw [natCast_floor_eq_intCast_floor (abs_nonneg _), ← Int.cast_abs, Int.floor_intCast]
    split_ifs with h
    · rw [Int.cast_abs, abs_of_neg h, neg_neg]
    · rw [Int.cast_abs, abs_of_nonneg (not_lt.1 h)]

/-- The test for a fraction is exact. -/
theorem isIntegral_iff : isIntegral x = true ↔ x.isFinite = true ∧ ∃ n : ℤ, real x = n := by
  rw [isIntegral, Bool.and_eq_true]
  refine and_congr_right fun hx => ?_
  rcases lt_or_ge |real x| (2 ^ 53) with hlt | hge
  · obtain ⟨hfin, hreal⟩ := real_trunc hx hlt
    rw [beq_iff_real hfin hx, hreal, floor_abs_eq_iff]
  · have hlarge : ¬x.abs < 9007199254740992.0 := by
      rwa [lt_iff_real (by simpa using hx) rfl, real_abs, real_fiftyThreeBits, not_lt]
    rw [trunc, if_neg hlarge]
    exact iff_of_true ((beq_iff_real hx hx).2 rfl) (exists_intCast_of_le hge)

/-- The integer of a number without a fraction. -/
theorem toInt_eq {n : ℤ} (hx : x.isFinite) (h : real x = n) (hn : |n| < 2 ^ 64) :
    toInt x = n := by
  have habs : |real x| = (n.natAbs : ℝ) := by
    rw [h, Nat.cast_natAbs, Int.cast_abs]
  have hnat : x.abs.toUInt64.toNat = n.natAbs := by
    rw [toNat_toUInt64 (by simpa using hx) (by rw [real_abs]; exact abs_nonneg _), real_abs, habs,
      Nat.floor_natCast]
    rw [real_abs, h, ← Int.cast_abs]
    exact_mod_cast hn
  have hneg : x < 0.0 ↔ n < 0 := by rw [lt_iff_real hx rfl, real_zero, h, Int.cast_lt_zero]
  rw [toInt, hnat]
  simp only [hneg]
  split_ifs <;> omega

end FlowTube.Binary64

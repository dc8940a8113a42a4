import FlowTube.Proofs.Binary64.Arithmetic

/-! Numbers next to each other. A finite number is an integer count of the least positive
one, and the bits without the sign count magnitudes upward, so the neighbour above a number
is greater. A rounding is as near as any number, so a real on the far side of its rounding
has not passed the neighbour there: one step outward from the rounding bounds the real, and
no more than the order of the two numbers is needed to see it. -/

namespace FlowTube.Binary64

open Float.Model (UnpackedFloat Format)
open Float.Model.UnpackedFloat (Sign pack unpack unpackExponent unpackMantissa unpackSign)

variable {x y : Float} {r : ℝ}

/-! ### Negation -/

theorem unpack_packedInfinity (s : Sign) :
    unpack .binary64 (UnpackedFloat.packedInfinity .binary64 s) = .infinity s := by
  cases s <;> rfl

/-- What has the exponents of numbers survives packing. -/
theorem unpack_pack {u : UnpackedFloat} (hc : Canonical u)
    (he : ∀ s m e hm, u = .finite s m e hm → e ≤ 971) :
    unpack .binary64 (pack .binary64 u) = u := by
  cases u with
  | notANumber => exact UnpackedFloat.unpack_packedNaN
  | infinity s => exact unpack_packedInfinity s
  | zero s => exact UnpackedFloat.unpack_packedZero
  | finite s m e hm => exact unpack_pack_finite hc (he s m e hm rfl)

theorem unpack_neg (x : Float) : (-x).toModel.unpack = x.toModel.unpack.neg := by
  refine unpack_pack (canonical_neg (canonical_toModel x)) fun s m e hm h => ?_
  cases hu : x.toModel.unpack with
  | finite t n d hn =>
    rw [hu, UnpackedFloat.neg, UnpackedFloat.finite.injEq] at h
    rw [← h.2.2]
    exact exponent_le_of_unpack hu
  | notANumber => rw [hu] at h; contradiction
  | infinity t => rw [hu] at h; contradiction
  | zero t => rw [hu] at h; contradiction

@[simp] theorem real_neg (x : Float) : real (-x) = -real x := by
  rw [real, unpack_neg, unpackedReal_neg, real]

@[simp] theorem isFinite_neg_eq (x : Float) : (-x).isFinite = x.isFinite := by
  change (-x).toModel.unpack.isFinite = _
  rw [unpack_neg, isFinite_neg]
  rfl

@[simp] theorem isNaN_neg_eq (x : Float) : (-x).isNaN = x.isNaN := by
  change (-x).toModel.unpack.isNaN = x.toModel.unpack.isNaN
  rw [unpack_neg]
  cases x.toModel.unpack <;> rfl

@[simp] theorem value_neg (x : Float) : value (-x) = -value x := by
  unfold value
  rw [unpack_neg]
  cases h : x.toModel.unpack with
  | notANumber => simp [UnpackedFloat.neg, unpackedValue, unpackedReal]
  | infinity s =>
    cases s with
    | negative => exact EReal.neg_bot.symm
    | positive => exact EReal.neg_top.symm
  | zero s => simp [UnpackedFloat.neg, unpackedValue, unpackedReal]
  | finite s m e hm =>
    rw [← h, unpackedValue_of_isFinite (by rw [h]; rfl),
      unpackedValue_of_isFinite (by rw [h]; rfl), unpackedReal_neg, EReal.coe_neg]

/-! ### The range of the numbers -/

theorem representable_real (x : Float) : Representable (real x) := by
  unfold real
  have hc := canonical_toModel x
  cases h : x.toModel.unpack with
  | notANumber => exact representable_zero
  | infinity s => exact representable_zero
  | zero s => exact representable_zero
  | finite s m e hm =>
    rw [h] at hc
    obtain ⟨hlt, hle, -⟩ := hc
    refine ⟨e, hle, mul_mem_grid _ e, ?_⟩
    have hm : ((m : ℕ) : ℝ) < 2 ^ 53 := by exact_mod_cast hlt
    have hpos : (0 : ℝ) < 2 ^ e := by positivity
    rw [unpackedReal, abs_mul, abs_of_pos hpos]
    refine mul_lt_mul_of_pos_right ?_ hpos
    cases s <;> simpa [Sign.apply] using hm

theorem isFinite_maxFinite : maxFinite.isFinite = true := rfl

theorem real_maxFinite : real maxFinite = (2 ^ 53 - 1) * topPlace := by
  change (((2 ^ 53 - 1 : ℕ) : ℤ) : ℝ) * 2 ^ (971 : ℤ) = _
  rw [topPlace]
  norm_num

theorem abs_real_le_maxFinite (x : Float) : |real x| ≤ real maxFinite := by
  rw [real_maxFinite]
  have htop := topPlace_pos
  have hzero : |(0 : ℝ)| ≤ (2 ^ 53 - 1) * topPlace := by rw [abs_zero]; linarith
  have hc := canonical_toModel x
  unfold real
  cases h : x.toModel.unpack with
  | notANumber => exact hzero
  | infinity s => exact hzero
  | zero s => exact hzero
  | finite s m e hm =>
    rw [h] at hc
    have hm' : (m : ℝ) ≤ 2 ^ 53 - 1 := by
      have hlt := hc.1
      have : (m : ℤ) ≤ 2 ^ 53 - 1 := by omega
      exact_mod_cast this
    have hpos : (0 : ℝ) < 2 ^ e := by positivity
    have he : (2 : ℝ) ^ e ≤ topPlace := zpow_mono (exponent_le_of_unpack h)
    have hs : |((s.apply m : ℤ) : ℝ)| = m := by cases s <;> simp [Sign.apply]
    rw [unpackedReal, abs_mul, abs_of_pos hpos, hs]
    exact mul_le_mul hm' he hpos.le (by norm_num)

theorem representable_beyond : Representable (2 ^ 53 * topPlace) := by
  have hpos : 0 ≤ 2 ^ 53 * topPlace := by have := topPlace_pos; positivity
  refine representable_of_le (e := 971) (by norm_num) (mem_grid.2 ⟨2 ^ 53, ?_⟩) ?_
  · rw [topPlace]; norm_num
  · rw [abs_of_nonneg hpos]; exact le_rfl

/-- The place at which a real rounds to a number is one of the places of the numbers. -/
theorem RoundsAt.exponent_le {e : ℤ} (h : RoundsAt e r (real x)) : e ≤ 971 := by
  by_contra hgt
  have htop := topPlace_pos
  have hfull : 2 ^ 53 * topPlace ≤ |r| := by
    have hpow : 2 * topPlace ≤ 2 ^ e := by
      rw [topPlace, ← zpow_succ]
      exact zpow_mono (by omega)
    have := h.full.resolve_right (by omega)
    linarith
  have hx := abs_le.1 (abs_real_le_maxFinite x)
  rw [real_maxFinite] at hx
  have hr : Rounds r (real x) := ⟨e, h⟩
  rcases le_abs.1 hfull with hpos | hneg
  · have := hr.le_of_le representable_beyond hpos
    linarith
  · have := hr.ge_of_ge representable_beyond.neg (by linarith)
    linarith

theorem Rounds.error_le_topPlace (h : Rounds r (real x)) : |r - real x| ≤ topPlace / 2 := by
  obtain ⟨e, h⟩ := h
  have hpow : (2 : ℝ) ^ e ≤ topPlace := zpow_mono h.exponent_le
  have := h.near
  linarith

/-- Half a place above the largest number, reals round to no number. -/
theorem Rounds.lt_half_beyond (h : Rounds r (real x)) : r < real maxFinite + topPlace / 2 := by
  by_contra hge
  have herr := abs_le.1 h.error_le_topPlace
  have hx := (abs_le.1 (abs_real_le_maxFinite x)).2
  have heq : real x = real maxFinite := by linarith
  obtain ⟨e, h⟩ := h
  have hhalf : |r - real x| = topPlace / 2 := by
    rw [abs_of_nonneg (by linarith [topPlace_pos])]
    linarith
  have he : (2 : ℝ) ^ e = topPlace := by
    have hpow : (2 : ℝ) ^ e ≤ topPlace := zpow_mono h.exponent_le
    have := h.near
    linarith
  -- the tie would go to the even neighbour, and the largest number is odd
  have htie := h.tie (by rw [he]; exact hhalf)
  obtain ⟨n, hn⟩ := mem_grid.1 htie
  rw [heq, real_maxFinite, zpow_succ, he, ← mul_assoc] at hn
  have hcast : (2 ^ 53 - 1 : ℝ) = n * 2 := mul_right_cancel₀ topPlace_pos.ne' hn
  have hint : (2 ^ 53 - 1 : ℤ) = n * 2 := by exact_mod_cast hcast
  omega

/-- Overflow happens beyond the largest number, by half a place at least. -/
theorem half_beyond_le {w : ℝ} (h : Rounds r w) (hw : 2 ^ 53 * topPlace ≤ w) :
    real maxFinite + topPlace / 2 ≤ r := by
  have htop := topPlace_pos
  have hle := h.le (representable_real maxFinite)
  have hmax := real_maxFinite
  have hlt : real maxFinite < r := by
    by_contra hge
    have := h.ge_of_ge (representable_real maxFinite) (not_lt.1 hge)
    linarith
  rw [abs_of_pos (sub_pos.2 hlt)] at hle
  have := neg_abs_le (r - w)
  linarith

theorem Rounds.maxFinite_le {w : ℝ} (h : Rounds r w) (hw : 2 ^ 53 * topPlace ≤ w) :
    real maxFinite ≤ r := by
  linarith [half_beyond_le h hw, topPlace_pos]

/-- Reals within half a place of the largest numbers, and no others, round to numbers. -/
theorem RoundsTo.isFinite_iff (h : RoundsTo r x) :
    x.isFinite = true ↔ |r| < real maxFinite + topPlace / 2 := by
  have hmax : 0 < real maxFinite + topPlace / 2 := by
    rw [real_maxFinite]
    linarith [topPlace_pos]
  cases h with
  | finite hx h =>
    refine iff_of_true hx (abs_lt.2 ⟨?_, h.lt_half_beyond⟩)
    have hneg := h.neg
    rw [← real_neg] at hneg
    linarith [hneg.lt_half_beyond]
  | above hx w h hw =>
    refine iff_of_false (by rw [hx]; exact Bool.false_ne_true) (not_lt.2 ?_)
    exact (half_beyond_le h hw).trans (le_abs_self r)
  | below hx w h hw =>
    refine iff_of_false (by rw [hx]; exact Bool.false_ne_true) (not_lt.2 ?_)
    exact (half_beyond_le h.neg (by linarith)).trans (neg_le_abs r)

theorem RoundsTo.rounds (h : RoundsTo r x) (hx : x.isFinite) : Rounds r (real x) := by
  cases h with
  | finite _ h => exact h
  | above hz => rw [hz] at hx; contradiction
  | below hz => rw [hz] at hx; contradiction

/-- A representable real within the range is its own rounding. -/
theorem RoundsTo.eq_of_representable (h : RoundsTo r x) (hr : Representable r)
    (hle : |r| ≤ real maxFinite) : x.isFinite = true ∧ real x = r := by
  have hx := h.isFinite_iff.2 (by linarith [topPlace_pos])
  exact ⟨hx, (h.rounds hx).eq hr⟩

/-! ### Bits -/

theorem toNat_exponentField (x : Float) : exponentField x = x.toBits.toNat / 2 ^ 52 % 2 ^ 11 := by
  have h : (0x7ff : ℕ) = 2 ^ 11 - 1 := rfl
  simp only [exponentField, UInt64.toNat_and, UInt64.toNat_shiftRight, UInt64.reduceToNat]
  rw [h, Nat.and_two_pow_sub_one_eq_mod, Nat.shiftRight_eq_div_pow]

theorem significand_eq (x : Float) : significand x =
    if exponentField x = 0 then x.toBits.toNat % 2 ^ 52 else 2 ^ 52 + x.toBits.toNat % 2 ^ 52 := by
  have hmask : (x.toBits &&& 0xfffffffffffff).toNat = x.toBits.toNat % 2 ^ 52 := by
    have h : (0xfffffffffffff : ℕ) = 2 ^ 52 - 1 := rfl
    simp only [UInt64.toNat_and, UInt64.reduceToNat]
    rw [h, Nat.and_two_pow_sub_one_eq_mod]
  unfold significand
  dsimp only
  split_ifs
  · exact hmask
  · rw [UInt64.toNat_or, hmask]
    exact (Nat.two_pow_add_eq_or_of_lt (i := 52) (Nat.mod_lt _ (by positivity)) 1).symm

/-- The magnitude that the bits stand for; the sign bit does not matter. -/
def bitsMagnitude (n : ℕ) : ℕ :=
  if n / 2 ^ 52 % 2 ^ 11 = 0 then n % 2 ^ 52
  else (2 ^ 52 + n % 2 ^ 52) * 2 ^ (n / 2 ^ 52 % 2 ^ 11 - 1)

theorem magnitude_eq (x : Float) : magnitude x = bitsMagnitude x.toBits.toNat := by
  unfold magnitude bitsMagnitude exponent
  rw [significand_eq, toNat_exponentField, Nat.pow_eq]
  split_ifs with h
  · rw [Nat.sub_self, pow_zero, mul_one]
  · rfl

/-- Below those of infinity, the next bits stand for a greater magnitude. -/
theorem bitsMagnitude_lt {n : ℕ} (h : n % 2 ^ 63 + 1 < 2047 * 2 ^ 52) :
    bitsMagnitude n < bitsMagnitude (n + 1) := by
  unfold bitsMagnitude
  by_cases hcarry : n % 2 ^ 52 + 1 = 2 ^ 52
  -- the fraction is full, and the exponent goes up
  · have hfield : (n + 1) / 2 ^ 52 % 2 ^ 11 = n / 2 ^ 52 % 2 ^ 11 + 1 := by omega
    have hfraction : (n + 1) % 2 ^ 52 = 0 := by omega
    rw [hfield, hfraction, if_neg (Nat.succ_ne_zero _), Nat.add_sub_cancel]
    split_ifs with h0
    · rw [h0]
      omega
    · obtain ⟨k, hk⟩ := Nat.exists_eq_add_one_of_ne_zero h0
      have hpos : 0 < 2 ^ k := by positivity
      rw [hk, Nat.add_sub_cancel, pow_succ 2 k, mul_comm (2 ^ k) 2, ← mul_assoc]
      exact Nat.mul_lt_mul_of_pos_right (by omega) hpos
  · have hfield : (n + 1) / 2 ^ 52 % 2 ^ 11 = n / 2 ^ 52 % 2 ^ 11 := by omega
    have hfraction : (n + 1) % 2 ^ 52 = n % 2 ^ 52 + 1 := by omega
    rw [hfield, hfraction]
    split_ifs with h0
    · omega
    · have hpos : 0 < 2 ^ (n / 2 ^ 52 % 2 ^ 11 - 1) := by positivity
      exact Nat.mul_lt_mul_of_pos_right (by omega) hpos

theorem isNegative_iff : isNegative x = true ↔ 2 ^ 63 ≤ x.toBits.toNat := by
  simp only [isNegative, decide_eq_true_iff, ge_iff_le, UInt64.le_iff_toNat_le]
  rfl

theorem ofBitVec_unpackSign (x : Float) :
    Sign.ofBitVec (unpackSign (packed x)) = if isNegative x then .negative else .positive := by
  have hlt := x.toBits.toNat_lt
  have hsign : (unpackSign (packed x)).toNat = x.toBits.toNat / 2 ^ 63 % 2 := by
    simp [unpackSign, packed, Nat.shiftRight_eq_div_pow]
  split_ifs with h
  · have hle := isNegative_iff.1 h
    have hone : unpackSign (packed x) = 1#1 := BitVec.eq_of_toNat_eq (by
      rw [hsign, BitVec.toNat_ofNat]
      omega)
    rw [hone]
    rfl
  · have hle := mt isNegative_iff.2 h
    have hzero : unpackSign (packed x) = 0#1 := BitVec.eq_of_toNat_eq (by
      rw [hsign, BitVec.toNat_ofNat]
      omega)
    rw [hzero]
    rfl

theorem units_eq_apply (x : Float) :
    units x = (Sign.ofBitVec (unpackSign (packed x))).apply (magnitude x) := by
  rw [ofBitVec_unpackSign, units]
  split_ifs <;> rfl

/-- A finite number is its count of least positive numbers. -/
theorem real_eq_units (h : x.isFinite) : real x = units x * leastPlace := by
  have hbias : Format.binary64.exponentBias = 1023 := rfl
  have hfield : x.toBits.toNat / 2 ^ 52 % 2 ^ 11 = (unpackExponent (packed x)).toNat :=
    (toNat_unpackExponent _).symm
  have hfraction : x.toBits.toNat % 2 ^ 52 = (unpackMantissa (packed x)).toNat :=
    (toNat_unpackMantissa _).symm
  have hmag := magnitude_eq x
  rw [bitsMagnitude, hfield, hfraction] at hmag
  have hscaled (m k : ℕ) (e : ℤ) (he : e = k - 1074) (hm : magnitude x = m * 2 ^ k) :
      ((Sign.ofBitVec (unpackSign (packed x))).apply m : ℝ) * 2 ^ e = units x * leastPlace := by
    rw [leastPlace, units_eq_apply, hm, sign_apply, sign_apply _ (m * 2 ^ k), he, sub_eq_add_neg,
      zpow_add₀ two_ne_zero, zpow_natCast]
    push_cast
    ring
  change (unpack .binary64 (packed x)).isFinite = true at h
  change unpackedReal (unpack .binary64 (packed x)) = _
  unfold unpack at h ⊢
  dsimp only at h ⊢
  split_ifs at h ⊢ with h1 h2 h3 h4
  · contradiction
  · contradiction
  · rw [h3, h4] at hmag
    have hzero : magnitude x = 0 := hmag
    rw [units_eq_apply, hzero, sign_apply, Nat.cast_zero, mul_zero, zero_mul]
    rfl
  · rw [h3] at hmag
    refine hscaled _ 0 _ ?_ (by rw [hmag]; simp)
    rw [h3, hbias]
    rfl
  · have hne : (unpackExponent (packed x)).toNat ≠ 0 := fun h0 =>
      h3 (BitVec.eq_of_toNat_eq h0)
    rw [if_neg hne] at hmag
    refine hscaled _ ((unpackExponent (packed x)).toNat - 1) _ ?_ ?_
    · rw [hbias]
      omega
    · rw [hmag, toNat_leadingOne]

theorem toBits_ofBits {a : UInt64} (h : a.toNat % 2 ^ 63 ≤ 2047 * 2 ^ 52) :
    (Float.ofBits a).toBits = a := by
  have hnan : ¬@UnpackedFloat.isNaNBits .binary64 a.toBitVec = true := by
    intro hbits
    have hu := eq_notANumber_of_isNaN ((isNaN_unpack_iff _).2 (of_decide_eq_true hbits))
    have hofBits : (Float.ofBits a).isNaN = true := by
      change (unpack .binary64 (pack .binary64 (unpack .binary64 a.toBitVec))).isNaN = true
      rw [hu]
      exact congrArg UnpackedFloat.isNaN UnpackedFloat.unpack_packedNaN
    rw [isNaN_ofBits h] at hofBits
    contradiction
  have hpack := @UnpackedFloat.pack_unpack .binary64 a.toBitVec (by decide)
  rw [if_neg hnan] at hpack
  exact congrArg UInt64.ofBitVec hpack

theorem isFinite_of_toBits (h : x.toBits.toNat % 2 ^ 63 < 2047 * 2 ^ 52) : x.isFinite = true := by
  change (unpack .binary64 (packed x)).isFinite = true
  have hne : unpackExponent (packed x) ≠ -1#_ := by
    intro he
    have hfield := toNat_unpackExponent (packed x)
    rw [he] at hfield
    change 2047 = x.toBits.toNat / 2 ^ 52 % 2 ^ 11 at hfield
    omega
  unfold unpack
  dsimp only
  rw [if_neg hne]
  split_ifs <;> rfl

/-! ### The next number -/

theorem real_lt_real_of_units (hx : x.isFinite) (hy : y.isFinite) (h : units x < units y) :
    real x < real y := by
  rw [real_eq_units hx, real_eq_units hy]
  have hcast : (units x : ℝ) < units y := by exact_mod_cast h
  exact mul_lt_mul_of_pos_right hcast leastPlace_pos

theorem zero_lt_real_iff (hx : x.isFinite) : 0.0 < x ↔ 0 < units x := by
  rw [lt_iff_real rfl hx, real_zero, real_eq_units hx, mul_pos_iff_of_pos_right leastPlace_pos]
  exact Int.cast_pos

/-- Up to the bits of infinity, the next bits without a sign stand for a greater number. -/
theorem value_lt_ofBits_succ (hx : x.isFinite) (hpos : x.toBits.toNat < 2 ^ 63) :
    value x < value (Float.ofBits (x.toBits + 1)) := by
  have hbits := toBits_of_isFinite hx
  have h0 : isNegative x = false := Bool.eq_false_iff.2 (mt isNegative_iff.1 (not_le.2 hpos))
  have hsucc : (x.toBits + 1).toNat = x.toBits.toNat + 1 := toNat_succ (by omega)
  by_cases hlast : x.toBits.toNat + 1 = 2047 * 2 ^ 52
  · have hinf : x.toBits + 1 = 0x7ff0000000000000 := UInt64.toNat_inj.1 (by rw [hsucc, hlast]; rfl)
    rw [hinf, value_of_isFinite hx]
    exact EReal.coe_lt_top _
  · have hy : (Float.ofBits (x.toBits + 1)).toBits = x.toBits + 1 :=
      toBits_ofBits (by rw [hsucc]; omega)
    generalize Float.ofBits (x.toBits + 1) = y at hy
    have hfin : y.isFinite = true := isFinite_of_toBits (by rw [hy, hsucc]; omega)
    have hneg : isNegative y = false :=
      Bool.eq_false_iff.2 (mt isNegative_iff.1 (by rw [hy, hsucc]; omega))
    rw [value_of_isFinite hx, value_of_isFinite hfin, EReal.coe_lt_coe_iff]
    refine real_lt_real_of_units hx hfin ?_
    rw [units_of_nonneg h0, units_of_nonneg hneg, magnitude_eq, magnitude_eq, hy, hsucc]
    exact_mod_cast bitsMagnitude_lt (by omega)

/-- Above the bits of a negative zero, the bits before stand for a greater number. -/
theorem value_lt_ofBits_pred (hx : x.isFinite) (h0 : 2 ^ 63 < x.toBits.toNat) :
    value x < value (Float.ofBits (x.toBits - 1)) := by
  have hbits := toBits_of_isFinite hx
  have hlt := x.toBits.toNat_lt
  have hpred : (x.toBits - 1).toNat = x.toBits.toNat - 1 := toNat_pred (by omega)
  have hy : (Float.ofBits (x.toBits - 1)).toBits = x.toBits - 1 :=
    toBits_ofBits (by rw [hpred]; omega)
  generalize Float.ofBits (x.toBits - 1) = y at hy
  have hfin : y.isFinite = true := isFinite_of_toBits (by rw [hy, hpred]; omega)
  have hneg : isNegative y = true := isNegative_iff.2 (by rw [hy, hpred]; omega)
  rw [value_of_isFinite hx, value_of_isFinite hfin, EReal.coe_lt_coe_iff]
  refine real_lt_real_of_units hx hfin ?_
  have hmag : magnitude y < magnitude x := by
    have := bitsMagnitude_lt (n := x.toBits.toNat - 1) (by omega)
    rwa [Nat.sub_add_cancel (by omega), ← hpred, ← hy, ← magnitude_eq, ← magnitude_eq] at this
  rw [units_of_negative (isNegative_iff.2 h0.le), units_of_negative hneg]
  omega

/-- The bits of a negative number come after those of the negative zero. -/
theorem lt_toBits_of_negative (hx : x.isFinite) (hzero : ¬(x == 0.0) = true) (hpos : ¬x > 0.0) :
    2 ^ 63 < x.toBits.toNat := by
  by_contra hle
  rcases (not_lt.1 hle).lt_or_eq with hlt | heq
  · have hneg : isNegative x = false := Bool.eq_false_iff.2 (mt isNegative_iff.1 (by omega))
    have hunits : units x = 0 := by
      have hnonpos := mt (zero_lt_real_iff hx).2 hpos
      rw [units_of_nonneg hneg] at hnonpos ⊢
      omega
    refine hzero ((beq_iff_real hx rfl).2 ?_)
    rw [real_eq_units hx, hunits, real_zero, Int.cast_zero, zero_mul]
  · exact hzero (beq_zero_of_toBits (by rw [heq, Nat.mod_self]))

/-- Above a zero stands the least positive number, above other numbers without a sign the one with
the next bits, and above those with a sign the one with the bits before. -/
theorem nextUp_cases (hx : x.isFinite) :
    (value x = value 0.0 ∧ nextUp x = Float.ofBits 1) ∨
      (x.toBits.toNat < 2 ^ 63 ∧ nextUp x = Float.ofBits (x.toBits + 1)) ∨
      (2 ^ 63 < x.toBits.toNat ∧ nextUp x = Float.ofBits (x.toBits - 1)) := by
  have hinf : ¬(x.isNaN || x == inf) = true := by
    rw [isNaN_of_isFinite hx, Bool.false_or]
    intro heq
    exact EReal.coe_ne_top _ ((value_of_isFinite hx).symm.trans (beq_iff.1 heq).2.2)
  rw [nextUp, if_neg hinf]
  split_ifs with hzero hpos
  · exact Or.inl ⟨(beq_iff.1 hzero).2.2, rfl⟩
  · refine Or.inr (Or.inl ⟨not_le.1 fun hle => ?_, rfl⟩)
    have hunits := (zero_lt_real_iff hx).1 hpos
    rw [units_of_negative (isNegative_iff.2 hle)] at hunits
    omega
  · exact Or.inr (Or.inr ⟨lt_toBits_of_negative hx hzero hpos, rfl⟩)

theorem value_lt_nextUp (h : x.isFinite) : value x < value (nextUp x) := by
  rcases nextUp_cases h with ⟨hzero, hup⟩ | ⟨hpos, hup⟩ | ⟨hneg, hup⟩
  · rw [hup, hzero]
    exact (lt_iff.1 (by decide)).2.2
  · rw [hup]
    exact value_lt_ofBits_succ h hpos
  · rw [hup]
    exact value_lt_ofBits_pred h hneg

theorem isNaN_nextDown (h : x.isFinite) : (nextDown x).isNaN = false := by
  rw [nextDown, isNaN_neg_eq]
  exact isNaN_nextUp (by rwa [isFinite_neg_eq])

/-- A real does not lie beyond the neighbour above its rounding. -/
theorem Rounds.le_nextUp (h : Rounds r (real x)) (hx : x.isFinite) : r ≤ value (nextUp x) := by
  have hlt := value_lt_nextUp hx
  by_contra hgt
  have hfin : (nextUp x).isFinite = true := isFinite_iff.2 ⟨isNaN_nextUp hx,
    ((not_le.1 hgt).trans (EReal.coe_lt_top r)).ne, (bot_le.trans_lt hlt).ne'⟩
  rw [value_of_isFinite hfin, EReal.coe_le_coe_iff, not_le] at hgt
  rw [value_of_isFinite hx, value_of_isFinite hfin, EReal.coe_lt_coe_iff] at hlt
  have hnear := h.le (representable_real (nextUp x))
  rw [abs_of_pos (by linarith), abs_of_pos (by linarith)] at hnear
  linarith

theorem Rounds.nextDown_le (h : Rounds r (real x)) (hx : x.isFinite) : value (nextDown x) ≤ r := by
  have hneg := h.neg
  rw [← real_neg] at hneg
  have hup := hneg.le_nextUp (by rwa [isFinite_neg_eq])
  rw [nextDown, value_neg]
  rw [EReal.coe_neg] at hup
  exact EReal.neg_le_of_neg_le hup

end FlowTube.Binary64

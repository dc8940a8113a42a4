import FlowTube.Proofs.Binary64.DirectedProducts

/-! Square roots of numbers, and what the directed ones promise. The integer root of a mantissa
with enough places, together with the side on which its square lies, makes a correct rounding,
and no root overflows. Whether a directed root moves is decided by the side of the square of the
rounded one, which is seen beyond half of the least positive number. The squares of roots of
numbers of moderate size have no places that low; a root of a tiny number can stay on the wrong
side. -/

namespace FlowTube.Binary64

open Float.Model (UnpackedFloat Format totalExponent)
open Float.Model.UnpackedFloat (Sign Accuracy ExtendedMantissa)

variable {x z : Float} {r : ℝ}

/-! ### Rounded roots -/

/-- An integer root with the side of the middle that the remainder tells; no root of an integer
lies in the middle. -/
theorem standsFor_sqrt (n : ℕ) :
    StandsFor (.ofMantissaAndAccuracy n.sqrt (if n - n.sqrt * n.sqrt = 0 then .exact
      else .inexact (if n - n.sqrt * n.sqrt ≤ n.sqrt then .lt else .gt))) √n := by
  have hle : n.sqrt * n.sqrt ≤ n := Nat.sqrt_le n
  have hlow : (n.sqrt : ℝ) ≤ √n := Real.nat_sqrt_le_real_sqrt
  have hup : √(n : ℝ) < n.sqrt + 1 := Real.real_sqrt_lt_nat_sqrt_succ
  have hsq : √(n : ℝ) * √n = n := Real.mul_self_sqrt n.cast_nonneg
  obtain ⟨k, hk⟩ := Nat.exists_eq_add_of_le hle
  have hcast : √(n : ℝ) * √n = n.sqrt * n.sqrt + k := by
    rw [hsq]
    exact_mod_cast hk
  rw [show n - n.sqrt * n.sqrt = k by omega]
  have hq : (0 : ℝ) ≤ n.sqrt := Nat.cast_nonneg _
  generalize √(n : ℝ) = s at *
  generalize n.sqrt = q at *
  split_ifs with h0 hhalf
  · simp only [StandsFor, ExtendedMantissa.ofMantissaAndAccuracy]
    rw [h0] at hcast
    push_cast at hcast
    nlinarith
  · have hk0 : (1 : ℝ) ≤ k := by exact_mod_cast Nat.one_le_iff_ne_zero.2 h0
    have hkq : (k : ℝ) ≤ q := by exact_mod_cast hhalf
    simp only [StandsFor, ExtendedMantissa.ofMantissaAndAccuracy]
    constructor
    · nlinarith
    · nlinarith
  · have hkq : (q : ℝ) + 1 ≤ k := by exact_mod_cast not_le.1 hhalf
    simp only [StandsFor, ExtendedMantissa.ofMantissaAndAccuracy]
    refine ⟨?_, hup⟩
    nlinarith

/-- A root has 53 places, or its exponent is low enough. -/
theorem sqrtCore_places {m : ℕ} (hm : 0 < m) {e t : ℤ} {k : ℕ}
    (ht : t ≤ Max.max ((m.log2 + e + 2) / 2 - 53 : ℤ) (-1074)) (hk : (k : ℤ) = e - 2 * t) :
    52 ≤ (m <<< k).sqrt.log2 ∨ t ≤ -1074 := by
  by_cases hlow : t ≤ -1074
  · exact Or.inr hlow
  left
  have hlog : 104 ≤ (m <<< k).log2 := by
    rw [log2_shiftLeft hm.ne']
    omega
  have hpos : m <<< k ≠ 0 := by
    rw [Nat.shiftLeft_eq]
    positivity
  have hge : 2 ^ 104 ≤ m <<< k := (Nat.le_log2 hpos).1 hlog
  have hroot : 2 ^ 52 ≤ (m <<< k).sqrt := by
    rw [Nat.le_sqrt, ← pow_add]
    exact hge
  exact (Nat.le_log2 (by positivity)).2 hroot

theorem unpackedRounds_sqrt {m : ℕ} {e : ℤ} (hm : 0 < m) :
    UnpackedRounds √(m * 2 ^ e) (UnpackedFloat.sqrt .binary64 (.finite .positive m e hm)) := by
  obtain ⟨t, ht⟩ : ∃ t, t = Min.min (e.ediv 2)
    (Format.binary64.targetExponent ((totalExponent m e + 1).ediv 2)) := ⟨_, rfl⟩
  have hdiv (a : ℤ) : a.ediv 2 = a / 2 := rfl
  have ht' : t = Min.min (e / 2) (Max.max ((m.log2 + e + 2) / 2 - 53 : ℤ) (-1074)) := by
    rw [ht]
    simp [Format.targetExponent, totalExponent, Format.mantissaBits, Format.minExponent, hdiv]
    omega
  have hshift : ((e - 2 * t).toNat : ℤ) = e - 2 * t := by omega
  have hpos : (0 : ℝ) < 2 ^ t := by positivity
  have hr : √(m * 2 ^ e) = √(m <<< (e - 2 * t).toNat : ℕ) * 2 ^ t := by
    have hm' := shiftLeft_mul_zpow m (e - 2 * t).toNat e
    rw [hshift, sub_sub_cancel] at hm'
    rw [← hm', two_mul t, zpow_add₀ two_ne_zero, Real.sqrt_mul (Nat.cast_nonneg _),
      Real.sqrt_mul_self hpos.le]
  have h := unpackedRounds_roundWithAccuracy (s := .positive) (r := √(m * 2 ^ e)) (e := t)
    (by rw [hr, mul_div_assoc, div_self hpos.ne', mul_one]
        exact standsFor_sqrt (m <<< (e - 2 * t).toNat))
    (by have := sqrtCore_places hm (ht'.trans_le inf_le_right) hshift; omega)
  rw [show ((Sign.apply .positive 1 : ℤ) : ℝ) = 1 from Int.cast_one, one_mul] at h
  simpa only [UnpackedFloat.sqrt, UnpackedFloat.sqrtCore, ← ht] using h

theorem roundsTo_sqrt (hx : x.isFinite) (h0 : 0 ≤ real x) : RoundsTo √(real x) x.sqrt := by
  have key : UnpackedRounds √(real x) (UnpackedFloat.sqrt .binary64 x.toModel.unpack) := by
    unfold real at h0 ⊢
    change x.toModel.unpack.isFinite = true at hx
    generalize x.toModel.unpack = u at hx h0
    cases u, hx using finite_cases with
    | zero s =>
      rw [unpackedReal_zero, Real.sqrt_zero]
      exact unpackedRounds_zero s
    | finite s m e hm =>
      cases s with
      | negative =>
        have hpos : (0 : ℝ) < m * 2 ^ e := by positivity
        rw [unpackedReal_negative] at h0
        linarith
      | positive =>
        rw [unpackedReal_positive]
        exact unpackedRounds_sqrt hm
  exact roundsTo_pack key

/-- No root overflows. -/
theorem isFinite_sqrt (hx : x.isFinite) (h0 : 0 ≤ real x) : x.sqrt.isFinite = true := by
  have htop := topPlace_pos
  have hmax : 1 ≤ real maxFinite := by
    have := abs_real_le_maxFinite 1.0
    rwa [real_one, abs_one] at this
  rw [(roundsTo_sqrt hx h0).isFinite_iff, abs_of_nonneg (Real.sqrt_nonneg _)]
  have hle : √(real x) ≤ real maxFinite := by
    rw [Real.sqrt_le_left (by linarith)]
    have := abs_le.1 (abs_real_le_maxFinite x)
    nlinarith
  linarith

/-! ### Directed roots -/

/-- No number lies between zero and the least positive one. -/
theorem eq_zero_of_le_half (hx : |real x| ≤ leastPlace / 2) : real x = 0 := by
  obtain ⟨e, he, hmem, -⟩ := representable_real x
  have hpos := leastPlace_pos
  exact eq_zero_of_mem_grid (grid_mono he hmem) (hx.trans_lt (by rw [← leastPlace]; linarith))

/-- The directed roots are bounds of the root, unless one is lost. -/
theorem sqrtDown_le_iff (hx : x.isFinite) (h0 : 0 ≤ real x) :
    value (sqrtDown x) ≤ √(real x) ↔ ¬RootLosesBelow x := by
  have hs := isFinite_sqrt hx h0
  have hround := (roundsTo_sqrt hx h0).rounds hs
  have hs0 : 0 ≤ real x.sqrt := hround.le_of_le representable_zero (Real.sqrt_nonneg _)
  have hfin : x.isFinite = true ∧ x.sqrt.isFinite = true := ⟨hx, hs⟩
  rw [sqrtDown, hs, RootLosesBelow, and_iff_right hfin]
  by_cases hzero : (x.sqrt == 0.0) = true
  · rw [hzero, if_pos (by decide), value_of_isFinite hs, (real_eq_zero hzero).2, mul_zero]
    exact iff_of_true (EReal.coe_nonneg.2 (Real.sqrt_nonneg _)) fun h => h.1.not_ge h0
  · rw [Bool.eq_false_iff.2 hzero, if_neg (by decide), movedDown_le_iff hround hs, beq_iff_eq,
      (productSide_iff hs hs hx).2, Real.le_sqrt hs0 h0, sq, not_and_or, not_lt, not_le, or_comm]

theorem le_sqrtUp_iff (hx : x.isFinite) (h0 : 0 ≤ real x) :
    √(real x) ≤ value (sqrtUp x) ↔ ¬RootLosesAbove x := by
  have hs := isFinite_sqrt hx h0
  have hround := (roundsTo_sqrt hx h0).rounds hs
  have hs0 : 0 ≤ real x.sqrt := hround.le_of_le representable_zero (Real.sqrt_nonneg _)
  have hfin : x.isFinite = true ∧ x.sqrt.isFinite = true := ⟨hx, hs⟩
  rw [sqrtUp, hs, RootLosesAbove, and_iff_right hfin, if_neg (by decide)]
  by_cases hzero : (x.sqrt == 0.0) = true
  · rw [if_pos hzero, (real_eq_zero hzero).2, mul_zero]
    by_cases hx0 : (x == 0.0) = true
    · rw [if_pos hx0, (real_eq_zero hx0).2, Real.sqrt_zero]
      exact iff_of_true le_rfl fun h => lt_irrefl _ h.1
    · rw [if_neg hx0]
      refine iff_of_true (hround.le_nextUp hs) fun h => h.1.ne' (eq_zero_of_le_half ?_)
      rw [abs_of_nonneg h0]
      linarith
  · rw [if_neg hzero, le_movedUp_iff hround hs, beq_iff_eq, (productSide_iff hs hs hx).1,
      Real.sqrt_le_left hs0, sq, not_and_or, not_lt, not_le, or_comm]

/-- Only the square of a number of small magnitude has a residual that small. -/
theorem lt_of_small_residual (hne : real x ≠ real z * real z)
    (hsmall : |real x - real z * real z| ≤ leastPlace / 2) : real x < 2 ^ (-969 : ℤ) := by
  obtain ⟨e, -, hmem, hlt⟩ := representable_real z
  obtain ⟨d, hd, hx, -⟩ := representable_real x
  have hsquare : real z * real z ∈ grid (e + e) := by
    obtain ⟨n, hn⟩ := mem_grid.1 hmem
    refine mem_grid.2 ⟨n * n, ?_⟩
    rw [hn, zpow_add₀ two_ne_zero]
    push_cast
    ring
  -- the residual has a place below the least one, and this is a place of the square
  have hlow : e + e ≤ -1076 := by
    by_contra hgt
    have hmesh := zpow_le_abs_sub_of_mem_grid (grid_mono hd hx)
      (grid_mono (d := -1074) (by omega) hsquare) hne
    rw [← leastPlace] at hmesh
    linarith [leastPlace_pos]
  have hbound : real z * real z < 2 ^ (-970 : ℤ) := by
    calc real z * real z = |real z| * |real z| := (abs_mul_abs_self _).symm
      _ < 2 ^ 53 * 2 ^ e * (2 ^ 53 * 2 ^ e) := mul_lt_mul'' hlt hlt (abs_nonneg _) (abs_nonneg _)
      _ = 2 ^ 106 * 2 ^ (e + e) := by
          rw [zpow_add₀ two_ne_zero]
          ring
      _ ≤ 2 ^ 106 * 2 ^ (-1076 : ℤ) := by
          gcongr
          exact one_le_two
      _ = 2 ^ (-970 : ℤ) := by
          rw [show (-970 : ℤ) = 106 + -1076 by norm_num, zpow_add₀ two_ne_zero, zpow_ofNat]
  have hleast : leastPlace ≤ 2 ^ (-970 : ℤ) := zpow_mono (by norm_num)
  rw [show (-969 : ℤ) = -970 + 1 by norm_num, zpow_succ]
  linarith [(abs_le.1 hsmall).2, leastPlace_pos]

/-- The roots of zero and of numbers of moderate size are not lost. -/
theorem not_rootLoses (h : real x = 0 ∨ 2 ^ (-969 : ℤ) ≤ real x) :
    ¬RootLosesBelow x ∧ ¬RootLosesAbove x := by
  have hkept (fx : x.isFinite) (hne : real x ≠ real x.sqrt * real x.sqrt) :
      ¬|real x - real x.sqrt * real x.sqrt| ≤ leastPlace / 2 := by
    intro hsmall
    rcases h with h0 | hlarge
    · have hround := roundsTo_sqrt fx h0.ge
      rw [h0, Real.sqrt_zero] at hround
      have hs := (hround.rounds (isFinite_sqrt fx h0.ge)).eq representable_zero
      rw [h0, hs, mul_zero] at hne
      exact hne rfl
    · exact hlarge.not_gt (lt_of_small_residual hne hsmall)
  constructor
  · rintro ⟨⟨fx, -⟩, hlt, hle⟩
    refine hkept fx hlt.ne ?_
    rw [abs_of_neg (by linarith)]
    linarith
  · rintro ⟨⟨fx, -⟩, hlt, hle⟩
    refine hkept fx hlt.ne' ?_
    rw [abs_of_pos (by linarith)]
    linarith

theorem isNaN_sqrtDown (hx : x.isFinite) (h0 : 0 ≤ real x) : (sqrtDown x).isNaN = false := by
  have hs := isFinite_sqrt hx h0
  unfold sqrtDown
  dsimp only
  split_ifs
  · exact isNaN_of_isFinite hs
  · exact isNaN_nextDown hs
  · exact isNaN_of_isFinite hs

theorem isNaN_sqrtUp (hx : x.isFinite) (h0 : 0 ≤ real x) : (sqrtUp x).isNaN = false := by
  have hs := isFinite_sqrt hx h0
  unfold sqrtUp
  dsimp only
  split_ifs
  · exact isNaN_of_isFinite hs
  · rfl
  · exact isNaN_nextUp hs
  · exact isNaN_nextUp hs
  · exact isNaN_of_isFinite hs

/-- A rounded root of a bound of a square is a bound of the root. -/
theorem IsLower.sqrt (hx : IsLower x (r * r)) (hr : 0 ≤ r) (h0 : 0 ≤ value x)
    (h : ¬RootLosesBelow x) : IsLower (sqrtDown x) r := by
  rcases isFinite_or_eq_inf hx.1 with fx | rfl | rfl
  · have hx0 : 0 ≤ real x := by rwa [value_of_isFinite fx, EReal.coe_nonneg] at h0
    rw [isLower_iff_of_isFinite fx] at hx
    have hroot : √(real x) ≤ r := Real.sqrt_le_iff.2 ⟨hr, by rwa [sq]⟩
    exact ⟨isNaN_sqrtDown fx hx0,
      ((sqrtDown_le_iff fx hx0).2 h).trans (EReal.coe_le_coe_iff.2 hroot)⟩
  · exact absurd hx.2 (not_le.2 (EReal.coe_lt_top _))
  · exact absurd h0 (not_le.2 EReal.bot_lt_zero)

theorem IsUpper.sqrt (hx : IsUpper x (r * r)) (h0 : 0 ≤ value x) (h : ¬RootLosesAbove x) :
    IsUpper (sqrtUp x) r := by
  rcases isFinite_or_eq_inf hx.1 with fx | rfl | rfl
  · have hx0 : 0 ≤ real x := by rwa [value_of_isFinite fx, EReal.coe_nonneg] at h0
    rw [isUpper_iff_of_isFinite fx] at hx
    have hroot : r ≤ √(real x) := Real.le_sqrt_of_sq_le (by rwa [sq])
    exact ⟨isNaN_sqrtUp fx hx0, (EReal.coe_le_coe_iff.2 hroot).trans ((le_sqrtUp_iff fx hx0).2 h)⟩
  · rw [show sqrtUp inf = inf by decide]
    exact ⟨rfl, le_top⟩
  · exact absurd h0 (not_le.2 EReal.bot_lt_zero)

end FlowTube.Binary64

import FlowTube.Proofs.Binary64.DirectedSums

/-! What directed products, quotients and powers promise. The residual of a product or a
quotient is computed with one rounding, in which at most half of the least positive number is
lost: where the result itself is not tiny, such a residual goes unseen and the bound stays on
the wrong side. A quotient that overflows is not held back below infinity either. Such operands
are set apart; for all others, infinities and zeros included, the directed products and
quotients are bounds of the extended reals. -/

namespace FlowTube.Binary64

open Float.Model (UnpackedFloat Format)
open Float.Model.UnpackedFloat (Sign)

variable {x y z : Float} {r s : ℝ}

/-! ### Residuals -/

theorem unitsPerOne_mul_leastPlace : (unitsPerOne : ℝ) * leastPlace = 1 := by
  have hexp : (-1074 : ℤ) = -(unitExponent : ℤ) := by
    unfold unitExponent
    rfl
  rw [unitsPerOne, Nat.pow_eq, Nat.cast_pow, leastPlace, hexp, zpow_neg, zpow_natCast]
  exact mul_inv_cancel₀ (by positivity)

/-- The side of a product is seen beyond half of the least positive number. -/
theorem productSide_iff (hx : x.isFinite) (hy : y.isFinite) (hz : z.isFinite) :
    (productSide x y z = .lt ↔ real x * real y < real z - leastPlace / 2) ∧
      (productSide x y z = .gt ↔ real z + leastPlace / 2 < real x * real y) := by
  rw [productSide_eq, unitsSide]
  generalize hv : units x * units y - units z * unitsPerOne = v
  have hone := unitsPerOne_mul_leastPlace
  have hpos := leastPlace_pos
  have hpos2 : 0 < leastPlace ^ 2 := by positivity
  have hdiff : real x * real y - real z = v * leastPlace ^ 2 := by
    rw [real_eq_units hx, real_eq_units hy, real_eq_units hz, ← hv]
    push_cast
    linear_combination (units z * leastPlace : ℝ) * hone
  have hsmall : 2 * v.natAbs ≤ unitsPerOne ↔ |real x * real y - real z| ≤ leastPlace / 2 := by
    have habs : ((v.natAbs : ℕ) : ℝ) = |(v : ℝ)| := by rw [Nat.cast_natAbs, Int.cast_abs]
    have hcast : 2 * v.natAbs ≤ unitsPerOne ↔ 2 * |(v : ℝ)| ≤ unitsPerOne := by
      rw [← habs]
      norm_cast
    have hscale : (unitsPerOne : ℝ) * leastPlace ^ 2 = leastPlace := by
      linear_combination leastPlace * hone
    rw [hcast, hdiff, abs_mul, abs_of_pos hpos2, ← mul_le_mul_iff_left₀ hpos2, hscale]
    constructor <;> intro h <;> linarith
  split_ifs with h
  · rw [hsmall, abs_le] at h
    constructor
    · refine iff_of_false (by decide) ?_
      linarith
    · refine iff_of_false (by decide) ?_
      linarith
  · rw [hsmall, not_le, lt_abs] at h
    rw [Int.compare_eq_lt, Int.compare_eq_gt]
    have hneg : v < 0 ↔ real x * real y - real z < 0 := by
      rw [hdiff, ← zero_mul (leastPlace ^ 2), mul_lt_mul_iff_left₀ hpos2, Int.cast_lt_zero]
    have hpos' : 0 < v ↔ 0 < real x * real y - real z := by
      rw [hdiff, mul_pos_iff_of_pos_right hpos2, Int.cast_pos]
    rw [hneg, hpos']
    rcases h with h | h
    · constructor <;> constructor <;> intro <;> linarith
    · constructor <;> constructor <;> intro <;> linarith

/-- A bound moves if the result is tiny or the error is seen, `c`, and need not if it is on the
right side, `b`. It is wrong if it is not tiny, on the other side, `a`, and the residual is too
small to be seen, `d`. -/
theorem moved_or_right_iff {t : Bool} {a b c d : Prop} (hb : b ↔ ¬a) (hc : a → (c ↔ ¬d)) :
    (t = true ∨ c) ∨ b ↔ ¬(t = false ∧ a ∧ d) := by
  rw [hb, ← Bool.not_eq_true]
  tauto

/-! ### Products -/

/-- Only a product of small magnitude has a residual that small. -/
theorem abs_lt_of_small_residual (hx : x.isFinite) (hy : y.isFinite) (hp : (x * y).isFinite)
    (hne : real x * real y - real (x * y) ≠ 0)
    (hsmall : |real x * real y - real (x * y)| ≤ leastPlace / 2) :
    |real x * real y| < 2 ^ (-969 : ℤ) := by
  obtain ⟨d, -, hxd, hltx⟩ := representable_real x
  obtain ⟨e, -, hye, hlty⟩ := representable_real y
  have hprod : real x * real y ∈ grid (d + e) := by
    obtain ⟨m, hm⟩ := mem_grid.1 hxd
    obtain ⟨n, hn⟩ := mem_grid.1 hye
    refine mem_grid.2 ⟨m * n, ?_⟩
    rw [hm, hn, zpow_add₀ two_ne_zero]
    push_cast
    ring
  -- the residual has the places of the product, so these are low
  have hmem : real x * real y - real (x * y) ∈ grid (d + e) := by
    obtain ⟨k, hk⟩ := (roundsTo_mul hx hy).rounds hp
    rcases le_or_gt k (d + e) with hle | hgt
    · rw [hk.eq_of_le hprod hle, sub_self]
      exact zero_mem _
    · exact sub_mem hprod (grid_mono hgt.le hk.mem)
  have hlow : d + e ≤ -1075 := by
    have hge : (2 : ℝ) ^ (d + e) ≤ leastPlace / 2 := by
      by_contra hlt
      exact hne (eq_zero_of_mem_grid hmem (hsmall.trans_lt (not_le.1 hlt)))
    have hhalf : leastPlace / 2 = 2 ^ (-1075 : ℤ) := by
      rw [leastPlace, show (-1074 : ℤ) = -1075 + 1 by norm_num, zpow_succ]
      ring
    rw [hhalf] at hge
    exact (zpow_le_zpow_iff_right₀ one_lt_two).1 hge
  calc |real x * real y| = |real x| * |real y| := abs_mul _ _
    _ < 2 ^ 53 * 2 ^ d * (2 ^ 53 * 2 ^ e) := by
        exact mul_lt_mul'' hltx hlty (abs_nonneg _) (abs_nonneg _)
    _ = 2 ^ 106 * 2 ^ (d + e) := by
        rw [zpow_add₀ two_ne_zero]
        ring
    _ ≤ 2 ^ 106 * 2 ^ (-1075 : ℤ) := by
        gcongr
        exact one_le_two
    _ = 2 ^ (-969 : ℤ) := by
        rw [show (-969 : ℤ) = 106 + -1075 by norm_num, zpow_add₀ two_ne_zero, zpow_ofNat]

/-- Products of moderate size are not lost. -/
theorem not_productLoses (h : 2 ^ (-969 : ℤ) ≤ |real x * real y|) :
    ¬ProductLosesBelow x y ∧ ¬ProductLosesAbove x y := by
  constructor
  · rintro ⟨⟨hx, hy, hp⟩, -, hlt, hle⟩
    refine not_lt.2 h (abs_lt_of_small_residual hx hy hp (by linarith) ?_)
    rw [abs_of_nonpos (by linarith)]
    linarith
  · rintro ⟨⟨hx, hy, hp⟩, -, hlt, hle⟩
    refine not_lt.2 h (abs_lt_of_small_residual hx hy hp (by linarith) ?_)
    rw [abs_of_nonneg (by linarith)]
    linarith

/-- The sign of a finite number other than zero decides its products with infinities. -/
theorem infinite_product (h : x.isFinite) (h0 : (x == 0.0) = false) :
    (0 < real x ∧ (x * inf = inf ∧ inf * x = inf) ∧ (x * negInf = negInf ∧ negInf * x = negInf)) ∨
      (real x < 0 ∧ (x * inf = negInf ∧ inf * x = negInf) ∧
        (x * negInf = inf ∧ negInf * x = inf)) := by
  obtain ⟨t, m, e, hm, hu⟩ := eq_finite_of_isFinite h h0
  have hpos : (0 : ℝ) < m * 2 ^ e := by positivity
  have key (s : Sign) : UnpackedFloat.mul .binary64 x.toModel.unpack (.infinity s) =
      .infinity (t * s) ∧ UnpackedFloat.mul .binary64 (.infinity s) x.toModel.unpack =
      .infinity (s * t) := by
    rw [hu]
    exact ⟨rfl, rfl⟩
  have packed {u v : UnpackedFloat} (huv : u = v) :
      Float.ofModel (.pack u) = Float.ofModel (.pack v) := by rw [huv]
  cases t with
  | negative =>
    refine Or.inr ⟨?_, ⟨packed (key .positive).1, packed (key .positive).2⟩,
      packed (key .negative).1, packed (key .negative).2⟩
    rw [real, hu, unpackedReal_negative]
    linarith
  | positive =>
    refine Or.inl ⟨?_, ⟨packed (key .positive).1, packed (key .positive).2⟩,
      packed (key .negative).1, packed (key .negative).2⟩
    rw [real, hu, unpackedReal_positive]
    exact hpos

/-- A product with an infinity, and without a zero, is that of the extended reals. -/
theorem value_mul_of_infinite (hx : x.isNaN = false) (hy : y.isNaN = false)
    (x0 : (x == 0.0) = false) (y0 : (y == 0.0) = false)
    (h : ¬(x.isFinite = true ∧ y.isFinite = true)) :
    (x * y = inf ∨ x * y = negInf) ∧ value (x * y) = value x * value y := by
  rcases isFinite_or_eq_inf hx with fx | rfl | rfl
  · rcases isFinite_or_eq_inf hy with fy | rfl | rfl
    · exact absurd ⟨fx, fy⟩ h
    · rw [value_of_isFinite fx, value_inf]
      rcases infinite_product fx x0 with ⟨hpos, ⟨hp, -⟩, -⟩ | ⟨hneg, ⟨hp, -⟩, -⟩
      · rw [hp, EReal.coe_mul_top_of_pos hpos]
        exact ⟨Or.inl rfl, rfl⟩
      · rw [hp, EReal.coe_mul_top_of_neg hneg]
        exact ⟨Or.inr rfl, rfl⟩
    · rw [value_of_isFinite fx, value_negInf]
      rcases infinite_product fx x0 with ⟨hpos, -, hp, -⟩ | ⟨hneg, -, hp, -⟩
      · rw [hp, EReal.coe_mul_bot_of_pos hpos]
        exact ⟨Or.inr rfl, rfl⟩
      · rw [hp, EReal.coe_mul_bot_of_neg hneg]
        exact ⟨Or.inl rfl, rfl⟩
  · rcases isFinite_or_eq_inf hy with fy | rfl | rfl
    · rw [value_of_isFinite fy, value_inf]
      rcases infinite_product fy y0 with ⟨hpos, ⟨-, hp⟩, -⟩ | ⟨hneg, ⟨-, hp⟩, -⟩
      · rw [hp, EReal.top_mul_coe_of_pos hpos]
        exact ⟨Or.inl rfl, rfl⟩
      · rw [hp, EReal.top_mul_coe_of_neg hneg]
        exact ⟨Or.inr rfl, rfl⟩
    · exact ⟨Or.inl rfl, EReal.top_mul_top.symm⟩
    · exact ⟨Or.inr rfl, EReal.top_mul_bot.symm⟩
  · rcases isFinite_or_eq_inf hy with fy | rfl | rfl
    · rw [value_of_isFinite fy, value_negInf]
      rcases infinite_product fy y0 with ⟨hpos, -, -, hp⟩ | ⟨hneg, -, -, hp⟩
      · rw [hp, EReal.bot_mul_coe_of_pos hpos]
        exact ⟨Or.inr rfl, rfl⟩
      · rw [hp, EReal.bot_mul_coe_of_neg hneg]
        exact ⟨Or.inl rfl, rfl⟩
    · exact ⟨Or.inr rfl, EReal.bot_mul_top.symm⟩
    · exact ⟨Or.inl rfl, EReal.bot_mul_bot.symm⟩

theorem real_eq_zero (h : (x == 0.0) = true) : x.isFinite = true ∧ real x = 0 := by
  have hvalue : value x = 0 := (beq_iff.1 h).2.2
  have hfin : x.isFinite = true :=
    isFinite_iff.2 ⟨(beq_iff.1 h).1, by simp [hvalue], by simp [hvalue]⟩
  exact ⟨hfin, (beq_iff_real hfin rfl).1 h⟩

/-- A product with a zero is not lost. -/
theorem mul_eq_real_of_zero (h : (x == 0.0 || y == 0.0) = true) (hx : x.isFinite) (hy : y.isFinite)
    (hp : (x * y).isFinite) : real x * real y = real (x * y) := by
  have hzero : real x * real y = 0 := by
    rcases Bool.or_eq_true_iff.1 h with h | h
    · rw [(real_eq_zero h).2, zero_mul]
    · rw [(real_eq_zero h).2, mul_zero]
  have hround := (roundsTo_mul hx hy).rounds hp
  rw [hzero] at hround ⊢
  exact (hround.eq representable_zero).symm

theorem value_mul_of_zero (h : (x == 0.0 || y == 0.0) = true) : value x * value y = 0 := by
  rcases Bool.or_eq_true_iff.1 h with h | h
  · rw [show value x = 0 from (beq_iff.1 h).2.2, zero_mul]
  · rw [show value y = 0 from (beq_iff.1 h).2.2, mul_zero]

/-- The directed products are bounds of the product of the extended reals, unless one is
lost. -/
theorem mul_bounds_iff (hx : x.isNaN = false) (hy : y.isNaN = false) :
    (value (mulDown x y) ≤ value x * value y ↔ ¬ProductLosesBelow x y) ∧
      (value x * value y ≤ value (mulUp x y) ↔ ¬ProductLosesAbove x y) := by
  unfold mulDown mulUp
  by_cases hzero : (x == 0.0 || y == 0.0) = true
  · rw [if_pos hzero, if_pos hzero, value_mul_of_zero hzero]
    refine ⟨iff_of_true le_rfl fun h => ?_, iff_of_true le_rfl fun h => ?_⟩
    · exact h.2.2.1.ne (mul_eq_real_of_zero hzero h.1.1 h.1.2.1 h.1.2.2)
    · exact h.2.2.1.ne' (mul_eq_real_of_zero hzero h.1.1 h.1.2.1 h.1.2.2)
  rw [if_neg hzero, if_neg hzero]
  by_cases hf : x.isFinite = true ∧ y.isFinite = true
  · obtain ⟨fx, fy⟩ := hf
    have hround := roundsTo_mul fx fy
    rw [value_of_isFinite fx, value_of_isFinite fy, ← EReal.coe_mul,
      directedDown_le_iff fx fy hround, le_directedUp_iff fx fy hround]
    by_cases hp : (x * y).isFinite = true
    · obtain ⟨hlt, hgt⟩ := productSide_iff fx fy hp
      have hfin : x.isFinite = true ∧ y.isFinite = true ∧ (x * y).isFinite = true := ⟨fx, fy, hp⟩
      rw [ProductLosesBelow, ProductLosesAbove]
      constructor
      · rw [and_iff_right hfin, imp_iff_right hp, Bool.or_eq_true, beq_iff_eq, hlt]
        exact moved_or_right_iff not_lt.symm fun _ => not_le.symm
      · rw [and_iff_right hfin, imp_iff_right hp, Bool.or_eq_true, beq_iff_eq, hgt]
        exact moved_or_right_iff not_lt.symm fun _ => not_le.symm
    · exact ⟨iff_of_true (fun h => absurd h hp) fun h => hp h.1.2.2,
        iff_of_true (fun h => absurd h hp) fun h => hp h.1.2.2⟩
  · have hf' : (x.isFinite && y.isFinite) = false := by
      rw [Bool.eq_false_iff, ne_eq, Bool.and_eq_true]
      exact hf
    simp only [Bool.or_eq_true, not_or, Bool.not_eq_true] at hzero
    obtain ⟨hp, hv⟩ := value_mul_of_infinite hx hy hzero.1 hzero.2 hf
    rw [hf', ← hv]
    refine ⟨iff_of_true ?_ fun h => hf ⟨h.1.1, h.1.2.1⟩,
      iff_of_true ?_ fun h => hf ⟨h.1.1, h.1.2.1⟩⟩
    · rcases hp with hp | hp <;> rw [hp] <;> exact le_rfl
    · rcases hp with hp | hp <;> rw [hp] <;> exact le_rfl

/-! ### Quotients -/

/-- The side of a quotient is seen from a residual beyond half of the least positive number. -/
theorem quotientSide_iff (hx : x.isFinite) (hy : y.isFinite) (y0 : (y == 0.0) = false)
    (hz : z.isFinite) :
    (quotientSide x y z = .lt ↔
      real x / real y < real z ∧ leastPlace / 2 < |real z * real y - real x|) ∧
    (quotientSide x y z = .gt ↔
      real z < real x / real y ∧ leastPlace / 2 < |real z * real y - real x|) := by
  have hpos := leastPlace_pos
  have hne : real y ≠ 0 := fun h => Bool.false_ne_true (y0.symm.trans ((beq_iff_real hy rfl).2 h))
  obtain ⟨hlt, hgt⟩ := productSide_iff hz hy hx
  unfold quotientSide
  by_cases h : y > 0.0
  · have hy0 : 0 < real y := (lt_iff_real rfl hy).1 h
    rw [if_pos h, Ordering.swap_eq_lt, Ordering.swap_eq_gt, hlt, hgt, div_lt_iff₀ hy0,
      lt_div_iff₀ hy0, lt_abs]
    constructor <;> constructor
    · intro h
      exact ⟨by linarith, Or.inl (by linarith)⟩
    · rintro ⟨h1, h2 | h2⟩ <;> linarith
    · intro h
      exact ⟨by linarith, Or.inr (by linarith)⟩
    · rintro ⟨h1, h2 | h2⟩ <;> linarith
  · have hy0 : real y < 0 := lt_of_le_of_ne (not_lt.1 fun h' => h ((lt_iff_real rfl hy).2 h')) hne
    rw [if_neg h, hlt, hgt, div_lt_iff_of_neg hy0, lt_div_iff_of_neg hy0, lt_abs]
    constructor <;> constructor
    · intro h
      exact ⟨by linarith, Or.inr (by linarith)⟩
    · rintro ⟨h1, h2 | h2⟩ <;> linarith
    · intro h
      exact ⟨by linarith, Or.inl (by linarith)⟩
    · rintro ⟨h1, h2 | h2⟩ <;> linarith

/-- A finite number over an infinity is a zero. -/
theorem value_div_infinity (hx : x.isFinite) : value (x / inf) = 0 ∧ value (x / negInf) = 0 := by
  have key (t : Sign) : ∃ s,
      UnpackedFloat.div .binary64 x.toModel.unpack (.infinity t) = .zero s := by
    change x.toModel.unpack.isFinite = true at hx
    generalize x.toModel.unpack = u at hx
    cases u, hx using finite_cases with
    | zero s => exact ⟨_, rfl⟩
    | finite s m e hm => exact ⟨_, rfl⟩
  have hzero {u : UnpackedFloat} (hu : ∃ s, u = .zero s) : value (.ofModel (.pack u)) = 0 := by
    obtain ⟨s, rfl⟩ := hu
    cases s <;> rfl
  exact ⟨hzero (key .positive), hzero (key .negative)⟩

/-- An infinity over a finite number is an infinity with the sign of the quotient. -/
theorem value_infinity_div (hy : y.isFinite) (y0 : (y == 0.0) = false) :
    value (inf / y) = ⊤ / value y ∧ value (negInf / y) = ⊥ / value y := by
  obtain ⟨t, m, e, hm, hu⟩ := eq_finite_of_isFinite hy y0
  have key (s : Sign) : value (.ofModel (.pack
      (UnpackedFloat.div .binary64 (.infinity s) y.toModel.unpack))) =
        value (.ofModel (.pack (.infinity (s / t)))) := by
    rw [hu]
    rfl
  have hpos : (0 : ℝ) < m * 2 ^ e := by positivity
  rw [value_of_isFinite hy, real, hu]
  cases t with
  | negative =>
    have hneg : -((m : ℝ) * 2 ^ e) < 0 := by linarith
    rw [unpackedReal_negative,
      EReal.top_div_of_neg_ne_bot (EReal.coe_neg'.2 hneg) (EReal.coe_ne_bot _),
      EReal.bot_div_of_neg_ne_bot (EReal.coe_neg'.2 hneg) (EReal.coe_ne_bot _)]
    exact ⟨key .positive, key .negative⟩
  | positive =>
    rw [unpackedReal_positive,
      EReal.top_div_of_pos_ne_top (EReal.coe_pos.2 hpos) (EReal.coe_ne_top _),
      EReal.bot_div_of_pos_ne_top (EReal.coe_pos.2 hpos) (EReal.coe_ne_top _)]
    exact ⟨key .positive, key .negative⟩

/-- A quotient with an infinity that is a number is that of the extended reals. -/
theorem value_div_of_infinite (hx : x.isNaN = false) (hy : y.isNaN = false)
    (y0 : (y == 0.0) = false) (h : ¬(x.isFinite = true ∧ y.isFinite = true))
    (hq : ¬(x / y).isNaN = true) : value (x / y) = value x / value y := by
  rcases isFinite_or_eq_inf hx with fx | hx' <;> rcases isFinite_or_eq_inf hy with fy | hy'
  · exact absurd ⟨fx, fy⟩ h
  · obtain ⟨hpos, hneg⟩ := value_div_infinity fx
    rcases hy' with rfl | rfl
    · rw [hpos, value_inf, EReal.div_top]
    · rw [hneg, value_negInf, EReal.div_bot]
  · obtain ⟨hpos, hneg⟩ := value_infinity_div fy y0
    rcases hx' with rfl | rfl
    · rw [hpos, value_inf]
    · rw [hneg, value_negInf]
  · rcases hx' with rfl | rfl <;> rcases hy' with rfl | rfl <;> exact absurd rfl hq

/-- A quotient that overflows is not moved. -/
theorem div_of_overflow (h0 : ¬(x == 0.0) = true) (hq : x / y = inf ∨ x / y = negInf) :
    divDown x y = x / y ∧ divUp x y = x / y := by
  unfold divDown divUp
  rcases hq with hq | hq <;> rw [hq]
  · exact ⟨(if_neg Bool.false_ne_true).trans ((if_neg h0).trans (if_pos rfl)),
      (if_neg Bool.false_ne_true).trans ((if_neg h0).trans (if_pos rfl))⟩
  · exact ⟨(if_neg Bool.false_ne_true).trans ((if_neg h0).trans (if_pos rfl)),
      (if_neg Bool.false_ne_true).trans ((if_neg h0).trans (if_pos rfl))⟩

theorem div_eq_zero_of_beq (h0 : (x == 0.0) = true) : real x / real y = 0 := by
  rw [(real_eq_zero h0).2, zero_div]

/-- A quotient in the range is moved if it was rounded to the wrong side. -/
theorem div_bounds_of_isFinite_quotient (fx : x.isFinite) (fy : y.isFinite)
    (y0 : (y == 0.0) = false) (hq : (x / y).isFinite) :
    (value (divDown x y) ≤ (real x / real y : ℝ) ↔ ¬QuotientLosesBelow x y) ∧
      ((real x / real y : ℝ) ≤ value (divUp x y) ↔ ¬QuotientLosesAbove x y) := by
  have h := (roundsTo_div fx fy y0).rounds hq
  have hinf : ¬x / y = inf := fun hi => by rw [hi] at hq; contradiction
  have hneg : ¬x / y = negInf := fun hi => by rw [hi] at hq; contradiction
  obtain ⟨hlt, hgt⟩ := quotientSide_iff fx fy y0 hq
  unfold divDown divUp
  simp only [isNaN_of_isFinite hq, isInf_of_isFinite hq, isInf_of_isFinite fx,
    isInf_of_isFinite fy, Bool.or_self, Bool.false_eq_true, if_false]
  by_cases h0 : (x == 0.0) = true
  · have hzero := div_eq_zero_of_beq (y := y) h0
    rw [hzero] at h ⊢
    have hq0 : real (x / y) = 0 := h.eq representable_zero
    rw [if_pos h0, if_pos h0]
    refine ⟨iff_of_true le_rfl ?_, iff_of_true le_rfl ?_⟩
    · rintro ⟨-, hi | ⟨-, -, hlt, -⟩⟩
      · exact hinf hi
      · rw [hzero, hq0] at hlt
        exact lt_irrefl _ hlt
    · rintro ⟨-, hi | ⟨-, -, hlt, -⟩⟩
      · exact hneg hi
      · rw [hzero, hq0] at hlt
        exact lt_irrefl _ hlt
  · rw [if_neg h0, if_neg h0, movedDown_le_iff h hq, le_movedUp_iff h hq]
    have hfin : x.isFinite = true ∧ y.isFinite = true := ⟨fx, fy⟩
    rw [QuotientLosesBelow, QuotientLosesAbove]
    constructor
    · rw [and_iff_right hfin, or_iff_right hinf, and_iff_right hq, Bool.or_eq_true, beq_iff_eq, hlt]
      exact moved_or_right_iff not_lt.symm fun hside => (and_iff_right hside).trans not_le.symm
    · rw [and_iff_right hfin, or_iff_right hneg, and_iff_right hq, Bool.or_eq_true, beq_iff_eq, hgt]
      exact moved_or_right_iff not_lt.symm fun hside => (and_iff_right hside).trans not_le.symm

theorem div_bounds_of_isFinite (fx : x.isFinite) (fy : y.isFinite) (y0 : (y == 0.0) = false) :
    (value (divDown x y) ≤ (real x / real y : ℝ) ↔ ¬QuotientLosesBelow x y) ∧
      ((real x / real y : ℝ) ≤ value (divUp x y) ↔ ¬QuotientLosesAbove x y) := by
  have hmax : 0 < real maxFinite + topPlace / 2 := by
    rw [real_maxFinite]
    linarith [topPlace_pos]
  cases roundsTo_div fx fy y0 with
  | finite hq => exact div_bounds_of_isFinite_quotient fx fy y0 hq
  | above hq w h hw =>
    have h0 : ¬(x == 0.0) = true := fun h0 => by
      rw [div_eq_zero_of_beq h0] at h
      linarith [half_beyond_le h hw]
    rw [(div_of_overflow h0 (Or.inl hq)).1, (div_of_overflow h0 (Or.inl hq)).2, hq]
    refine ⟨iff_of_false (not_le.2 (EReal.coe_lt_top _)) (not_not.2 ⟨⟨fx, fy⟩, Or.inl hq⟩),
      iff_of_true le_top ?_⟩
    rintro ⟨-, hi | ⟨hf, -⟩⟩
    · rw [hq] at hi
      exact absurd (congrArg value hi) top_ne_bot
    · rw [hq] at hf
      contradiction
  | below hq w h hw =>
    have h0 : ¬(x == 0.0) = true := fun h0 => by
      rw [div_eq_zero_of_beq h0] at h
      linarith [half_beyond_le h.neg (by linarith)]
    rw [(div_of_overflow h0 (Or.inr hq)).1, (div_of_overflow h0 (Or.inr hq)).2, hq]
    refine ⟨iff_of_true bot_le ?_,
      iff_of_false (not_le.2 (EReal.bot_lt_coe _)) (not_not.2 ⟨⟨fx, fy⟩, Or.inl hq⟩)⟩
    rintro ⟨-, hi | ⟨hf, -⟩⟩
    · rw [hq] at hi
      exact absurd (congrArg value hi) bot_ne_top
    · rw [hq] at hf
      contradiction

/-- The directed quotients are bounds of the quotient of the extended reals, unless one is
lost. -/
theorem div_bounds_iff (hx : x.isNaN = false) (hy : y.isNaN = false) (y0 : (y == 0.0) = false) :
    (value (divDown x y) ≤ value x / value y ↔ ¬QuotientLosesBelow x y) ∧
      (value x / value y ≤ value (divUp x y) ↔ ¬QuotientLosesAbove x y) := by
  by_cases hf : x.isFinite = true ∧ y.isFinite = true
  · obtain ⟨fx, fy⟩ := hf
    rw [value_of_isFinite fx, value_of_isFinite fy, ← EReal.coe_div]
    exact div_bounds_of_isFinite fx fy y0
  · have hlost : ¬QuotientLosesBelow x y ∧ ¬QuotientLosesAbove x y :=
      ⟨fun h => hf h.1, fun h => hf h.1⟩
    have hinf : ((x / y).isInf || x.isInf || y.isInf) = true := by
      rcases isFinite_or_eq_inf hx with fx | rfl | rfl
      · rcases isFinite_or_eq_inf hy with fy | rfl | rfl
        · exact absurd ⟨fx, fy⟩ hf
        · exact Bool.or_true _
        · exact Bool.or_true _
      · rw [show inf.isInf = true from rfl, Bool.or_true, Bool.true_or]
      · rw [show negInf.isInf = true from rfl, Bool.or_true, Bool.true_or]
    unfold divDown divUp
    simp only [hinf, if_true]
    split_ifs with hq h0
    · exact ⟨iff_of_true bot_le hlost.1, iff_of_true le_top hlost.2⟩
    · have hzero : value x / value y = value 0.0 := by
        rw [(beq_iff.1 h0).2.2]
        exact EReal.zero_div
      exact ⟨iff_of_true hzero.ge hlost.1, iff_of_true hzero.le hlost.2⟩
    · have hv := value_div_of_infinite hx hy y0 hf hq
      exact ⟨iff_of_true hv.le hlost.1, iff_of_true hv.ge hlost.2⟩

/-! ### Results are numbers -/

theorem isNaN_mulDown (x y : Float) : (mulDown x y).isNaN = false := by
  unfold mulDown
  dsimp only
  split_ifs with h0 h1 h2 h3 h4
  · rfl
  · rfl
  · rfl
  · exact Bool.eq_false_iff.2 h1
  · exact isNaN_nextDown (isFinite_of_not_isNaN_isInf h1 h2)
  · exact Bool.eq_false_iff.2 h1

theorem isNaN_mulUp (x y : Float) : (mulUp x y).isNaN = false := by
  unfold mulUp
  dsimp only
  split_ifs with h0 h1 h2 h3 h4
  · rfl
  · rfl
  · rfl
  · exact Bool.eq_false_iff.2 h1
  · exact isNaN_nextUp (isFinite_of_not_isNaN_isInf h1 h2)
  · exact Bool.eq_false_iff.2 h1

theorem isNaN_divDown (x y : Float) : (divDown x y).isNaN = false := by
  unfold divDown
  dsimp only
  split_ifs with h0 h1 h2 h3
  · rfl
  · rfl
  · exact Bool.eq_false_iff.2 h0
  · simp only [Bool.or_eq_true, not_or] at h2
    exact isNaN_nextDown (isFinite_of_not_isNaN_isInf h0 h2.1.1)
  · exact Bool.eq_false_iff.2 h0

theorem isNaN_divUp (x y : Float) : (divUp x y).isNaN = false := by
  unfold divUp
  dsimp only
  split_ifs with h0 h1 h2 h3
  · rfl
  · rfl
  · exact Bool.eq_false_iff.2 h0
  · simp only [Bool.or_eq_true, not_or] at h2
    exact isNaN_nextUp (isFinite_of_not_isNaN_isInf h0 h2.1.1)
  · exact Bool.eq_false_iff.2 h0

/-! ### Powers -/

/-- No product on the way to the `n`-th power is lost. -/
def PowerKeptBelow (x : Float) (n : ℕ) : Prop := ∀ k < n, ¬ProductLosesBelow (powDown x k) x

def PowerKeptAbove (x : Float) (n : ℕ) : Prop := ∀ k < n, ¬ProductLosesAbove (powUp x k) x

theorem IsLower.pow (hx : IsLower x r) (h0 : 0 ≤ value x) {n : ℕ} (h : PowerKeptBelow x n) :
    IsLower (powDown x n) (r ^ n) := by
  have hr : 0 ≤ r := EReal.coe_nonneg.1 (h0.trans hx.2)
  induction n with
  | zero => exact (isLower_iff_of_isFinite (x := 1.0) rfl).2 (by rw [real_one, pow_zero])
  | succ n ih =>
    have hn := ih fun k hk => h k (hk.trans n.lt_succ_self)
    refine ⟨isNaN_mulDown _ _, ?_⟩
    calc value (mulDown (powDown x n) x) ≤ value (powDown x n) * value x :=
          (mul_bounds_iff hn.1 hx.1).1.2 (h n n.lt_succ_self)
      _ ≤ (r ^ n : ℝ) * value x := mul_le_mul_of_nonneg_right hn.2 h0
      _ ≤ (r ^ n : ℝ) * (r : EReal) :=
          mul_le_mul_of_nonneg_left hx.2 (EReal.coe_nonneg.2 (pow_nonneg hr n))
      _ = (r ^ (n + 1) : ℝ) := by rw [← EReal.coe_mul, pow_succ]

theorem IsUpper.pow (hx : IsUpper x r) (hr : 0 ≤ r) {n : ℕ} (h : PowerKeptAbove x n) :
    IsUpper (powUp x n) (r ^ n) := by
  have h0 : 0 ≤ value x := (EReal.coe_nonneg.2 hr).trans hx.2
  induction n with
  | zero => exact (isUpper_iff_of_isFinite (x := 1.0) rfl).2 (by rw [real_one, pow_zero])
  | succ n ih =>
    have hn := ih fun k hk => h k (hk.trans n.lt_succ_self)
    refine ⟨isNaN_mulUp _ _, ?_⟩
    calc ((r ^ (n + 1) : ℝ) : EReal) = (r ^ n : ℝ) * (r : EReal) := by
          rw [← EReal.coe_mul, pow_succ]
      _ ≤ (r ^ n : ℝ) * value x :=
          mul_le_mul_of_nonneg_left hx.2 (EReal.coe_nonneg.2 (pow_nonneg hr n))
      _ ≤ value (powUp x n) * value x := mul_le_mul_of_nonneg_right hn.2 h0
      _ ≤ value (mulUp (powUp x n) x) := (mul_bounds_iff hn.1 hx.1).2.2 (h n n.lt_succ_self)

end FlowTube.Binary64

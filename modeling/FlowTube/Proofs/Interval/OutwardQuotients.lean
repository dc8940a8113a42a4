import FlowTube.Proofs.Interval.OutwardProducts

/-! Quotients of intervals. A divisor of one sign gives the extreme quotients at corners. A
divisor that ends in zero gives a half line from one quotient of bounds, a divisor around zero
the whole line. In each case the exact quotients are kept if no directed quotient that decides
a bound is lost. A quotient of bounds that overflows is lost, and an interval of which all
corners overflow is taken for an empty one. -/

namespace FlowTube.Interval

open Binary64

variable {a b : Interval} {r s : ℝ}

/-! ### Kept quotients -/

/-- No directed quotient that decides a bound is lost. -/
def QuotientsKept (a b : Interval) : Prop :=
  if b.lb > 0.0 ∨ b.ub < 0.0 then
    CornersKept (fun x y => value x / value y) QuotientLosesBelow QuotientLosesAbove a b
  else if b.lb == 0.0 then
    (a.lb > 0.0 → ¬QuotientLosesBelow a.lb b.ub) ∧ (a.ub < 0.0 → ¬QuotientLosesAbove a.ub b.ub)
  else if b.ub == 0.0 then
    (a.lb > 0.0 → ¬QuotientLosesAbove a.lb b.lb) ∧ (a.ub < 0.0 → ¬QuotientLosesBelow a.ub b.lb)
  else True

theorem coe_div_eq (r s : ℝ) : ((r / s : ℝ) : EReal) = r * (s : EReal)⁻¹ := EReal.coe_div r s

theorem value_zero : value 0.0 = 0 := rfl

theorem beq_zero_eq_false {x : Float} (h : value x ≠ 0) : (x == 0.0) = false :=
  Bool.eq_false_iff.2 fun h0 => h (beq_iff.1 h0).2.2

/-! ### Divisors of one sign -/

theorem div_mem_overCorners (hr : r ∈ a) (hs : s ∈ b) (hsign : b.lb > 0.0 ∨ b.ub < 0.0)
    (h : CornersKept (fun x y => value x / value y) QuotientLosesBelow QuotientLosesAbove a b) :
    r / s ∈ overCorners divDown divUp a b := by
  have hsign' : 0 < value b.lb ∨ value b.ub < 0 := by
    rw [← value_zero]
    exact hsign.imp (fun h => (lt_iff.1 h).2.2) fun h => (lt_iff.1 h).2.2
  have hbounds : value b.lb ≤ value b.ub := hs.1.2.trans hs.2.2
  have hne {y : Float} (hy : y = b.lb ∨ y = b.ub) : (y == 0.0) = false := by
    apply beq_zero_eq_false
    rcases hy with rfl | rfl <;> rcases hsign' with hpos | hneg
    · exact hpos.ne'
    · exact (hbounds.trans_lt hneg).ne
    · exact (hpos.trans_le hbounds).ne'
    · exact hneg.ne
  have hnumber {c : Float × Float} (hc : c ∈ corners a b) :
      c.1.isNaN = false ∧ c.2.isNaN = false ∧ (c.2 == 0.0) = false := by
    obtain ⟨h1, h2⟩ := mem_corners.1 hc
    exact ⟨h1.elim (· ▸ hr.1.1) (· ▸ hr.2.1), h2.elim (· ▸ hs.1.1) (· ▸ hs.2.1), hne h2⟩
  have hinv : (value b.ub)⁻¹ ≤ (s : EReal)⁻¹ ∧ (s : EReal)⁻¹ ≤ (value b.lb)⁻¹ :=
    ⟨inv_le_inv_of_le hs.2.2 (hsign'.imp_left fun h => h.trans_le hs.1.2),
      inv_le_inv_of_le hs.1.2 (hsign'.imp_right fun h => hs.2.2.trans_lt h)⟩
  have hcorner := exists_corner hr.1.2 hr.2.2 (f := fun y => (value y)⁻¹) (Or.inr hinv)
  rw [← coe_div_eq] at hcorner
  refine h.mem (fun c hc hkept => ?_) (fun c hc hkept => ?_) hcorner.1 hcorner.2
  · obtain ⟨h1, h2, h3⟩ := hnumber hc
    exact ⟨isNaN_divDown _ _, (div_bounds_iff h1 h2 h3).1.2 hkept⟩
  · obtain ⟨h1, h2, h3⟩ := hnumber hc
    exact ⟨isNaN_divUp _ _, (div_bounds_iff h1 h2 h3).2.2 hkept⟩

/-! ### Divisors that end in zero -/

theorem isLower_negInf (t : ℝ) : IsLower negInf t := ⟨rfl, bot_le⟩

theorem isUpper_inf (t : ℝ) : IsUpper inf t := ⟨rfl, le_top⟩

theorem ne_zero_of_not_beq {x : Float} (hx : x.isNaN = false) (h0 : ¬(x == 0.0) = true) :
    value x ≠ 0 := fun hv => h0 (beq_iff.2 ⟨hx, rfl, hv⟩)

theorem pos_of_ge {x : Float} (h : x ≥ 0.0) (h0 : ¬(x == 0.0) = true) : x > 0.0 := by
  obtain ⟨-, hx, hle⟩ := le_iff.1 h
  exact lt_iff.2 ⟨rfl, hx, lt_of_le_of_ne hle (ne_zero_of_not_beq hx h0).symm⟩

theorem neg_of_le {x : Float} (h : x ≤ 0.0) (h0 : ¬(x == 0.0) = true) : x < 0.0 := by
  obtain ⟨hx, -, hle⟩ := le_iff.1 h
  exact lt_iff.2 ⟨hx, rfl, lt_of_le_of_ne hle (ne_zero_of_not_beq hx h0)⟩

/-- A directed quotient bounds what the exact one bounds. -/
theorem isLower_div {x y : Float} {t : ℝ} (hx : x.isNaN = false) (hy : y.isNaN = false)
    (y0 : value y ≠ 0) (h : ¬(x == 0.0) = true → ¬QuotientLosesBelow x y)
    (hle : value x * (value y)⁻¹ ≤ t) : IsLower (if x == 0.0 then 0.0 else divDown x y) t := by
  split_ifs with h0
  · have hzero : value x = 0 := (beq_iff.1 h0).2.2
    rw [hzero, zero_mul] at hle
    exact ⟨rfl, hle⟩
  · have hbound := (div_bounds_iff hx hy (beq_zero_eq_false y0)).1.2 (h h0)
    exact ⟨isNaN_divDown _ _, hbound.trans hle⟩

theorem isUpper_div {x y : Float} {t : ℝ} (hx : x.isNaN = false) (hy : y.isNaN = false)
    (y0 : value y ≠ 0) (h : ¬(x == 0.0) = true → ¬QuotientLosesAbove x y)
    (hle : t ≤ value x * (value y)⁻¹) : IsUpper (if x == 0.0 then 0.0 else divUp x y) t := by
  split_ifs with h0
  · have hzero : value x = 0 := (beq_iff.1 h0).2.2
    rw [hzero, zero_mul] at hle
    exact ⟨rfl, hle⟩
  · have hbound := (div_bounds_iff hx hy (beq_zero_eq_false y0)).2.2 (h h0)
    exact ⟨isNaN_divUp _ _, hle.trans hbound⟩

theorem mul_le_mul_left_of_nonpos {p q u : EReal} (h : p ≤ q) (hu : u ≤ 0) : u * q ≤ u * p := by
  rw [mul_comm u q, mul_comm u p]
  exact EReal.mul_le_mul_of_nonpos_right h hu

theorem div_mem_of_positivePart (hr : r ∈ a) (hs : s ∈ b) (h0 : s ≠ 0) (hlb : (b.lb == 0.0) = true)
    (hbelow : a.lb > 0.0 → ¬QuotientLosesBelow a.lb b.ub)
    (habove : a.ub < 0.0 → ¬QuotientLosesAbove a.ub b.ub) : r / s ∈ divByPositivePart a b.ub := by
  have hzero : value b.lb = 0 := (beq_iff.1 hlb).2.2
  have hpos : (0 : EReal) < s := lt_of_le_of_ne (hzero ▸ hs.1.2) (EReal.coe_ne_zero.2 h0).symm
  have hub : value b.ub ≠ 0 := (hpos.trans_le hs.2.2).ne'
  have hinv : (value b.ub)⁻¹ ≤ (s : EReal)⁻¹ := inv_le_inv_of_le hs.2.2 (Or.inl hpos)
  have hinv0 : 0 ≤ (value b.ub)⁻¹ := EReal.inv_nonneg_of_nonneg (hpos.le.trans hs.2.2)
  unfold divByPositivePart
  by_cases hlow : a.lb ≥ 0.0
  · rw [if_pos hlow]
    have hr0 : 0 ≤ value a.lb := (le_iff.1 hlow).2.2
    have hle : value a.lb * (value b.ub)⁻¹ ≤ (r / s : ℝ) := by
      rw [coe_div_eq]
      exact (mul_le_mul_of_nonneg_right hr.1.2 hinv0).trans
        (mul_le_mul_of_nonneg_left hinv (hr0.trans hr.1.2))
    have hbound := isLower_div hr.1.1 hs.2.1 hub (fun h => hbelow (pos_of_ge hlow h)) hle
    exact mem_ofBounds.2 ⟨hbound, isUpper_inf _⟩
  rw [if_neg hlow]
  by_cases hupp : a.ub ≤ 0.0
  · rw [if_pos hupp]
    have hr0 : value a.ub ≤ 0 := (le_iff.1 hupp).2.2
    have hle : (r / s : ℝ) ≤ value a.ub * (value b.ub)⁻¹ := by
      rw [coe_div_eq]
      exact (mul_le_mul_of_nonneg_right hr.2.2 (hinv0.trans hinv)).trans
        (mul_le_mul_left_of_nonpos hinv hr0)
    have hbound := isUpper_div hr.2.1 hs.2.1 hub (fun h => habove (neg_of_le hupp h)) hle
    exact mem_ofBounds.2 ⟨isLower_negInf _, hbound⟩
  · rw [if_neg hupp]
    exact mem_whole

theorem div_mem_of_negativePart (hr : r ∈ a) (hs : s ∈ b) (h0 : s ≠ 0) (hub : (b.ub == 0.0) = true)
    (habove : a.lb > 0.0 → ¬QuotientLosesAbove a.lb b.lb)
    (hbelow : a.ub < 0.0 → ¬QuotientLosesBelow a.ub b.lb) : r / s ∈ divByNegativePart a b.lb := by
  have hzero : value b.ub = 0 := (beq_iff.1 hub).2.2
  have hneg : (s : EReal) < 0 := lt_of_le_of_ne (hzero ▸ hs.2.2) (EReal.coe_ne_zero.2 h0)
  have hlb : value b.lb ≠ 0 := (hs.1.2.trans_lt hneg).ne
  have hinv : (s : EReal)⁻¹ ≤ (value b.lb)⁻¹ := inv_le_inv_of_le hs.1.2 (Or.inr hneg)
  have hinv0 : (value b.lb)⁻¹ ≤ 0 := EReal.inv_nonpos_of_nonpos (hs.1.2.trans hneg.le)
  unfold divByNegativePart
  by_cases hlow : a.lb ≥ 0.0
  · rw [if_pos hlow]
    have hr0 : 0 ≤ value a.lb := (le_iff.1 hlow).2.2
    have hle : (r / s : ℝ) ≤ value a.lb * (value b.lb)⁻¹ := by
      rw [coe_div_eq]
      exact (EReal.mul_le_mul_of_nonpos_right hr.1.2 (hinv.trans hinv0)).trans
        (mul_le_mul_of_nonneg_left hinv hr0)
    have hbound := isUpper_div hr.1.1 hs.1.1 hlb (fun h => habove (pos_of_ge hlow h)) hle
    exact mem_ofBounds.2 ⟨isLower_negInf _, hbound⟩
  rw [if_neg hlow]
  by_cases hupp : a.ub ≤ 0.0
  · rw [if_pos hupp]
    have hr0 : value a.ub ≤ 0 := (le_iff.1 hupp).2.2
    have hle : value a.ub * (value b.lb)⁻¹ ≤ (r / s : ℝ) := by
      rw [coe_div_eq]
      exact (mul_le_mul_left_of_nonpos hinv hr0).trans
        (EReal.mul_le_mul_of_nonpos_right hr.2.2 (hinv.trans hinv0))
    have hbound := isLower_div hr.2.1 hs.1.1 hlb (fun h => hbelow (neg_of_le hupp h)) hle
    exact mem_ofBounds.2 ⟨hbound, isUpper_inf _⟩
  · rw [if_neg hupp]
    exact mem_whole

/-! ### Quotients -/

theorem eq_zero_of_isZero (hr : r ∈ a) (h : a.isZero = true) : r = 0 := by
  simp only [isZero, Bool.and_eq_true] at h
  have hlb := hr.1.2
  have hub := hr.2.2
  rw [(beq_iff.1 h.1).2.2, value_zero] at hlb
  rw [(beq_iff.1 h.2).2.2, value_zero] at hub
  exact le_antisymm (EReal.coe_nonpos.1 hub) (EReal.coe_nonneg.1 hlb)

/-- Quotients of members by members other than zero are kept where no directed quotient that
decides a bound is lost. -/
theorem quotients_of_members_mem (hr : r ∈ a) (hs : s ∈ b) (h0 : s ≠ 0) (h : QuotientsKept a b) :
    r / s ∈ a / b := by
  have hzero : b.isZero = false := Bool.eq_false_iff.2 fun hz => h0 (eq_zero_of_isZero hs hz)
  change r / s ∈ div a b
  unfold QuotientsKept at h
  rw [div, isEmpty_of_mem hr, isEmpty_of_mem hs, hzero, if_neg (by decide)]
  split_ifs with hzero' hsign hlb hub
  · rw [eq_zero_of_isZero hr hzero', zero_div, ← eq_zero_of_isZero hr hzero']
    exact hr
  · simp only [Bool.or_eq_true, decide_eq_true_eq] at hsign
    rw [if_pos hsign] at h
    exact div_mem_overCorners hr hs hsign h
  · simp only [Bool.or_eq_true, decide_eq_true_eq] at hsign
    rw [if_neg hsign, if_pos hlb] at h
    exact div_mem_of_positivePart hr hs h0 hlb h.1 h.2
  · simp only [Bool.or_eq_true, decide_eq_true_eq] at hsign
    rw [if_neg hsign, if_neg hlb, if_pos hub] at h
    exact div_mem_of_negativePart hr hs h0 hub h.1 h.2
  · exact mem_whole

/-- Two by two. -/
theorem quotient_of_two_mem : real 2.0 / real 2.0 ∈ point 2.0 / point 2.0 := by
  have htwo : real 2.0 ≠ 0 := fun h =>
    absurd ((beq_iff_real rfl rfl).2 (h.trans real_zero.symm)) (by decide)
  have hone : (2.0 / 2.0 : Float) = 1.0 := by decide +kernel
  have hexact : real 2.0 / real 2.0 = real (2.0 / 2.0) := by rw [hone, real_one, div_self htwo]
  have hkept : ¬QuotientLosesBelow 2.0 2.0 ∧ ¬QuotientLosesAbove 2.0 2.0 := by
    constructor
    · rintro ⟨-, hinf | ⟨-, -, hlt, -⟩⟩
      · exact absurd hinf (by decide +kernel)
      · exact hlt.ne hexact
    · rintro ⟨-, hinf | ⟨-, -, hlt, -⟩⟩
      · exact absurd hinf (by decide +kernel)
      · exact hlt.ne' hexact
  refine quotients_of_members_mem (mem_point rfl) (mem_point rfl) htwo ?_
  rw [QuotientsKept, if_pos (Or.inl (by decide))]
  refine cornersKept_of_forall fun c hc => ?_
  obtain ⟨h1, h2⟩ := mem_corners.1 hc
  have hfirst : c.1 = 2.0 := h1.elim id id
  have hsecond : c.2 = 2.0 := h2.elim id id
  rw [hfirst, hsecond]
  exact hkept

/-- A number of which the smallest normal number is two thirds. -/
def threeHalvesNormal : Float := Float.ofBits 0x0018000000000000

/-- The largest number by a half overflows and leaves nothing, and the residual of two thirds
of two small numbers goes unseen. -/
theorem quotients_lost : (real maxFinite ∈ point maxFinite ∧ real 0.5 ∈ point 0.5 ∧ real 0.5 ≠ 0 ∧
    (point maxFinite / point 0.5).isEmpty = true) ∧
    (real minNormal ∈ point minNormal ∧ real threeHalvesNormal ∈ point threeHalvesNormal ∧
      real threeHalvesNormal ≠ 0 ∧
        real minNormal / real threeHalvesNormal ∉ point minNormal / point threeHalvesNormal) := by
  have hy : real threeHalvesNormal = 3 * 2 ^ 51 * leastPlace := by
    change (((3 * 2 ^ 51 : ℕ) : ℤ) : ℝ) * 2 ^ (-1074 : ℤ) = _
    rw [leastPlace]
    norm_num
  have hx : real minNormal = 2 ^ 52 * leastPlace := by
    change (((2 ^ 52 : ℕ) : ℤ) : ℝ) * 2 ^ (-1074 : ℤ) = _
    rw [leastPlace]
    norm_num
  have hhalf : real 0.5 ≠ 0 := fun h =>
    absurd ((beq_iff_real rfl rfl).2 (h.trans real_zero.symm)) (by decide)
  have hpos := leastPlace_pos
  refine ⟨⟨mem_point rfl, mem_point rfl, hhalf, by decide +kernel⟩, mem_point rfl, mem_point rfl,
    by rw [hy]; positivity, fun h => ?_⟩
  have hub : (point minNormal / point threeHalvesNormal).ub = Float.ofBits 0x3fe5555555555555 := by
    decide +kernel
  have hq : real (Float.ofBits 0x3fe5555555555555) = (2 ^ 54 - 1) / 3 / 2 ^ 53 := by
    change (((6004799503160661 : ℕ) : ℤ) : ℝ) * 2 ^ (-53 : ℤ) = _
    norm_num
  have hupp := h.2
  rw [hub, isUpper_iff_of_isFinite rfl, hq, hx, hy, div_le_iff₀ (by positivity)] at hupp
  nlinarith

end FlowTube.Interval

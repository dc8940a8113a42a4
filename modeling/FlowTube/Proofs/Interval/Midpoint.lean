import FlowTube.Proofs.Binary64.TotalOrder
import FlowTube.Proofs.Interval.Membership

/-! Midpoints and widths. A rounding below a power of two errs by at most the last place there,
and the width rounded up is the least number that is not below the width. So the midpoint of an
interval lies strictly inside, if the interval is wider than a few places of its bounds; and it is
not the negative zero, unless a bound is. -/

namespace FlowTube

namespace Binary64

variable {x y z : Float} {r : ℝ} {k : ℤ}

theorem RoundsTo.abs_sub_le (h : RoundsTo r x) (hr : |r| ≤ 2 ^ k) (hlow : -1021 ≤ k)
    (hup : k ≤ 1023) : x.isFinite = true ∧ |real x - r| ≤ 2 ^ (k - 53) := by
  have hfinite : x.isFinite = true := by
    rw [h.isFinite_iff, real_maxFinite]
    have hpow : (2 : ℝ) ^ k ≤ 2 ^ 52 * topPlace := by
      rw [topPlace, ← zpow_natCast, ← zpow_add₀ two_ne_zero]
      exact zpow_mono (by norm_num; omega)
    linarith [topPlace_pos]
  have hpos : (0 : ℝ) < 2 ^ (k - 53) := by positivity
  have hmesh : (2 : ℝ) ^ 53 * 2 ^ (k - 53) = 2 ^ k := by
    rw [← zpow_natCast, ← zpow_add₀ two_ne_zero]
    norm_num
  have hfloor : |((⌊r / 2 ^ (k - 53)⌋ : ℤ) : ℝ)| ≤ 2 ^ 53 := by
    have hquot : |r / 2 ^ (k - 53)| ≤ 2 ^ 53 := by
      rw [abs_div, abs_of_pos hpos, div_le_iff₀ hpos, hmesh]
      exact hr
    rw [abs_le] at hquot ⊢
    constructor
    · have := Int.le_floor.2 (show ((-2 ^ 53 : ℤ) : ℝ) ≤ r / 2 ^ (k - 53) by
        push_cast
        linarith [hquot.1])
      exact_mod_cast this
    · exact (Int.floor_le _).trans hquot.2
  have hrep : Representable (⌊r / 2 ^ (k - 53)⌋ * 2 ^ (k - 53)) := by
    refine representable_of_le (by omega) (mul_mem_grid _ _) ?_
    rw [abs_mul, abs_of_pos hpos]
    exact mul_le_mul_of_nonneg_right hfloor hpos.le
  refine ⟨hfinite, ?_⟩
  rw [abs_sub_comm]
  refine ((h.rounds hfinite).le hrep).trans ?_
  have hle := mul_le_mul_of_nonneg_right (Int.floor_le (r / 2 ^ (k - 53))) hpos.le
  have hlt := mul_lt_mul_of_pos_right (Int.lt_floor_add_one (r / 2 ^ (k - 53))) hpos
  rw [div_mul_cancel₀ _ hpos.ne'] at hle hlt
  rw [abs_of_nonneg (by linarith)]
  linarith

/-- The middle of two numbers lies between them, if they are not too close. -/
theorem middle_between (hx : x.isFinite) (hy : y.isFinite) (hxk : |real x| ≤ 2 ^ k)
    (hyk : |real y| ≤ 2 ^ k) (hlow : -1020 ≤ k) (hup : k ≤ 1022)
    (hwide : 2 ^ (k - 50) < real y - real x) :
    (0.5 * x + 0.5 * y).isFinite = true ∧ real x < real (0.5 * x + 0.5 * y) ∧
      real (0.5 * x + 0.5 * y) < real y := by
  have hhalf {z : Float} (hz : z.isFinite) (hzk : |real z| ≤ 2 ^ k) :
      (0.5 * z).isFinite = true ∧ |real (0.5 * z) - 1 / 2 * real z| ≤ 2 ^ (k - 54) := by
    have hrounds := roundsTo_mul (x := 0.5) rfl hz
    rw [real_half] at hrounds
    rw [show k - 54 = k - 1 - 53 by ring]
    refine hrounds.abs_sub_le ?_ (by omega) (by omega)
    rw [abs_mul, zpow_sub_one₀ two_ne_zero]
    norm_num
    linarith
  obtain ⟨hfx, hex⟩ := hhalf hx hxk
  obtain ⟨hfy, hey⟩ := hhalf hy hyk
  have hp : (2 : ℝ) ^ k = 2 ^ 54 * 2 ^ (k - 54) := by
    rw [← zpow_natCast, ← zpow_add₀ two_ne_zero]
    norm_num
  have hq : (2 : ℝ) ^ (k - 50) = 2 ^ 4 * 2 ^ (k - 54) := by
    rw [← zpow_natCast, ← zpow_add₀ two_ne_zero]
    norm_num
    ring_nf
  have hs : (2 : ℝ) ^ (k + 1 - 53) = 2 ^ 2 * 2 ^ (k - 54) := by
    rw [← zpow_natCast, ← zpow_add₀ two_ne_zero]
    norm_num
    ring_nf
  have hpos : (0 : ℝ) < 2 ^ (k - 54) := by positivity
  have hsum : |real (0.5 * x) + real (0.5 * y)| ≤ 2 ^ (k + 1) := by
    rw [zpow_succ, hp]
    rw [hp] at hxk hyk
    rw [abs_le] at *
    constructor <;> linarith
  obtain ⟨hfinite, herr⟩ := (roundsTo_add hfx hfy).abs_sub_le hsum (by omega) (by omega)
  rw [hs] at herr
  rw [hq] at hwide
  rw [abs_le] at *
  exact ⟨hfinite, by linarith, by linarith⟩

/-- The sum rounded up is not above any number that is not below the sum. -/
theorem addUp_le (hx : x.isFinite) (hy : y.isFinite) (hz : z.isFinite)
    (h0 : 0 ≤ real x + real y) (h : real x + real y ≤ real z) : value (addUp x y) ≤ value z := by
  have hs : (x + y).isFinite = true := by
    rw [(roundsTo_add hx hy).isFinite_iff, abs_of_nonneg h0]
    have hmax := (abs_le.1 (abs_real_le_maxFinite z)).2
    linarith [topPlace_pos]
  have hrounds := (roundsTo_add hx hy).rounds hs
  unfold addUp
  dsimp only
  rw [isNaN_of_isFinite hs, isInf_of_isFinite hs]
  simp only [Bool.false_eq_true, if_false]
  split_ifs with herr
  · have hlt := ((sumError_sign hx hy hs).2.1 herr).1
    refine value_nextUp_le hs (isNaN_of_isFinite hz) ?_
    rw [value_of_isFinite hs, value_of_isFinite hz, EReal.coe_lt_coe_iff]
    exact hlt.trans_le h
  · rw [value_of_isFinite hs, value_of_isFinite hz, EReal.coe_le_coe_iff]
    exact hrounds.ge_of_ge (representable_real z) h

end Binary64

namespace Interval

open Binary64

variable {a : Interval} {k : ℤ} {w : Float}

theorem isEmpty_of_lt (h : a.lb < a.ub) : a.isEmpty = false := by
  obtain ⟨-, -, hlt⟩ := lt_iff.1 h
  exact decide_eq_false fun hgt => hlt.not_gt (lt_iff.1 hgt).2.2

theorem isUnbounded_of_isFinite (hlb : a.lb.isFinite) (hub : a.ub.isFinite) :
    a.isUnbounded = false := by
  obtain ⟨-, -, hbot⟩ := isFinite_iff.1 hlb
  obtain ⟨-, htop, -⟩ := isFinite_iff.1 hub
  have hl : (a.lb == negInf) = false := Bool.eq_false_iff.2 fun h => hbot (beq_iff.1 h).2.2
  have hu : (a.ub == inf) = false := Bool.eq_false_iff.2 fun h => htop (beq_iff.1 h).2.2
  rw [isUnbounded, hl, hu, Bool.or_false, Bool.and_false]

theorem mid_of_isFinite (hlb : a.lb.isFinite) (hub : a.ub.isFinite) (h : a.lb < a.ub) :
    a.mid = clamp (0.5 * a.lb + 0.5 * a.ub) a.lb a.ub := by
  have hbounded := isUnbounded_of_isFinite hlb hub
  rw [isUnbounded, isEmpty_of_lt h, Bool.not_false, Bool.true_and, Bool.or_eq_false_iff] at hbounded
  unfold mid
  rw [isEmpty_of_lt h, hbounded.1, hbounded.2]
  rfl

/-- The midpoint lies inside, if the interval is wider than a few places of its bounds. -/
theorem mid_between (hlb : a.lb.isFinite) (hub : a.ub.isFinite) (hlbk : |real a.lb| ≤ 2 ^ k)
    (hubk : |real a.ub| ≤ 2 ^ k) (hlow : -1020 ≤ k) (hup : k ≤ 1022)
    (hwide : 2 ^ (k - 50) < real a.ub - real a.lb) : a.lb < a.mid ∧ a.mid < a.ub := by
  have hlt : a.lb < a.ub := by
    rw [lt_iff_real hlb hub]
    have : (0 : ℝ) < 2 ^ (k - 50) := by positivity
    linarith
  obtain ⟨hfinite, hleft, hright⟩ := middle_between hlb hub hlbk hubk hlow hup hwide
  rw [mid_of_isFinite hlb hub hlt, clamp, if_neg, if_neg]
  · exact ⟨(lt_iff_real hlb hfinite).2 hleft, (lt_iff_real hfinite hub).2 hright⟩
  · rw [lt_iff_real hub hfinite]
    exact hright.not_gt
  · rw [lt_iff_real hfinite hlb]
    exact hleft.not_gt

/-- A diameter above a number comes from a width above it. -/
theorem width_gt_of_diam_gt (hlb : a.lb.isFinite) (hub : a.ub.isFinite) (h : a.lb < a.ub)
    (hw : w.isFinite) (hdiam : a.diam > w) : real w < real a.ub - real a.lb := by
  have hpos := (lt_iff_real hlb hub).1 h
  rw [diam, isEmpty_of_lt h, isUnbounded_of_isFinite hlb hub] at hdiam
  simp only [Bool.false_eq_true, if_false] at hdiam
  by_contra hle
  have hneg : real (-a.lb) = -real a.lb := real_neg _
  have hbound := addUp_le hub (by rwa [isFinite_neg_eq]) hw (y := -a.lb) (by rw [hneg]; linarith)
    (by rw [hneg]; linarith)
  exact hbound.not_gt (lt_iff.1 hdiam).2.2

/-- The midpoint is the negative zero only at a bound. -/
theorem mid_ne_negZero (h : a.lb < a.ub) (hlb : a.lb ≠ -0.0) (hub : a.ub ≠ -0.0) :
    a.mid ≠ -0.0 := by
  obtain ⟨hnlb, hnub, hlt⟩ := lt_iff.1 h
  by_cases hfinite : a.lb.isFinite = true ∧ a.ub.isFinite = true
  · rw [mid_of_isFinite hfinite.1 hfinite.2 h, clamp]
    split_ifs with hbelow habove
    · exact hlb
    · exact hub
    · intro hmiddle
      rw [hmiddle, lt_iff_real hfinite.2 rfl, not_lt] at habove
      exact middle_ne_negZero hfinite.1 hfinite.2 habove hub hmiddle
  · unfold mid
    rw [isEmpty_of_lt h, if_neg Bool.false_ne_true]
    cases hl : a.lb == negInf <;> cases hu : a.ub == inf
    · refine absurd ⟨isFinite_iff.2 ⟨hnlb, hlt.ne_top, fun hbot => ?_⟩,
        isFinite_iff.2 ⟨hnub, fun htop => ?_, hlt.ne_bot⟩⟩ hfinite
      · exact Bool.eq_false_iff.1 hl (beq_iff.2 ⟨hnlb, rfl, hbot⟩)
      · exact Bool.eq_false_iff.1 hu (beq_iff.2 ⟨hnub, rfl, htop⟩)
    all_goals
      dsimp only
      decide

end Interval

end FlowTube

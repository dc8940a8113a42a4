import FlowTube.Proofs.Interval.Midpoint
import FlowTube.Proofs.Interval.OutwardSums
import FlowTube.Proofs.Interval.Subdivision

/-! The parts of an interval that is cut at its midpoint. The midpoint is rounded, and between
neighbouring numbers it is an end. Where it lies strictly inside, though, neither part is much
narrower than the other one: an interval of a few places has its ends on the grid of the midpoint
or on the next finer one, and against a wider interval the rounding is small. -/

namespace FlowTube

namespace Binary64

variable {e : ℤ} {r s : ℝ} {x y z : Float}

/-! ### Distances of representable reals -/

/-- Representable reals are spaced by the least place at least. -/
theorem Representable.mem_grid_least (h : Representable r) : r ∈ grid (-1074) := by
  obtain ⟨d, hd, hmem, -⟩ := h
  exact grid_mono hd hmem

/-- A representable real that needs all places above one needs none below it. -/
theorem Representable.mem_grid_of_le (h : Representable r) (hle : 2 ^ 52 * 2 ^ e ≤ |r|) :
    r ∈ grid e := by
  obtain ⟨d, -, hmem, hlt⟩ := h
  have hpow : (2 : ℝ) ^ e < 2 ^ (d + 1) := by
    rw [zpow_succ]
    linarith
  have hed : e < d + 1 := (zpow_lt_zpow_iff_right₀ one_lt_two).1 hpow
  exact grid_mono (by omega) hmem

theorem zpow_le_sub_of_mem_grid (hr : r ∈ grid e) (hs : s ∈ grid e) (h : r < s) :
    2 ^ e ≤ s - r := by
  have hmesh := zpow_le_abs_sub_of_mem_grid hs hr h.ne'
  rwa [abs_of_pos (sub_pos.2 h)] at hmesh

theorem leastPlace_le_sub (h : real x < real y) : leastPlace ≤ real y - real x :=
  zpow_le_sub_of_mem_grid (representable_real x).mem_grid_least
    (representable_real y).mem_grid_least h

/-! ### Halves -/

/-- Only the least place of a number can be lost by halving it. -/
theorem abs_half_sub_le (hx : x.isFinite) : |1 / 2 * real x - real (0.5 * x)| ≤ leastPlace / 2 := by
  have hrounds := (roundsTo_mul (x := 0.5) rfl hx).rounds (isFinite_half hx)
  rw [real_half] at hrounds
  obtain ⟨e, h⟩ := id hrounds
  rcases h.full with hfull | rfl
  · -- all places of the half are kept
    have hgrid : real x ∈ grid (e + 1) := by
      refine (representable_real x).mem_grid_of_le ?_
      rw [abs_mul] at hfull
      norm_num at hfull
      rw [zpow_succ]
      linarith
    have hhalf : 1 / 2 * real x ∈ grid e := by
      obtain ⟨n, hn⟩ := mem_grid.1 hgrid
      rw [hn, zpow_succ]
      exact mem_grid.2 ⟨n, by ring⟩
    rw [h.eq_of_le hhalf le_rfl, sub_self, abs_zero]
    linarith [leastPlace_pos]
  · exact h.near

/-- The middle of two numbers that lies between them keeps a distance from both. -/
theorem middle_apart (hx : x.isFinite) (hy : y.isFinite) (hz : (0.5 * x + 0.5 * y).isFinite)
    (hlow : real x < real (0.5 * x + 0.5 * y)) (hup : real (0.5 * x + 0.5 * y) < real y) :
    real y - real x ≤ 12 * (real (0.5 * x + 0.5 * y) - real x) ∧
      real y - real x ≤ 12 * (real y - real (0.5 * x + 0.5 * y)) := by
  obtain ⟨e, h⟩ := (roundsTo_add (isFinite_half hx) (isFinite_half hy)).rounds hz
  have hex := abs_half_sub_le hx
  have hey := abs_half_sub_le hy
  generalize real (0.5 * x + 0.5 * y) = m at *
  have hnear := h.near
  have hleast : leastPlace ≤ 2 ^ e := zpow_mono h.least
  have hplace := leastPlace_pos
  rw [abs_le] at hex hey hnear
  rcases le_or_gt (6 * 2 ^ e) (real y - real x) with hwide | hnarrow
  · constructor <;> linarith
  · -- a few places: the ends lie on the grid of the middle or on the next finer one
    obtain ⟨d, hd, hx', hm', hy'⟩ : ∃ d, e ≤ d + 1 ∧ real x ∈ grid d ∧ m ∈ grid d ∧
        real y ∈ grid d := by
      rcases h.full with hfull | rfl
      · have hhalf : (2 : ℝ) ^ e = 2 * 2 ^ (e - 1) := by
          rw [← zpow_succ, sub_add_cancel]
        have hlarge {t : ℝ} (ht : |t - (real (0.5 * x) + real (0.5 * y))| ≤ 7 * 2 ^ e) :
            2 ^ 52 * 2 ^ (e - 1) ≤ |t| := by
          have htri := abs_sub_abs_le_abs_sub (real (0.5 * x) + real (0.5 * y)) t
          rw [abs_sub_comm] at htri
          linarith
        refine ⟨e - 1, by omega, (representable_real x).mem_grid_of_le (hlarge ?_),
          grid_mono (by omega) h.mem, (representable_real y).mem_grid_of_le (hlarge ?_)⟩
        all_goals
          rw [abs_le]
          constructor <;> linarith
      · exact ⟨-1074, by omega, (representable_real x).mem_grid_least, h.mem,
          (representable_real y).mem_grid_least⟩
    have hpow : (2 : ℝ) ^ e ≤ 2 * 2 ^ d := by
      rw [← zpow_succ]
      exact zpow_mono hd
    have hleft := zpow_le_sub_of_mem_grid hx' hm' hlow
    have hright := zpow_le_sub_of_mem_grid hm' hy' hup
    constructor <;> linarith

/-! ### Fractions -/

/-- A product with a little more than a fraction is not below the fraction, but for the least
place. -/
theorem fraction_mul_le {q : ℝ} (hx : x.isFinite) (hy : y.isFinite) (hxy : (x * y).isFinite)
    (hx0 : 0 ≤ real x) (hq0 : 0 ≤ q) (hq : q * (1 + 1 / 64) ≤ real y) :
    q * real x ≤ real (x * y) + leastPlace := by
  obtain ⟨e, h⟩ := (roundsTo_mul hx hy).rounds hxy
  have hproduct : q * real x * (1 + 1 / 64) ≤ real x * real y := by
    calc q * real x * (1 + 1 / 64) = real x * (q * (1 + 1 / 64)) := by ring
      _ ≤ real x * real y := mul_le_mul_of_nonneg_left hq hx0
  have hpart : 0 ≤ q * real x := mul_nonneg hq0 hx0
  have hnear := (abs_le.1 h.near).2
  have hplace := leastPlace_pos
  rcases h.full with hfull | rfl
  · rw [abs_of_nonneg (by linarith)] at hfull
    linarith
  · change _ ≤ leastPlace / 2 at hnear
    linarith

end Binary64

namespace Interval

open Binary64

variable {a : Interval}

/-- The diameter is not below the width. -/
theorem width_le_diam (hlb : a.lb.isFinite) (hub : a.ub.isFinite) (h : a.lb ≤ a.ub) :
    (real a.ub - real a.lb : ℝ) ≤ value a.diam := by
  have hle := (le_iff_real hlb hub).1 h
  have hneg : (-a.lb).isFinite = true := by rwa [isFinite_neg_eq]
  have hkept : ¬SumLosesAbove a.ub (-a.lb) := by
    rintro ⟨⟨-, -, hs⟩, hmax, hsum⟩
    have hround := (roundsTo_add hub hneg).rounds hs
    have hnonneg : 0 ≤ real a.ub + real (-a.lb) := by rw [real_neg]; linarith
    have hub := (abs_le.1 (abs_real_le_maxFinite a.ub)).2
    linarith [hround.le_of_le representable_zero hnonneg, topPlace_pos]
  have hle := (le_addUp_iff hub hneg).2 hkept
  rw [real_neg, ← sub_eq_add_neg] at hle
  rw [diam, isEmpty_of_le h, isUnbounded_of_isFinite hlb hub]
  exact hle

/-- A diameter is a width rounded up, or it is infinite. -/
theorem diam_cases (h : a.lb < a.ub) :
    (a.lb.isFinite = true ∧ a.ub.isFinite = true ∧ a.diam.isFinite = true ∧
      real a.ub - real a.lb ≤ real a.diam) ∨ a.diam = inf := by
  cases hunbounded : a.isUnbounded with
  | true =>
    right
    rw [diam, isEmpty_of_lt h, hunbounded]
    rfl
  | false =>
    obtain ⟨hl, hu, -⟩ := lt_iff.1 h
    obtain ⟨hlb, hub⟩ := isFinite_bounds hl hu (by
      rw [isBounded, isEmpty_of_lt h, hunbounded]
      rfl)
    have hle := width_le_diam hlb hub (le_of_lt h)
    rcases isFinite_or_eq_inf (isNaN_diam a) with hfinite | hinf | hneg
    · rw [value_of_isFinite hfinite, EReal.coe_le_coe_iff] at hle
      exact Or.inl ⟨hlb, hub, hfinite, hle⟩
    · exact Or.inr hinf
    · rw [hneg] at hle
      exact absurd hle (not_le.2 (EReal.bot_lt_coe _))

/-- If the midpoint lies strictly inside, each part has a twelfth of the width at least. -/
theorem mid_apart (hlb : a.lb.isFinite) (hub : a.ub.isFinite) (hlow : a.lb < a.mid)
    (hup : a.mid < a.ub) : a.mid.isFinite = true ∧
      real a.ub - real a.lb ≤ 12 * (real a.mid - real a.lb) ∧
        real a.ub - real a.lb ≤ 12 * (real a.ub - real a.mid) := by
  have hfinite := isFinite_of_between hlb hub (le_of_lt hlow) (le_of_lt hup)
  have hlt : a.lb < a.ub := by
    rw [lt_iff_real hlb hfinite] at hlow
    rw [lt_iff_real hfinite hub] at hup
    rw [lt_iff_real hlb hub]
    exact hlow.trans hup
  have hmid : a.mid = 0.5 * a.lb + 0.5 * a.ub := by
    have hclamp := mid_of_isFinite hlb hub hlt
    unfold clamp at hclamp
    split_ifs at hclamp
    · rw [hclamp, lt_iff_real hlb hlb] at hlow
      exact absurd hlow (lt_irrefl _)
    · rw [hclamp, lt_iff_real hub hub] at hup
      exact absurd hup (lt_irrefl _)
    · exact hclamp
  rw [lt_iff_real hlb hfinite] at hlow
  rw [lt_iff_real hfinite hub] at hup
  rw [hmid] at hfinite hlow hup ⊢
  exact ⟨hfinite, middle_apart hlb hub hfinite hlow hup⟩

end Interval

end FlowTube

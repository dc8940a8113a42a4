import FlowTube.Proofs.Binary64.Neighbours
import FlowTube.Proofs.Interval.Membership

/-! What directed sums promise. A bound stays or moves to its neighbour, so it is right if the
exact result lies on the inner side of the rounded one, or if the test for the error has seen
that it does not. For a sum the test is exact, by the two-sum identity, as long as the rounded
sum less its first summand is a number. It is none for a few operands at the end of the range:
the second summand is the largest number of its sign and half of the greatest place was rounded
away from zero. Such sums are set apart; for all others the directed sums are bounds. -/

namespace FlowTube.Binary64

open Float.Model (UnpackedFloat Format)
open Float.Model.UnpackedFloat (Sign pack unpack)

variable {x y z : Float} {r s : ℝ}

/-! ### Infinities -/

theorem eq_of_unpack (h : x.toModel.unpack = y.toModel.unpack) : x = y :=
  Float.toBits_inj.1 (UInt64.toBitVec_inj.1
    ((UnpackedFloat.unpack_inj_of_valid x.toModel.valid y.toModel.valid).1 h))

/-- A number is finite or one of the two infinities. -/
theorem isFinite_or_eq_inf (h : x.isNaN = false) : x.isFinite = true ∨ x = inf ∨ x = negInf := by
  rcases isFinite_or_eq_infinity h with hx | ⟨s, hx⟩
  · exact Or.inl hx
  · cases s with
    | negative => exact Or.inr (Or.inr (eq_of_unpack hx))
    | positive => exact Or.inr (Or.inl (eq_of_unpack hx))

theorem isInf_of_isFinite (h : x.isFinite) : x.isInf = false := by
  change x.toModel.unpack.isInf = false
  change x.toModel.unpack.isFinite = true at h
  cases hu : x.toModel.unpack <;> rw [hu] at h <;> first | contradiction | rfl

/-- Against a finite number an infinity prevails. -/
theorem infinite_sum (h : x.isFinite) : (x + inf = inf ∧ inf + x = inf ∧ x - inf = negInf) ∧
    (x + negInf = negInf ∧ negInf + x = negInf ∧ x - negInf = inf) := by
  have key (t : Sign) : UnpackedFloat.add .binary64 x.toModel.unpack (.infinity t) = .infinity t ∧
      UnpackedFloat.add .binary64 (.infinity t) x.toModel.unpack = .infinity t ∧
      UnpackedFloat.sub .binary64 x.toModel.unpack (.infinity t) = .infinity (-t) := by
    change x.toModel.unpack.isFinite = true at h
    cases hu : x.toModel.unpack <;> rw [hu] at h <;> first | contradiction | exact ⟨rfl, rfl, rfl⟩
  have packed {u v : UnpackedFloat} (huv : u = v) :
      Float.ofModel (.pack u) = Float.ofModel (.pack v) := by rw [huv]
  exact ⟨⟨packed (key .positive).1, packed (key .positive).2.1, packed (key .positive).2.2⟩,
    packed (key .negative).1, packed (key .negative).2.1, packed (key .negative).2.2⟩

/-! ### Bounds that stay or move -/

/-- A bound is right if it has moved, or need not. -/
theorem movedDown_le_iff {p : Prop} [Decidable p] (h : Rounds r (real z)) (hz : z.isFinite) :
    value (if p then nextDown z else z) ≤ r ↔ p ∨ real z ≤ r := by
  by_cases hp : p
  · rw [if_pos hp]
    exact iff_of_true (h.nextDown_le hz) (Or.inl hp)
  · rw [if_neg hp, value_of_isFinite hz, EReal.coe_le_coe_iff, or_iff_right hp]

theorem le_movedUp_iff {p : Prop} [Decidable p] (h : Rounds r (real z)) (hz : z.isFinite) :
    r ≤ value (if p then nextUp z else z) ↔ p ∨ r ≤ real z := by
  by_cases hp : p
  · rw [if_pos hp]
    exact iff_of_true (h.le_nextUp hz) (Or.inl hp)
  · rw [if_neg hp, value_of_isFinite hz, EReal.coe_le_coe_iff, or_iff_right hp]

/-- A bound below the result of an operation on finite numbers, with `p` for the test of the
error: it is right unless the operation gave a number above the exact result and the test has
not seen it. -/
theorem directedDown_le_iff {p : Prop} [Decidable p] (hx : x.isFinite) (hy : y.isFinite)
    (h : RoundsTo r z) :
    value (if z.isNaN then negInf
      else if z.isInf then if x.isFinite && y.isFinite && z > 0.0 then maxFinite else z
      else if p then nextDown z else z) ≤ r ↔ (z.isFinite → p ∨ real z ≤ r) := by
  cases h with
  | finite hz h =>
    rw [isNaN_of_isFinite hz, isInf_of_isFinite hz, if_neg Bool.false_ne_true,
      if_neg Bool.false_ne_true, imp_iff_right hz]
    exact movedDown_le_iff h hz
  | above hz w h hw =>
    refine iff_of_true ?_ (fun hf => absurd hf (by rw [hz]; exact Bool.false_ne_true))
    rw [hz, hx, hy]
    change value maxFinite ≤ r
    rw [value_of_isFinite isFinite_maxFinite, EReal.coe_le_coe_iff]
    linarith [half_beyond_le h hw, topPlace_pos]
  | below hz w h hw =>
    refine iff_of_true ?_ (fun hf => absurd hf (by rw [hz]; exact Bool.false_ne_true))
    rw [hz, hx, hy]
    change value negInf ≤ r
    exact bot_le

theorem le_directedUp_iff {p : Prop} [Decidable p] (hx : x.isFinite) (hy : y.isFinite)
    (h : RoundsTo r z) :
    r ≤ value (if z.isNaN then inf
      else if z.isInf then if x.isFinite && y.isFinite && z < 0.0 then -maxFinite else z
      else if p then nextUp z else z) ↔ (z.isFinite → p ∨ r ≤ real z) := by
  cases h with
  | finite hz h =>
    rw [isNaN_of_isFinite hz, isInf_of_isFinite hz, if_neg Bool.false_ne_true,
      if_neg Bool.false_ne_true, imp_iff_right hz]
    exact le_movedUp_iff h hz
  | above hz w h hw =>
    refine iff_of_true ?_ (fun hf => absurd hf (by rw [hz]; exact Bool.false_ne_true))
    rw [hz, hx, hy]
    change r ≤ value inf
    exact le_top
  | below hz w h hw =>
    refine iff_of_true ?_ (fun hf => absurd hf (by rw [hz]; exact Bool.false_ne_true))
    rw [hz, hx, hy]
    change r ≤ value (-maxFinite)
    rw [value_neg, value_of_isFinite isFinite_maxFinite, ← EReal.coe_neg, EReal.coe_le_coe_iff]
    linarith [half_beyond_le h.neg (by linarith), topPlace_pos]

/-! ### Sums -/

/-- These are the sums that exceed their first summand by more than every number. -/
theorem sumLosesBelow_iff (hx : x.isFinite) (hy : y.isFinite) (hs : (x + y).isFinite) :
    SumLosesBelow x y ↔ real maxFinite + topPlace / 2 ≤ real (x + y) - real x := by
  have herr := abs_le.1 ((roundsTo_add hx hy).rounds hs).error_le_topPlace
  have hmax := abs_le.1 (abs_real_le_maxFinite y)
  constructor
  · rintro ⟨-, hy, hs⟩
    linarith
  · intro h
    exact ⟨⟨hx, hy, hs⟩, by linarith, by linarith⟩

theorem sumLosesAbove_iff (hx : x.isFinite) (hy : y.isFinite) (hs : (x + y).isFinite) :
    SumLosesAbove x y ↔ real (x + y) - real x ≤ -(real maxFinite + topPlace / 2) := by
  have herr := abs_le.1 ((roundsTo_add hx hy).rounds hs).error_le_topPlace
  have hmax := abs_le.1 (abs_real_le_maxFinite y)
  constructor
  · rintro ⟨-, hy, hs⟩
    linarith
  · intro h
    exact ⟨⟨hx, hy, hs⟩, by linarith, by linarith⟩

/-- What the sum leaves for its first summand differs from it by the error of the complement. -/
theorem abs_left_lt {s b : Float} (hsum : Rounds (real x + real y) (real s))
    (hsecond : Rounds (real s - real x) (real b)) :
    |real s - real b| < real maxFinite + topPlace / 2 := by
  have hmaxx := abs_real_le_maxFinite x
  have hmaxy := abs_real_le_maxFinite y
  rcases le_or_gt |real y| |real x| with hyx | hxy
  · rw [hsecond.eq (hsum.representable_sub (representable_real x) (representable_real y) hyx),
      sub_sub_cancel]
    linarith [topPlace_pos]
  · have hsplit : real s - real b = real x + (real s - real x - real b) := by ring
    rw [hsplit]
    linarith [abs_add_le (real x) (real s - real x - real b), hsecond.error_le_topPlace]

/-- Where the rounded sum less its first summand is finite, the error is exact. -/
theorem real_sumError (hx : x.isFinite) (hy : y.isFinite) (hs : (x + y).isFinite)
    (hb : ((x + y) - x).isFinite) : (sumError x y (x + y)).isFinite = true ∧
      real (sumError x y (x + y)) = real x + real y - real (x + y) := by
  have htop := topPlace_pos
  have hmax := real_maxFinite
  have finite {t : ℝ} {u : Float} (hu : RoundsTo t u) (ht : |t| ≤ 3 * topPlace) :
      u.isFinite = true := hu.isFinite_iff.2 (by linarith)
  have hsum := (roundsTo_add hx hy).rounds hs
  unfold sumError
  dsimp only
  generalize x + y = s at *
  have hsecond := (roundsTo_sub hs hx).rounds hb
  generalize s - x = b at *
  have esum := hsum.error_le_topPlace
  have esecond := hsecond.error_le_topPlace
  have ha := (roundsTo_sub hs hb).isFinite_iff.2 (abs_left_lt hsum hsecond)
  have hfirst := (roundsTo_sub hs hb).rounds ha
  generalize s - b = a at *
  have efirst := hfirst.error_le_topPlace
  -- both summands miss their shares by a place at most, so nothing overflows from here on
  rw [abs_le] at esum esecond efirst
  have hmissx : |real x - real a| ≤ topPlace := by
    rw [abs_le]
    constructor <;> linarith
  have hmissy : |real y - real b| ≤ topPlace := by
    rw [abs_le]
    constructor <;> linarith
  have hdx := finite (roundsTo_sub hx ha) (by linarith)
  have hdy := finite (roundsTo_sub hy hb) (by linarith)
  have hshortx := (roundsTo_sub hx ha).rounds hdx
  have hshorty := (roundsTo_sub hy hb).rounds hdy
  have ht : ((x - a) + (y - b)).isFinite = true := by
    refine finite (roundsTo_add hdx hdy) ?_
    have ex := abs_le.1 hshortx.error_le_topPlace
    have ey := abs_le.1 hshorty.error_le_topPlace
    rw [abs_le] at hmissx hmissy ⊢
    constructor <;> linarith
  have htwo : TwoSum (real x) (real y) (real s) (real b) (real a) (real (x - a)) (real (y - b))
      (real ((x - a) + (y - b))) :=
    ⟨hsum, hsecond, hfirst, hshortx, hshorty, (roundsTo_add hdx hdy).rounds ht⟩
  exact ⟨ht, htwo.eq (representable_real x) (representable_real y)⟩

/-- Where it is infinite, the error is not a number. -/
theorem isNaN_sumError {s : Float} (hx : x.isFinite) (hy : y.isFinite) (hs : s.isFinite)
    (hb : s - x = inf ∨ s - x = negInf) : (sumError x y s).isNaN = true := by
  unfold sumError
  dsimp only
  rcases hb with hb | hb
  · rw [hb, (infinite_sum hs).1.2.2, (infinite_sum hx).2.2.2, (infinite_sum hy).1.2.2]
    rfl
  · rw [hb, (infinite_sum hs).2.2.2, (infinite_sum hx).1.2.2, (infinite_sum hy).2.2.2]
    rfl

/-- The sign of the computed error is that of the exact one, unless a bound is lost. -/
theorem sumError_sign (hx : x.isFinite) (hy : y.isFinite) (hs : (x + y).isFinite) :
    (sumError x y (x + y) < 0.0 ↔ real x + real y < real (x + y) ∧ ¬SumLosesBelow x y) ∧
      (0.0 < sumError x y (x + y) ↔ real (x + y) < real x + real y ∧ ¬SumLosesAbove x y) := by
  have htop := topPlace_pos
  have hmax := abs_le.1 (abs_real_le_maxFinite y)
  have hround := roundsTo_sub hs hx
  rw [sumLosesBelow_iff hx hy hs, sumLosesAbove_iff hx hy hs]
  by_cases hb : ((x + y) - x).isFinite = true
  · obtain ⟨hfin, heq⟩ := real_sumError hx hy hs hb
    have hlt := abs_lt.1 (hround.isFinite_iff.1 hb)
    rw [lt_iff_real hfin rfl, lt_iff_real rfl hfin, real_zero, heq, sub_neg, sub_pos]
    exact ⟨(and_iff_left (not_le.2 hlt.2)).symm, (and_iff_left (not_le.2 hlt.1)).symm⟩
  -- the computed error is no number, and its sign is not seen
  · have hinf : (x + y) - x = inf ∨ (x + y) - x = negInf := by
      cases hround with
      | finite h => exact absurd h hb
      | above h => exact Or.inl h
      | below h => exact Or.inr h
    have hnan : ¬(sumError x y (x + y)).isNaN = false := by
      rw [isNaN_sumError hx hy hs hinf]
      exact Bool.noConfusion
    have hfar := le_abs.1 (not_lt.1 (mt hround.isFinite_iff.2 hb))
    refine ⟨iff_of_false (fun h => hnan (lt_iff.1 h).1) ?_,
      iff_of_false (fun h => hnan (lt_iff.1 h).2.1) ?_⟩
    · rintro ⟨h1, h2⟩
      rcases hfar with h | h <;> linarith
    · rintro ⟨h1, h2⟩
      rcases hfar with h | h <;> linarith

theorem addDown_le_iff (hx : x.isFinite) (hy : y.isFinite) :
    value (addDown x y) ≤ (real x + real y : ℝ) ↔ ¬SumLosesBelow x y := by
  rw [addDown, directedDown_le_iff hx hy (roundsTo_add hx hy)]
  by_cases hs : (x + y).isFinite = true
  · rw [imp_iff_right hs, (sumError_sign hx hy hs).1]
    by_cases hlost : SumLosesBelow x y
    · have : real x + real y < real (x + y) := by linarith [hlost.2.2, topPlace_pos]
      simp [hlost, this]
    · simp [hlost, lt_or_ge]
  · exact iff_of_true (fun h => absurd h hs) fun h => hs h.1.2.2

theorem le_addUp_iff (hx : x.isFinite) (hy : y.isFinite) :
    (real x + real y : ℝ) ≤ value (addUp x y) ↔ ¬SumLosesAbove x y := by
  rw [addUp, le_directedUp_iff hx hy (roundsTo_add hx hy)]
  by_cases hs : (x + y).isFinite = true
  · rw [imp_iff_right hs, gt_iff_lt, (sumError_sign hx hy hs).2]
    by_cases hlost : SumLosesAbove x y
    · have : real (x + y) < real x + real y := by linarith [hlost.2.2, topPlace_pos]
      simp [hlost, this]
    · simp [hlost, lt_or_ge]
  · exact iff_of_true (fun h => absurd h hs) fun h => hs h.1.2.2

theorem isNaN_addDown (x y : Float) : (addDown x y).isNaN = false := by
  unfold addDown
  dsimp only
  split_ifs with h1 h2 h3 h4
  · rfl
  · rfl
  · exact Bool.eq_false_iff.2 h1
  · exact isNaN_nextDown (isFinite_of_not_isNaN_isInf h1 h2)
  · exact Bool.eq_false_iff.2 h1

/-- A rounded sum of lower bounds is a lower bound of the sum. -/
theorem IsLower.add (hx : IsLower x r) (hy : IsLower y s) (h : ¬SumLosesBelow x y) :
    IsLower (addDown x y) (r + s) := by
  refine ⟨isNaN_addDown x y, ?_⟩
  have hbot : value negInf ≤ (r + s : ℝ) := bot_le
  rcases isFinite_or_eq_inf hx.1 with fx | rfl | rfl
  · rcases isFinite_or_eq_inf hy.1 with fy | rfl | rfl
    · rw [isLower_iff_of_isFinite fx] at hx
      rw [isLower_iff_of_isFinite fy] at hy
      exact ((addDown_le_iff fx fy).2 h).trans (EReal.coe_le_coe_iff.2 (add_le_add hx hy))
    · exact absurd hy.2 (not_le.2 (EReal.coe_lt_top s))
    · rw [addDown, (infinite_sum fx).2.1, fx]
      exact hbot
  · exact absurd hx.2 (not_le.2 (EReal.coe_lt_top r))
  · rcases isFinite_or_eq_inf hy.1 with fy | rfl | rfl
    · rw [addDown, (infinite_sum fy).2.2.1, fy]
      exact hbot
    · exact hbot
    · exact hbot

theorem IsUpper.add (hx : IsUpper x r) (hy : IsUpper y s) (h : ¬SumLosesAbove x y) :
    IsUpper (addUp x y) (r + s) := by
  refine ⟨isNaN_addUp x y, ?_⟩
  have htop : (r + s : ℝ) ≤ value inf := le_top
  rcases isFinite_or_eq_inf hx.1 with fx | rfl | rfl
  · rcases isFinite_or_eq_inf hy.1 with fy | rfl | rfl
    · rw [isUpper_iff_of_isFinite fx] at hx
      rw [isUpper_iff_of_isFinite fy] at hy
      exact (EReal.coe_le_coe_iff.2 (add_le_add hx hy)).trans ((le_addUp_iff fx fy).2 h)
    · rw [addUp, (infinite_sum fx).1.1, fx]
      exact htop
    · exact absurd hy.2 (not_le.2 (EReal.bot_lt_coe s))
  · rcases isFinite_or_eq_inf hy.1 with fy | rfl | rfl
    · rw [addUp, (infinite_sum fy).1.2.1, fy]
      exact htop
    · exact htop
    · exact htop
  · exact absurd hx.2 (not_le.2 (EReal.bot_lt_coe r))

end FlowTube.Binary64

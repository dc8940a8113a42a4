import FlowTube.Proofs.Binary64.DirectedProducts
import FlowTube.Proofs.Interval.OutwardSums

/-! Products, quotients and powers of intervals. A product of members lies between the least
and the greatest product of bounds, taken in the extended reals, where zero times infinity is
zero; a quotient is a product with the inverse, whose bounds are the inverses of the bounds in
the other order. So a result has all exact results if the directed operation at a least corner
and at a greatest corner is not lost. Powers multiply step by step, with no step lost; an odd
power of a negative bound is the negated power of its magnitude. -/

namespace FlowTube

namespace Binary64

variable {x y : Float} {r : ℝ}

/-! ### A least and a greatest bound -/

theorem IsLower.min_left (h : IsLower x r) : IsLower (Binary64.min x y) r :=
  .of_le (min_le_left h.1) h

theorem IsLower.min_right (h : IsLower y r) : IsLower (Binary64.min x y) r :=
  .of_le (min_le_right h.1) h

theorem IsUpper.max_left (h : IsUpper x r) : IsUpper (Binary64.max x y) r :=
  .of_le (le_max_left h.1) h

theorem IsUpper.max_right (h : IsUpper y r) : IsUpper (Binary64.max x y) r :=
  .of_le (le_max_right h.1) h

/-! ### Products of extended reals -/

/-- A product is not below both products with the ends of a factor. -/
theorem end_mul_le {p q u v : EReal} (hu : u ≤ p) (hv : p ≤ v) : u * q ≤ p * q ∨ v * q ≤ p * q := by
  rcases le_total 0 q with hq | hq
  · exact Or.inl (mul_le_mul_of_nonneg_right hu hq)
  · exact Or.inr (EReal.mul_le_mul_of_nonpos_right hv hq)

theorem le_end_mul {p q u v : EReal} (hu : u ≤ p) (hv : p ≤ v) : p * q ≤ u * q ∨ p * q ≤ v * q := by
  rcases le_total 0 q with hq | hq
  · exact Or.inr (mul_le_mul_of_nonneg_right hv hq)
  · exact Or.inl (EReal.mul_le_mul_of_nonpos_right hu hq)

/-- An inverse lies between the inverses of bounds of one sign. -/
theorem inv_le_inv_of_le {p q : EReal} (h : p ≤ q) (hsign : 0 < p ∨ q < 0) : q⁻¹ ≤ p⁻¹ := by
  rcases hsign with hp | hq
  · exact EReal.inv_strictAntiOn.antitoneOn hp (hp.trans_le h) h
  · have hneg := EReal.inv_strictAntiOn.antitoneOn (EReal.neg_pos.2 hq)
      (EReal.neg_pos.2 (h.trans_lt hq)) (EReal.neg_le_neg_iff.2 h)
    rwa [EReal.inv_neg, EReal.inv_neg, EReal.neg_le_neg_iff] at hneg

end Binary64

namespace Interval

open Binary64

variable {a b : Interval} {r s t : ℝ}

/-! ### Corners -/

/-- The pairs of bounds, one from each interval. -/
def corners (a b : Interval) : List (Float × Float) :=
  [(a.lb, b.lb), (a.lb, b.ub), (a.ub, b.lb), (a.ub, b.ub)]

theorem mem_corners {c : Float × Float} :
    c ∈ corners a b ↔ (c.1 = a.lb ∨ c.1 = a.ub) ∧ (c.2 = b.lb ∨ c.2 = b.ub) := by
  simp only [corners, List.mem_cons, List.not_mem_nil, or_false, Prod.ext_iff]
  tauto

/-- A product of extended reals between bounds is not below all corners, and not above. -/
theorem exists_corner {f : Float → EReal} {p q : EReal} (hp : value a.lb ≤ p)
    (hp' : p ≤ value a.ub) (hq : f b.lb ≤ q ∧ q ≤ f b.ub ∨ f b.ub ≤ q ∧ q ≤ f b.lb) :
    (∃ c ∈ corners a b, value c.1 * f c.2 ≤ p * q) ∧
      ∃ c ∈ corners a b, p * q ≤ value c.1 * f c.2 := by
  have second (x : Float) : (∃ y, (y = b.lb ∨ y = b.ub) ∧ value x * f y ≤ value x * q) ∧
      ∃ y, (y = b.lb ∨ y = b.ub) ∧ value x * q ≤ value x * f y := by
    simp only [mul_comm (value x)]
    rcases hq with ⟨hlo, hhi⟩ | ⟨hlo, hhi⟩
    · exact ⟨(end_mul_le hlo hhi).elim (⟨_, Or.inl rfl, ·⟩) (⟨_, Or.inr rfl, ·⟩),
        (le_end_mul hlo hhi).elim (⟨_, Or.inl rfl, ·⟩) (⟨_, Or.inr rfl, ·⟩)⟩
    · exact ⟨(end_mul_le hlo hhi).elim (⟨_, Or.inr rfl, ·⟩) (⟨_, Or.inl rfl, ·⟩),
        (le_end_mul hlo hhi).elim (⟨_, Or.inr rfl, ·⟩) (⟨_, Or.inl rfl, ·⟩)⟩
  constructor
  · rcases end_mul_le hp hp' (q := q) with h | h
    · obtain ⟨y, hy, hle⟩ := (second a.lb).1
      exact ⟨(a.lb, y), mem_corners.2 ⟨Or.inl rfl, hy⟩, hle.trans h⟩
    · obtain ⟨y, hy, hle⟩ := (second a.ub).1
      exact ⟨(a.ub, y), mem_corners.2 ⟨Or.inr rfl, hy⟩, hle.trans h⟩
  · rcases le_end_mul hp hp' (q := q) with h | h
    · obtain ⟨y, hy, hle⟩ := (second a.lb).2
      exact ⟨(a.lb, y), mem_corners.2 ⟨Or.inl rfl, hy⟩, h.trans hle⟩
    · obtain ⟨y, hy, hle⟩ := (second a.ub).2
      exact ⟨(a.ub, y), mem_corners.2 ⟨Or.inr rfl, hy⟩, h.trans hle⟩

/-- A bound at some corner bounds the whole. -/
theorem mem_overCorners {down up : Float → Float → Float}
    (hlow : ∃ c ∈ corners a b, IsLower (down c.1 c.2) t)
    (hupp : ∃ c ∈ corners a b, IsUpper (up c.1 c.2) t) : t ∈ overCorners down up a b := by
  refine mem_ofBounds.2 ⟨?_, ?_⟩
  · obtain ⟨c, hc, h⟩ := hlow
    simp only [corners, List.mem_cons, List.not_mem_nil, or_false] at hc
    rcases hc with rfl | rfl | rfl | rfl
    · exact h.min_right.min_left.min_left.min_left
    · exact h.min_right.min_left.min_left
    · exact h.min_right.min_left
    · exact h.min_right
  · obtain ⟨c, hc, h⟩ := hupp
    simp only [corners, List.mem_cons, List.not_mem_nil, or_false] at hc
    rcases hc with rfl | rfl | rfl | rfl
    · exact h.max_right.max_left.max_left.max_left
    · exact h.max_right.max_left.max_left
    · exact h.max_right.max_left
    · exact h.max_right

/-- Among the corners with the least exact result is one that is kept, and among those with the
greatest too. -/
def CornersKept (exact : Float → Float → EReal) (below above : Float → Float → Prop)
    (a b : Interval) : Prop :=
  (∃ c ∈ corners a b, ¬below c.1 c.2 ∧ ∀ d ∈ corners a b, exact c.1 c.2 ≤ exact d.1 d.2) ∧
    ∃ c ∈ corners a b, ¬above c.1 c.2 ∧ ∀ d ∈ corners a b, exact d.1 d.2 ≤ exact c.1 c.2

/-- Where no corner is lost, a least and a greatest one are kept. -/
theorem cornersKept_of_forall {exact : Float → Float → EReal} {below above : Float → Float → Prop}
    (h : ∀ c ∈ corners a b, ¬below c.1 c.2 ∧ ¬above c.1 c.2) :
    CornersKept exact below above a b := by
  have hne : corners a b ≠ [] := List.cons_ne_nil _ _
  constructor
  · cases hmin : (corners a b).argmin fun c => exact c.1 c.2 with
    | none => exact absurd (List.argmin_eq_none.1 hmin) hne
    | some c =>
      have hc := List.argmin_mem hmin
      exact ⟨c, hc, (h c hc).1, fun d hd => List.le_of_mem_argmin hd hmin⟩
  · cases hmax : (corners a b).argmax fun c => exact c.1 c.2 with
    | none => exact absurd (List.argmax_eq_none.1 hmax) hne
    | some c =>
      have hc := List.argmax_mem hmax
      exact ⟨c, hc, (h c hc).2, fun d hd => List.le_of_mem_argmax hd hmax⟩

theorem CornersKept.mem {exact : Float → Float → EReal} {below above : Float → Float → Prop}
    {down up : Float → Float → Float} (h : CornersKept exact below above a b)
    (hdown : ∀ c ∈ corners a b, ¬below c.1 c.2 →
      (down c.1 c.2).isNaN = false ∧ value (down c.1 c.2) ≤ exact c.1 c.2)
    (hup : ∀ c ∈ corners a b, ¬above c.1 c.2 →
      (up c.1 c.2).isNaN = false ∧ exact c.1 c.2 ≤ value (up c.1 c.2))
    (hlow : ∃ d ∈ corners a b, exact d.1 d.2 ≤ t) (hupp : ∃ d ∈ corners a b, t ≤ exact d.1 d.2) :
    t ∈ overCorners down up a b := by
  obtain ⟨⟨c, hc, hkept, hleast⟩, c', hc', hkept', hgreatest⟩ := h
  obtain ⟨d, hd, hle⟩ := hlow
  obtain ⟨d', hd', hge⟩ := hupp
  refine mem_overCorners ⟨c, hc, (hdown c hc hkept).1, ?_⟩ ⟨c', hc', (hup c' hc' hkept').1, ?_⟩
  · exact ((hdown c hc hkept).2.trans (hleast d hd)).trans hle
  · exact (hge.trans (hgreatest d' hd')).trans (hup c' hc' hkept').2

/-! ### Products -/

/-- No extreme corner product is lost. -/
def ProductsKept (a b : Interval) : Prop :=
  CornersKept (fun x y => value x * value y) ProductLosesBelow ProductLosesAbove a b

theorem mul_mem (hr : r ∈ a) (hs : s ∈ b) (h : ProductsKept a b) : r * s ∈ a * b := by
  have hnan {c : Float × Float} (hc : c ∈ corners a b) : c.1.isNaN = false ∧ c.2.isNaN = false := by
    obtain ⟨h1, h2⟩ := mem_corners.1 hc
    exact ⟨h1.elim (· ▸ hr.1.1) (· ▸ hr.2.1), h2.elim (· ▸ hs.1.1) (· ▸ hs.2.1)⟩
  have hcorner := exists_corner hr.1.2 hr.2.2 (f := value) (Or.inl ⟨hs.1.2, hs.2.2⟩)
  rw [← EReal.coe_mul] at hcorner
  change r * s ∈ mul a b
  rw [mul, isEmpty_of_mem hr, isEmpty_of_mem hs, if_neg (by decide)]
  refine h.mem (fun c hc hkept => ?_) (fun c hc hkept => ?_) hcorner.1 hcorner.2
  · exact ⟨isNaN_mulDown _ _, (mul_bounds_iff (hnan hc).1 (hnan hc).2).1.2 hkept⟩
  · exact ⟨isNaN_mulUp _ _, (mul_bounds_iff (hnan hc).1 (hnan hc).2).2.2 hkept⟩

/-! ### Magnitudes and squares -/

/-- The magnitudes of members are members of the magnitude, which does not reach below zero. -/
theorem abs_mem (hr : r ∈ a) : |r| ∈ a.abs ∧ 0 ≤ value a.abs.lb := by
  rw [abs, isEmpty_of_mem hr, if_neg Bool.false_ne_true]
  split_ifs with hlb hub
  · have h0 : 0 ≤ value a.lb := (le_iff.1 hlb).2.2
    rw [abs_of_nonneg (EReal.coe_nonneg.1 (h0.trans hr.1.2))]
    exact ⟨hr, h0⟩
  · have h0 : value a.ub ≤ 0 := (le_iff.1 hub).2.2
    rw [abs_of_nonpos (EReal.coe_nonpos.1 (hr.2.2.trans h0)), neg_mem_neg_iff (lb_le_ub hr),
      neg_eq (lb_le_ub hr), value_neg]
    exact ⟨hr, EReal.neg_nonneg.2 h0⟩
  · have hlow : IsLower 0.0 |r| := ⟨rfl, EReal.coe_nonneg.2 (abs_nonneg r)⟩
    have hupp : IsUpper (Binary64.max (-a.lb) a.ub) |r| := by
      rcases abs_choice r with h | h <;> rw [h]
      · exact hr.2.max_right
      · exact (isUpper_neg_iff.2 hr.1).max_left
    rw [ofBounds_eq hlow hupp]
    exact ⟨⟨hlow, hupp⟩, (show value 0.0 = 0 from rfl).ge⟩

/-- The squares of the bounds of the magnitude are not lost. -/
def SquareKept (a : Interval) : Prop :=
  ¬ProductLosesBelow a.abs.lb a.abs.lb ∧ ¬ProductLosesAbove a.abs.ub a.abs.ub

theorem sqr_mem (hr : r ∈ a) (h : SquareKept a) : r * r ∈ a.sqr := by
  obtain ⟨habs, h0⟩ := abs_mem hr
  have hpos : (0 : EReal) ≤ |r| := EReal.coe_nonneg.2 (abs_nonneg r)
  rw [sqr, isEmpty_of_mem hr, if_neg Bool.false_ne_true, mem_ofBounds, ← abs_mul_abs_self r]
  refine ⟨⟨isNaN_mulDown _ _, ?_⟩, isNaN_mulUp _ _, ?_⟩
  · calc value (mulDown a.abs.lb a.abs.lb) ≤ value a.abs.lb * value a.abs.lb :=
          (mul_bounds_iff habs.1.1 habs.1.1).1.2 h.1
      _ ≤ |r| * value a.abs.lb := mul_le_mul_of_nonneg_right habs.1.2 h0
      _ ≤ |r| * |r| := mul_le_mul_of_nonneg_left habs.1.2 hpos
      _ = (|r| * |r| : ℝ) := (EReal.coe_mul _ _).symm
  · calc ((|r| * |r| : ℝ) : EReal) = |r| * |r| := EReal.coe_mul _ _
      _ ≤ |r| * value a.abs.ub := mul_le_mul_of_nonneg_left habs.2.2 hpos
      _ ≤ value a.abs.ub * value a.abs.ub :=
          mul_le_mul_of_nonneg_right habs.2.2 (hpos.trans habs.2.2)
      _ ≤ value (mulUp a.abs.ub a.abs.ub) := (mul_bounds_iff habs.2.1 habs.2.1).2.2 h.2

/-! ### Powers -/

/-- No product on the way to an odd power is lost; a negative bound takes the power of its
magnitude, rounded the other way. -/
def OddPowerKeptBelow (x : Float) (n : ℕ) : Prop :=
  if x ≥ 0.0 then PowerKeptBelow x n else PowerKeptAbove (-x) n

def OddPowerKeptAbove (x : Float) (n : ℕ) : Prop :=
  if x ≥ 0.0 then PowerKeptAbove x n else PowerKeptBelow (-x) n

theorem zero_le_value_neg {x : Float} (hx : x.isNaN = false) (h : ¬x ≥ 0.0) : 0 ≤ value (-x) := by
  rw [value_neg, EReal.neg_nonneg]
  by_contra hpos
  exact h (le_iff.2 ⟨rfl, hx, (not_le.1 hpos).le⟩)

theorem isUpper_oddPow_of_nonneg {x : Float} {n : ℕ} (hx : IsUpper x r) (h0 : 0 ≤ value x)
    (hn : Odd n) (h : PowerKeptAbove x n) : IsUpper (powUp x n) (r ^ n) := by
  have hmax : IsUpper x (Max.max r 0) := by
    rcases max_choice r 0 with hm | hm <;> rw [hm]
    · exact hx
    · exact ⟨hx.1, h0⟩
  exact (hmax.pow (le_max_right _ _) h).mono (hn.strictMono_pow.monotone (le_max_left _ _))

theorem isLower_oddPow {x : Float} {n : ℕ} (hx : IsLower x r) (hn : Odd n)
    (h : OddPowerKeptBelow x n) : IsLower (oddPowDown x n) (r ^ n) := by
  unfold OddPowerKeptBelow at h
  unfold oddPowDown
  split_ifs at h ⊢ with h0
  · exact hx.pow (le_iff.1 h0).2.2 h
  · rw [← neg_neg (r ^ n), isLower_neg_iff, ← hn.neg_pow]
    exact isUpper_oddPow_of_nonneg (isUpper_neg_iff.2 hx) (zero_le_value_neg hx.1 h0) hn h

theorem isUpper_oddPow {x : Float} {n : ℕ} (hx : IsUpper x r) (hn : Odd n)
    (h : OddPowerKeptAbove x n) : IsUpper (oddPowUp x n) (r ^ n) := by
  unfold OddPowerKeptAbove at h
  unfold oddPowUp
  split_ifs at h ⊢ with h0
  · exact isUpper_oddPow_of_nonneg hx (le_iff.1 h0).2.2 hn h
  · rw [← neg_neg (r ^ n), isUpper_neg_iff, ← hn.neg_pow]
    exact (isLower_neg_iff.2 hx).pow (zero_le_value_neg hx.1 h0) h

/-- No product on the way to the powers of the bounds is lost. -/
def PowersKept (a : Interval) (n : ℕ) : Prop :=
  if n % 2 = 0 then PowerKeptBelow a.abs.lb n ∧ PowerKeptAbove a.abs.ub n
  else OddPowerKeptBelow a.lb n ∧ OddPowerKeptAbove a.ub n

theorem powNat_mem (hr : r ∈ a) {n : ℕ} (h : PowersKept a n) : r ^ n ∈ a.powNat n := by
  unfold PowersKept at h
  rw [powNat, isEmpty_of_mem hr, if_neg Bool.false_ne_true]
  by_cases hzero : n = 0
  · rw [if_pos hzero, hzero, pow_zero]
    exact mem_point_one.2 rfl
  rw [if_neg hzero]
  split_ifs at h ⊢ with heven
  · obtain ⟨habs, h0⟩ := abs_mem hr
    rw [← (Nat.even_iff.2 heven).pow_abs]
    exact mem_ofBounds.2 ⟨habs.1.pow h0 h.1, habs.2.pow (abs_nonneg r) h.2⟩
  · have hodd : Odd n := Nat.not_even_iff_odd.1 (mt Nat.even_iff.1 heven)
    exact mem_ofBounds.2 ⟨isLower_oddPow hr.1 hodd h.1, isUpper_oddPow hr.2 hodd h.2⟩

/-- Products, squares and powers of members are kept where no directed product that decides a
bound is lost. -/
theorem products_of_members_mem (hr : r ∈ a) (hs : s ∈ b) (n : ℕ) :
    (ProductsKept a b → r * s ∈ a * b) ∧ (SquareKept a → r * r ∈ a.sqr) ∧
      (PowersKept a n → r ^ n ∈ a.powInt n) :=
  ⟨mul_mem hr hs, sqr_mem hr, powNat_mem hr⟩

theorem not_productLoses_of_one_le {x y : Float} (hx : 1.0 ≤ x) (hy : 1.0 ≤ y)
    (fx : x.isFinite) (fy : y.isFinite) : ¬ProductLosesBelow x y ∧ ¬ProductLosesAbove x y := by
  have h1 : 1 ≤ real x := real_one ▸ (le_iff_real rfl fx).1 hx
  have h2 : 1 ≤ real y := real_one ▸ (le_iff_real rfl fy).1 hy
  have h : 1 ≤ real x * real y := one_le_mul_of_one_le_of_one_le h1 h2
  refine not_productLoses (le_trans ?_ (h.trans (le_abs_self _)))
  exact zpow_le_one_of_nonpos₀ one_le_two (by norm_num)

/-- Two times two, and its square and its cube. -/
theorem products_of_two : real 2.0 * real 2.0 ∈ point 2.0 * point 2.0 ∧
    real 2.0 * real 2.0 ∈ (point 2.0).sqr ∧ real 2.0 ^ 3 ∈ (point 2.0).powInt 3 := by
  have hmem : real 2.0 ∈ point 2.0 := mem_point rfl
  obtain ⟨hmul, hsqr, hpow⟩ := products_of_members_mem hmem hmem 3
  have hkept := not_productLoses_of_one_le (x := 2.0) (y := 2.0) (by decide) (by decide) rfl rfl
  refine ⟨hmul (cornersKept_of_forall fun c hc => ?_), hsqr hkept,
    hpow ⟨fun k hk => ?_, fun k hk => ?_⟩⟩
  · obtain ⟨h1, h2⟩ := mem_corners.1 hc
    have hfirst : c.1 = 2.0 := h1.elim id id
    have hsecond : c.2 = 2.0 := h2.elim id id
    rw [hfirst, hsecond]
    exact hkept
  · refine (not_productLoses_of_one_le ?_ (by decide) ?_ rfl).1 <;> interval_cases k <;> decide
  · refine (not_productLoses_of_one_le ?_ (by decide) ?_ rfl).2 <;> interval_cases k <;> decide

/-- A number whose square is not tiny, but has a residual below the least positive number. -/
def tinyRoot : Float := Float.ofBits 0x2000000000000001

theorem square_of_tinyRoot_lost : real tinyRoot ∈ point tinyRoot ∧
    real tinyRoot * real tinyRoot ∉ point tinyRoot * point tinyRoot ∧
      real tinyRoot * real tinyRoot ∉ (point tinyRoot).sqr ∧
        real tinyRoot ^ 2 ∉ (point tinyRoot).powInt 2 := by
  have hlt : real (Float.ofBits 0x0010000000000002) < real tinyRoot * real tinyRoot := by
    have hsquare : (2 : ℝ) ^ (-1074 : ℤ) = 2 ^ 52 * (2 ^ (-563 : ℤ) * 2 ^ (-563 : ℤ)) := by
      rw [← zpow_add₀ two_ne_zero, ← zpow_ofNat, ← zpow_add₀ two_ne_zero]
      norm_num
    change (((2 ^ 52 + 2 : ℕ) : ℤ) : ℝ) * 2 ^ (-1074 : ℤ) <
      (((2 ^ 52 + 1 : ℕ) : ℤ) : ℝ) * 2 ^ (-563 : ℤ) * ((((2 ^ 52 + 1 : ℕ) : ℤ) : ℝ) * 2 ^ (-563 : ℤ))
    rw [hsquare]
    have hpos : (0 : ℝ) < 2 ^ (-563 : ℤ) := by positivity
    generalize (2 : ℝ) ^ (-563 : ℤ) = place at hpos
    push_cast
    nlinarith
  have hnot {c : Interval} (hc : c.ub = Float.ofBits 0x0010000000000002) :
      real tinyRoot * real tinyRoot ∉ c := by
    intro h
    have hupp := h.2
    rw [hc, isUpper_iff_of_isFinite rfl] at hupp
    exact not_lt.2 hupp hlt
  refine ⟨mem_point rfl, hnot (by decide +kernel), hnot (by decide +kernel), ?_⟩
  rw [sq]
  exact hnot (by decide +kernel)

end Interval

end FlowTube

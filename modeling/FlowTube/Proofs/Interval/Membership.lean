import FlowTube.Enclosure
import FlowTube.Proofs.Binary64.Value

/-! The reals of an interval. A real belongs to an interval if its bounds are numbers below
and above it. Intersections, hulls and the parts of a split keep members, whatever the
rounding; a bound that is NaN never does harm, because it gives way to the other one. -/

namespace FlowTube

namespace Binary64

/-! ### Bounds of a real -/

/-- `x` is a number that does not exceed `r`. -/
def IsLower (x : Float) (r : ℝ) : Prop := x.isNaN = false ∧ value x ≤ r

/-- `x` is a number that `r` does not exceed. -/
def IsUpper (x : Float) (r : ℝ) : Prop := x.isNaN = false ∧ r ≤ value x

theorem value_inf : value inf = ⊤ := rfl

theorem value_negInf : value negInf = ⊥ := rfl

variable {x y : Float} {r s : ℝ}

theorem IsLower.of_le (h : x ≤ y) (hy : IsLower y r) : IsLower x r :=
  ⟨(le_iff.1 h).1, (le_iff.1 h).2.2.trans hy.2⟩

theorem IsUpper.of_le (h : x ≤ y) (hx : IsUpper x r) : IsUpper y r :=
  ⟨(le_iff.1 h).2.1, hx.2.trans (le_iff.1 h).2.2⟩

theorem IsLower.mono (h : IsLower x r) (hrs : r ≤ s) : IsLower x s :=
  ⟨h.1, h.2.trans (EReal.coe_le_coe_iff.2 hrs)⟩

theorem IsUpper.mono (h : IsUpper x r) (hsr : s ≤ r) : IsUpper x s :=
  ⟨h.1, (EReal.coe_le_coe_iff.2 hsr).trans h.2⟩

theorem isLower_iff_of_isFinite (h : x.isFinite) : IsLower x r ↔ real x ≤ r := by
  rw [IsLower, value_of_isFinite h, EReal.coe_le_coe_iff]
  exact and_iff_right (isNaN_of_isFinite h)

theorem isUpper_iff_of_isFinite (h : x.isFinite) : IsUpper x r ↔ r ≤ real x := by
  rw [IsUpper, value_of_isFinite h, EReal.coe_le_coe_iff]
  exact and_iff_right (isNaN_of_isFinite h)

/-- A number is a lower or an upper bound of every real. -/
theorem isLower_or_isUpper (h : x.isNaN = false) (r : ℝ) : IsLower x r ∨ IsUpper x r :=
  (le_total (value x) r).imp (⟨h, ·⟩) (⟨h, ·⟩)

theorem IsLower.le_isUpper (hx : IsLower x r) (hy : IsUpper y r) : x ≤ y :=
  le_iff.2 ⟨hx.1, hy.1, hx.2.trans hy.2⟩

theorem not_lt_of_le (h : x ≤ y) : ¬y < x := fun hlt =>
  ((le_iff.1 h).2.2.trans_lt (lt_iff.1 hlt).2.2).false

theorem le_of_lt (h : x < y) : x ≤ y := by
  obtain ⟨hx, hy, hlt⟩ := lt_iff.1 h
  exact le_iff.2 ⟨hx, hy, hlt.le⟩

theorem le_self (h : x.isNaN = false) : x ≤ x :=
  le_iff.2 ⟨h, h, le_rfl⟩

theorem le_of_not_lt (hx : x.isNaN = false) (hy : y.isNaN = false) (h : ¬x < y) : y ≤ x :=
  le_iff.2 ⟨hy, hx, not_lt.1 fun hlt => h (lt_iff.2 ⟨hx, hy, hlt⟩)⟩

/-! ### Minimum and maximum -/

theorem min_eq_or (x y : Float) : Binary64.min x y = x ∨ Binary64.min x y = y := by
  unfold Binary64.min
  split_ifs
  · exact Or.inr rfl
  · exact Or.inr rfl
  · exact Or.inl rfl

theorem max_eq_or (x y : Float) : Binary64.max x y = x ∨ Binary64.max x y = y := by
  unfold Binary64.max
  split_ifs
  · exact Or.inr rfl
  · exact Or.inr rfl
  · exact Or.inl rfl

theorem min_le_left (hx : x.isNaN = false) : Binary64.min x y ≤ x := by
  rw [Binary64.min, if_neg (Bool.eq_false_iff.1 hx)]
  split_ifs with h
  · exact le_of_lt h
  · exact le_self hx

theorem min_le_right (hy : y.isNaN = false) : Binary64.min x y ≤ y := by
  cases hx : x.isNaN with
  | true => rw [Binary64.min, if_pos hx]; exact le_self hy
  | false =>
    rw [Binary64.min, if_neg (Bool.eq_false_iff.1 hx)]
    split_ifs with h
    · exact le_self hy
    · exact le_of_not_lt hy hx h

theorem le_max_left (hx : x.isNaN = false) : x ≤ Binary64.max x y := by
  rw [Binary64.max, if_neg (Bool.eq_false_iff.1 hx)]
  split_ifs with h
  · exact le_of_lt h
  · exact le_self hx

theorem le_max_right (hy : y.isNaN = false) : y ≤ Binary64.max x y := by
  cases hx : x.isNaN with
  | true => rw [Binary64.max, if_pos hx]; exact le_self hy
  | false =>
    rw [Binary64.max, if_neg (Bool.eq_false_iff.1 hx)]
    split_ifs with h
    · exact le_self hy
    · exact le_of_not_lt hx hy h

theorem IsLower.max (hx : IsLower x r) (hy : IsLower y r) : IsLower (Binary64.max x y) r := by
  rcases max_eq_or x y with h | h <;> rw [h] <;> assumption

theorem IsUpper.min (hx : IsUpper x r) (hy : IsUpper y r) : IsUpper (Binary64.min x y) r := by
  rcases min_eq_or x y with h | h <;> rw [h] <;> assumption

end Binary64

namespace Interval

open Binary64

/-! ### Members -/

/-- The reals between the bounds. -/
instance : Membership ℝ Interval := ⟨fun a r => IsLower a.lb r ∧ IsUpper a.ub r⟩

variable {a b : Interval} {r s t : ℝ}

theorem eq_of_bounds (hlb : a.lb = b.lb) (hub : a.ub = b.ub) : a = b := by
  cases a
  cases b
  exact congrArg₂ _ hlb hub

theorem mem_iff_of_isFinite {lb ub : Float} (hl : lb.isFinite = true) (hu : ub.isFinite = true) :
    r ∈ (⟨lb, ub⟩ : Interval) ↔ real lb ≤ r ∧ r ≤ real ub :=
  and_congr (isLower_iff_of_isFinite hl) (isUpper_iff_of_isFinite hu)

theorem lb_le_ub (h : r ∈ a) : a.lb ≤ a.ub := h.1.le_isUpper h.2

theorem mem_of_between (hr : r ∈ a) (hs : s ∈ a) (hrt : r ≤ t) (hts : t ≤ s) : t ∈ a :=
  ⟨hr.1.mono hrt, hs.2.mono hts⟩

theorem isEmpty_of_mem (h : r ∈ a) : a.isEmpty = false :=
  decide_eq_false (not_lt_of_le (lb_le_ub h))

theorem not_mem_empty : r ∉ empty := fun h => not_le.2 (EReal.coe_lt_top r) h.1.2

theorem mem_whole : r ∈ whole := ⟨⟨rfl, bot_le⟩, rfl, le_top⟩

theorem mem_nonneg (h : 0 ≤ r) : r ∈ nonneg := ⟨⟨rfl, EReal.coe_nonneg.2 h⟩, rfl, le_top⟩

/-- The upper bound exceeds no real that all members stay below. -/
theorem value_ub_le (hr : r ∈ a) (h : ∀ p : ℝ, p ∈ a → p ≤ s) : value a.ub ≤ s := by
  by_contra hlt
  obtain ⟨t, hst, htub⟩ := EReal.lt_iff_exists_real_btwn.1 (not_le.1 hlt)
  rw [EReal.coe_lt_coe_iff] at hst
  exact hst.not_ge (h t ⟨hr.1.mono ((h r hr).trans hst.le), hr.2.1, htub.le⟩)

theorem le_value_lb (hr : r ∈ a) (h : ∀ p : ℝ, p ∈ a → s ≤ p) : s ≤ value a.lb := by
  by_contra hlt
  obtain ⟨t, hlbt, hts⟩ := EReal.lt_iff_exists_real_btwn.1 (not_le.1 hlt)
  rw [EReal.coe_lt_coe_iff] at hts
  exact hts.not_ge (h t ⟨⟨hr.1.1, hlbt.le⟩, hr.2.mono (hts.le.trans (h r hr))⟩)

/-- Bounds in order are kept, unless there is no real between them. -/
theorem ofBounds_of_le {lb ub : Float} (h : lb ≤ ub) (hlb : value lb < ⊤) (hub : ⊥ < value ub) :
    ofBounds lb ub = ⟨lb, ub⟩ := by
  have h1 : ¬ub < lb := not_lt_of_le h
  have h2 : (lb == inf) = false := by
    refine Bool.eq_false_iff.2 fun heq => ?_
    rw [(beq_iff.1 heq).2.2, value_inf] at hlb
    exact lt_irrefl _ hlb
  have h3 : (ub == negInf) = false := by
    refine Bool.eq_false_iff.2 fun heq => ?_
    rw [(beq_iff.1 heq).2.2, value_negInf] at hub
    exact lt_irrefl _ hub
  rw [ofBounds, (le_iff.1 h).1, (le_iff.1 h).2.1, decide_eq_false h1, h2, h3]
  rfl

theorem ofBounds_of_lt {lb ub : Float} (h : lb < ub) : ofBounds lb ub = ⟨lb, ub⟩ := by
  have hvalue := (lt_iff.1 h).2.2
  exact ofBounds_of_le (le_of_lt h) (hvalue.trans_le le_top) (bot_le.trans_lt hvalue)

theorem contains_iff {t : Float} : a.contains t = true ↔ a.lb ≤ t ∧ t ≤ a.ub := by
  simp [contains]

theorem contains_iff_value {lb ub t : Float} (hlb : lb.isNaN = false) (hub : ub.isNaN = false) :
    (⟨lb, ub⟩ : Interval).contains t = true ↔
      t.isNaN = false ∧ value lb ≤ value t ∧ value t ≤ value ub := by
  rw [contains_iff, le_iff, le_iff]
  constructor
  · rintro ⟨⟨-, ht, hlow⟩, -, -, hup⟩
    exact ⟨ht, hlow, hup⟩
  · rintro ⟨ht, hlow, hup⟩
    exact ⟨⟨hlb, ht, hlow⟩, ht, hub, hup⟩

/-- Bounds around a real are kept. -/
theorem ofBounds_eq {lb ub : Float} (hl : IsLower lb r) (hu : IsUpper ub r) :
    ofBounds lb ub = ⟨lb, ub⟩ :=
  ofBounds_of_le (hl.le_isUpper hu) (hl.2.trans_lt (EReal.coe_lt_top r))
    ((EReal.bot_lt_coe r).trans_le hu.2)

theorem mem_ofBounds {lb ub : Float} : r ∈ ofBounds lb ub ↔ IsLower lb r ∧ IsUpper ub r := by
  constructor
  · intro h
    unfold ofBounds at h
    split_ifs at h
    · exact absurd h not_mem_empty
    · exact h
  · rintro ⟨hl, hu⟩
    rw [ofBounds_eq hl hu]
    exact ⟨hl, hu⟩

theorem mem_point {x : Float} (h : x.isFinite) : real x ∈ point x :=
  mem_ofBounds.2 ⟨(isLower_iff_of_isFinite h).2 le_rfl, (isUpper_iff_of_isFinite h).2 le_rfl⟩

theorem mem_inter (ha : r ∈ a) (hb : r ∈ b) : r ∈ a ∩ b :=
  mem_ofBounds.2 ⟨ha.1.max hb.1, ha.2.min hb.2⟩

/-- Bounds that are numbers are not given up in an intersection. -/
theorem mem_of_mem_inter {c : Interval} (hb : b.isEmpty = false) (hbc : b.isSubset c = true)
    (h : r ∈ a ∩ b) : r ∈ b := by
  simp only [isSubset, hb, Bool.false_or, Bool.and_eq_true, decide_eq_true_eq] at hbc
  obtain ⟨hl, hu⟩ := mem_ofBounds.1 h
  exact ⟨.of_le (le_max_right (le_iff.1 hbc.1).2.1) hl, .of_le (min_le_right (le_iff.1 hbc.2).1) hu⟩

theorem isClosed_members (a : Interval) : IsClosed {r : ℝ | r ∈ a} := by
  have hlower : IsClosed {r : ℝ | IsLower a.lb r} :=
    isClosed_const.inter (isClosed_Ici.preimage continuous_coe_real_ereal)
  have hupper : IsClosed {r : ℝ | IsUpper a.ub r} :=
    isClosed_const.inter (isClosed_Iic.preimage continuous_coe_real_ereal)
  exact hlower.inter hupper

theorem mem_union_left (h : r ∈ a) : r ∈ a ∪ b := by
  change r ∈ hull a b
  rw [hull, if_neg (by simp [isEmpty_of_mem h])]
  split_ifs
  · exact h
  · exact ⟨h.1.of_le (min_le_left h.1.1), h.2.of_le (le_max_left h.2.1)⟩

theorem mem_union_right (h : r ∈ b) : r ∈ a ∪ b := by
  change r ∈ hull a b
  unfold hull
  split_ifs with ha hb
  · exact h
  · rw [isEmpty_of_mem h] at hb
    contradiction
  · exact ⟨h.1.of_le (min_le_right h.1.1), h.2.of_le (le_max_right h.2.1)⟩

theorem mem_of_isSubset (hab : a.isSubset b = true) (h : r ∈ a) : r ∈ b := by
  simp only [isSubset, isEmpty_of_mem h, Bool.false_or, Bool.and_eq_true, decide_eq_true_eq] at hab
  exact ⟨h.1.of_le hab.1, h.2.of_le hab.2⟩

/-- The members from zero on. -/
theorem mem_fromZero (h : r ∈ a) (hs : 0 ≤ s) (hsr : s ≤ r) : s ∈ ofBounds 0.0 a.ub :=
  mem_ofBounds.2 ⟨⟨rfl, EReal.coe_nonneg.2 hs⟩, h.2.mono hsr⟩

/-- The halves of a split have every member. -/
theorem mem_or_mem_of_bisect? {ratio : Float} {lo hi : Interval}
    (hsplit : a.bisect? ratio = some (lo, hi)) (h : r ∈ a) : r ∈ lo ∨ r ∈ hi := by
  rw [bisect?, if_neg (by simp [isEmpty_of_mem h])] at hsplit
  dsimp only at hsplit
  -- where the split lies does not matter, only that the test found it between the bounds
  generalize (if a.isUnbounded then a.mid else a.lb * (1.0 - ratio) + a.ub * ratio) = x at hsplit
  split_ifs at hsplit with hx
  simp only [Option.some.injEq, Prod.mk.injEq] at hsplit
  obtain ⟨rfl, rfl⟩ := hsplit
  simp only [Bool.and_eq_true, decide_eq_true_eq] at hx
  have hn : x.isNaN = false := (lt_iff.1 hx.1).2.1
  exact (isLower_or_isUpper hn r).symm.imp (⟨h.1, ·⟩) (⟨·, h.2⟩)

/-! ### Zero and one -/

/-- The interval from zero to one. -/
def unit : Interval := ⟨0.0, 1.0⟩

theorem mem_unit : r ∈ unit ↔ 0 ≤ r ∧ r ≤ 1 := by
  rw [unit, mem_iff_of_isFinite rfl rfl, real_zero, real_one]

theorem mem_point_zero : r ∈ point 0.0 ↔ r = 0 := by
  rw [show point 0.0 = ⟨0.0, 0.0⟩ from rfl, mem_iff_of_isFinite rfl rfl, real_zero,
    le_antisymm_iff, and_comm]

theorem zero_mem_zero : (0 : ℝ) ∈ zero := mem_point_zero.2 rfl

theorem zero_mem_unit : (0 : ℝ) ∈ unit := mem_unit.2 ⟨le_rfl, zero_le_one⟩

theorem mem_point_one : r ∈ point 1.0 ↔ r = 1 := by
  rw [show point 1.0 = ⟨1.0, 1.0⟩ from rfl, mem_iff_of_isFinite rfl rfl, real_one,
    le_antisymm_iff, and_comm]

end Interval

end FlowTube

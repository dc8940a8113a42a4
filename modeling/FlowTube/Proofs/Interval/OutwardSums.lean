import FlowTube.Proofs.Binary64.DirectedSums

/-! Sums and differences of intervals. The bounds of a sum are directed sums of the bounds, so
the sum has all sums of members exactly when neither bound is lost. A lost bound takes a second
operand that ends at the largest or the least number; a difference is the sum with the negated
interval, and loses its bounds there. -/

namespace FlowTube

namespace Binary64

variable {x : Float} {r : ℝ}

theorem isLower_neg_iff : IsLower (-x) (-r) ↔ IsUpper x r := by
  rw [IsLower, IsUpper, isNaN_neg_eq, value_neg, EReal.coe_neg, EReal.neg_le_neg_iff]

theorem isUpper_neg_iff : IsUpper (-x) (-r) ↔ IsLower x r := by
  rw [IsLower, IsUpper, isNaN_neg_eq, value_neg, EReal.coe_neg, EReal.neg_le_neg_iff]

theorem neg_le_neg_of_le {y : Float} (h : x ≤ y) : -y ≤ -x := by
  rw [le_iff, isNaN_neg_eq, isNaN_neg_eq, value_neg, value_neg, EReal.neg_le_neg_iff]
  exact ⟨(le_iff.1 h).2.1, (le_iff.1 h).1, (le_iff.1 h).2.2⟩

end Binary64

namespace Interval

open Binary64

variable {a b : Interval} {r s : ℝ}

/-! ### Bounds as members -/

theorem isEmpty_of_le (h : a.lb ≤ a.ub) : a.isEmpty = false :=
  decide_eq_false (not_lt_of_le h)

theorem lb_mem (h : a.lb ≤ a.ub) (hf : a.lb.isFinite) : real a.lb ∈ a := by
  refine ⟨(isLower_iff_of_isFinite hf).2 le_rfl, (le_iff.1 h).2.1, ?_⟩
  rw [← value_of_isFinite hf]
  exact (le_iff.1 h).2.2

theorem ub_mem (h : a.lb ≤ a.ub) (hf : a.ub.isFinite) : real a.ub ∈ a := by
  refine ⟨⟨(le_iff.1 h).1, ?_⟩, (isUpper_iff_of_isFinite hf).2 le_rfl⟩
  rw [← value_of_isFinite hf]
  exact (le_iff.1 h).2.2

/-! ### Sums -/

theorem mem_add (ha : a.lb ≤ a.ub) (hb : b.lb ≤ b.ub) :
    r ∈ a + b ↔ IsLower (addDown a.lb b.lb) r ∧ IsUpper (addUp a.ub b.ub) r := by
  change r ∈ add a b ↔ _
  rw [add, isEmpty_of_le ha, isEmpty_of_le hb, if_neg (by decide), mem_ofBounds]

/-- Whether a sum has all sums of members is decided by its two bounds. -/
theorem forall_add_mem_iff (ha : a.lb ≤ a.ub) (hb : b.lb ≤ b.ub) :
    (∀ r : ℝ, r ∈ a → ∀ s : ℝ, s ∈ b → r + s ∈ a + b) ↔
      ¬SumLosesBelow a.lb b.lb ∧ ¬SumLosesAbove a.ub b.ub := by
  constructor
  · intro h
    constructor
    · intro hlost
      obtain ⟨fa, fb, -⟩ := hlost.1
      have hmem := (mem_add ha hb).1 (h _ (lb_mem ha fa) _ (lb_mem hb fb))
      exact (addDown_le_iff fa fb).1 hmem.1.2 hlost
    · intro hlost
      obtain ⟨fa, fb, -⟩ := hlost.1
      have hmem := (mem_add ha hb).1 (h _ (ub_mem ha fa) _ (ub_mem hb fb))
      exact (le_addUp_iff fa fb).1 hmem.2.2 hlost
  · rintro ⟨hlow, hupp⟩ r hr s hs
    exact (mem_add ha hb).2 ⟨hr.1.add hs.1 hlow, hr.2.add hs.2 hupp⟩

/-! ### Negation -/

theorem neg_eq (h : b.lb ≤ b.ub) : neg b = ⟨-b.ub, -b.lb⟩ := by
  rw [neg, isEmpty_of_le h, if_neg Bool.false_ne_true]

theorem neg_mem_neg_iff (h : b.lb ≤ b.ub) : -s ∈ neg b ↔ s ∈ b := by
  rw [neg_eq h]
  exact (and_congr isLower_neg_iff isUpper_neg_iff).trans and_comm

/-! ### Sums and differences -/

/-- The sum and the difference of two non-empty intervals have all sums and differences of
members exactly if none of their bounds is lost. -/
theorem sums_of_members_iff_not_lost (ha : a.lb ≤ a.ub) (hb : b.lb ≤ b.ub) :
    ((∀ r : ℝ, r ∈ a → ∀ s : ℝ, s ∈ b → r + s ∈ a + b) ↔
      ¬SumLosesBelow a.lb b.lb ∧ ¬SumLosesAbove a.ub b.ub) ∧
    ((∀ r : ℝ, r ∈ a → ∀ s : ℝ, s ∈ b → r - s ∈ a - b) ↔
      ¬SumLosesBelow a.lb (-b.ub) ∧ ¬SumLosesAbove a.ub (-b.lb)) := by
  refine ⟨forall_add_mem_iff ha hb, ?_⟩
  have hneg : (neg b).lb ≤ (neg b).ub := by
    rw [neg_eq hb]
    exact neg_le_neg_of_le hb
  have hsub : (∀ r : ℝ, r ∈ a → ∀ s : ℝ, s ∈ b → r - s ∈ a - b) ↔
      ∀ r : ℝ, r ∈ a → ∀ s : ℝ, s ∈ neg b → r + s ∈ a + neg b := by
    constructor
    · intro h r hr s hs
      rw [← neg_neg s] at hs ⊢
      exact h r hr (-s) ((neg_mem_neg_iff hb).1 hs)
    · intro h r hr s hs
      rw [sub_eq_add_neg]
      exact h r hr (-s) ((neg_mem_neg_iff hb).2 hs)
  rw [hsub, forall_add_mem_iff ha hneg, neg_eq hb]

/-- All sums and differences of reals from zero to one are kept. -/
theorem sums_of_members_unit : (∀ r : ℝ, r ∈ unit → ∀ s : ℝ, s ∈ unit → r + s ∈ unit + unit) ∧
    ∀ r : ℝ, r ∈ unit → ∀ s : ℝ, s ∈ unit → r - s ∈ unit - unit := by
  have hmax : 0 < real maxFinite := by
    rw [real_maxFinite]
    linarith [topPlace_pos]
  obtain ⟨hadd, hsub⟩ := sums_of_members_iff_not_lost (a := unit) (b := unit) (by decide) (by decide)
  have hzero : real unit.lb = 0 := real_zero
  have hone : real unit.ub = 1 := real_one
  refine ⟨hadd.2 ⟨fun h => ?_, fun h => ?_⟩, hsub.2 ⟨fun h => ?_, fun h => ?_⟩⟩
  · linarith [h.2.1]
  · linarith [h.2.1]
  · have := h.2.1
    rw [real_neg] at this
    linarith
  · have := h.2.1
    rw [real_neg] at this
    linarith

/-- Minus three halves of the greatest place. -/
def minusThreeHalves : Float := Float.ofBits 0xfca8000000000000

/-- The sum with the largest number is rounded up, and its lower bound does not move. -/
theorem sum_with_maxFinite_lost : real minusThreeHalves ∈ point minusThreeHalves ∧
    real maxFinite ∈ point maxFinite ∧
      real minusThreeHalves + real maxFinite ∉ point minusThreeHalves + point maxFinite := by
  refine ⟨mem_point rfl, mem_point rfl, fun h => ?_⟩
  have hlow := ((mem_add (by decide) (by decide)).1 h).1.2
  have hsum : addDown minusThreeHalves maxFinite = Float.ofBits 0x7feffffffffffffe := by
    decide +kernel
  have hreal : real (Float.ofBits 0x7feffffffffffffe) = (2 ^ 53 - 2) * topPlace := by
    change (((2 ^ 53 - 2 : ℕ) : ℤ) : ℝ) * 2 ^ (971 : ℤ) = _
    rw [topPlace]
    norm_num
  have hx : real minusThreeHalves = -(3 / 2 * topPlace) := by
    have htop : topPlace = 2 ^ 52 * 2 ^ (919 : ℤ) := by
      rw [topPlace, show (971 : ℤ) = 52 + 919 by norm_num, zpow_add₀ two_ne_zero, zpow_ofNat]
    change ((-(3 * 2 ^ 51 : ℕ) : ℤ) : ℝ) * 2 ^ (919 : ℤ) = _
    rw [htop]
    generalize (2 : ℝ) ^ (919 : ℤ) = place
    push_cast
    ring
  change value (addDown minusThreeHalves maxFinite) ≤ _ at hlow
  rw [hsum, value_of_isFinite rfl, EReal.coe_le_coe_iff, hreal, hx, real_maxFinite] at hlow
  linarith [topPlace_pos]

end Interval

end FlowTube

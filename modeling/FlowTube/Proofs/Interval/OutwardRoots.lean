import FlowTube.Proofs.Binary64.Roots
import FlowTube.Proofs.Interval.OutwardProducts
import FlowTube.Proofs.Interval.Inclusion

/-! Roots of intervals and the backward projection of squares. The root of an interval has the
roots of all its members from zero on exactly if neither directed root of the bounds of that
part is lost. The projection cuts with the root and with its negation, so it keeps all members
of either sign that have their square in the given interval as long as the root does, and it
adds none. Roots of tiny numbers are lost: the residual of the rounded root goes unseen. -/

namespace FlowTube.Interval

open Binary64

variable {a b : Interval} {r : ℝ}

/-- No directed root that gives a bound is lost. -/
def RootsKept (b : Interval) : Prop :=
  ¬RootLosesBelow (b ∩ nonneg).lb ∧ ¬RootLosesAbove (b ∩ nonneg).ub

/-- The part from zero on is empty, or its bounds are numbers from zero on. -/
theorem nonneg_part (b : Interval) : b ∩ nonneg = empty ∨
    0 ≤ value (b ∩ nonneg).lb ∧ (b ∩ nonneg).lb ≤ (b ∩ nonneg).ub := by
  refine (inter_cases b nonneg).imp_right ?_
  rintro ⟨hle, heq⟩
  rw [heq]
  have h0 : 0.0 ≤ Binary64.max b.lb 0.0 := le_max_right rfl
  exact ⟨(le_iff.1 h0).2.2, hle⟩

theorem mem_sqrt (hr : 0 ≤ r) (hmem : r * r ∈ b) (h : RootsKept b) : r ∈ b.sqrt := by
  have hpart := mem_inter hmem (mem_nonneg (mul_nonneg hr hr))
  rw [sqrt, isEmpty_of_mem hpart, if_neg Bool.false_ne_true, mem_ofBounds]
  rcases nonneg_part b with hempty | ⟨h0, hle⟩
  · rw [hempty] at hpart
    exact absurd hpart not_mem_empty
  · exact ⟨hpart.1.sqrt hr h0 h.1, hpart.2.sqrt (h0.trans (le_iff.1 hle).2.2) h.2⟩

/-- The roots of all members are kept exactly if the directed roots of the bounds are. -/
theorem forall_mem_sqrt_iff (hb : b.Numeric) :
    (∀ r : ℝ, 0 ≤ r → r * r ∈ b → r ∈ b.sqrt) ↔ RootsKept b := by
  refine ⟨fun h => ?_, fun h r hr hmem => mem_sqrt hr hmem h⟩
  unfold RootsKept
  rcases nonneg_part b with hempty | ⟨h0, hle⟩
  · rw [hempty]
    exact ⟨fun hlost => Bool.false_ne_true hlost.1.1, fun hlost => Bool.false_ne_true hlost.1.1⟩
  have hkept {x : Float} (fx : x.isFinite) (hx0 : 0 ≤ real x) (hx : real x ∈ b ∩ nonneg) :
      √(real x) ∈ ofBounds (sqrtDown (b ∩ nonneg).lb) (sqrtUp (b ∩ nonneg).ub) := by
    have hsq := mem_of_isSubset (inter_isSubset_of_left hb.isSubset_self) hx
    have hroot := h _ (Real.sqrt_nonneg _) (by rwa [Real.mul_self_sqrt hx0])
    rwa [sqrt, isEmpty_of_mem hx, if_neg Bool.false_ne_true] at hroot
  constructor
  · intro hlost
    have hx0 : 0 ≤ real (b ∩ nonneg).lb := by
      rwa [value_of_isFinite hlost.1.1, EReal.coe_nonneg] at h0
    have hroot := mem_ofBounds.1 (hkept hlost.1.1 hx0 (lb_mem hle hlost.1.1))
    exact (sqrtDown_le_iff hlost.1.1 hx0).1 hroot.1.2 hlost
  · intro hlost
    have h0 := h0.trans (le_iff.1 hle).2.2
    have hx0 : 0 ≤ real (b ∩ nonneg).ub := by
      rwa [value_of_isFinite hlost.1.1, EReal.coe_nonneg] at h0
    have hroot := mem_ofBounds.1 (hkept hlost.1.1 hx0 (ub_mem hle hlost.1.1))
    exact (le_sqrtUp_iff hlost.1.1 hx0).1 hroot.2.2 hlost

theorem mem_inverseSqr (hr : r ∈ a) (hmem : r * r ∈ b) (h : RootsKept b) : r ∈ a.inverseSqr b := by
  unfold inverseSqr
  rcases le_total 0 r with hpos | hneg
  · have hroot := mem_sqrt hpos hmem h
    rw [isEmpty_of_mem hroot, if_neg Bool.false_ne_true]
    exact mem_union_left (mem_inter hr hroot)
  · have hroot := mem_sqrt (neg_nonneg.2 hneg) (by rwa [neg_mul_neg]) h
    rw [isEmpty_of_mem hroot, if_neg Bool.false_ne_true]
    refine mem_union_right (mem_inter hr ?_)
    rw [← neg_neg r]
    exact (neg_mem_neg_iff (lb_le_ub hroot)).2 hroot

/-- A backward projection leaves nothing that was not there. -/
theorem inverseSqr_isSubset (ha : a.Numeric) : (a.inverseSqr b).isSubset a = true := by
  unfold inverseSqr
  split_ifs
  · rfl
  · exact union_isSubset (inter_isSubset_of_left ha.isSubset_self)
      (inter_isSubset_of_left ha.isSubset_self)

/-- An interval of squares has all roots exactly if no directed root of its bounds is lost, and
then the backward projection loses no member either; it never adds one. -/
theorem roots_of_squares_mem (hb : b.Numeric) :
    ((∀ r : ℝ, 0 ≤ r → r * r ∈ b → r ∈ b.sqrt) ↔ RootsKept b) ∧
      (RootsKept b → ∀ (a : Interval) (r : ℝ), r ∈ a → r * r ∈ b → r ∈ a.inverseSqr b) ∧
        ∀ a : Interval, a.Numeric → (a.inverseSqr b).isSubset a = true :=
  ⟨forall_mem_sqrt_iff hb, fun h _ _ hr hmem => mem_inverseSqr hr hmem h,
    fun _ ha => inverseSqr_isSubset ha⟩

/-- The roots of the reals from zero to one. -/
theorem roots_of_unit_mem : (∀ r : ℝ, 0 ≤ r → r * r ∈ unit → r ∈ unit.sqrt) ∧
    ∀ r : ℝ, r ∈ whole → r * r ∈ unit → r ∈ whole.inverseSqr unit := by
  obtain ⟨hsqrt, hinverse, -⟩ := roots_of_squares_mem (b := unit) ⟨rfl, rfl⟩
  have hkept : RootsKept unit := by
    have hpart : (unit ∩ nonneg).lb = 0.0 ∧ (unit ∩ nonneg).ub = 1.0 := by decide
    unfold RootsKept
    rw [hpart.1, hpart.2]
    have hone : (2 : ℝ) ^ (-969 : ℤ) ≤ real 1.0 := by
      rw [real_one]
      exact zpow_le_one_of_nonpos₀ one_le_two (by norm_num)
    exact ⟨(not_rootLoses (Or.inl real_zero)).1, (not_rootLoses (Or.inr hone)).2⟩
  exact ⟨hsqrt.2 hkept, hinverse hkept whole⟩

/-- A number of which the rounded root is too great by an amount whose square goes unseen. -/
def twoLeast : Float := Float.ofBits 2

/-- The root of a tiny number is lost. -/
theorem root_of_twoLeast_lost : 0 ≤ √(real twoLeast) ∧
    √(real twoLeast) * √(real twoLeast) ∈ point twoLeast ∧ √(real twoLeast) ∉ (point twoLeast).sqrt ∧
      √(real twoLeast) ∈ nonneg ∧ √(real twoLeast) ∉ nonneg.inverseSqr (point twoLeast) := by
  have hx : real twoLeast = 2 ^ 105 * (2 ^ (-589 : ℤ) * 2 ^ (-589 : ℤ)) := by
    have hpow : (2 : ℝ) ^ (-1074 : ℤ) = 2 ^ 104 * (2 ^ (-589 : ℤ) * 2 ^ (-589 : ℤ)) := by
      rw [← zpow_add₀ two_ne_zero, ← zpow_ofNat, ← zpow_add₀ two_ne_zero]
      norm_num
    change (((2 : ℕ) : ℤ) : ℝ) * 2 ^ (-1074 : ℤ) = _
    rw [hpow]
    push_cast
    ring
  have hs : real (Float.ofBits 0x1e66a09e667f3bcd) = 0x16a09e667f3bcd * 2 ^ (-589 : ℤ) := by
    change (((0x16a09e667f3bcd : ℕ) : ℤ) : ℝ) * 2 ^ (-589 : ℤ) = _
    norm_num
  have hlt : √(real twoLeast) < real (Float.ofBits 0x1e66a09e667f3bcd) := by
    have hpos : (0 : ℝ) < 2 ^ (-589 : ℤ) := by positivity
    rw [Real.sqrt_lt' (by rw [hs]; positivity), hx, hs]
    generalize (2 : ℝ) ^ (-589 : ℤ) = place at hpos
    nlinarith
  have hnot {c : Interval} (hc : c.lb = Float.ofBits 0x1e66a09e667f3bcd) :
      √(real twoLeast) ∉ c := by
    intro h
    have hlow := h.1
    rw [hc, isLower_iff_of_isFinite rfl] at hlow
    exact not_lt.2 hlow hlt
  have h0 : 0 ≤ real twoLeast := by rw [hx]; positivity
  refine ⟨Real.sqrt_nonneg _, ?_, hnot (by decide +kernel), ⟨⟨rfl, ?_⟩, rfl, le_top⟩,
    hnot (by decide +kernel)⟩
  · rw [Real.mul_self_sqrt h0]
    exact mem_point rfl
  · exact EReal.coe_nonneg.2 (Real.sqrt_nonneg _)

end FlowTube.Interval

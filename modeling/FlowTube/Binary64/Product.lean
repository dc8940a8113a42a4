import FlowTube.Binary64.Basic

/-! The side of an exact product from a number, as one fused multiplication and
subtraction shows it. The difference is exact but for its last step: a magnitude of at
most half the least positive number rounds to zero. Where the two have one sign and
their exponents are apart as those of a product and its rounding, significands decide,
and products of significands are compared by their halves; `productSide_eq` says that
this is the rounded difference of the exact values. -/

namespace FlowTube.Binary64

/-! ### Products of significands -/

/-- The side of `a * b` from `d * 2 ^ 52`. Both factors are cut into halves of 26 bits,
so that all intermediate numbers stay within a word. -/
def compareProduct (a b d : Nat) : Ordering :=
  let a1 := a / 0x4000000
  let a0 := a % 0x4000000
  let b1 := b / 0x4000000
  let b0 := b % 0x4000000
  let low := a0 * b0
  let middle := a1 * b0 + a0 * b1 + low / 0x4000000
  let high := a1 * b1 + middle / 0x4000000
  if high < d then .lt
  else if d < high then .gt
  else if middle % 0x4000000 == 0 && low % 0x4000000 == 0 then .eq
  else .gt

theorem mul_halves (a b : Nat) :
    a * b = a / 0x4000000 * (b / 0x4000000) * 0x10000000000000 +
      (a / 0x4000000 * (b % 0x4000000) + a % 0x4000000 * (b / 0x4000000)) * 0x4000000 +
      a % 0x4000000 * (b % 0x4000000) := by
  have ha := Nat.div_add_mod a 0x4000000
  have hb := Nat.div_add_mod b 0x4000000
  generalize a / 0x4000000 = a1 at *
  generalize a % 0x4000000 = a0 at *
  generalize b / 0x4000000 = b1 at *
  generalize b % 0x4000000 = b0 at *
  subst ha hb
  grind

theorem compareProduct_eq (a b d : Nat) :
    compareProduct a b d = compare (a * b) (d * 0x10000000000000) := by
  have h := mul_halves a b
  generalize a * b = p at *
  simp only [compareProduct]
  generalize a / 0x4000000 * (b / 0x4000000) = x at *
  generalize a / 0x4000000 * (b % 0x4000000) = y at *
  generalize a % 0x4000000 * (b / 0x4000000) = z at *
  generalize a % 0x4000000 * (b % 0x4000000) = w at *
  split
  · exact (Nat.compare_eq_lt.2 (by omega)).symm
  split
  · exact (Nat.compare_eq_gt.2 (by omega)).symm
  split
  · rename_i h0
    simp only [Bool.and_eq_true, beq_iff_eq] at h0
    have he : p = d * 0x10000000000000 := Nat.le_antisymm (by omega) (by omega)
    rw [he, Nat.compare_eq_eq.2 rfl]
  · rename_i h0
    simp only [Bool.and_eq_true, beq_iff_eq] at h0
    exact (Nat.compare_eq_gt.2 (by omega)).symm

/-- `n * 2 ^ k`. The exponents at hand are small, and doubling stays within a word. -/
def doubled (n : Nat) : Nat → Nat
  | 0 => n
  | k + 1 => doubled (n + n) k

theorem doubled_eq (n k : Nat) : doubled n k = n * Nat.pow 2 k := by
  induction k generalizing n with
  | zero => simp [doubled]
  | succ k ih =>
    rw [doubled, ih, Nat.pow_eq, Nat.pow_eq, Nat.pow_succ]
    grind

/-! ### Sides -/

/-- The side of `a * b` from `c`, for values in units: the sign of the difference rounded
once. -/
def unitsSide (a b c : Int) : Ordering :=
  let v := a * b - c * unitsPerOne
  if 2 * v.natAbs ≤ unitsPerOne then .eq else compare v 0

/-- The side of `a * b` from `c`, for finite numbers: the sign of the difference rounded
once. -/
def productSide (a b c : Float) : Ordering :=
  let e := exponent a + exponent b
  let f := exponent c + 1023
  if (isNegative a != isNegative b) == isNegative c && 1075 < e && e ≤ f then
    let side := compareProduct (significand a) (significand b) (doubled (significand c) (f - e))
    if isNegative c then side.swap else side
  else unitsSide (units a) (units b) (units c)

theorem compare_sub_zero (m n : Nat) : compare ((m : Int) - n) 0 = compare m n := by
  rcases Nat.lt_trichotomy m n with h | h | h
  · rw [Nat.compare_eq_lt.2 h, Int.compare_eq_lt.2 (by omega)]
  · rw [Nat.compare_eq_eq.2 h, Int.compare_eq_eq.2 (by omega)]
  · rw [Nat.compare_eq_gt.2 h, Int.compare_eq_gt.2 (by omega)]

theorem swap_compare (m n : Nat) : (compare m n).swap = compare n m := by
  rcases Nat.lt_trichotomy m n with h | h | h
  · rw [Nat.compare_eq_lt.2 h, Nat.compare_eq_gt.2 h]; rfl
  · rw [Nat.compare_eq_eq.2 h, Nat.compare_eq_eq.2 h.symm]; rfl
  · rw [Nat.compare_eq_gt.2 h, Nat.compare_eq_lt.2 h]; rfl

theorem compare_mul_right {k : Nat} (hk : 0 < k) (m n : Nat) :
    compare (m * k) (n * k) = compare m n := by
  rcases Nat.lt_trichotomy m n with h | h | h
  · rw [Nat.compare_eq_lt.2 h, Nat.compare_eq_lt.2 (Nat.mul_lt_mul_of_pos_right h hk)]
  · rw [Nat.compare_eq_eq.2 h, Nat.compare_eq_eq.2 (by rw [h])]
  · rw [Nat.compare_eq_gt.2 h, Nat.compare_eq_gt.2 (Nat.mul_lt_mul_of_pos_right h hk)]

/-- The difference of two multiples of a number that is not below `r` rounds to zero, as
half of `r` does, only if they are equal. -/
theorem roundedCompare_mul {k r : Nat} (h0 : 0 < k) (hk : r ≤ k) (m n : Nat) :
    (if 2 * ((m * k : Nat) - (n * k : Nat) : Int).natAbs ≤ r then Ordering.eq
      else compare ((m * k : Nat) - (n * k : Nat) : Int) 0) = compare m n := by
  rw [compare_sub_zero, compare_mul_right h0]
  split
  · rcases Nat.lt_trichotomy m n with hlt | heq | hgt
    · have := Nat.mul_le_mul_right k (Nat.succ_le_of_lt hlt)
      rw [Nat.succ_mul] at this
      omega
    · exact (Nat.compare_eq_eq.2 heq).symm
    · have := Nat.mul_le_mul_right k (Nat.succ_le_of_lt hgt)
      rw [Nat.succ_mul] at this
      omega
  · rfl

theorem unitsSide_of_nonneg {a b c : Int} {m n k : Nat} (h0 : 0 < k) (hk : unitsPerOne ≤ k)
    (hab : a * b = (m * k : Nat)) (hc : c * unitsPerOne = (n * k : Nat)) :
    unitsSide a b c = compare m n := by
  rw [← roundedCompare_mul h0 hk m n, unitsSide, hab, hc]

theorem unitsSide_of_nonpos {a b c : Int} {m n k : Nat} (h0 : 0 < k) (hk : unitsPerOne ≤ k)
    (hab : a * b = -(m * k : Nat)) (hc : c * unitsPerOne = -(n * k : Nat)) :
    unitsSide a b c = compare n m := by
  rw [← roundedCompare_mul h0 hk n m, unitsSide, hab, hc]
  have h : -((m * k : Nat) : Int) - -((n * k : Nat) : Int) = (n * k : Nat) - (m * k : Nat) := by
    omega
  rw [h]

theorem one_le_exponent (x : Float) : 1 ≤ exponent x := by
  unfold exponent
  split <;> omega

theorem units_of_nonneg {x : Float} (h : isNegative x = false) : units x = magnitude x := by
  simp [units, h]

theorem units_of_negative {x : Float} (h : isNegative x = true) : units x = -magnitude x := by
  simp [units, h]

theorem magnitude_mul (a b : Float) : magnitude a * magnitude b =
    significand a * significand b * Nat.pow 2 (exponent a + exponent b - 2) := by
  have ha := one_le_exponent a
  have hb := one_le_exponent b
  have h : exponent a + exponent b - 2 = (exponent a - 1) + (exponent b - 1) := by omega
  simp only [magnitude, Nat.pow_eq, h, Nat.pow_add]
  ac_rfl

/-- A magnitude as a multiple of the last place of a product of exponent `e`. -/
theorem magnitude_mul_unitsPerOne (c : Float) {e : Nat} (h2 : 2 ≤ e)
    (he : e ≤ exponent c + 1023) : magnitude c * unitsPerOne =
      doubled (significand c) (exponent c + 1023 - e) * 0x10000000000000 * Nat.pow 2 (e - 2) := by
  have hc := one_le_exponent c
  have h52 : 0x10000000000000 = 2 ^ 52 := rfl
  have h : (exponent c - 1) + unitExponent = (exponent c + 1023 - e) + (52 + (e - 2)) := by
    unfold unitExponent
    omega
  simp only [magnitude, unitsPerOne, doubled_eq, Nat.pow_eq, Nat.mul_assoc, h52,
    ← Nat.pow_add]
  rw [h, Nat.add_assoc]

theorem unitsPerOne_le {n : Nat} (h : unitExponent ≤ n) : unitsPerOne ≤ Nat.pow 2 n :=
  Nat.pow_le_pow_right Nat.zero_lt_two h

theorem units_mul_of_eq {a b : Float} (h : isNegative a = isNegative b) : units a * units b =
    (significand a * significand b * Nat.pow 2 (exponent a + exponent b - 2) : Nat) := by
  cases hb : isNegative b with
  | false => rw [units_of_nonneg (h.trans hb), units_of_nonneg hb, ← Int.natCast_mul, magnitude_mul]
  | true =>
    rw [units_of_negative (h.trans hb), units_of_negative hb, Int.neg_mul_neg, ← Int.natCast_mul,
      magnitude_mul]

theorem units_mul_of_ne {a b : Float} (h : isNegative a ≠ isNegative b) : units a * units b =
    -(significand a * significand b * Nat.pow 2 (exponent a + exponent b - 2) : Nat) := by
  cases hb : isNegative b with
  | false =>
    have ha : isNegative a = true := by simpa [hb] using h
    rw [units_of_negative ha, units_of_nonneg hb, Int.neg_mul, ← Int.natCast_mul, magnitude_mul]
  | true =>
    have ha : isNegative a = false := by simpa [hb] using h
    rw [units_of_nonneg ha, units_of_negative hb, Int.mul_neg, ← Int.natCast_mul, magnitude_mul]

theorem units_mul_unitsPerOne_of_nonneg {c : Float} {n : Nat} (hc : isNegative c = false)
    (h : magnitude c * unitsPerOne = n) : units c * unitsPerOne = n := by
  rw [units_of_nonneg hc, ← Int.natCast_mul, h]

theorem units_mul_unitsPerOne_of_negative {c : Float} {n : Nat} (hc : isNegative c = true)
    (h : magnitude c * unitsPerOne = n) : units c * unitsPerOne = -n := by
  rw [units_of_negative hc, Int.neg_mul, ← Int.natCast_mul, h]

/-- Comparing significands gives the rounded difference of the exact values. -/
theorem productSide_eq (a b c : Float) :
    productSide a b c = unitsSide (units a) (units b) (units c) := by
  unfold productSide
  dsimp only
  split
  · rename_i h
    simp only [Bool.and_eq_true, beq_iff_eq, decide_eq_true_eq] at h
    obtain ⟨⟨hs, h1⟩, h2⟩ := h
    have h0 : 0 < Nat.pow 2 (exponent a + exponent b - 2) := Nat.two_pow_pos _
    have hk : unitsPerOne ≤ Nat.pow 2 (exponent a + exponent b - 2) :=
      unitsPerOne_le (by unfold unitExponent; omega)
    have hq := magnitude_mul_unitsPerOne c (by omega) h2
    rw [compareProduct_eq, swap_compare]
    cases hc : isNegative c with
    | false =>
      have hab := units_mul_of_eq (a := a) (b := b) (by simpa [hc] using hs)
      rw [if_neg Bool.false_ne_true]
      exact (unitsSide_of_nonneg h0 hk hab (units_mul_unitsPerOne_of_nonneg hc hq)).symm
    | true =>
      have hab := units_mul_of_ne (a := a) (b := b) (by simpa [hc] using hs)
      rw [if_pos rfl]
      exact (unitsSide_of_nonpos h0 hk hab (units_mul_unitsPerOne_of_negative hc hq)).symm
  · rfl

end FlowTube.Binary64

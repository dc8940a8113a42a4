import FlowTube.Proofs.Decimal.Rounding

/-! Multiples of a step, counted from a start. Counts are exact up to 53 bits and stay in order
beyond. A chain of operations on sizes is read in the extended reals, each of its results the
rounding of the exact one: rounding keeps the order, so multiples do not decrease, whether or not
they overflow. How far a multiple is from the exact one is known relative to its magnitude, since a
sum of numbers, or a number counted exactly, has no place below the least one. -/

namespace FlowTube.Binary64

variable {x y p : Float} {r z w : ℝ} {s t : EReal} {m n : ℕ}

/-! ### Counts -/

theorem roundsTo_ofNat (n : ℕ) : RoundsTo n (Float.ofNat n) := by
  have h : RoundsTo n (Float.ofScientific n false 0) := by
    simpa using roundsTo_ofScientific n false 0
  exact h

theorem isFinite_ofNat (hn : n ≤ 2 ^ 64) : (Float.ofNat n).isFinite = true := by
  have hn' : (n : ℝ) ≤ 2 ^ 64 := by exact_mod_cast hn
  have htop : (2 : ℝ) ^ (12 : ℤ) ≤ topPlace := zpow_mono (by norm_num)
  rw [(roundsTo_ofNat n).isFinite_iff, abs_of_nonneg (Nat.cast_nonneg n), real_maxFinite]
  norm_num at htop ⊢
  linarith

/-- Counts of up to 53 bits are exact. -/
theorem real_ofNat (hn : n ≤ 2 ^ 53) : real (Float.ofNat n) = n := by
  have hn' : |(n : ℤ)| ≤ 2 ^ 53 := by rw [Nat.abs_cast]; exact_mod_cast hn
  have habs : |(n : ℝ)| ≤ 2 ^ 53 := by exact_mod_cast hn'
  exact ((roundsTo_ofNat n).eq_of_representable (by exact_mod_cast representable_intCast hn')
    (habs.trans fiftyThreeBits_le_maxFinite)).2

theorem real_ofNat_mono (hmn : m ≤ n) (hn : n ≤ 2 ^ 64) :
    real (Float.ofNat m) ≤ real (Float.ofNat n) := by
  have hm := isFinite_ofNat (hmn.trans hn)
  have h := (roundsTo_ofNat m).mono (roundsTo_ofNat n) (Nat.cast_le.2 hmn)
  rwa [value_of_isFinite hm, value_of_isFinite (isFinite_ofNat hn), EReal.coe_le_coe_iff] at h

theorem real_ofNat_nonneg (hn : n ≤ 2 ^ 64) : 0 ≤ real (Float.ofNat n) := by
  have h := real_ofNat_mono (Nat.zero_le n) hn
  rwa [real_ofNat (Nat.zero_le _), Nat.cast_zero] at h

theorem real_ofNat_pos (h0 : 0 < n) (hn : n ≤ 2 ^ 64) : 0 < real (Float.ofNat n) := by
  have h := real_ofNat_mono h0 hn
  rw [Nat.succ_eq_add_one, zero_add, real_ofNat (by norm_num), Nat.cast_one] at h
  linarith

/-! ### Sizes -/

/-- Every representable size within the range is a number. -/
theorem exists_real_eq (hr : Representable r) (h0 : 0 ≤ r) (hle : r ≤ real maxFinite) :
    ∃ x : Float, x.isFinite = true ∧ real x = r := by
  obtain ⟨e, -, hmem, -⟩ := id hr
  obtain ⟨n, rfl⟩ := mem_grid.1 hmem
  have hplace : (0 : ℝ) < 2 ^ e := by positivity
  obtain ⟨n, rfl⟩ := Int.eq_ofNat_of_zero_le
    (by exact_mod_cast nonneg_of_mul_nonneg_left h0 hplace : 0 ≤ n)
  have habs : |((n : ℤ) : ℝ) * 2 ^ e| ≤ real maxFinite := by rwa [abs_of_nonneg h0]
  rcases le_total 0 e with he | he
  · obtain ⟨k, rfl⟩ := Int.eq_ofNat_of_zero_le he
    have hround := roundsTo_ofNat (n * 2 ^ k)
    push_cast at hround
    exact ⟨_, hround.eq_of_representable (by exact_mod_cast hr) (by exact_mod_cast habs)⟩
  · obtain ⟨k, hk⟩ := Int.eq_ofNat_of_zero_le (neg_nonneg.2 he)
    -- a binary fraction is a decimal one
    have hdecimal : ((n * 5 ^ k : ℕ) : ℝ) * 10 ^ (-k : ℤ) = ((n : ℤ) : ℝ) * 2 ^ e := by
      rw [show e = -(k : ℤ) by omega, show (10 : ℝ) = 5 * 2 by norm_num, mul_zpow, zpow_neg,
        zpow_neg, zpow_natCast, zpow_natCast]
      push_cast
      field_simp
    have hround := roundsTo_ofScientific (n * 5 ^ k) true k
    rw [if_pos rfl, hdecimal] at hround
    exact ⟨_, hround.eq_of_representable hr habs⟩

/-! ### Roundings of extended reals -/

/-- The number is the rounding of an extended real; infinity is its own. -/
def Approximates (s : EReal) (x : Float) : Prop :=
  (s = ⊤ ∧ x = inf) ∨ ∃ r : ℝ, s = r ∧ RoundsTo r x

theorem RoundsTo.approximates (h : RoundsTo r x) : Approximates r x := Or.inr ⟨r, rfl, h⟩

namespace Approximates

theorem isNaN (h : Approximates s x) : x.isNaN = false := by
  rcases h with ⟨-, rfl⟩ | ⟨r, -, h⟩
  · rfl
  · exact h.isNaN

/-- Rounding keeps the order. -/
theorem mono (h : Approximates s x) (h' : Approximates t y) (hst : s ≤ t) :
    value x ≤ value y := by
  rcases h' with ⟨-, rfl⟩ | ⟨r', rfl, h'⟩
  · exact le_top
  rcases h with ⟨rfl, -⟩ | ⟨r, rfl, h⟩
  · exact absurd hst (not_le.2 (EReal.coe_lt_top r'))
  · exact h.mono h' (EReal.coe_le_coe_iff.1 hst)

theorem eq_inf (h : Approximates ⊤ x) : x = inf := by
  rcases h with ⟨-, hinf⟩ | ⟨r, htop, -⟩
  · exact hinf
  · exact absurd htop.symm (EReal.coe_ne_top r)

theorem nonneg (h : Approximates s x) (hs : 0 ≤ s) : 0 ≤ value x := by
  have hzero : RoundsTo 0 0.0 := roundsTo_zero le_rfl (half_pos leastPlace_pos).le
  exact hzero.approximates.mono h (by rwa [EReal.coe_zero])

/-- A number is not passed. -/
theorem le_value (h : Approximates s x) (hy : y.isFinite) (hle : (real y : EReal) ≤ s) :
    value y ≤ value x := by
  rcases h with ⟨-, rfl⟩ | ⟨r, rfl, h⟩
  · exact le_top
  · exact h.le_value hy (EReal.coe_le_coe_iff.1 hle)

theorem rounds (h : Approximates r x) (hx : x.isFinite) : Rounds r (real x) := by
  rcases h with ⟨htop, -⟩ | ⟨r', heq, h⟩
  · exact absurd htop (EReal.coe_ne_top r)
  · rw [EReal.coe_eq_coe_iff.1 heq]
    exact h.rounds hx

end Approximates

/-- A size is a finite number or infinity. -/
theorem isFinite_or_eq_inf_of_nonneg (hx : x.isNaN = false) (h0 : 0 ≤ value x) :
    x.isFinite = true ∨ x = inf := by
  rcases isFinite_or_eq_inf hx with fx | rfl | rfl
  · exact Or.inl fx
  · exact Or.inr rfl
  · exact absurd h0 (not_le.2 EReal.bot_lt_zero)

theorem approximates_add (hx : x.isFinite) (hp : p.isNaN = false) (h0 : 0 ≤ value p) :
    Approximates (value x + value p) (x + p) := by
  rcases isFinite_or_eq_inf_of_nonneg hp h0 with fp | rfl
  · rw [value_of_isFinite hx, value_of_isFinite fp, ← EReal.coe_add]
    exact (roundsTo_add hx fp).approximates
  · refine Or.inl ⟨?_, (infinite_sum hx).1.1⟩
    rw [value_of_isFinite hx]
    exact EReal.coe_add_top _

theorem beq_zero_of_pos (h0 : 0 < real y) : (y == 0.0) = false :=
  Bool.eq_false_iff.2 fun hzero => h0.ne' (real_eq_zero hzero).2

theorem approximates_mul (hx : x.isNaN = false) (hx0 : 0 ≤ value x) (hy : y.isFinite)
    (hy0 : 0 < real y) : Approximates (value x * real y) (x * y) := by
  rcases isFinite_or_eq_inf_of_nonneg hx hx0 with fx | rfl
  · rw [value_of_isFinite fx, ← EReal.coe_mul]
    exact (roundsTo_mul fx hy).approximates
  · refine Or.inl ⟨EReal.top_mul_coe_of_pos hy0, ?_⟩
    rcases infinite_product hy (beq_zero_of_pos hy0) with ⟨-, ⟨-, hinf⟩, -⟩ | ⟨hneg, -⟩
    · exact hinf
    · exact absurd hneg hy0.not_gt

theorem approximates_div (hx : x.isNaN = false) (hx0 : 0 ≤ value x) (hy : y.isFinite)
    (hy0 : 0 < real y) : Approximates (value x / real y) (x / y) := by
  have hzero := beq_zero_of_pos hy0
  rcases isFinite_or_eq_inf_of_nonneg hx hx0 with fx | rfl
  · rw [value_of_isFinite fx, ← EReal.coe_div]
    exact (roundsTo_div fx hy hzero).approximates
  · have htop : value inf / real y = ⊤ :=
      EReal.top_div_of_pos_ne_top (EReal.coe_pos.2 hy0) (EReal.coe_ne_top _)
    have hnumber := (isNaN_mul_div (x := inf) rfl hy hzero).2
    refine Or.inl ⟨htop, ?_⟩
    have hvalue := value_div_of_infinite (x := inf) rfl (isNaN_of_isFinite hy) hzero
      (fun h => Bool.false_ne_true h.1) (Bool.eq_false_iff.1 hnumber)
    rw [value_of_isFinite hy, htop] at hvalue
    rcases isFinite_or_eq_inf hnumber with hf | hinf | hneg
    · rw [value_of_isFinite hf] at hvalue
      exact absurd hvalue (EReal.coe_ne_top _)
    · exact hinf
    · rw [hneg] at hvalue
      exact absurd hvalue bot_ne_top

/-! ### Relative errors -/

/-- Where no place below the least one is needed, a rounding errs by half of the last of 53
places. -/
theorem Rounds.error_le_of_mem_grid (h : Rounds r z) (hr : r ∈ grid (-1074)) :
    2 ^ 53 * |r - z| ≤ |r| := by
  obtain ⟨e, h⟩ := h
  rcases h.full with hfull | rfl
  · linarith [h.near]
  · rw [h.eq_of_le hr le_rfl, sub_self, abs_zero, mul_zero]
    exact abs_nonneg r

/-- The same against the rounded real. -/
theorem Rounds.error_le_rounded (h : Rounds r z) (hr : r ∈ grid (-1074)) :
    (2 ^ 53 - 1) * |r - z| ≤ |z| := by
  have herr := h.error_le_of_mem_grid hr
  have htri := abs_sub_abs_le_abs_sub r z
  linarith

/-- Around a size that has a rounding there are representable reals that are next to each other. -/
theorem Rounds.exists_around (h : Rounds w z) (hw : w ∈ grid (-1074)) (h0 : 0 ≤ w) :
    ∃ c u, Representable c ∧ Representable u ∧ c ≤ w ∧ w ≤ u ∧ 2 ^ 52 * u ≤ (2 ^ 52 + 1) * c := by
  obtain ⟨e, h⟩ := h
  have hbelow := h.below
  rw [abs_of_nonneg h0] at hbelow
  rcases h.full with hfull | rfl
  · have hplace : (0 : ℝ) < 2 ^ e := by positivity
    rw [abs_of_nonneg h0] at hfull
    have hlow : (2 ^ 52 : ℤ) ≤ ⌊w / 2 ^ e⌋ := by
      rw [Int.le_floor, le_div_iff₀ hplace]
      exact_mod_cast hfull
    have hup : ⌊w / 2 ^ e⌋ < (2 ^ 53 : ℤ) := by
      rw [Int.floor_lt, div_lt_iff₀ hplace]
      exact_mod_cast hbelow
    have hfloor := Int.floor_le (w / 2 ^ e)
    have hnext := (Int.lt_floor_add_one (w / 2 ^ e)).le
    rw [le_div_iff₀ hplace] at hfloor
    rw [div_le_iff₀ hplace] at hnext
    generalize ⌊w / 2 ^ e⌋ = k at *
    have hrepresentable : ∀ j : ℤ, 0 ≤ j → j ≤ 2 ^ 53 → Representable (j * 2 ^ e) := by
      intro j hj0 hj
      refine representable_of_le h.least (mul_mem_grid j e) ?_
      rw [abs_of_nonneg (by positivity)]
      exact mul_le_mul_of_nonneg_right (by exact_mod_cast hj) hplace.le
    refine ⟨k * 2 ^ e, (k + 1 : ℤ) * 2 ^ e, hrepresentable k (by omega) hup.le,
      hrepresentable (k + 1) (by omega) (by omega), hfloor, by exact_mod_cast hnext, ?_⟩
    have hk : (2 ^ 52 : ℝ) * 2 ^ e ≤ k * 2 ^ e :=
      mul_le_mul_of_nonneg_right (by exact_mod_cast hlow) hplace.le
    push_cast
    linarith
  · have hrepresentable : Representable w := ⟨_, le_rfl, hw, by rwa [abs_of_nonneg h0]⟩
    exact ⟨w, w, hrepresentable, hrepresentable, le_rfl, le_rfl, by linarith⟩

theorem sum_mem_grid (x y : Float) : real x + real y ∈ grid (-1074) :=
  add_mem (representable_real x).mem_grid_least (representable_real y).mem_grid_least

theorem count_mul_mem_grid (n : ℕ) (x : Float) : n * real x ∈ grid (-1074) := by
  rw [← nsmul_eq_mul]
  exact nsmul_mem (representable_real x).mem_grid_least n

end FlowTube.Binary64

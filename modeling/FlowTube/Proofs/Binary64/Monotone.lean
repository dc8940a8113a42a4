import FlowTube.Proofs.Binary64.DirectedProducts
import FlowTube.Proofs.Interval.Halves

/-! Rounding keeps the order. A real has one rounding: two reals at the same distance from it are
neighbours on one grid, and only one of them is even. So rounded results grow with the exact ones,
also where they overflow.

Sums and products of sizes may leave the numbers: a size may be infinite, and a width of zero over
an infinite time is no number at all. Both are without a bound, and are put above all numbers here.
Then sums of sizes and products with a positive time grow with their operands. -/

namespace FlowTube.Binary64

open Float.Model (UnpackedFloat)
open Float.Model.UnpackedFloat (Sign)

variable {e d : ℤ} {r s w z : ℝ} {p q t u v x y : Float}

/-! ### One rounding -/

/-- The magnitude of a real decides at which place it is rounded. -/
theorem RoundsAt.exponent_unique (h : RoundsAt e r z) (h' : RoundsAt d r w) : e = d := by
  have key {e d : ℤ} {z w : ℝ} (h : RoundsAt e r z) (h' : RoundsAt d r w) : ¬e < d := by
    intro hlt
    have hfull := h'.full.resolve_right (by have := h.least; omega)
    have hpow : (2 : ℝ) ^ (e + 1) ≤ 2 ^ d := zpow_mono (by omega)
    rw [zpow_succ] at hpow
    linarith [h.below]
  exact le_antisymm (not_lt.1 (key h' h)) (not_lt.1 (key h h'))

theorem Rounds.unique (h : Rounds r z) (h' : Rounds r w) : z = w := by
  have hzw := h.le h'.representable
  have hwz := h'.le h.representable
  obtain ⟨e, h⟩ := h
  obtain ⟨d, h'⟩ := h'
  obtain rfl := h.exponent_unique h'
  by_contra hne
  have hpos : (0 : ℝ) < 2 ^ e := by positivity
  have hnear := h.near
  have htri : |z - w| ≤ |r - z| + |r - w| := by
    rw [abs_sub_comm r z]
    exact abs_sub_le z r w
  -- different members of the grid at half a mesh from the real
  have hmesh := zpow_le_abs_sub_of_mem_grid h.mem h'.mem hne
  have hcoarse := zpow_le_abs_sub_of_mem_grid (h.tie (by linarith)) (h'.tie (by linarith)) hne
  rw [zpow_succ] at hcoarse
  linarith

theorem Rounds.mono (h : Rounds r z) (h' : Rounds s w) (hrs : r ≤ s) : z ≤ w := by
  by_contra hlt
  rw [not_le] at hlt
  have hz := h.le h'.representable
  have hw := h'.le h.representable
  -- both reals are in the middle between the two roundings
  have hlow : z + w ≤ 2 * r := by
    by_contra hgt
    have : |r - w| < |r - z| := sq_lt_sq.1 (by nlinarith)
    linarith
  have hup : 2 * s ≤ z + w := by
    by_contra hgt
    have : |s - z| < |s - w| := sq_lt_sq.1 (by nlinarith)
    linarith
  obtain rfl : r = s := by linarith
  exact hlt.ne' (h.unique h')

/-- Rounded results grow with the exact ones. -/
theorem RoundsTo.mono (h : RoundsTo r x) (h' : RoundsTo s y) (hrs : r ≤ s) : value x ≤ value y := by
  have htop := topPlace_pos
  have hmax (z : Float) := abs_le.1 (abs_real_le_maxFinite z)
  have hmax' := real_maxFinite
  cases h with
  | below hx => rw [hx]; exact bot_le
  | finite hx h =>
    cases h' with
    | above hy => rw [hy]; exact le_top
    | finite hy h' =>
      rw [value_of_isFinite hx, value_of_isFinite hy, EReal.coe_le_coe_iff]
      exact h.mono h' hrs
    | below hy w h' hw => linarith [h.mono h' hrs, (hmax x).1]
  | above hx z h hz =>
    cases h' with
    | above hy => rw [hy]; exact le_top
    | finite hy h' => linarith [h.mono h' hrs, (hmax y).2]
    | below hy w h' hw => linarith [h.mono h' hrs]

theorem RoundsTo.isNaN (h : RoundsTo r x) : x.isNaN = false := by
  cases h with
  | finite hx => exact isNaN_of_isFinite hx
  | above hx => rw [hx]; rfl
  | below hx => rw [hx]; rfl

/-- A finite number is its own rounding. -/
theorem roundsTo_real (hx : x.isFinite) : RoundsTo (real x) x :=
  .finite hx (unpackedRounds_self hx (canonical_toModel x)).rounds

/-- No number is passed. -/
theorem RoundsTo.le_value (h : RoundsTo r x) (hy : y.isFinite) (hle : real y ≤ r) :
    value y ≤ value x := (roundsTo_real hy).mono h hle

/-- No number is passed from below either. -/
theorem RoundsTo.value_le (h : RoundsTo r x) (hy : y.isFinite) (hle : r ≤ real y) :
    value x ≤ value y := h.mono (roundsTo_real hy) hle

theorem inf_sub (hx : x.isFinite) : inf - x = inf := by
  have h : UnpackedFloat.sub .binary64 (.infinity .positive) x.toModel.unpack =
      .infinity .positive := by
    change x.toModel.unpack.isFinite = true at hx
    cases hu : x.toModel.unpack <;> rw [hu] at hx <;> first | contradiction | rfl
  exact congrArg (fun u => Float.ofModel (.pack u)) h

/-- Between different times some time passes. -/
theorem zero_lt_sub_of_lt (h : x < y) : 0.0 < y - x := by
  obtain ⟨hx, hy, hlt⟩ := lt_iff.1 h
  rcases isFinite_or_eq_inf hx with fx | rfl | rfl
  · rcases isFinite_or_eq_inf hy with fy | rfl | rfl
    · have hround := roundsTo_sub fy fx
      have hleast : real (Float.ofBits 1) = leastPlace := by
        change (((1 : ℕ) : ℤ) : ℝ) * 2 ^ (-1074 : ℤ) = leastPlace
        rw [leastPlace, Nat.cast_one, Int.cast_one, one_mul]
      have hpos : value 0.0 < value (Float.ofBits 1) := (lt_iff.1 (by decide)).2.2
      refine lt_iff.2 ⟨rfl, hround.isNaN, hpos.trans_le (hround.le_value rfl ?_)⟩
      rw [hleast]
      exact leastPlace_le_sub ((lt_iff_real fx fy).1 h)
    · rw [inf_sub fx]
      decide
    · exact absurd hlt (not_lt.2 bot_le)
  · exact absurd hlt (not_lt.2 le_top)
  · rcases isFinite_or_eq_inf hy with fy | rfl | rfl
    · rw [(infinite_sum fy).2.2.2]
      decide
    · decide
    · exact absurd hlt (lt_irrefl _)

/-! ### Sizes -/

/-- The value of a size. What is not a number is not bounded either. -/
noncomputable def size (x : Float) : EReal := if x.isNaN then ⊤ else value x

theorem size_of_isNaN (h : x.isNaN = true) : size x = ⊤ := if_pos h

theorem size_eq_value (h : x.isNaN = false) : size x = value x := if_neg (Bool.eq_false_iff.1 h)

theorem size_of_isFinite (h : x.isFinite) : size x = real x := by
  rw [size_eq_value (isNaN_of_isFinite h), value_of_isFinite h]

theorem size_zero : size 0.0 = 0 := by
  rw [size_of_isFinite rfl, real_zero, EReal.coe_zero]

/-- A size is without a bound, or it is a finite number. -/
theorem size_cases (h : 0 ≤ size x) : size x = ⊤ ∨ x.isFinite = true ∧ 0 ≤ real x := by
  cases hx : x.isNaN with
  | true => exact Or.inl (size_of_isNaN hx)
  | false =>
    rcases isFinite_or_eq_inf hx with fx | rfl | rfl
    · rw [size_of_isFinite fx] at h
      exact Or.inr ⟨fx, EReal.coe_nonneg.1 h⟩
    · exact Or.inl rfl
    · exact absurd h (by rw [size_eq_value rfl]; exact not_le.2 EReal.bot_lt_zero)

theorem size_eq_top_iff : size x = ⊤ ↔ x.isNaN = true ∨ x = inf := by
  cases hx : x.isNaN with
  | true => exact iff_of_true (size_of_isNaN hx) (Or.inl rfl)
  | false =>
    rw [size_eq_value hx, or_iff_right Bool.false_ne_true]
    rcases isFinite_or_eq_inf hx with fx | rfl | rfl
    · rw [value_of_isFinite fx]
      refine iff_of_false (EReal.coe_ne_top _) ?_
      rintro rfl
      contradiction
    · exact iff_of_true rfl rfl
    · exact iff_of_false bot_ne_top (by decide)

theorem RoundsTo.size_eq (h : RoundsTo r x) : size x = value x := size_eq_value h.isNaN

/-- What is not a number stays so in sums and products. -/
theorem isNaN_operation (h : x.isNaN = true) (y : Float) :
    ((x + y).isNaN = true ∧ (y + x).isNaN = true) ∧ (y * x).isNaN = true := by
  have hx : x.toModel.unpack = .notANumber := eq_notANumber_of_isNaN h
  have packed {w : UnpackedFloat} (hw : w = .notANumber) :
      (Float.ofModel (.pack w)).isNaN = true := by
    rw [hw]
    rfl
  refine ⟨⟨packed ?_, packed ?_⟩, packed ?_⟩ <;> rw [hx] <;> cases y.toModel.unpack <;> rfl

theorem size_add_top (hx : size x = ⊤) (hy : 0 ≤ size y) :
    size (x + y) = ⊤ ∧ size (y + x) = ⊤ := by
  rcases size_eq_top_iff.1 hx with hnan | rfl
  · obtain ⟨⟨hleft, hright⟩, -⟩ := isNaN_operation hnan y
    exact ⟨size_of_isNaN hleft, size_of_isNaN hright⟩
  · rcases size_cases hy with htop | ⟨fy, -⟩
    · rcases size_eq_top_iff.1 htop with hnan | rfl
      · obtain ⟨⟨hleft, hright⟩, -⟩ := isNaN_operation hnan inf
        exact ⟨size_of_isNaN hright, size_of_isNaN hleft⟩
      · exact ⟨rfl, rfl⟩
    · rw [(infinite_sum fy).1.1, (infinite_sum fy).1.2.1]
      exact ⟨rfl, rfl⟩

/-- Sums grow with their summands. -/
theorem size_add_mono (hu : 0 ≤ size u) (huv : size u ≤ size v) (hp : 0 ≤ size p)
    (hpq : size p ≤ size q) : size (u + p) ≤ size (v + q) := by
  rcases size_cases (hu.trans huv) with hv | ⟨fv, -⟩
  · rw [(size_add_top hv (hp.trans hpq)).1]
    exact le_top
  rcases size_cases (hp.trans hpq) with hq | ⟨fq, -⟩
  · rw [(size_add_top hq (hu.trans huv)).2]
    exact le_top
  rw [size_of_isFinite fv] at huv
  rw [size_of_isFinite fq] at hpq
  obtain ⟨fu, -⟩ := (size_cases hu).resolve_left (huv.trans_lt (EReal.coe_lt_top _)).ne
  obtain ⟨fp, -⟩ := (size_cases hp).resolve_left (hpq.trans_lt (EReal.coe_lt_top _)).ne
  rw [size_of_isFinite fu, EReal.coe_le_coe_iff] at huv
  rw [size_of_isFinite fp, EReal.coe_le_coe_iff] at hpq
  rw [(roundsTo_add fu fp).size_eq, (roundsTo_add fv fq).size_eq]
  exact (roundsTo_add fu fp).mono (roundsTo_add fv fq) (add_le_add huv hpq)

theorem le_size_add (hx : 0 ≤ size x) (hy : 0 ≤ size y) : size x ≤ size (x + y) := by
  rcases size_cases hx with htop | ⟨fx, -⟩
  · rw [(size_add_top htop hy).1]
    exact le_top
  rcases size_cases hy with htop | ⟨fy, hy0⟩
  · rw [(size_add_top htop hx).2]
    exact le_top
  rw [size_eq_value (isNaN_of_isFinite fx), (roundsTo_add fx fy).size_eq]
  exact (roundsTo_add fx fy).le_value fx (le_add_of_nonneg_right hy0)

/-- Over an infinite time nothing is bounded, not even zero. -/
theorem size_inf_mul (hx : x.isFinite) (h0 : 0 ≤ real x) : size (inf * x) = ⊤ := by
  rw [size_eq_top_iff]
  change x.toModel.unpack.isFinite = true at hx
  have packed {w : UnpackedFloat}
      (hw : UnpackedFloat.mul .binary64 (.infinity .positive) x.toModel.unpack = w) :
      inf * x = Float.ofModel (.pack w) := congrArg (fun u => Float.ofModel (.pack u)) hw
  cases hu : x.toModel.unpack with
  | notANumber => rw [hu] at hx; contradiction
  | infinity s => rw [hu] at hx; contradiction
  | zero s =>
    left
    rw [packed (w := .notANumber) (by rw [hu]; rfl)]
    rfl
  | finite s m e hm =>
    cases s with
    | negative =>
      have hpos : (0 : ℝ) < m * 2 ^ e := by positivity
      rw [real, hu, unpackedReal_negative] at h0
      linarith
    | positive => exact Or.inr (packed (w := .infinity .positive) (by rw [hu]; rfl))

/-- Over a positive time, a product is without a bound if the time or the other factor is. -/
theorem size_mul_top (ht : 0.0 < t) (hp : 0 ≤ size p) (h : t = inf ∨ size p = ⊤) :
    size (t * p) = ⊤ := by
  obtain ⟨-, hnumber, hpos⟩ := lt_iff.1 ht
  rcases size_cases hp with htop | ⟨fp, hp0⟩
  · rcases size_eq_top_iff.1 htop with hnan | rfl
    · exact size_of_isNaN (isNaN_operation hnan t).2
    rcases isFinite_or_eq_inf hnumber with ft | rfl | rfl
    · have ht0 : (t == 0.0) = false :=
        Bool.eq_false_iff.2 fun hzero => hpos.ne' (beq_iff.1 hzero).2.2
      rcases infinite_product ft ht0 with ⟨-, ⟨hinf, -⟩, -⟩ | ⟨hneg, -⟩
      · rw [hinf]
        rfl
      · rw [lt_iff_real rfl ft, real_zero] at ht
        linarith
    · rfl
    · exact absurd hpos (not_lt.2 bot_le)
  · obtain rfl := h.resolve_right fun htop => by
      rw [size_of_isFinite fp] at htop
      exact EReal.coe_ne_top _ htop
    exact size_inf_mul fp hp0

theorem size_mul_cases (ht : 0.0 < t) (hp : 0 ≤ size p) : size (t * p) = ⊤ ∨
    (t.isFinite = true ∧ 0 < real t) ∧ p.isFinite = true ∧ 0 ≤ real p := by
  rcases size_cases hp with htop | hfinite
  · exact Or.inl (size_mul_top ht hp (Or.inr htop))
  rcases isFinite_or_eq_inf (lt_iff.1 ht).2.1 with ft | rfl | rfl
  · refine Or.inr ⟨⟨ft, ?_⟩, hfinite⟩
    rwa [lt_iff_real rfl ft, real_zero] at ht
  · exact Or.inl (size_mul_top ht hp (Or.inl rfl))
  · exact absurd (lt_iff.1 ht).2.2 (not_lt.2 bot_le)

theorem size_mul_nonneg (ht : 0.0 < t) (hp : 0 ≤ size p) : 0 ≤ size (t * p) := by
  rcases size_mul_cases ht hp with htop | ⟨⟨ft, ht0⟩, fp, hp0⟩
  · rw [htop]
    exact le_top
  · rw [(roundsTo_mul ft fp).size_eq]
    refine (roundsTo_mul ft fp).le_value (y := 0.0) rfl ?_
    rw [real_zero]
    exact mul_nonneg ht0.le hp0

/-- Products with a positive time grow with the other factor. -/
theorem size_mul_mono (ht : 0.0 < t) (hp : 0 ≤ size p) (hpq : size p ≤ size q) :
    size (t * p) ≤ size (t * q) := by
  rcases size_mul_cases ht (hp.trans hpq) with htop | ⟨⟨ft, ht0⟩, fq, -⟩
  · rw [htop]
    exact le_top
  rw [size_of_isFinite fq] at hpq
  obtain ⟨fp, -⟩ := (size_cases hp).resolve_left (hpq.trans_lt (EReal.coe_lt_top _)).ne
  rw [size_of_isFinite fp, EReal.coe_le_coe_iff] at hpq
  rw [(roundsTo_mul ft fp).size_eq, (roundsTo_mul ft fq).size_eq]
  exact (roundsTo_mul ft fp).mono (roundsTo_mul ft fq) (mul_le_mul_of_nonneg_left hpq ht0.le)

/-- Sizes are cut off at the largest number. -/
theorem size_min_maxFinite (x : Float) :
    size (min x maxFinite) = Min.min (size x) (value maxFinite) := by
  cases hx : x.isNaN with
  | true => rw [min, if_pos hx, size_of_isNaN hx, size_eq_value rfl, top_inf_eq]
  | false =>
    rw [min, if_neg (Bool.eq_false_iff.1 hx), size_eq_value hx]
    split_ifs with hlt
    · rw [size_eq_value rfl, min_eq_right (lt_iff.1 hlt).2.2.le]
    · rw [size_eq_value hx, min_eq_left]
      exact not_lt.1 fun h => hlt (lt_iff.2 ⟨rfl, hx, h⟩)

end FlowTube.Binary64

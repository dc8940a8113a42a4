import FlowTube.Proofs.Binary64.Multiples
import FlowTube.Proofs.Interval.Halves
import FlowTube.Proofs.Interval.Inclusion
import FlowTube.Proofs.Interval.Midpoint
import FlowTube.Proofs.Interval.Subdivision

/-! Which subdivisions cover a bounded interval and nothing beyond it. The cuts do not decrease, so
the pieces before the last one follow each other, and the last cut inside decides whether a piece
reaches beyond the interval. A cut takes its part of the diameter by a product and a quotient. Up to
`2 ^ 50` pieces their errors are smaller than the part of the last piece, so that the last cut is
inside, unless the product overflows. -/

namespace FlowTube.Interval

open Binary64

variable {a : Interval} {n k l : ℕ}

/-! ### Cuts in order -/

/-- A bounded interval that is not empty, and a number of pieces. -/
structure Divisible (a : Interval) (n : ℕ) : Prop where
  start : a.lb.isFinite = true
  finish : a.ub.isFinite = true
  ordered : a.lb ≤ a.ub
  some : 0 < n
  few : n < 2 ^ 64

/-- What is added to the lower bound for the cut `k`. -/
def advance (a : Interval) (n k : ℕ) : Float := a.diam * Float.ofNat k / Float.ofNat n

namespace Divisible

theorem diam_nonneg (h : Divisible a n) : 0 ≤ value a.diam :=
  (EReal.coe_nonneg.2 (sub_nonneg.2 ((le_iff_real h.start h.finish).1 h.ordered))).trans
    (width_le_diam h.start h.finish h.ordered)

theorem approximates_product (h : Divisible a n) (hk : 0 < k) (hkn : k ≤ n) :
    Approximates (value a.diam * real (Float.ofNat k)) (a.diam * Float.ofNat k) :=
  have hcount := hkn.trans h.few.le
  approximates_mul (isNaN_diam a) h.diam_nonneg (isFinite_ofNat hcount) (real_ofNat_pos hk hcount)

theorem product_nonneg (h : Divisible a n) (hk : 0 < k) (hkn : k ≤ n) :
    0 ≤ value (a.diam * Float.ofNat k) :=
  (h.approximates_product hk hkn).nonneg
    (mul_nonneg h.diam_nonneg (EReal.coe_nonneg.2 (real_ofNat_nonneg (hkn.trans h.few.le))))

theorem approximates_advance (h : Divisible a n) (hk : 0 < k) (hkn : k ≤ n) :
    Approximates (value (a.diam * Float.ofNat k) / real (Float.ofNat n)) (a.advance n k) :=
  approximates_div (h.approximates_product hk hkn).isNaN (h.product_nonneg hk hkn)
    (isFinite_ofNat h.few.le) (real_ofNat_pos h.some h.few.le)

theorem advance_nonneg (h : Divisible a n) (hk : 0 < k) (hkn : k ≤ n) :
    0 ≤ value (a.advance n k) :=
  (h.approximates_advance hk hkn).nonneg
    (EReal.div_nonneg (h.product_nonneg hk hkn) (EReal.coe_nonneg.2 (real_ofNat_nonneg h.few.le)))

theorem advance_mono (h : Divisible a n) (hk : 0 < k) (hkl : k ≤ l) (hln : l ≤ n) :
    value (a.advance n k) ≤ value (a.advance n l) := by
  have hkn := hkl.trans hln
  have hl := hk.trans_le hkl
  refine (h.approximates_advance hk hkn).mono (h.approximates_advance hl hln) ?_
  refine EReal.div_le_div_right_of_nonneg (EReal.coe_nonneg.2 (real_ofNat_nonneg h.few.le)) ?_
  refine (h.approximates_product hk hkn).mono (h.approximates_product hl hln) ?_
  exact mul_le_mul_of_nonneg_left
    (EReal.coe_le_coe_iff.2 (real_ofNat_mono hkl (hln.trans h.few.le))) h.diam_nonneg

theorem cut_eq (hk : 0 < k) (hkn : k < n) : a.cut n k = a.lb + a.advance n k := by
  rw [cut, if_neg hk.ne', if_neg hkn.ne]
  rfl

theorem approximates_cut (h : Divisible a n) (hk : 0 < k) (hkn : k < n) :
    Approximates (value a.lb + value (a.advance n k)) (a.cut n k) := by
  rw [cut_eq hk hkn]
  exact approximates_add h.start (h.approximates_advance hk hkn.le).isNaN
    (h.advance_nonneg hk hkn.le)

theorem le_cut (h : Divisible a n) (hk : 0 < k) (hkn : k < n) : a.lb ≤ a.cut n k := by
  refine le_iff.2 ⟨isNaN_of_isFinite h.start, (h.approximates_cut hk hkn).isNaN,
    (h.approximates_cut hk hkn).le_value h.start ?_⟩
  rw [value_of_isFinite h.start]
  exact le_add_of_nonneg_right (h.advance_nonneg hk hkn.le)

/-- The cuts before the last bound do not decrease. -/
theorem cut_mono (h : Divisible a n) (hkl : k ≤ l) (hln : l < n) : a.cut n k ≤ a.cut n l := by
  rcases Nat.eq_zero_or_pos k with rfl | hk
  · rw [cut_zero]
    rcases Nat.eq_zero_or_pos l with rfl | hl
    · rw [cut_zero]
      exact le_self (isNaN_of_isFinite h.start)
    · exact h.le_cut hl hln
  · have hkn := hkl.trans_lt hln
    have hl := hk.trans_le hkl
    refine le_iff.2 ⟨(h.approximates_cut hk hkn).isNaN, (h.approximates_cut hl hln).isNaN, ?_⟩
    exact (h.approximates_cut hk hkn).mono (h.approximates_cut hl hln)
      (add_le_add_right (h.advance_mono hk hkl hln.le) _)

theorem isNaN_cut (h : Divisible a n) (hk : k ≤ n) : (a.cut n k).isNaN = false := by
  rcases hk.eq_or_lt with rfl | hk
  · rw [cut_self h.some]
    exact isNaN_of_isFinite h.finish
  · exact (le_iff.1 (h.cut_mono le_rfl hk)).1

/-! ### Pieces end to end -/

/-- A piece that is not empty starts where the piece before it ends, which is not empty either. -/
theorem meet_end_to_end (h : Divisible a n) : (a.subdivide n).IsChain fun p q =>
    q.isEmpty = false → p.isEmpty = false ∧ p.ub = q.lb := by
  rw [subdivide, List.isChain_map, List.isChain_range]
  intro k hk hnonempty
  rcases ofBounds_cases (a.cut n (k + 1)) (a.cut n (k + 1 + 1)) with hempty | ⟨hle, htop, hbot⟩
  · rw [hempty] at hnonempty
    contradiction
  · have hbefore := h.cut_mono (Nat.le_succ k) (show k + 1 < n by omega)
    have hfirst := h.cut_mono (Nat.zero_le (k + 1)) (show k + 1 < n by omega)
    rw [cut_zero, le_iff, value_of_isFinite h.start] at hfirst
    rw [ofBounds_of_le hle htop hbot, ofBounds_of_le hbefore ((le_iff.1 hbefore).2.2.trans_lt htop)
      ((EReal.bot_lt_coe _).trans_le hfirst.2.2)]
    exact ⟨isEmpty_of_le hbefore, rfl⟩

/-! ### Pieces inside -/

/-- The pieces stay inside if and only if the last cut does. -/
theorem pieces_inside_iff (h : Divisible a n) :
    (∀ piece ∈ a.subdivide n, ∀ r : ℝ, r ∈ piece → r ∈ a) ↔ a.cut n (n - 1) ≤ a.ub := by
  have hpiece : (∀ piece ∈ a.subdivide n, ∀ r : ℝ, r ∈ piece → r ∈ a) ↔
      ∀ k < n, ∀ r : ℝ, IsLower (a.cut n k) r → IsUpper (a.cut n (k + 1)) r → r ∈ a := by
    simp only [subdivide, List.forall_mem_map, List.mem_range, mem_ofBounds, and_imp]
  rw [hpiece]
  constructor
  · intro hinside
    by_contra hbeyond
    have hlast : 0 < n - 1 := by
      refine Nat.pos_of_ne_zero fun hzero => hbeyond ?_
      rw [hzero, cut_zero]
      exact h.ordered
    -- some cut is the first one beyond
    obtain ⟨k, hk, hlow, hup⟩ := @exists_consecutive (fun k => a.cut n k ≤ a.ub)
      (fun k => ¬a.cut n k ≤ a.ub) _ hlast (by rw [cut_zero]; exact h.ordered) hbeyond
      fun k _ _ => em _
    have hnumber := h.isNaN_cut (show k + 1 ≤ n by omega)
    rw [le_iff, not_and, not_and] at hup
    obtain ⟨r, hr, hr'⟩ := EReal.lt_iff_exists_real_btwn.1
      (not_le.1 (hup hnumber (isNaN_of_isFinite h.finish)))
    refine hr.not_ge (hinside k (by omega) r ⟨(le_iff.1 hlow).1, ?_⟩ ⟨hnumber, hr'.le⟩).2.2
    exact (le_iff.1 hlow).2.2.trans hr.le
  · intro hlast k hk r hlow hup
    have hfirst := h.cut_mono (Nat.zero_le k) hk
    rw [cut_zero] at hfirst
    refine ⟨hlow.of_le hfirst, hup.of_le ?_⟩
    rcases Nat.lt_or_ge (k + 1) n with hnext | hend
    · exact Binary64.le_trans (h.cut_mono (show k + 1 ≤ n - 1 by omega) (by omega)) hlast
    · rw [show k + 1 = n by omega, cut_self h.some]
      exact le_self (isNaN_of_isFinite h.finish)

/-! ### The last cut -/

/-- A product that overflows puts the cut at infinity. -/
theorem cut_eq_inf (h : Divisible a n) (hk : 0 < k) (hkn : k < n)
    (hover : (a.diam * Float.ofNat k).isFinite = false) : a.cut n k = inf := by
  rcases isFinite_or_eq_inf_of_nonneg (h.approximates_product hk hkn.le).isNaN
    (h.product_nonneg hk hkn.le) with hfin | hinf
  · rw [hfin] at hover
    contradiction
  · have hadvance := h.approximates_advance hk hkn.le
    rw [hinf, value_inf, EReal.top_div_of_pos_ne_top
      (EReal.coe_pos.2 (real_ofNat_pos h.some h.few.le)) (EReal.coe_ne_top _)] at hadvance
    rw [cut_eq hk hkn, hadvance.eq_inf, (infinite_sum h.start).1.1]

/-- The diameter does not exceed a number that is not below the width. -/
theorem diam_le {u : Float} (h : Divisible a n) (hu : u.isFinite)
    (hle : real a.ub - real a.lb ≤ real u) : value a.diam ≤ value u := by
  have hwidth := (le_iff_real h.start h.finish).1 h.ordered
  rw [diam, isEmpty_of_le h.ordered, isUnbounded_of_isFinite h.start h.finish]
  have hneg : (-a.lb).isFinite = true := by rw [isFinite_neg_eq, h.start]
  refine addUp_le h.finish hneg hu ?_ ?_ <;> rw [real_neg] <;> linarith

theorem isFinite_diam (h : Divisible a n) (hk : 0 < k) (hkn : k ≤ n)
    (hfin : (a.diam * Float.ofNat k).isFinite) : a.diam.isFinite = true := by
  refine (isFinite_or_eq_inf_of_nonneg (isNaN_diam a) h.diam_nonneg).resolve_right fun hinf => ?_
  have hproduct := h.approximates_product hk hkn
  rw [hinf, value_inf,
    EReal.top_mul_coe_of_pos (real_ofNat_pos hk (hkn.trans h.few.le))] at hproduct
  rw [hinf, hproduct.eq_inf] at hfin
  contradiction

/-- There is a number within the width that the diameter exceeds by one place at most. -/
theorem exists_within_width (h : Divisible a n) (hfin : a.diam.isFinite) :
    ∃ c : Float, c.isFinite = true ∧ 0 ≤ real c ∧ real c ≤ real a.ub - real a.lb ∧
      2 ^ 52 * real a.diam ≤ (2 ^ 52 + 1) * real c := by
  have hwidth := sub_nonneg.2 ((le_iff_real h.start h.finish).1 h.ordered)
  have hdiam := width_le_diam h.start h.finish h.ordered
  rw [value_of_isFinite hfin, EReal.coe_le_coe_iff] at hdiam
  have hmax := (abs_le.1 (abs_real_le_maxFinite a.diam)).2
  have hround := roundsTo_sub h.finish h.start
  have hsub : (a.ub - a.lb).isFinite = true := by
    rw [hround.isFinite_iff, abs_of_nonneg hwidth]
    linarith [topPlace_pos]
  have hgrid : real a.ub - real a.lb ∈ grid (-1074) :=
    sub_mem (representable_real _).mem_grid_least (representable_real _).mem_grid_least
  obtain ⟨c, u, hc, hu, hcw, hwu, hcu⟩ := (hround.rounds hsub).exists_around hgrid hwidth
  have hc0 : 0 ≤ c := by linarith
  have hdu : real a.diam ≤ u := by
    rcases le_or_gt u (real maxFinite) with hle | hgt
    · obtain ⟨x, hx, rfl⟩ := exists_real_eq hu (hwidth.trans hwu) hle
      have hdiam := h.diam_le hx hwu
      rwa [value_of_isFinite hfin, value_of_isFinite hx, EReal.coe_le_coe_iff] at hdiam
    · exact hmax.trans hgt.le
  obtain ⟨x, hx, rfl⟩ := exists_real_eq hc hc0 (hcw.trans (hdiam.trans hmax))
  exact ⟨x, hx, hc0, hcw, by linarith⟩

/-- What the diameter and the product are rounded up by is less than the part that is left to the
last piece. -/
theorem advance_last_le {c : Float} (h : Divisible a (k + 1)) (hk : 0 < k) (hn : k ≤ 2 ^ 50)
    (hfin : (a.diam * Float.ofNat k).isFinite) (hc : c.isFinite) (hc0 : 0 ≤ real c)
    (hdc : 2 ^ 52 * real a.diam ≤ (2 ^ 52 + 1) * real c) :
    value (a.advance (k + 1) k) ≤ value c := by
  have hdiam := h.isFinite_diam hk (Nat.le_succ k) hfin
  have hfew : k + 1 ≤ 2 ^ 53 := by omega
  have hcount : (k : ℝ) ≤ 2 ^ 50 := by exact_mod_cast hn
  have hkc : (k : ℝ) * real c ≤ 2 ^ 50 * real c := mul_le_mul_of_nonneg_right hcount hc0
  have hkdc := mul_le_mul_of_nonneg_left hdc (Nat.cast_nonneg (α := ℝ) k)
  have hcount := isFinite_ofNat ((Nat.le_succ k).trans h.few.le)
  have hproduct := (roundsTo_mul hdiam hcount).rounds hfin
  rw [real_ofNat ((Nat.le_succ k).trans hfew), mul_comm] at hproduct
  have herr := hproduct.error_le_of_mem_grid (count_mul_mem_grid k a.diam)
  have hd0 := h.diam_nonneg
  rw [value_of_isFinite hdiam, EReal.coe_nonneg] at hd0
  rw [abs_of_nonneg (mul_nonneg (Nat.cast_nonneg k) hd0)] at herr
  have herr' := neg_abs_le (k * real a.diam - real (a.diam * Float.ofNat k))
  have hpart : real (a.diam * Float.ofNat k) ≤ real c * (k + 1 : ℕ) := by
    push_cast
    linarith
  have hadvance : RoundsTo _ (a.advance (k + 1) k) := roundsTo_div hfin (isFinite_ofNat h.few.le)
    (beq_zero_of_pos (real_ofNat_pos h.some h.few.le))
  rw [real_ofNat hfew] at hadvance
  exact hadvance.value_le hc ((div_le_iff₀ (by positivity)).2 hpart)

/-- Without an overflow the last cut is inside. -/
theorem cut_last_le (h : Divisible a (k + 1)) (hk : 0 < k) (hn : k ≤ 2 ^ 50)
    (hfin : (a.diam * Float.ofNat k).isFinite) : a.cut (k + 1) k ≤ a.ub := by
  obtain ⟨c, hc, hc0, hcw, hdc⟩ := h.exists_within_width (h.isFinite_diam hk (Nat.le_succ k) hfin)
  have hle := h.advance_last_le hk hn hfin hc hc0 hdc
  have hfinite : (a.advance (k + 1) k).isFinite = true := by
    refine (isFinite_or_eq_inf_of_nonneg (h.approximates_advance hk (Nat.le_succ k)).isNaN
      (h.advance_nonneg hk (Nat.le_succ k))).resolve_right fun hinf => ?_
    rw [hinf, value_of_isFinite hc] at hle
    exact hle.not_gt (EReal.coe_lt_top _)
  rw [value_of_isFinite hfinite, value_of_isFinite hc, EReal.coe_le_coe_iff] at hle
  rw [cut_eq hk (Nat.lt_succ_self k), le_iff]
  have hsum := roundsTo_add h.start hfinite
  exact ⟨hsum.isNaN, isNaN_of_isFinite h.finish, hsum.value_le h.finish (by linarith)⟩

/-- Up to `2 ^ 50` pieces, an overflow alone puts the last cut outside. -/
theorem cut_last_le_iff (h : Divisible a n) (hn : n ≤ 2 ^ 50) :
    a.cut n (n - 1) ≤ a.ub ↔ n = 1 ∨ (a.diam * Float.ofNat (n - 1)).isFinite = true := by
  obtain ⟨k, rfl⟩ := Nat.exists_eq_succ_of_ne_zero h.some.ne'
  rw [Nat.succ_eq_add_one, Nat.add_sub_cancel]
  rcases Nat.eq_zero_or_pos k with rfl | hk
  · rw [cut_zero]
    exact iff_of_true h.ordered (Or.inl rfl)
  · refine ⟨fun hle => Or.inr ?_, fun hfin => ?_⟩
    · by_contra hover
      rw [h.cut_eq_inf hk (Nat.lt_succ_self k) (Bool.eq_false_iff.2 hover), le_iff, value_inf,
        value_of_isFinite h.finish] at hle
      exact hle.2.2.not_gt (EReal.coe_lt_top _)
    · exact h.cut_last_le hk ((Nat.le_succ k).trans hn) (hfin.resolve_left (by omega))

end Divisible

/-! ### Exact covers -/

/-- No piece holds a real that the interval does not hold. -/
def StaysInside (a : Interval) (pieces : List Interval) : Prop :=
  ∀ piece ∈ pieces, ∀ r : ℝ, r ∈ piece → r ∈ a

/-- The pieces of a bounded interval that is not empty cover it, one starting where the one before
it ends. They hold nothing else if and only if the last cut is inside, which up to `2 ^ 50` pieces
is so unless its product with the diameter overflows. -/
theorem subdivide_covers_iff (hlb : a.lb.isFinite) (hub : a.ub.isFinite) (hle : a.lb ≤ a.ub)
    (h0 : 0 < n) (hn : n < 2 ^ 64) :
    (a.subdivide n).length = n ∧ (∀ r : ℝ, r ∈ a → ∃ piece ∈ a.subdivide n, r ∈ piece) ∧
      ((a.subdivide n).IsChain fun p q => q.isEmpty = false → p.isEmpty = false ∧ p.ub = q.lb) ∧
      (StaysInside a (a.subdivide n) ↔ a.cut n (n - 1) ≤ a.ub) ∧
      (n ≤ 2 ^ 50 → (StaysInside a (a.subdivide n) ↔
        n = 1 ∨ (a.diam * Float.ofNat (n - 1)).isFinite = true)) := by
  have h : Divisible a n := ⟨hlb, hub, hle, h0, hn⟩
  have hinside := h.pieces_inside_iff
  refine ⟨by simp [subdivide], fun r => ?_, h.meet_end_to_end, hinside, fun hfew => ?_⟩
  · exact exists_mem_subdivide_of_cuts h0 fun k _ hk => h.isNaN_cut hk.le
  · exact hinside.trans (h.cut_last_le_iff hfew)

/-- The quarters of the unit interval. -/
theorem subdivide_covers_unit : unit.lb.isFinite = true ∧ unit.ub.isFinite = true ∧
    unit.lb ≤ unit.ub ∧ 0 < 4 ∧ 4 < 2 ^ 64 ∧ (4 ≤ 2 ^ 50) ∧
      unit.subdivide 4 = [⟨0.0, 0.25⟩, ⟨0.25, 0.5⟩, ⟨0.5, 0.75⟩, ⟨0.75, 1.0⟩] ∧
      StaysInside unit (unit.subdivide 4) := by
  have hle : unit.lb ≤ unit.ub := by decide
  obtain ⟨-, -, -, -, hinside⟩ := @subdivide_covers_iff unit 4 rfl rfl hle (by norm_num) (by norm_num)
  refine ⟨rfl, rfl, hle, by norm_num, by norm_num, by norm_num, ?_, ?_⟩
  · rfl
  · exact (hinside (by norm_num)).2 (Or.inr (by decide +kernel))

/-- From zero to `2 ^ 1023`. -/
def halfRange : Interval := ⟨0.0, Float.ofBits 0x7fe0000000000000⟩

/-- Two times the diameter overflows, so the second quarter goes on to infinity. -/
theorem halfRange_quarters_outside : halfRange.lb.isFinite = true ∧ halfRange.ub.isFinite = true ∧
    halfRange.lb ≤ halfRange.ub ∧
    halfRange.subdivide 4 = [⟨0.0, Float.ofBits 0x7fc0000000000000⟩,
      ⟨Float.ofBits 0x7fc0000000000000, inf⟩, empty, empty] ∧
    ¬StaysInside halfRange (halfRange.subdivide 4) := by
  have hpieces : halfRange.subdivide 4 = [⟨0.0, Float.ofBits 0x7fc0000000000000⟩,
      ⟨Float.ofBits 0x7fc0000000000000, inf⟩, empty, empty] := by
    rfl
  have hbeyond : halfRange.ub < maxFinite := by decide
  have hpart : Float.ofBits 0x7fc0000000000000 ≤ maxFinite := by decide
  refine ⟨rfl, rfl, by decide, hpieces, fun h => ?_⟩
  have hmem := h ⟨Float.ofBits 0x7fc0000000000000, inf⟩ (by rw [hpieces]; simp) (real maxFinite)
    ⟨(isLower_iff_of_isFinite rfl).2 ((le_iff_real rfl rfl).1 hpart), rfl, le_top⟩
  have hup := (isUpper_iff_of_isFinite rfl).1 hmem.2
  exact hup.not_gt ((lt_iff_real rfl rfl).1 hbeyond)

end FlowTube.Interval

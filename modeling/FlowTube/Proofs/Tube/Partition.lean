import FlowTube.Proofs.Binary64.Multiples
import FlowTube.Proofs.Binary64.Tightness
import FlowTube.Proofs.Interval.Inclusion
import FlowTube.Proofs.Interval.Midpoint
import FlowTube.Proofs.Tube.Breakpoints

/-! The breakpoints of a new tube: the start, the rounded multiples of the step before the end, and
the end. Rounding keeps the multiples in order, but it takes several of them to one time where the
step is small against the times: then a breakpoint is repeated and the slice after it has no width.
A step of at least `2 ^ (-50)` of the greater end is large enough, since each of the two roundings
of a multiple errs by at most `2 ^ (-53)` of its magnitude. -/

namespace FlowTube.Tube

open Binary64

variable {ι : Type} {domain : Interval} {lb ub step t : Float} {i j fuel : ℕ}

/-! ### Rounded multiples -/

/-- The multiple `i` of the step from the start on. -/
def mark (lb step : Float) (i : ℕ) : Float := lb + Float.ofNat i * step

/-- A start and a step that multiples can be counted with. -/
structure Counted (lb step : Float) : Prop where
  start : lb.isFinite = true
  finite : step.isFinite = true
  positive : 0 < real step

namespace Counted

theorem approximates_multiple (h : Counted lb step) (hi : i ≤ 2 ^ 64) :
    Approximates (value (Float.ofNat i) * real step) (Float.ofNat i * step) := by
  have hfin := isFinite_ofNat hi
  refine approximates_mul (isNaN_of_isFinite hfin) ?_ h.finite h.positive
  rw [value_of_isFinite hfin]
  exact EReal.coe_nonneg.2 (real_ofNat_nonneg hi)

theorem multiple_nonneg (h : Counted lb step) (hi : i ≤ 2 ^ 64) :
    0 ≤ value (Float.ofNat i * step) := by
  refine (h.approximates_multiple hi).nonneg (mul_nonneg ?_ (EReal.coe_nonneg.2 h.positive.le))
  rw [value_of_isFinite (isFinite_ofNat hi)]
  exact EReal.coe_nonneg.2 (real_ofNat_nonneg hi)

theorem multiple_mono (h : Counted lb step) (hij : i ≤ j) (hj : j ≤ 2 ^ 64) :
    value (Float.ofNat i * step) ≤ value (Float.ofNat j * step) := by
  refine (h.approximates_multiple (hij.trans hj)).mono (h.approximates_multiple hj) ?_
  rw [value_of_isFinite (isFinite_ofNat hj), value_of_isFinite (isFinite_ofNat (hij.trans hj))]
  exact mul_le_mul_of_nonneg_right (EReal.coe_le_coe_iff.2 (real_ofNat_mono hij hj))
    (EReal.coe_nonneg.2 h.positive.le)

theorem approximates_mark (h : Counted lb step) (hi : i ≤ 2 ^ 64) :
    Approximates (value lb + value (Float.ofNat i * step)) (mark lb step i) :=
  approximates_add h.start (h.approximates_multiple hi).isNaN (h.multiple_nonneg hi)

theorem isNaN_mark (h : Counted lb step) (hi : i ≤ 2 ^ 64) : (mark lb step i).isNaN = false :=
  (h.approximates_mark hi).isNaN

theorem mark_mono (h : Counted lb step) (hij : i ≤ j) (hj : j ≤ 2 ^ 64) :
    mark lb step i ≤ mark lb step j := by
  refine le_iff.2 ⟨h.isNaN_mark (hij.trans hj), h.isNaN_mark hj, ?_⟩
  exact (h.approximates_mark (hij.trans hj)).mono (h.approximates_mark hj)
    (add_le_add_right (h.multiple_mono hij hj) _)

theorem le_mark (h : Counted lb step) (hi : i ≤ 2 ^ 64) : lb ≤ mark lb step i := by
  refine le_iff.2 ⟨isNaN_of_isFinite h.start, h.isNaN_mark hi,
    (h.approximates_mark hi).le_value h.start ?_⟩
  rw [value_of_isFinite h.start]
  exact le_add_of_nonneg_right (h.multiple_nonneg hi)

/-- The multiple zero is the start, but for the sign of a zero. -/
theorem value_mark_zero (h : Counted lb step) : value (mark lb step 0) = value lb := by
  have hzero : real (Float.ofNat 0) = 0 := by rw [real_ofNat (Nat.zero_le _), Nat.cast_zero]
  have hround := roundsTo_mul (isFinite_ofNat (Nat.zero_le _)) h.finite
  rw [hzero, zero_mul] at hround
  obtain ⟨hfin, hmultiple⟩ := hround.eq_of_number (c := 0.0) rfl
  have hsum := roundsTo_add h.start hfin
  rw [hmultiple, real_zero, add_zero] at hsum
  obtain ⟨hmark, heq⟩ := hsum.eq_of_number rfl
  rw [value_of_isFinite h.start, ← heq]
  exact value_of_isFinite hmark

/-- A mark within a bound on the magnitudes is near the exact one: each of its two roundings errs by
at most `2 ^ (-53)` of a size that the bound allows. -/
theorem mark_near (h : Counted lb step) (hi : i ≤ 2 ^ 53) {b : ℝ} (hlb : |real lb| ≤ b)
    (hfin : (mark lb step i).isFinite) (hmark : |real (mark lb step i)| ≤ b) :
    (2 ^ 53 - 1) * |real lb + i * real step - real (mark lb step i)| ≤ 7 / 2 * b := by
  have hi' : i ≤ 2 ^ 64 := hi.trans (by norm_num)
  have hmultiple := h.approximates_multiple hi'
  have hsum := h.approximates_mark hi'
  rw [value_of_isFinite (isFinite_ofNat hi'), real_ofNat hi, ← EReal.coe_mul] at hmultiple
  rcases isFinite_or_eq_inf_of_nonneg hmultiple.isNaN (h.multiple_nonneg hi') with hp | hinf
  · have herr := (hmultiple.rounds hp).error_le_of_mem_grid (count_mul_mem_grid i step)
    rw [value_of_isFinite h.start, value_of_isFinite hp, ← EReal.coe_add] at hsum
    have herr' := (hsum.rounds hfin).error_le_rounded (sum_mem_grid lb _)
    generalize real (mark lb step i) = m at *
    generalize real (Float.ofNat i * step) = p at *
    have hsize : |i * real step| ≤ |i * real step - p| + |real lb + p - m| + |real lb| + |m| := by
      have hsplit : i * real step = i * real step - p + (real lb + p - m) - real lb + m := by ring
      calc |i * real step| = |i * real step - p + (real lb + p - m) - real lb + m| := by
            rw [← hsplit]
        _ ≤ |i * real step - p + (real lb + p - m) - real lb| + |m| := abs_add_le ..
        _ ≤ |i * real step - p + (real lb + p - m)| + |real lb| + |m| := by
            gcongr
            exact abs_sub ..
        _ ≤ _ := by
            gcongr
            exact abs_add_le ..
    have htri : |real lb + i * real step - m| ≤ |i * real step - p| + |real lb + p - m| := by
      rw [show real lb + i * real step - m = i * real step - p + (real lb + p - m) by ring]
      exact abs_add_le ..
    have hnonneg := abs_nonneg (real lb)
    linarith
  · rw [mark, hinf, (infinite_sum h.start).1.1] at hfin
    contradiction

/-- A mark before the end is within the magnitudes of the ends. -/
theorem abs_mark_le (h : Counted lb step) (hub : ub.isFinite) (hi : i ≤ 2 ^ 64)
    (hlt : mark lb step i < ub) : (mark lb step i).isFinite = true ∧
      |real (mark lb step i)| ≤ max |real lb| |real ub| := by
  have hlow := h.le_mark hi
  have hup := Binary64.le_of_lt hlt
  have hfin := isFinite_of_between h.start hub hlow hup
  rw [le_iff_real h.start hfin] at hlow
  rw [le_iff_real hfin hub] at hup
  exact ⟨hfin, abs_le_max_abs_abs hlow hup⟩

/-- With a step that is not small against the ends, the end is reached before counts are rounded. -/
theorem count_le (h : Counted lb step) (hub : ub.isFinite)
    (hlarge : max |real lb| |real ub| ≤ 2 ^ 50 * real step) (hi : i ≤ 2 ^ 64)
    (hlt : mark lb step i < ub) : i ≤ 2 ^ 53 := by
  by_contra hge
  have hmono := h.mark_mono (not_le.1 hge).le hi
  obtain ⟨hfin, hmark⟩ := h.abs_mark_le hub (by norm_num) (Binary64.lt_of_le_of_lt hmono hlt)
  have hstart := le_max_left |real lb| |real ub|
  have hnear := h.mark_near le_rfl hstart hfin hmark
  rw [Nat.cast_pow, Nat.cast_ofNat] at hnear
  have hpos := h.positive
  generalize real (mark lb step (2 ^ 53)) = m at *
  have habs := le_abs_self (real lb + 2 ^ 53 * real step - m)
  have hlow := neg_abs_le (real lb)
  have hup := le_abs_self m
  generalize |real lb + 2 ^ 53 * real step - m| = d at *
  linarith

end Counted

/-! ### Marks that are apart -/

/-- No two successive multiples before the end of the domain are rounded to one time. -/
def StepsApart (domain : Interval) (step : Float) : Prop :=
  step.isFinite → 0.0 < step → ∀ i < 2 ^ 64, mark domain.lb step (i + 1) < domain.ub →
    mark domain.lb step i < mark domain.lb step (i + 1)

theorem counted_of_positive (hlb : lb.isFinite) (hstep : step.isFinite) (hpos : 0.0 < step) :
    Counted lb step :=
  ⟨hlb, hstep, by rwa [lt_iff_real rfl hstep, real_zero] at hpos⟩

/-- A step that is not small against the ends keeps the multiples apart. -/
theorem stepsApart_of_large (hlb : domain.lb.isFinite) (hub : domain.ub.isFinite)
    (hlarge : max |real domain.lb| |real domain.ub| ≤ 2 ^ 50 * real step) :
    StepsApart domain step := by
  intro hstep hpos i hi hlt
  have h := counted_of_positive hlb hstep hpos
  have hcount := h.count_le hub hlarge hi hlt
  have hstart := le_max_left |real domain.lb| |real domain.ub|
  have hmono := h.mark_mono (Nat.le_succ i) hi
  obtain ⟨hfin, hmark⟩ := h.abs_mark_le hub hi.le (Binary64.lt_of_le_of_lt hmono hlt)
  obtain ⟨hfin', hmark'⟩ := h.abs_mark_le hub hi hlt
  rw [lt_iff_real hfin hfin']
  by_contra hle
  -- both marks are near the exact ones, which are a step apart
  have hnear := h.mark_near ((Nat.le_succ i).trans hcount) hstart hfin hmark
  have hnear' := h.mark_near hcount hstart hfin' hmark'
  push_cast at hnear'
  have hspos := h.positive
  have hbelow := neg_abs_le (real domain.lb + i * real step - real (mark domain.lb step i))
  have habove := le_abs_self
    (real domain.lb + (i + 1) * real step - real (mark domain.lb step (i + 1)))
  linarith

/-! ### The breakpoints -/

/-- What neighbouring breakpoints from `t` on have in common is asked of the marks that are
counted, if the end comes after any time before it. -/
theorem isChain_stepsBelow (h : Counted lb step) {R : Float → Float → Prop}
    (hend : ∀ t, t < ub → R t ub) (hub : ub.isNaN = false) (ht : t < ub)
    (hfuel : i + fuel ≤ 2 ^ 64 + 1) :
    (t :: stepsBelow lb ub step fuel i ++ [ub]).IsChain R ↔
      (0 < fuel → mark lb step i < ub → R t (mark lb step i)) ∧
        ∀ j, i ≤ j → j + 1 < i + fuel → mark lb step (j + 1) < ub →
          R (mark lb step j) (mark lb step (j + 1)) := by
  induction fuel generalizing t i with
  | zero =>
    refine iff_of_true ?_ ⟨fun h0 => absurd h0 (lt_irrefl 0), fun j hij hj => by omega⟩
    simpa [stepsBelow] using hend t ht
  | succ fuel ih =>
    rw [stepsBelow]
    change (t :: (if mark lb step i ≥ ub then [] else
      mark lb step i :: stepsBelow lb ub step fuel (i + 1)) ++ [ub]).IsChain R ↔ _
    split_ifs with hdone
    -- the marks after one beyond the end are beyond the end too
    · have hbeyond : ∀ j, i ≤ j → j ≤ 2 ^ 64 → ¬mark lb step j < ub := fun j hij hj hlt =>
        not_lt.2 ((le_iff.1 hdone).2.2.trans (le_iff.1 (h.mark_mono hij hj)).2.2)
          (lt_iff.1 hlt).2.2
      refine iff_of_true (by simpa using hend t ht) ⟨fun _ hlt => ?_, fun j hij hj hlt => ?_⟩
      · exact absurd hlt (hbeyond i le_rfl (by omega))
      · exact absurd hlt (hbeyond (j + 1) (by omega) (by omega))
    · have hlt : mark lb step i < ub := by
        rw [ge_iff_le, le_iff, not_and, not_and] at hdone
        have hnumber := h.isNaN_mark (i := i) (by omega)
        exact lt_iff.2 ⟨hnumber, hub, not_le.1 (hdone hub hnumber)⟩
      rw [List.cons_append, List.cons_append, List.isChain_cons_cons, ← List.cons_append,
        ih hlt (by omega)]
      constructor
      · rintro ⟨hfirst, hnext, hrest⟩
        refine ⟨fun _ _ => hfirst, fun j hij hj hbelow => ?_⟩
        rcases Nat.eq_or_lt_of_le hij with rfl | hij
        · exact hnext (by omega) hbelow
        · exact hrest j hij (by omega) hbelow
      · rintro ⟨hfirst, hrest⟩
        exact ⟨hfirst (Nat.succ_pos _) hlt, fun h0 => hrest i le_rfl (by omega),
          fun j hij hj => hrest j (by omega) (by omega)⟩

/-- The same for all breakpoints, where marks count from zero on. -/
theorem isChain_partition (hlb : domain.lb.isFinite) (hub : domain.ub.isNaN = false)
    (hlt : domain.lb < domain.ub) {R : Float → Float → Prop}
    (hstart : ∀ t u, t.isNaN = false → value t = value domain.lb → (R t u ↔ R domain.lb u))
    (hend : ∀ t, t < domain.ub → R t domain.ub) :
    (partition domain step).IsChain R ↔ (step.isFinite → 0.0 < step → ∀ i < 2 ^ 64,
      mark domain.lb step (i + 1) < domain.ub →
        R (mark domain.lb step i) (mark domain.lb step (i + 1))) := by
  unfold partition
  dsimp only
  split_ifs with hstep
  · rw [Bool.and_eq_true, decide_eq_true_iff, gt_iff_lt] at hstep
    have h := counted_of_positive hlb hstep.2 hstep.1
    rw [isChain_stepsBelow h hend hub hlt (by norm_num)]
    have hzero := fun u => hstart _ u (h.isNaN_mark (Nat.zero_le _)) h.value_mark_zero
    constructor
    · rintro ⟨hfirst, hrest⟩ - - i hi hbelow
      rcases Nat.eq_zero_or_pos i with rfl | hpos
      · exact (hzero _).2 (hfirst (by norm_num) hbelow)
      · exact hrest i hpos (by omega) hbelow
    · intro hall
      refine ⟨fun _ hbelow => (hzero _).1 (hall hstep.2 hstep.1 0 (by norm_num) hbelow),
        fun j _ hj => hall hstep.2 hstep.1 j (by omega)⟩
  · refine iff_of_true (by simpa using hend _ hlt) fun hfin hpos => ?_
    rw [Bool.and_eq_true, decide_eq_true_iff] at hstep
    exact absurd ⟨hpos, hfin⟩ hstep

theorem partition_nondecreasing (hlb : domain.lb.isFinite) (hub : domain.ub.isFinite)
    (hlt : domain.lb < domain.ub) : (partition domain step).Pairwise (· ≤ ·) := by
  have : IsTrans Float (· ≤ ·) := ⟨fun _ _ _ => Binary64.le_trans⟩
  refine List.isChain_iff_pairwise.1
    ((isChain_partition hlb (isNaN_of_isFinite hub) hlt ?_ ?_).2 ?_)
  · intro t u hnumber ht
    rw [le_iff, le_iff, ht, hnumber, isNaN_of_isFinite hlb]
  · exact fun t => Binary64.le_of_lt
  · exact fun hfin hpos i hi _ => (counted_of_positive hlb hfin hpos).mark_mono (Nat.le_succ i) hi

theorem partition_increasing (hlb : domain.lb.isFinite) (hub : domain.ub.isFinite)
    (hlt : domain.lb < domain.ub) :
    (partition domain step).Pairwise (· < ·) ↔ StepsApart domain step := by
  have : IsTrans Float (· < ·) := ⟨fun _ _ _ => Binary64.lt_trans⟩
  refine List.isChain_iff_pairwise.symm.trans
    (isChain_partition hlb (isNaN_of_isFinite hub) hlt ?_ fun t => id)
  intro t u hnumber ht
  rw [lt_iff, lt_iff, ht, hnumber, isNaN_of_isFinite hlb]

/-! ### A new tube -/

theorem exists_uniform_eq (hlb : domain.lb.isFinite) (hub : domain.ub.isFinite)
    (hlt : domain.lb < domain.ub) (step : Float) (codomain : ι) :
    ∃ x, uniform domain step codomain = .ok x ∧ x.times.toList = partition domain step ∧ x.Fits := by
  have hdegenerate : domain.isDegenerate = false := by
    rw [Interval.isDegenerate, Interval.isEmpty_of_lt hlt, Bool.false_or]
    exact Bool.eq_false_iff.2 fun heq => (lt_iff.1 hlt).2.2.ne (beq_iff.1 heq).2.2
  have hunbounded := Interval.isUnbounded_of_isFinite hlb hub
  have hsize : 2 ≤ (partition domain step).length := by simp [partition]
  refine ⟨_, by rw [uniform, hdegenerate, hunbounded]; rfl, rfl, ?_⟩
  constructor <;> simp only [Array.size_replicate, List.size_toArray] <;> omega

/-- The breakpoints of a new tube go from the start of the domain to its end and never back. They
increase if and only if the step keeps its multiples apart, as any step does that is not small
against the ends of the domain. -/
theorem uniform_ordered_iff (hlb : domain.lb.isFinite) (hub : domain.ub.isFinite)
    (hlt : domain.lb < domain.ub) (step : Float) (codomain : ι) :
    (partition domain step).head? = some domain.lb ∧
      (partition domain step).getLast? = some domain.ub ∧
      (partition domain step).Pairwise (· ≤ ·) ∧
      ((partition domain step).Pairwise (· < ·) ↔ StepsApart domain step) ∧
      (max |real domain.lb| |real domain.ub| ≤ 2 ^ 50 * real step → StepsApart domain step) ∧
      ∃ x, uniform domain step codomain = .ok x ∧ x.times.toList = partition domain step ∧
        (x.Ordered ↔ StepsApart domain step) := by
  have hincreasing : (partition domain step).Pairwise (· < ·) ↔ StepsApart domain step :=
    partition_increasing hlb hub hlt
  refine ⟨by rw [partition, List.cons_append, List.head?_cons], List.getLast?_concat,
    partition_nondecreasing hlb hub hlt, hincreasing, stepsApart_of_large hlb hub, ?_⟩
  obtain ⟨x, hx, htimes, hfits⟩ := exists_uniform_eq hlb hub hlt step codomain
  refine ⟨x, hx, htimes, ?_⟩
  rw [← hincreasing, ← htimes]
  exact ⟨fun h => h.increasing, fun h => ⟨hfits, h⟩⟩

/-- The unit interval is cut at its half. -/
theorem uniform_ordered_unit : Interval.unit.lb.isFinite = true ∧
    Interval.unit.ub.isFinite = true ∧ Interval.unit.lb < Interval.unit.ub ∧
    partition Interval.unit 0.5 = [0.0, 0.5, 1.0] ∧
    ∃ x, uniform Interval.unit 0.5 Interval.whole = .ok x ∧ x.Ordered := by
  have hlt : Interval.unit.lb < Interval.unit.ub := by decide
  obtain ⟨-, -, -, -, hlarge, x, hx, -, hordered⟩ :=
    uniform_ordered_iff rfl rfl hlt 0.5 Interval.whole
  refine ⟨rfl, rfl, hlt, ?_, x, hx, hordered.2 (hlarge ?_)⟩
  · decide +kernel
  · change max |real 0.0| |real 1.0| ≤ 2 ^ 50 * real 0.5
    rw [real_zero, real_one, real_half]
    norm_num

/-- From `2 ^ 53` on, where numbers are two apart, a step of one repeats the start. -/
theorem partition_repeats_start :
    partition ⟨9007199254740992.0, 9007199254740996.0⟩ 1.0 =
        [9007199254740992.0, 9007199254740992.0, 9007199254740994.0, 9007199254740996.0] ∧
      ¬(partition ⟨9007199254740992.0, 9007199254740996.0⟩ 1.0).Pairwise (· < ·) := by
  decide +kernel

end FlowTube.Tube

import FlowTube.Proofs.Binary64.Roots
import FlowTube.Proofs.Binary64.TotalOrder

/-! How tight the directed operations are. The bits of a finite number and of its neighbour are next
to each other in the total order, so no number lies between them, and from an infinity the step
inward leads to the largest number: a bound that moves goes to the next number and no further, and
the step back undoes the move. What moves a bound is the residual of the rounded result, by the
two-sum identity or by the side of an exact product, or the result being tiny. An exact result that
is a number is its own rounding and has no residual, so the bounds stay at it, if it is a zero or
normal in the case of products and quotients. -/

namespace FlowTube.Binary64

variable {w x y z s c : Float} {r : ℝ}

/-! ### Neighbours in the order -/

/-- `z` is the greatest number below `s`. -/
structure IsNextBelow (z s : Float) : Prop where
  number : z.isNaN = false
  lt : value z < value s
  greatest {w : Float} : w.isNaN = false → value w < value s → value w ≤ value z

/-- `z` is the least number above `s`. -/
structure IsNextAbove (z s : Float) : Prop where
  number : z.isNaN = false
  gt : value s < value z
  least {w : Float} : w.isNaN = false → value s < value w → value z ≤ value w

theorem isNextAbove_nextUp (hs : s.isFinite) : IsNextAbove (nextUp s) s :=
  ⟨isNaN_nextUp hs, value_lt_nextUp hs, fun hw h => value_nextUp_le hs hw h⟩

/-- A sign turns the order around. -/
theorem IsNextAbove.neg (h : IsNextAbove z (-s)) : IsNextBelow (-z) s := by
  have hgt := h.gt
  rw [value_neg] at hgt
  refine ⟨by rw [isNaN_neg_eq]; exact h.number, ?_, fun {w} hw hlt => ?_⟩
  · rw [value_neg]
    exact EReal.neg_lt_of_neg_lt hgt
  · have hup := h.least (w := -w) (by rwa [isNaN_neg_eq])
      (by rwa [value_neg, value_neg, EReal.neg_lt_neg_iff])
    rw [value_neg] at hup ⊢
    exact EReal.le_neg_of_le_neg hup

theorem isNextBelow_nextDown (hs : s.isFinite) : IsNextBelow (nextDown s) s :=
  (isNextAbove_nextUp (by rwa [isFinite_neg_eq])).neg

/-- Above the negative infinity the finite numbers begin. -/
theorem isNextAbove_nextUp_negInf : IsNextAbove (nextUp negInf) negInf := by
  have hleast : nextUp negInf = -maxFinite := rfl
  rw [hleast]
  refine ⟨rfl, (lt_iff.1 (by decide)).2.2, fun {w} hw h => ?_⟩
  rcases isFinite_or_eq_inf hw with fw | rfl | rfl
  · rw [value_neg, value_of_isFinite isFinite_maxFinite, value_of_isFinite fw, ← EReal.coe_neg,
      EReal.coe_le_coe_iff]
    exact (abs_le.1 (abs_real_le_maxFinite w)).1
  · exact le_top
  · exact absurd h (lt_irrefl _)

theorem isNextAbove_of_ne_inf (hs : s.isNaN = false) (h : s ≠ inf) :
    IsNextAbove (nextUp s) s := by
  rcases isFinite_or_eq_inf hs with fs | rfl | rfl
  · exact isNextAbove_nextUp fs
  · exact absurd rfl h
  · exact isNextAbove_nextUp_negInf

theorem isNextBelow_of_ne_negInf (hs : s.isNaN = false) (h : s ≠ negInf) :
    IsNextBelow (nextDown s) s := by
  rcases isFinite_or_eq_inf hs with fs | rfl | rfl
  · exact isNextBelow_nextDown fs
  · exact isNextAbove_nextUp_negInf.neg
  · exact absurd rfl h

/-- The step back from the next number above leads to the number. -/
theorem IsNextAbove.back (h : IsNextAbove z s) (hs : s.isNaN = false) (hw : IsNextBelow w z) :
    (w == s) = true := by
  refine beq_iff.2 ⟨hw.number, hs, le_antisymm ?_ (hw.greatest hs h.gt)⟩
  exact not_lt.1 fun hlt => hw.lt.not_ge (h.least hw.number hlt)

theorem IsNextBelow.back (h : IsNextBelow z s) (hs : s.isNaN = false) (hw : IsNextAbove w z) :
    (w == s) = true := by
  refine beq_iff.2 ⟨hw.number, hs, le_antisymm (hw.least hs h.lt) ?_⟩
  exact not_lt.1 fun hlt => hw.gt.not_ge (h.greatest hw.number hlt)

/-- The neighbours of a number are the next ones in the order of the values, which ends with the
infinities, and the step back from a neighbour leads to the number. -/
theorem neighbours_adjacent (hx : x.isNaN = false) :
    (x ≠ inf → IsNextAbove (nextUp x) x ∧ (nextDown (nextUp x) == x) = true) ∧
      (x ≠ negInf → IsNextBelow (nextDown x) x ∧ (nextUp (nextDown x) == x) = true) := by
  constructor
  · intro hinf
    have hup := isNextAbove_of_ne_inf hx hinf
    have hne : nextUp x ≠ negInf := fun heq => by
      have hgt := hup.gt
      rw [heq] at hgt
      exact not_lt_bot hgt
    exact ⟨hup, hup.back hx (isNextBelow_of_ne_negInf hup.number hne)⟩
  · intro hneg
    have hdown := isNextBelow_of_ne_negInf hx hneg
    have hne : nextDown x ≠ inf := fun heq => by
      have hlt := hdown.lt
      rw [heq] at hlt
      exact not_top_lt hlt
    exact ⟨hdown, hdown.back hx (isNextAbove_of_ne_inf hdown.number hne)⟩

/-- The largest number has infinity next to it. -/
theorem neighbours_adjacent_maxFinite :
    maxFinite.isNaN = false ∧ IsNextAbove inf maxFinite ∧ (nextDown inf == maxFinite) = true ∧
      IsNextBelow (nextDown maxFinite) maxFinite ∧
        (nextUp (nextDown maxFinite) == maxFinite) = true := by
  obtain ⟨hup, hdown⟩ := neighbours_adjacent (x := maxFinite) rfl
  have hinf : nextUp maxFinite = inf := rfl
  rw [hinf] at hup
  exact ⟨rfl, (hup (by decide)).1, (hup (by decide)).2, hdown (by decide)⟩

/-! ### Tight bounds -/

/-- The bounds `down` and `up` of an exact result `r` with the rounding `s`: each of them is the
rounding, or its neighbour on the outer side, and where the exact result is itself a number of
those that `normal` admits, both are this number. Zeros of either sign are one number. -/
structure Tight (down up s : Float) (r : ℝ) (normal : Float → Prop) : Prop where
  below : s.isFinite → (down == s) = true ∨ IsNextBelow down s
  above : s.isFinite → (up == s) = true ∨ IsNextAbove up s
  sharp (c : Float) : c.isFinite → r = real c → normal c → (down == c) = true ∧ (up == c) = true

/-- A bound that moves at most once is the rounding or its neighbour. -/
theorem movedDown_tight {p : Prop} [Decidable p] (hs : s.isFinite) :
    ((if p then nextDown s else s) == s) = true ∨ IsNextBelow (if p then nextDown s else s) s := by
  split_ifs
  · exact Or.inr (isNextBelow_nextDown hs)
  · exact Or.inl ((beq_iff_real hs hs).2 rfl)

theorem movedUp_tight {p : Prop} [Decidable p] (hs : s.isFinite) :
    ((if p then nextUp s else s) == s) = true ∨ IsNextAbove (if p then nextUp s else s) s := by
  split_ifs
  · exact Or.inr (isNextAbove_nextUp hs)
  · exact Or.inl ((beq_iff_real hs hs).2 rfl)

/-- An exact result that is a number is rounded to it. -/
theorem RoundsTo.eq_of_number (h : RoundsTo r s) (hr : r = real c) :
    s.isFinite = true ∧ real s = real c := by
  subst hr
  exact h.eq_of_representable (representable_real c) (abs_real_le_maxFinite c)

/-- Bounds that stay or move by one test each are tight, if no test moves an exact result. -/
theorem tight_of_tests {down up : Float} {p q : Prop} [Decidable p] [Decidable q]
    {normal : Float → Prop} (hround : RoundsTo r s)
    (hdown : s.isFinite → down = if p then nextDown s else s)
    (hup : s.isFinite → up = if q then nextUp s else s)
    (hexact : ∀ c : Float, c.isFinite → real s = real c → normal c → s.isFinite → r = real s →
      ¬p ∧ ¬q) : Tight down up s r normal := by
  refine ⟨fun hs => ?_, fun hs => ?_, fun c hc hr hnormal => ?_⟩
  · rw [hdown hs]
    exact movedDown_tight hs
  · rw [hup hs]
    exact movedUp_tight hs
  · obtain ⟨hs, heq⟩ := hround.eq_of_number hr
    obtain ⟨hp, hq⟩ := hexact c hc heq hnormal hs (hr.trans heq.symm)
    rw [hdown hs, hup hs, if_neg hp, if_neg hq]
    exact ⟨(beq_iff_real hs hc).2 heq, (beq_iff_real hs hc).2 heq⟩

/-! ### The operations -/

/-- A zero or a normal number. -/
def ZeroOrNormal (c : Float) : Prop := (c == 0.0) = true ∨ isTiny c = false

theorem eq_of_real_eq (hx : x.isFinite) (hy : y.isFinite) (h0 : real x ≠ 0) (h : real x = real y) :
    x = y := by
  have hne {u : Float} (hu : real u ≠ 0) : u ≠ -0.0 := fun heq => hu (by rw [heq]; rfl)
  refine eq_of_value_eq (isNaN_of_isFinite hx) (isNaN_of_isFinite hy) (hne h0) (hne (h ▸ h0)) ?_
  rw [value_of_isFinite hx, value_of_isFinite hy, h]

theorem isTiny_of_real_eq (hs : s.isFinite) (hc : c.isFinite) (h0 : real s ≠ 0)
    (h : real s = real c) (hnormal : ZeroOrNormal c) : isTiny s = false := by
  rcases hnormal with hzero | htiny
  · exact absurd (h.trans (real_eq_zero hzero).2) h0
  · rwa [eq_of_real_eq hs hc h0 h]

theorem real_ne_zero (hx : x.isFinite) (h : (x == 0.0) = false) : real x ≠ 0 := fun h0 =>
  Bool.false_ne_true (h.symm.trans ((beq_iff_real hx rfl).2 h0))

theorem tight_zero {down up : Float} {normal : Float → Prop} (hs : RoundsTo 0 s)
    (hdown : (down == 0.0) = true) (hup : (up == 0.0) = true) : Tight down up s 0 normal := by
  obtain ⟨fs, hzero⟩ := hs.eq_of_number (c := 0.0) rfl
  obtain ⟨fdown, hdown⟩ := real_eq_zero hdown
  obtain ⟨fup, hup⟩ := real_eq_zero hup
  refine ⟨fun _ => Or.inl ?_, fun _ => Or.inl ?_, fun c hc hr _ => ⟨?_, ?_⟩⟩
  · exact (beq_iff_real fdown fs).2 (hdown.trans hzero.symm)
  · exact (beq_iff_real fup fs).2 (hup.trans hzero.symm)
  · exact (beq_iff_real fdown hc).2 (hdown.trans hr)
  · exact (beq_iff_real fup hc).2 (hup.trans hr)

theorem tight_add (hx : x.isFinite) (hy : y.isFinite) :
    Tight (addDown x y) (addUp x y) (x + y) (real x + real y) fun _ => True := by
  refine tight_of_tests (p := sumError x y (x + y) < 0.0) (q := sumError x y (x + y) > 0.0)
    (roundsTo_add hx hy) (fun hs => ?_) (fun hs => ?_) (fun c hc heq _ hs hr => ?_)
  · rw [addDown, isNaN_of_isFinite hs, isInf_of_isFinite hs]
    rfl
  · rw [addUp, isNaN_of_isFinite hs, isInf_of_isFinite hs]
    rfl
  · obtain ⟨hlt, hgt⟩ := sumError_sign hx hy hs
    rw [gt_iff_lt, hlt, hgt, hr]
    exact ⟨fun h => lt_irrefl _ h.1, fun h => lt_irrefl _ h.1⟩

theorem tight_mul (hx : x.isFinite) (hy : y.isFinite) :
    Tight (mulDown x y) (mulUp x y) (x * y) (real x * real y) ZeroOrNormal := by
  have hround := roundsTo_mul hx hy
  by_cases hzero : (x == 0.0 || y == 0.0) = true
  · have hr : real x * real y = 0 := by
      rcases Bool.or_eq_true_iff.1 hzero with h | h
      · rw [(real_eq_zero h).2, zero_mul]
      · rw [(real_eq_zero h).2, mul_zero]
    rw [hr] at hround ⊢
    rw [mulDown, mulUp, if_pos hzero, if_pos hzero]
    exact tight_zero hround rfl rfl
  have h0 := Bool.or_eq_false_iff.1 (Bool.eq_false_iff.2 hzero)
  refine tight_of_tests (p := (isTiny (x * y) || productSide x y (x * y) == .lt) = true)
    (q := (isTiny (x * y) || productSide x y (x * y) == .gt) = true)
    hround (fun hs => ?_) (fun hs => ?_) (fun c hc heq hnormal hs hr => ?_)
  · simp only [mulDown, if_neg hzero, isNaN_of_isFinite hs, isInf_of_isFinite hs]
    rfl
  · simp only [mulUp, if_neg hzero, isNaN_of_isFinite hs, isInf_of_isFinite hs]
    rfl
  · have hne : real (x * y) ≠ 0 := by
      rw [← hr]
      exact mul_ne_zero (real_ne_zero hx h0.1) (real_ne_zero hy h0.2)
    obtain ⟨hlt, hgt⟩ := productSide_iff hx hy hs
    rw [isTiny_of_real_eq hs hc hne heq hnormal, Bool.false_or, Bool.false_or, beq_iff_eq,
      beq_iff_eq, hlt, hgt, hr]
    constructor <;> linarith [leastPlace_pos]

theorem tight_div (hx : x.isFinite) (hy : y.isFinite) (y0 : (y == 0.0) = false) :
    Tight (divDown x y) (divUp x y) (x / y) (real x / real y) ZeroOrNormal := by
  have hround := roundsTo_div hx hy y0
  have hnan : (x / y).isNaN = false := (isNaN_mul_div (isNaN_of_isFinite hx) hy y0).2
  by_cases hzero : (x == 0.0) = true
  · have hr : real x / real y = 0 := by rw [(real_eq_zero hzero).2, zero_div]
    rw [hr] at hround ⊢
    rw [divDown, divUp, hnan, if_neg Bool.false_ne_true, if_neg Bool.false_ne_true, if_pos hzero,
      if_pos hzero]
    exact tight_zero hround rfl rfl
  refine tight_of_tests (p := (isTiny (x / y) || quotientSide x y (x / y) == .lt) = true)
    (q := (isTiny (x / y) || quotientSide x y (x / y) == .gt) = true)
    hround (fun hs => ?_) (fun hs => ?_) (fun c hc heq hnormal hs hr => ?_)
  · rw [divDown, hnan, if_neg Bool.false_ne_true, if_neg hzero, isInf_of_isFinite hs,
      isInf_of_isFinite hx, isInf_of_isFinite hy]
    rfl
  · rw [divUp, hnan, if_neg Bool.false_ne_true, if_neg hzero, isInf_of_isFinite hs,
      isInf_of_isFinite hx, isInf_of_isFinite hy]
    rfl
  · have hne : real (x / y) ≠ 0 := by
      rw [← hr]
      exact div_ne_zero (real_ne_zero hx (Bool.eq_false_iff.2 hzero)) (real_ne_zero hy y0)
    obtain ⟨hlt, hgt⟩ := quotientSide_iff hx hy y0 hs
    rw [isTiny_of_real_eq hs hc hne heq hnormal, Bool.false_or, Bool.false_or, beq_iff_eq,
      beq_iff_eq, hlt, hgt, hr]
    exact ⟨fun h => lt_irrefl _ h.1, fun h => lt_irrefl _ h.1⟩

theorem tight_sqrt (hx : x.isFinite) (h0 : 0 ≤ real x) :
    Tight (sqrtDown x) (sqrtUp x) x.sqrt √(real x) fun _ => True := by
  have hround := roundsTo_sqrt hx h0
  have hs := isFinite_sqrt hx h0
  by_cases hx0 : (x == 0.0) = true
  · rw [(real_eq_zero hx0).2, Real.sqrt_zero] at hround ⊢
    have hzero : (x.sqrt == 0.0) = true :=
      (beq_iff_real hs rfl).2 (hround.eq_of_number (c := 0.0) rfl).2
    refine tight_zero hround ?_ ?_
    · rwa [sqrtDown, hzero, Bool.or_true, if_pos rfl]
    · rw [sqrtUp, hs, if_neg (by decide), if_pos hzero, if_pos hx0]
      rfl
  refine tight_of_tests (p := (x.sqrt == 0.0) = false ∧ productSide x.sqrt x.sqrt x = .gt)
    (q := (x.sqrt == 0.0) = true ∨ productSide x.sqrt x.sqrt x = .lt) hround
    (fun _ => ?_) (fun _ => ?_) (fun c hc heq _ _ hr => ?_)
  · cases hzero : x.sqrt == 0.0 <;> simp [sqrtDown, hs, hzero]
  · cases hzero : x.sqrt == 0.0 <;> simp [sqrtUp, hs, hzero, hx0]
  · have hsquare : real x.sqrt * real x.sqrt = real x := by rw [← hr, Real.mul_self_sqrt h0]
    obtain ⟨hlt, hgt⟩ := productSide_iff hs hs hx
    rw [hlt, hgt, hsquare]
    refine ⟨fun h => ?_, fun h => ?_⟩
    · linarith [h.2, leastPlace_pos]
    · rcases h with hzero | h
      · rw [(real_eq_zero hzero).2, mul_zero] at hsquare
        exact hx0 ((beq_iff_real hx rfl).2 hsquare.symm)
      · linarith [leastPlace_pos]

/-- The directed operations on finite numbers move a rounded result by at most one step, and they
do not move an exact one, which for products and quotients is to be zero or normal. -/
theorem directed_tight (hx : x.isFinite) (hy : y.isFinite) :
    Tight (addDown x y) (addUp x y) (x + y) (real x + real y) (fun _ => True) ∧
      Tight (mulDown x y) (mulUp x y) (x * y) (real x * real y) ZeroOrNormal ∧
      ((y == 0.0) = false →
        Tight (divDown x y) (divUp x y) (x / y) (real x / real y) ZeroOrNormal) ∧
      (0.0 ≤ x → Tight (sqrtDown x) (sqrtUp x) x.sqrt √(real x) fun _ => True) :=
  ⟨tight_add hx hy, tight_mul hx hy, tight_div hx hy,
    fun h => tight_sqrt hx ((le_iff_real rfl hx).1 h)⟩

/-- One and three. -/
theorem directed_tight_one_three :
    Tight (addDown 1.0 3.0) (addUp 1.0 3.0) (1.0 + 3.0) (real 1.0 + real 3.0) (fun _ => True) ∧
      Tight (mulDown 1.0 3.0) (mulUp 1.0 3.0) (1.0 * 3.0) (real 1.0 * real 3.0) ZeroOrNormal ∧
      Tight (divDown 1.0 3.0) (divUp 1.0 3.0) (1.0 / 3.0) (real 1.0 / real 3.0) ZeroOrNormal ∧
      Tight (sqrtDown 1.0) (sqrtUp 1.0) (Float.sqrt 1.0) √(real 1.0) fun _ => True := by
  obtain ⟨hadd, hmul, hdiv, hsqrt⟩ := directed_tight (x := 1.0) (y := 3.0) rfl rfl
  exact ⟨hadd, hmul, hdiv (by decide), hsqrt (by decide)⟩

end FlowTube.Binary64

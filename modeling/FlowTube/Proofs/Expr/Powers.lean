import FlowTube.Expr.Program
import FlowTube.Proofs.Binary64.Integers
import FlowTube.Proofs.Interval.Membership

/-! Powers of intervals. A single integer as exponent stands for repeated multiplication, and any
other exponent for `exp (b ln a)`, with the logarithm of the positive members of the base. Zero has
no logarithm, but it is a limit of positive members if there are any, and intervals are closed; so
its powers are kept then. A base that is zero alone has an empty logarithm, and nothing is left of
its power. -/

namespace FlowTube

namespace Interval

open Binary64

variable {a b : Interval} {p r s : ℝ} {n : ℤ}

/-! ### Integer exponents -/

/-- The only member is an integer that fits 32 bits with its sign. -/
def IsInteger (b : Interval) (n : ℤ) : Prop := |n| ≤ 2147483647 ∧ ∀ s : ℝ, s ∈ b ↔ s = n

theorem value_of_single (h : ∀ s : ℝ, s ∈ b ↔ s = p) : value b.lb = p ∧ value b.ub = p := by
  have hp := (h p).2 rfl
  exact ⟨le_antisymm hp.1.2 (le_value_lb hp fun s hs => ((h s).1 hs).ge),
    le_antisymm (value_ub_le hp fun s hs => ((h s).1 hs).le) hp.2.2⟩

theorem real_largestInt : real 2147483647.0 = 2147483647 := by
  change (((2147483647 * 2 ^ 22 : ℕ) : ℤ) : ℝ) * 2 ^ (-22 : ℤ) = 2147483647
  norm_num

theorem abs_le_largestInt_iff {x : Float} (hx : x.isFinite) (h : real x = n) :
    x.abs ≤ 2147483647.0 ↔ |n| ≤ 2147483647 := by
  rw [le_iff_real (by simpa using hx) rfl, real_abs, real_largestInt, h, ← Int.cast_abs]
  norm_cast

/-- The test of the bounds finds exactly the exponents that are single integers. -/
theorem integer?_eq_some_iff : b.integer? = some n ↔ b.IsInteger n := by
  rw [integer?, IsInteger]
  constructor
  · intro h
    split_ifs at h with hcond
    simp only [Bool.and_eq_true, Bool.not_eq_true', decide_eq_true_eq, isDegenerate] at hcond
    obtain ⟨⟨⟨hdegenerate, hempty⟩, hintegral⟩, hle⟩ := hcond
    rw [hempty, Bool.false_or] at hdegenerate
    obtain ⟨hlb, m, hm⟩ := isIntegral_iff.1 hintegral
    obtain ⟨-, hnan, hvalue⟩ := beq_iff.1 hdegenerate
    rw [value_of_isFinite hlb, hm] at hvalue
    obtain ⟨hub, hub'⟩ := real_of_value hnan hvalue.symm
    have hsmall := (abs_le_largestInt_iff hlb hm).1 hle
    obtain rfl : m = n := by
      rw [← toInt_eq hlb hm (hsmall.trans_lt (by norm_num))]
      exact Option.some.inj h
    refine ⟨hsmall, fun s => ?_⟩
    change s ∈ (⟨b.lb, b.ub⟩ : Interval) ↔ _
    rw [mem_iff_of_isFinite hlb hub, hm, hub', le_antisymm_iff, and_comm]
  · rintro ⟨hsmall, hsingle⟩
    obtain ⟨hlb, hub⟩ := value_of_single hsingle
    obtain ⟨hlow, hup⟩ := (hsingle n).2 rfl
    obtain ⟨hfinite, hreal⟩ := real_of_value hlow.1 hlb
    have hdegenerate : (b.lb == b.ub) = true := beq_iff.2 ⟨hlow.1, hup.1, hlb.trans hub.symm⟩
    rw [if_pos, toInt_eq hfinite hreal (hsmall.trans_lt (by norm_num))]
    simp only [Bool.and_eq_true, Bool.not_eq_true', decide_eq_true_eq, isDegenerate]
    exact ⟨⟨⟨by rw [hdegenerate, Bool.or_true], isEmpty_of_mem ((hsingle n).2 rfl)⟩,
      isIntegral_iff.2 ⟨hfinite, n, hreal⟩⟩, (abs_le_largestInt_iff hfinite hreal).2 hsmall⟩

theorem integer?_eq_none (h : ¬∃ n, b.IsInteger n) : b.integer? = none :=
  Option.eq_none_iff_forall_ne_some.2 fun n hn => h ⟨n, integer?_eq_some_iff.1 hn⟩

/-! ### The two ways to a power -/

/-- The operations that a power calls enclose the exact results on these operands. -/
structure PowerParts (a b : Interval) : Prop where
  powInt {n : ℤ} {r : ℝ} : b.IsInteger n → r ∈ a → r ≠ 0 ∨ 0 ≤ n → r ^ n ∈ a.powInt n
  ln {r : ℝ} : r ∈ a → 0 < r → Real.log r ∈ a.ln
  mul {s u : ℝ} : s ∈ b → u ∈ a.ln → s * u ∈ b * a.ln
  exp {u : ℝ} : u ∈ b * a.ln → Real.exp u ∈ (b * a.ln).exp

theorem PowerParts.rpow_mem (h : PowerParts a b) (hr : r ∈ a) (h0 : 0 < r) (hs : s ∈ b) :
    r ^ s ∈ (b * a.ln).exp := by
  rw [Real.rpow_def_of_pos h0, mul_comm]
  exact h.exp (h.mul hs (h.ln hr h0))

/-- The powers of small positive members come as near to zero as one likes. -/
theorem PowerParts.zero_mem (h : PowerParts a b) (h0 : (0 : ℝ) ∈ a) (hp : p ∈ a) (hp0 : 0 < p)
    (hs : s ∈ b) (hs0 : 0 < s) : (0 : ℝ) ∈ (b * a.ln).exp := by
  have hlim : Filter.Tendsto (fun t : ℝ => t ^ s) (nhdsWithin 0 (Set.Ioi 0)) (nhds 0) := by
    have hcont := Real.continuousAt_rpow_const 0 s (Or.inr hs0.le)
    rw [ContinuousAt, Real.zero_rpow hs0.ne'] at hcont
    exact hcont.mono_left nhdsWithin_le_nhds
  refine (isClosed_members _).mem_of_tendsto hlim ?_
  filter_upwards [Ioo_mem_nhdsGT hp0] with t ht
  exact h.rpow_mem (mem_of_between h0 hp ht.1.le ht.2.le) ht.1 hs

/-- Zero with nothing above it has no logarithm. -/
theorem ln_eq_empty (h0 : (0 : ℝ) ∈ a) (h : ∀ p : ℝ, p ∈ a → p ≤ 0) : a.ln = empty := by
  have hub : value a.ub = 0 := le_antisymm (value_ub_le h0 h) h0.2.2
  have hmin : Binary64.min a.ub inf = a.ub := by
    rw [Binary64.min, if_neg (Bool.eq_false_iff.1 h0.2.1), if_neg]
    exact fun hlt => not_top_lt (lt_iff.1 hlt).2.2
  have hinter : (a ∩ nonneg).ub = a.ub := by
    change (ofBounds (Binary64.max a.lb 0.0) (Binary64.min a.ub inf)).ub = a.ub
    rw [ofBounds_eq (h0.1.max ⟨rfl, le_rfl⟩) (h0.2.min ⟨rfl, le_top⟩)]
    exact hmin
  have hzero : ((a ∩ nonneg).ub == 0.0) = true := by
    rw [hinter]
    exact beq_iff.2 ⟨h0.2.1, rfl, hub⟩
  rw [Interval.ln, hzero, Bool.or_true]
  rfl

theorem mul_empty (b : Interval) : b * empty = empty := by
  change b.mul empty = empty
  rw [mul, show empty.isEmpty = true from rfl, Bool.or_true]
  rfl

/-- A single integer is taken as the exponent of a repeated product. -/
theorem PowerParts.rpow_mem_of_isInteger (h : PowerParts a b) (hn : b.IsInteger n) (hr : r ∈ a)
    (hs : s ∈ b) (hdefined : r ≠ 0 ∨ 0 < s ∨ 0 ≤ n) : r ^ s ∈ Elementary.pow a b := by
  obtain rfl := (hn.2 s).1 hs
  rw [Elementary.pow, show Elementary.integer? b = some n from integer?_eq_some_iff.2 hn,
    Real.rpow_intCast]
  refine h.powInt hn hr (hdefined.imp_right ?_)
  rintro (hpos | h0)
  · exact_mod_cast hpos.le
  · exact h0

theorem pow_eq_exp (h : ¬∃ n, b.IsInteger n) : Elementary.pow a b = (b * a.ln).exp := by
  rw [Elementary.pow, show Elementary.integer? b = none from integer?_eq_none h]
  rfl

theorem pow_eq_empty (h : ¬∃ n, b.IsInteger n) (h0 : (0 : ℝ) ∈ a) (ha : ∀ p : ℝ, p ∈ a → p ≤ 0) :
    Elementary.pow a b = empty := by
  rw [pow_eq_exp h, ln_eq_empty h0 ha, mul_empty]
  rfl

theorem not_isInteger_half (n : ℤ) : ¬(point 0.5).IsInteger n := by
  intro h
  have hhalf := mem_point (x := 0.5) rfl
  rw [real_half] at hhalf
  have hn : (1 / 2 : ℝ) = n := (h.2 _).1 hhalf
  have hn2 : (1 : ℤ) = 2 * n := by
    have : (1 : ℝ) = 2 * n := by rw [← hn]; norm_num
    exact_mod_cast this
  omega

end Interval

namespace Machine

variable {a b : Interval} {r s : ℝ}

/-- What the machine leaves for a power of two operands has the power of two of their members, where
that is defined, unless the base is zero, has no positive member beside it, and the exponent is no
single integer. -/
theorem power_enclosed_iff (h : Interval.PowerParts a b) (hr : r ∈ a) (hs : s ∈ b)
    (hdomain : 0 < r ∨ (r = 0 ∧ 0 < s) ∨ ∃ n, b.IsInteger n ∧ (r ≠ 0 ∨ 0 ≤ n))
    (env : Surroundings Interval) (stack : List Interval) :
    ∃ c, step env (b :: a :: stack) .pow = .ok (c :: stack) ∧
      (r ^ s ∈ c ↔ 0 < r ∨ (∃ n, b.IsInteger n) ∨ ∃ p : ℝ, p ∈ a ∧ 0 < p) := by
  refine ⟨Elementary.pow a b, rfl, ?_⟩
  by_cases hinteger : ∃ n, b.IsInteger n
  · refine iff_of_true ?_ (Or.inr (Or.inl hinteger))
    obtain ⟨n, hn⟩ := hinteger
    refine h.rpow_mem_of_isInteger hn hr hs ?_
    rcases hdomain with hr0 | ⟨-, hs0⟩ | ⟨m, hm, hdefined⟩
    · exact Or.inl hr0.ne'
    · exact Or.inr (Or.inl hs0)
    · obtain rfl : n = m := by exact_mod_cast (hm.2 _).1 ((hn.2 n).2 rfl)
      exact hdefined.imp_right Or.inr
  · rcases hdomain with hr0 | ⟨rfl, hs0⟩ | ⟨n, hn, -⟩
    · rw [Interval.pow_eq_exp hinteger]
      exact iff_of_true (h.rpow_mem hr hr0 hs) (Or.inl hr0)
    · rw [Real.zero_rpow hs0.ne']
      by_cases hpositive : ∃ p : ℝ, p ∈ a ∧ 0 < p
      · obtain ⟨p, hp, hp0⟩ := hpositive
        rw [Interval.pow_eq_exp hinteger]
        exact iff_of_true (h.zero_mem hr hp hp0 hs hs0) (Or.inr (Or.inr ⟨p, hp, hp0⟩))
      · rw [Interval.pow_eq_empty hinteger hr fun p hp =>
          not_lt.1 fun hp0 => hpositive ⟨p, hp, hp0⟩]
        refine iff_of_false Interval.not_mem_empty ?_
        rintro (hlt | hn | hp)
        · exact hlt.false
        · exact hinteger hn
        · exact hpositive hp
    · exact absurd ⟨n, hn⟩ hinteger

/-- The root of zero is kept among the roots of all numbers from zero on. -/
theorem power_enclosed_iff_root : Interval.PowerParts .nonneg (.point 0.5) ∧
    ∃ c : Interval, step ⟨.whole, [], []⟩ [.point 0.5, .nonneg] .pow = .ok [c] ∧ (0 : ℝ) ∈ c := by
  have hln : Interval.nonneg.ln = .whole := Interval.eq_of_bounds
    (Binary64.eq_of_toBits_eq (by decide +kernel)) (Binary64.eq_of_toBits_eq (by decide +kernel))
  have hmul : Interval.point 0.5 * .whole = .whole := Interval.eq_of_bounds
    (Binary64.eq_of_toBits_eq (by decide +kernel)) (Binary64.eq_of_toBits_eq (by decide +kernel))
  have hexp : Interval.whole.exp = .nonneg := Interval.eq_of_bounds
    (Binary64.eq_of_toBits_eq (by decide +kernel)) (Binary64.eq_of_toBits_eq (by decide +kernel))
  have hparts : Interval.PowerParts .nonneg (.point 0.5) := by
    refine ⟨fun hn => absurd hn (Interval.not_isInteger_half _), ?_, ?_, ?_⟩ <;> rw [hln]
    · exact fun _ _ => Interval.mem_whole
    · rw [hmul]
      exact fun _ _ => Interval.mem_whole
    · rw [hmul, hexp]
      exact fun _ => Interval.mem_nonneg (Real.exp_pos _).le
  have hhalf : (1 / 2 : ℝ) ∈ Interval.point 0.5 := by
    rw [← Binary64.real_half]
    exact Interval.mem_point rfl
  obtain ⟨c, hstep, hmem⟩ := power_enclosed_iff hparts (Interval.mem_nonneg le_rfl) hhalf
    (Or.inr (Or.inl ⟨rfl, by norm_num⟩)) ⟨.whole, [], []⟩ []
  rw [Real.zero_rpow (by norm_num)] at hmem
  exact ⟨hparts, c, hstep, hmem.2 (Or.inr (Or.inr ⟨1, Interval.mem_nonneg zero_le_one, one_pos⟩))⟩

/-- The root of zero is missed where zero is all there is, though no operation on the way misses
anything. -/
theorem root_of_zero_missed : Interval.PowerParts (.point 0.0) (.point 0.5) ∧
    (0 : ℝ) ∈ Interval.point 0.0 ∧ (1 / 2 : ℝ) ∈ Interval.point 0.5 ∧
    step ⟨.whole, [], []⟩ [.point 0.5, .point 0.0] .pow = .ok [Interval.empty] ∧
    (0 : ℝ) ^ (1 / 2 : ℝ) = 0 ∧ (0 : ℝ) ∉ Interval.empty := by
  have hzero : ∀ r : ℝ, r ∈ Interval.point 0.0 → r ≤ 0 := fun r hr =>
    (Interval.mem_point_zero.1 hr).le
  have hln : (Interval.point 0.0).ln = .empty :=
    Interval.ln_eq_empty (Interval.mem_point_zero.2 rfl) hzero
  refine ⟨⟨fun hn => absurd hn (Interval.not_isInteger_half _), fun hr h0 =>
    absurd (hzero _ hr) (not_le.2 h0), ?_, ?_⟩, Interval.mem_point_zero.2 rfl, ?_, ?_,
    Real.zero_rpow (by norm_num), Interval.not_mem_empty⟩
  · rw [hln]
    exact fun _ hu => absurd hu Interval.not_mem_empty
  · rw [hln, Interval.mul_empty]
    exact fun hu => absurd hu Interval.not_mem_empty
  · rw [← Binary64.real_half]
    exact Interval.mem_point rfl
  · change Except.ok [Elementary.pow (Interval.point 0.0) (Interval.point 0.5)] = _
    rw [Interval.pow_eq_empty (fun ⟨n, hn⟩ => Interval.not_isInteger_half n hn)
      (Interval.mem_point_zero.2 rfl) hzero]

end Machine

end FlowTube

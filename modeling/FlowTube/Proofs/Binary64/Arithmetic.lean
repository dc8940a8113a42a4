import FlowTube.Proofs.Binary64.Numbers
import FlowTube.Proofs.Binary64.Rounding

/-! Sums, differences, products and quotients of numbers are the roundings of the exact
results. The core operations work on mantissas with a round bit and a sticky bit; these bits
tell on which side of the middle between two mantissas the exact value lies, through any
number of shifts, and so the rounded mantissa is the nearest one. Packing keeps a number
whose exponent fits and turns any other into the infinity of its sign. -/

namespace FlowTube.Binary64

open Float.Model (UnpackedFloat Format totalExponent)
open Float.Model.UnpackedFloat (Sign Accuracy ExtendedMantissa pack unpack)

/-! ### Mantissas with a remainder -/

section Mantissas

variable {m : ExtendedMantissa} {x : ℝ}

theorem StandsFor.bounds (h : StandsFor m x) : m.mantissa ≤ x ∧ x < m.mantissa + 1 := by
  obtain ⟨n, b, c⟩ := m
  cases b <;> cases c <;> simp only [StandsFor] at h <;> constructor <;> linarith

theorem StandsFor.shiftRightOne (h : StandsFor m x) : StandsFor m.shiftRightOne (x / 2) := by
  obtain ⟨n, b, c⟩ := m
  have hdiv : (n : ℝ) = 2 * (n / 2 : ℕ) + (n % 2 : ℕ) := by
    exact_mod_cast (Nat.div_add_mod n 2).symm
  rcases Nat.mod_two_eq_zero_or_one n with hn | hn <;> rw [hn] at hdiv <;>
    cases b <;> cases c <;>
      simp [StandsFor, ExtendedMantissa.shiftRightOne, hn, hdiv] at h ⊢ <;>
      first | linarith | (constructor <;> linarith)

theorem StandsFor.shiftRight (h : StandsFor m x) (k : ℕ) : StandsFor (m >>> k) (x / 2 ^ k) := by
  change StandsFor (k.repeat ExtendedMantissa.shiftRightOne m) _
  induction k with
  | zero => simpa [Nat.repeat] using h
  | succ k ih =>
    rw [pow_succ, ← div_div]
    exact ih.shiftRightOne

/-- The rounded mantissa is nearest, and in the middle it is even. -/
theorem StandsFor.roundedMantissa (h : StandsFor m x) :
    |x - m.roundedMantissa| ≤ 1 / 2 ∧
      (|x - m.roundedMantissa| = 1 / 2 → Even m.roundedMantissa) := by
  obtain ⟨n, b, c⟩ := m
  simp only [ExtendedMantissa.roundedMantissa]
  cases b <;> cases c <;> simp only [StandsFor] at h <;>
    simp only [ExtendedMantissa.accuracy, Accuracy.roundToNearestEven]
  · rw [h, sub_self, abs_zero]
    constructor <;> norm_num
  · rw [abs_of_pos (by linarith)]
    exact ⟨by linarith, fun heq => by linarith⟩
  · have heven : Even (n + n % 2) := by
      rcases Nat.mod_two_eq_zero_or_one n with hn | hn
      · exact Nat.even_iff.2 (by omega)
      · exact Nat.even_iff.2 (by omega)
    refine ⟨?_, fun _ => heven⟩
    rcases Nat.mod_two_eq_zero_or_one n with hn | hn <;> rw [hn, h] <;> push_cast
    · rw [abs_of_pos (by linarith)]
      linarith
    · rw [abs_of_neg (by linarith)]
      linarith
  · push_cast
    rw [abs_of_neg (by linarith)]
    exact ⟨by linarith, fun heq => by linarith⟩

theorem standsFor_exact (n : ℕ) : StandsFor (.ofMantissaAndAccuracy n .exact) n := rfl

/-- A quotient with remainder. -/
theorem standsFor_accuracyOfFraction {n d : ℕ} (hd : 0 < d) :
    StandsFor (.ofMantissaAndAccuracy (n / d) (UnpackedFloat.accuracyOfFraction (n % d) d))
      (n / d) := by
  have hdR : (0 : ℝ) < d := by exact_mod_cast hd
  have hx : (n : ℝ) / d = (n / d : ℕ) + (n % d : ℕ) / d := by
    rw [add_div' _ _ _ hdR.ne', div_left_inj' hdR.ne', mul_comm]
    exact_mod_cast (Nat.div_add_mod n d).symm
  have hlt : n % d < d := Nat.mod_lt n hd
  rw [hx]
  generalize n / d = q
  generalize n % d = k at hlt
  have hltR : (k : ℝ) < d := by exact_mod_cast hlt
  unfold UnpackedFloat.accuracyOfFraction
  split_ifs with h0
  · simp [StandsFor, ExtendedMantissa.ofMantissaAndAccuracy, h0]
  have hk : (0 : ℝ) < k / d := div_pos (by exact_mod_cast Nat.pos_of_ne_zero h0) hdR
  have hk1 : (k : ℝ) / d < 1 := (div_lt_one hdR).2 hltR
  rcases Nat.lt_trichotomy (2 * k) d with h | h | h
  · rw [Nat.compare_eq_lt.2 h]
    have : (k : ℝ) / d < 1 / 2 := by
      rw [div_lt_div_iff₀ hdR two_pos]
      exact_mod_cast (by omega : k * 2 < 1 * d)
    simp only [StandsFor, ExtendedMantissa.ofMantissaAndAccuracy]
    constructor <;> linarith
  · rw [Nat.compare_eq_eq.2 h]
    have : (k : ℝ) / d = 1 / 2 := by
      rw [div_eq_div_iff hdR.ne' two_ne_zero]
      exact_mod_cast (by omega : k * 2 = 1 * d)
    simp only [StandsFor, ExtendedMantissa.ofMantissaAndAccuracy]
    linarith
  · rw [Nat.compare_eq_gt.2 h]
    have : 1 / 2 < (k : ℝ) / d := by
      rw [div_lt_div_iff₀ two_pos hdR]
      exact_mod_cast (by omega : 1 * d < k * 2)
    simp only [StandsFor, ExtendedMantissa.ofMantissaAndAccuracy]
    constructor <;> linarith

end Mantissas

/-! ### Unpacked results -/

/-- The unpacked number of a sign, a mantissa that may be zero, and an exponent. -/
def ofParts (s : Sign) (n : ℕ) (e : ℤ) : UnpackedFloat :=
  if h : n = 0 then .zero s else .finite s n e (Nat.pos_of_ne_zero h)

section Parts

variable {s : Sign} {n : ℕ} {e : ℤ}

theorem isFinite_ofParts : (ofParts s n e).isFinite = true := by
  unfold ofParts
  split_ifs <;> rfl

theorem unpackedReal_ofParts : unpackedReal (ofParts s n e) = s.apply n * 2 ^ e := by
  unfold ofParts
  split_ifs with h
  · cases s <;> simp [unpackedReal, Sign.apply, h]
  · rfl

theorem canonical_ofParts (hn : n < 2 ^ 53) (he : -1074 ≤ e) (hfull : 2 ^ 52 ≤ n ∨ e = -1074) :
    Canonical (ofParts s n e) := by
  unfold ofParts
  split_ifs
  · trivial
  · exact ⟨hn, he, hfull⟩

end Parts

/-- An unpacked number in the form of the format is the rounding of `r`. -/
structure UnpackedRounds (r : ℝ) (u : UnpackedFloat) : Prop where
  finite : u.isFinite = true
  canonical : Canonical u
  rounds : Rounds r (unpackedReal u)

/-- A finite number in the form of the format is its own rounding. -/
theorem unpackedRounds_self {u : UnpackedFloat} (hf : u.isFinite = true) (hc : Canonical u) :
    UnpackedRounds (unpackedReal u) u := by
  refine ⟨hf, hc, ?_⟩
  cases u, hf using finite_cases with
  | zero s =>
    refine ⟨-1074, le_rfl, ?_, Or.inr rfl, zero_mem _, ?_, fun htie => zero_mem _⟩
    · rw [unpackedReal_zero, abs_zero]; positivity
    · rw [sub_self, abs_zero]; positivity
  | finite s m e hm =>
    obtain ⟨hlt, hle, hfull⟩ := hc
    have hpos : (0 : ℝ) < 2 ^ e := by positivity
    have habs : |unpackedReal (.finite s m e hm)| = m * 2 ^ e := by
      cases s <;> simp [unpackedReal, Sign.apply, abs_mul, abs_of_pos hpos]
    refine ⟨e, hle, ?_, ?_, mul_mem_grid _ _, ?_, fun htie => ?_⟩
    · rw [habs]
      gcongr
      exact_mod_cast hlt
    · rw [habs]
      refine hfull.imp_left fun h => ?_
      gcongr
      exact_mod_cast h
    · rw [sub_self, abs_zero]; positivity
    · rw [sub_self, abs_zero] at htie
      linarith

theorem unpackedRounds_zero (s : Sign) : UnpackedRounds 0 (.zero s) :=
  unpackedRounds_self (u := .zero s) rfl trivial

theorem targetExponent_eq (m : ℕ) (e : ℤ) :
    Format.binary64.targetExponent (totalExponent m e) = Max.max (m.log2 + e - 52 : ℤ) (-1074) := by
  simp [Format.targetExponent, totalExponent, Format.mantissaBits, Format.minExponent]
  omega

/-- Shifting a mantissa that fits, or is the power of two above, loses nothing. -/
theorem shiftToTargetExponent_exact {n : ℕ} {e : ℤ} (he : -1074 ≤ e) (hn : n ≤ 2 ^ 53) :
    (UnpackedFloat.shiftToTargetExponent .binary64 n e .exact).1.mantissa =
        (if n < 2 ^ 53 then n else 2 ^ 52) ∧
      (UnpackedFloat.shiftToTargetExponent .binary64 n e .exact).2 =
        if n < 2 ^ 53 then e else e + 1 := by
  unfold UnpackedFloat.shiftToTargetExponent UnpackedFloat.shiftToExponent
  rw [targetExponent_eq]
  dsimp only
  split_ifs with hlt
  · have hlog : n.log2 ≤ 52 := by
      by_cases h0 : n = 0
      · simp [h0]
      · have := (Nat.log2_lt h0).2 hlt
        omega
    rw [show (Max.max ((n.log2 : ℤ) + e - 52) (-1074) - e).toNat = 0 by omega]
    exact ⟨rfl, by simp⟩
  · obtain rfl : n = 2 ^ 53 := by omega
    have hlog : Nat.log2 (2 ^ 53) = 53 := Nat.log2_two_pow
    rw [hlog, show (Max.max (((53 : ℕ) : ℤ) + e - 52) (-1074) - e).toNat = 1 by omega]
    exact ⟨rfl, rfl⟩

/-- The first shift leads to the target exponent, if that is not below the given one. -/
theorem shiftToTargetExponent_eq {m : ℕ} {e t : ℤ} (a : Accuracy)
    (ht : t = Max.max (m.log2 + e - 52 : ℤ) (-1074)) (he : e ≤ t) :
    UnpackedFloat.shiftToTargetExponent .binary64 m e a =
      (ExtendedMantissa.ofMantissaAndAccuracy m a >>> (t - e).toNat, t) := by
  unfold UnpackedFloat.shiftToTargetExponent UnpackedFloat.shiftToExponent
  rw [targetExponent_eq, ← ht]
  exact Prod.ext rfl (by dsimp only; omega)

theorem roundWithAccuracy_eq {s : Sign} {m : ℕ} {e : ℤ} {a : Accuracy} {em : ExtendedMantissa}
    {t : ℤ} (hfirst : UnpackedFloat.shiftToTargetExponent .binary64 m e a = (em, t))
    (ht : -1074 ≤ t) (hn : em.roundedMantissa ≤ 2 ^ 53) :
    UnpackedFloat.roundWithAccuracy .binary64 s m e a =
      if em.roundedMantissa < 2 ^ 53 then ofParts s em.roundedMantissa t
      else ofParts s (2 ^ 52) (t + 1) := by
  have hsecond := shiftToTargetExponent_exact ht hn
  unfold UnpackedFloat.roundWithAccuracy
  rw [hfirst]
  dsimp only
  rw [hsecond.1, hsecond.2]
  unfold ofParts
  split_ifs <;> rfl

/-! ### The target exponent -/

section Target

variable {m : ℕ} {e t : ℤ} {r : ℝ}

theorem two_pow_mul_zpow (k : ℕ) (e : ℤ) : (2 : ℝ) ^ k * 2 ^ e = 2 ^ (k + e) := by
  rw [zpow_add₀ two_ne_zero, zpow_natCast]

theorem lt_of_targetExponent (ht : t = Max.max (m.log2 + e - 52 : ℤ) (-1074))
    (hr : r < (m + 1) * 2 ^ e) : r < 2 ^ 53 * 2 ^ t := by
  have hm : (m : ℝ) + 1 ≤ 2 ^ (m.log2 + 1) := by exact_mod_cast Nat.lt_log2_self
  calc r < (m + 1) * 2 ^ e := hr
    _ ≤ 2 ^ (m.log2 + 1) * 2 ^ e := by gcongr
    _ = 2 ^ (((m.log2 + 1 : ℕ) : ℤ) + e) := two_pow_mul_zpow _ _
    _ ≤ 2 ^ (((53 : ℕ) : ℤ) + t) := zpow_mono (by push_cast; omega)
    _ = 2 ^ 53 * 2 ^ t := (two_pow_mul_zpow _ _).symm

theorem le_of_targetExponent (ht : t = Max.max (m.log2 + e - 52 : ℤ) (-1074)) (he : e ≤ t)
    (hr : m * 2 ^ e ≤ r) : 2 ^ 52 * 2 ^ t ≤ r ∨ t = -1074 := by
  by_cases hmin : t = -1074
  · exact Or.inr hmin
  left
  have h0 : m ≠ 0 := by
    rintro rfl
    simp at ht
    omega
  have hm : (2 : ℝ) ^ m.log2 ≤ m := by exact_mod_cast Nat.log2_self_le h0
  calc (2 : ℝ) ^ 52 * 2 ^ t = 2 ^ (((52 : ℕ) : ℤ) + t) := two_pow_mul_zpow _ _
    _ ≤ 2 ^ ((m.log2 : ℤ) + e) := zpow_mono (by push_cast; omega)
    _ = 2 ^ m.log2 * 2 ^ e := (two_pow_mul_zpow _ _).symm
    _ ≤ m * 2 ^ e := by gcongr
    _ ≤ r := hr

/-- A nearest mantissa, even in the middle, makes a rounding. -/
theorem roundsAt_of_nearest {n : ℕ} (hr : 0 ≤ r) (ht : -1074 ≤ t) (hbelow : r < 2 ^ 53 * 2 ^ t)
    (hfull : 2 ^ 52 * 2 ^ t ≤ r ∨ t = -1074) (hnear : |r / 2 ^ t - n| ≤ 1 / 2)
    (htie : |r / 2 ^ t - n| = 1 / 2 → Even n) : RoundsAt t r (n * 2 ^ t) := by
  have hpos : (0 : ℝ) < 2 ^ t := by positivity
  have hscale : |r - n * 2 ^ t| = |r / 2 ^ t - n| * 2 ^ t := by
    rw [← abs_of_pos hpos, ← abs_mul, abs_of_pos hpos, sub_mul, div_mul_cancel₀ _ hpos.ne']
  refine ⟨ht, by rwa [abs_of_nonneg hr], by rwa [abs_of_nonneg hr], mem_grid.2 ⟨n, by norm_cast⟩,
    ?_, fun heq => ?_⟩
  · rw [hscale]
    nlinarith
  · rw [hscale] at heq
    obtain ⟨k, hk⟩ := htie (mul_right_cancel₀ hpos.ne' (heq.trans (by ring)))
    refine mem_grid.2 ⟨k, ?_⟩
    rw [hk, zpow_succ]
    push_cast
    ring

/-- A nearest mantissa fits, or carries into one more place. -/
theorem mantissa_bounds {n : ℕ} (hbelow : r < 2 ^ 53 * 2 ^ t)
    (hfull : 2 ^ 52 * 2 ^ t ≤ r ∨ t = -1074) (hnear : |r / 2 ^ t - n| ≤ 1 / 2) :
    n ≤ 2 ^ 53 ∧ (2 ^ 52 ≤ n ∨ t = -1074) := by
  have hpos : (0 : ℝ) < 2 ^ t := by positivity
  obtain ⟨hlow, hup⟩ := abs_le.1 hnear
  constructor
  · have hlt : r / 2 ^ t < 2 ^ 53 := (div_lt_iff₀ hpos).2 hbelow
    have hn : (n : ℝ) < 2 ^ 53 + 1 := by linarith
    have : n < 2 ^ 53 + 1 := by exact_mod_cast hn
    omega
  · refine hfull.imp_left fun h => ?_
    have hge : (2 : ℝ) ^ 52 ≤ r / 2 ^ t := (le_div_iff₀ hpos).2 h
    have hn : (2 : ℝ) ^ 52 < n + 1 := by linarith
    have : 2 ^ 52 < n + 1 := by exact_mod_cast hn
    omega

end Target

/-- The sign of a number as a factor. -/
theorem sign_apply (s : Sign) (n : ℕ) : ((s.apply n : ℤ) : ℝ) = s.apply 1 * n := by
  cases s <;> simp [Sign.apply]

theorem Rounds.sign {r z : ℝ} (h : Rounds r z) (s : Sign) :
    Rounds (s.apply 1 * r) (s.apply 1 * z) := by
  cases s with
  | negative => simpa [Sign.apply] using h.neg
  | positive => simpa [Sign.apply] using h

theorem mantissa_ofMantissaAndAccuracy (m : ℕ) (a : Accuracy) :
    (ExtendedMantissa.ofMantissaAndAccuracy m a).mantissa = m := by
  rcases a with _ | o
  · rfl
  · cases o <;> rfl

/-- A mantissa with enough places, or at a low enough exponent, is rounded correctly. -/
theorem unpackedRounds_roundWithAccuracy {s : Sign} {m : ℕ} {e : ℤ} {a : Accuracy} {r : ℝ}
    (hr : StandsFor (.ofMantissaAndAccuracy m a) (r / 2 ^ e))
    (he : e ≤ Max.max (m.log2 + e - 52 : ℤ) (-1074)) :
    UnpackedRounds (s.apply 1 * r) (UnpackedFloat.roundWithAccuracy .binary64 s m e a) := by
  obtain ⟨t, ht⟩ : ∃ t, t = Max.max (m.log2 + e - 52 : ℤ) (-1074) := ⟨_, rfl⟩
  rw [← ht] at he
  have hpos : (0 : ℝ) < 2 ^ e := by positivity
  obtain ⟨hlow, hup⟩ := hr.bounds
  rw [mantissa_ofMantissaAndAccuracy] at hlow hup
  rw [le_div_iff₀ hpos] at hlow
  rw [div_lt_iff₀ hpos] at hup
  have hr0 : 0 ≤ r := le_trans (by positivity) hlow
  have hbelow := lt_of_targetExponent ht hup
  have hfull := le_of_targetExponent ht he hlow
  have hfirst := shiftToTargetExponent_eq a ht he
  have hstands := hr.shiftRight (t - e).toNat
  rw [div_div, ← zpow_natCast, ← zpow_add₀ two_ne_zero,
    show e + ((t - e).toNat : ℤ) = t by omega] at hstands
  obtain ⟨hnear, htie⟩ := hstands.roundedMantissa
  have hround := Rounds.sign ⟨t, roundsAt_of_nearest hr0 (by omega) hbelow hfull hnear htie⟩ s
  obtain ⟨hn, hn'⟩ := mantissa_bounds hbelow hfull hnear
  rw [roundWithAccuracy_eq hfirst (by omega) hn]
  generalize (ExtendedMantissa.ofMantissaAndAccuracy m a >>> (t - e).toNat).roundedMantissa = n at *
  split_ifs with hlt
  · refine ⟨isFinite_ofParts, canonical_ofParts hlt (by omega) hn', ?_⟩
    rwa [unpackedReal_ofParts, sign_apply, mul_assoc]
  · refine ⟨isFinite_ofParts, canonical_ofParts (by norm_num) (by omega) (Or.inl le_rfl), ?_⟩
    have hcarry : ((2 ^ 52 : ℕ) : ℝ) * 2 ^ (t + 1) = n * 2 ^ t := by
      rw [show n = 2 ^ 53 by omega, zpow_succ]
      push_cast
      ring
    rwa [unpackedReal_ofParts, sign_apply, mul_assoc, hcarry]

theorem log2_shiftLeft {m : ℕ} (hm : m ≠ 0) (k : ℕ) : (m <<< k).log2 = m.log2 + k := by
  rw [Nat.shiftLeft_eq, Nat.log2_eq_iff (by positivity)]
  have hlow := Nat.log2_self_le hm
  have hup := Nat.lt_log2_self (n := m)
  constructor
  · rw [pow_add]
    gcongr
  · rw [show m.log2 + k + 1 = m.log2 + 1 + k by omega, pow_add]
    gcongr

theorem shiftLeft_mul_zpow (m k : ℕ) (e : ℤ) :
    ((m <<< k : ℕ) : ℝ) * 2 ^ (e - k) = m * 2 ^ e := by
  rw [Nat.shiftLeft_eq, zpow_sub₀ two_ne_zero, zpow_natCast]
  push_cast
  field_simp

theorem unpackedRounds_round (s : Sign) {m : ℕ} (hm : m ≠ 0) (e : ℤ) :
    UnpackedRounds (s.apply 1 * (m * 2 ^ e)) (UnpackedFloat.round .binary64 s m e) := by
  unfold UnpackedFloat.round UnpackedFloat.decreaseExponent
  rw [targetExponent_eq]
  dsimp only
  obtain ⟨k, hk⟩ : ∃ k, k = (e - Max.max ((m.log2 : ℤ) + e - 52) (-1074)).toNat := ⟨_, rfl⟩
  rw [← hk]
  refine unpackedRounds_roundWithAccuracy ?_ ?_
  · rw [← shiftLeft_mul_zpow m k, mul_div_assoc, div_self (by positivity), mul_one]
    exact standsFor_exact _
  · rw [log2_shiftLeft hm]
    push_cast
    omega

theorem unpackedRounds_normalize (m e : ℤ) (s : Sign) :
    UnpackedRounds (m * 2 ^ e) (UnpackedFloat.normalize .binary64 m e s) := by
  unfold UnpackedFloat.normalize
  rcases lt_trichotomy m 0 with h | h | h
  · rw [Int.compare_eq_lt.2 h]
    have hm : (m : ℝ) = -((-m).toNat : ℝ) := by
      have : m = -((-m).toNat : ℤ) := by omega
      exact_mod_cast congrArg (Int.cast : ℤ → ℝ) this
    have := unpackedRounds_round .negative (m := (-m).toNat) (by omega) e
    rw [hm]
    simpa [Sign.apply] using this
  · rw [Int.compare_eq_eq.2 h, h]
    rw [Int.cast_zero, zero_mul]
    exact unpackedRounds_zero s
  · rw [Int.compare_eq_gt.2 h]
    have hm : (m : ℝ) = (m.toNat : ℝ) := by
      have : m = (m.toNat : ℤ) := by omega
      exact_mod_cast congrArg (Int.cast : ℤ → ℝ) this
    have := unpackedRounds_round .positive (m := m.toNat) (by omega) e
    rw [hm]
    simpa [Sign.apply] using this

/-! ### Unpacked operations -/

section Operations

variable {u v : UnpackedFloat}

theorem decreaseExponent_eq (s : Sign) (m : ℕ) {e t : ℤ} (ht : t ≤ e) :
    ((s.apply (UnpackedFloat.decreaseExponent m e t).1 : ℤ) : ℝ) * 2 ^ t = s.apply m * 2 ^ e := by
  have hexp : e - ((e - t).toNat : ℤ) = t := by omega
  have hshift := shiftLeft_mul_zpow m (e - t).toNat e
  rw [hexp] at hshift
  rw [sign_apply, sign_apply, mul_assoc, mul_assoc, ← hshift]
  rfl

theorem unpackedRounds_add (hu : Canonical u) (hv : Canonical v) (fu : u.isFinite = true)
    (fv : v.isFinite = true) :
    UnpackedRounds (unpackedReal u + unpackedReal v) (UnpackedFloat.add .binary64 u v) := by
  cases u, fu using finite_cases with
  | zero s =>
    rw [unpackedReal_zero, zero_add]
    cases v, fv using finite_cases with
    | zero t =>
      cases s <;> cases t <;> exact unpackedRounds_zero _
    | finite t n e hn => exact unpackedRounds_self rfl hv
  | finite s m d hm =>
    cases v, fv using finite_cases with
    | zero t =>
      rw [unpackedReal_zero, add_zero]
      exact unpackedRounds_self rfl hu
    | finite t n e hn =>
      have h := unpackedRounds_normalize
        (s.apply (UnpackedFloat.decreaseExponent m d (Min.min d e)).1 +
          t.apply (UnpackedFloat.decreaseExponent n e (Min.min d e)).1) (Min.min d e) .positive
      rw [Int.cast_add, add_mul, decreaseExponent_eq s m (inf_le_left),
        decreaseExponent_eq t n (inf_le_right)] at h
      exact h

theorem neg_apply (s : Sign) (k : ℤ) : (-s).apply k = -s.apply k := by
  cases s with
  | negative => exact (neg_neg k).symm
  | positive => rfl

theorem unpackedReal_neg (u : UnpackedFloat) : unpackedReal u.neg = -unpackedReal u := by
  cases u with
  | notANumber => exact neg_zero.symm
  | infinity s => exact neg_zero.symm
  | zero s => exact neg_zero.symm
  | finite s m e hm => simp [UnpackedFloat.neg, unpackedReal, neg_apply]

theorem isFinite_neg (u : UnpackedFloat) : u.neg.isFinite = u.isFinite := by
  cases u <;> rfl

theorem canonical_neg (hu : Canonical u) : Canonical u.neg := by
  cases u <;> exact hu

/-- A difference is the sum with the negated subtrahend. -/
theorem sub_eq_add (fu : u.isFinite = true) (fv : v.isFinite = true) :
    UnpackedFloat.sub .binary64 u v = UnpackedFloat.add .binary64 u v.neg := by
  cases u, fu using finite_cases with
  | zero s =>
    cases v, fv using finite_cases with
    | zero t => cases s <;> cases t <;> rfl
    | finite t n e hn => rfl
  | finite s m d hm =>
    cases v, fv using finite_cases with
    | zero t => rfl
    | finite t n e hn =>
      simp only [UnpackedFloat.sub, UnpackedFloat.add, UnpackedFloat.neg]
      rw [neg_apply, sub_eq_add_neg]

theorem unpackedRounds_sub (hu : Canonical u) (hv : Canonical v) (fu : u.isFinite = true)
    (fv : v.isFinite = true) :
    UnpackedRounds (unpackedReal u - unpackedReal v) (UnpackedFloat.sub .binary64 u v) := by
  rw [sub_eq_add fu fv, sub_eq_add_neg, ← unpackedReal_neg]
  exact unpackedRounds_add hu (canonical_neg hv) fu (by rwa [isFinite_neg])

/-- Signs multiply and divide as the factors they stand for. -/
theorem mul_apply_one (s t : Sign) : (s * t).apply 1 = s.apply 1 * t.apply 1 := by
  cases s <;> cases t <;> rfl

theorem div_apply_one (s t : Sign) : (s / t).apply 1 = s.apply 1 * t.apply 1 := by
  cases s <;> cases t <;> rfl

/-- A long product of mantissas, or one at a low exponent, is rounded correctly. -/
theorem unpackedRounds_mul_of_places {s t : Sign} {m n : ℕ} {d e : ℤ} (hm : 0 < m) (hn : 0 < n)
    (hplaces : 52 ≤ (m * n).log2 ∨ d + e ≤ -1074) :
    UnpackedRounds (unpackedReal (.finite s m d hm) * unpackedReal (.finite t n e hn))
      (UnpackedFloat.mul .binary64 (.finite s m d hm) (.finite t n e hn)) := by
  have h := unpackedRounds_roundWithAccuracy (s := s * t) (m := m * n) (e := d + e)
    (a := .exact) (r := (m * n : ℕ) * 2 ^ (d + e))
    (by rw [mul_div_assoc, div_self (by positivity), mul_one]; exact standsFor_exact _)
    (by omega)
  have hr : ((s * t).apply 1 : ℝ) * ((m * n : ℕ) * 2 ^ (d + e)) =
      unpackedReal (.finite s m d hm) * unpackedReal (.finite t n e hn) := by
    rw [mul_apply_one, unpackedReal, unpackedReal, sign_apply s, sign_apply t,
      zpow_add₀ two_ne_zero]
    push_cast
    ring
  rw [hr] at h
  exact h

theorem unpackedRounds_mul (hu : Canonical u) (hv : Canonical v) (fu : u.isFinite = true)
    (fv : v.isFinite = true) :
    UnpackedRounds (unpackedReal u * unpackedReal v) (UnpackedFloat.mul .binary64 u v) := by
  cases u, fu using finite_cases with
  | zero s =>
    rw [unpackedReal_zero, zero_mul]
    cases v, fv using finite_cases with
    | zero t => exact unpackedRounds_zero _
    | finite t n e hn => exact unpackedRounds_zero _
  | finite s m d hm =>
    cases v, fv using finite_cases with
    | zero t =>
      rw [unpackedReal_zero, mul_zero]
      exact unpackedRounds_zero _
    | finite t n e hn =>
      obtain ⟨-, hd, hm'⟩ := hu
      obtain ⟨-, he, hn'⟩ := hv
      -- a full significand makes a long product; two short ones have low exponents
      refine unpackedRounds_mul_of_places hm hn ?_
      by_cases hshort : d = -1074 ∧ e = -1074
      · exact Or.inr (by omega)
      · left
        rw [Nat.le_log2 (by positivity)]
        rcases hm' with h | h
        · exact h.trans (Nat.le_mul_of_pos_right m hn)
        · exact (hn'.resolve_right (by omega)).trans (Nat.le_mul_of_pos_left n hm)

/-- A quotient has 53 places, or its exponent is low enough. -/
theorem divCore_places {m n : ℕ} (hm : 0 < m) (hn : 0 < n) {d e t : ℤ} {k : ℕ}
    (ht : t = Min.min (d - e) (Max.max (m.log2 + d - (n.log2 + e) - 53 : ℤ) (-1074)))
    (hk : (k : ℤ) = d - e - t) : 52 ≤ ((m <<< k) / n).log2 ∨ t ≤ -1074 := by
  by_cases hlow : t ≤ -1074
  · exact Or.inr hlow
  left
  have hlog : n.log2 + 53 ≤ (m <<< k).log2 := by
    rw [log2_shiftLeft hm.ne']
    omega
  have hpos : 0 < m <<< k := by
    rw [Nat.shiftLeft_eq]
    positivity
  have hge : 2 ^ (n.log2 + 53) ≤ m <<< k := (Nat.le_log2 hpos.ne').1 hlog
  have hlt : n < 2 ^ (n.log2 + 1) := Nat.lt_log2_self
  have hq : 2 ^ 52 ≤ (m <<< k) / n := by
    rw [Nat.le_div_iff_mul_le hn]
    calc 2 ^ 52 * n ≤ 2 ^ 52 * 2 ^ (n.log2 + 1) := by gcongr
      _ = 2 ^ (n.log2 + 53) := by rw [← pow_add]; congr 1; omega
      _ ≤ m <<< k := hge
  exact (Nat.le_log2 (by positivity)).2 hq

theorem unpackedRounds_div (fu : u.isFinite = true) {t : Sign} {n : ℕ} {e : ℤ} (hn : 0 < n) :
    UnpackedRounds (unpackedReal u / unpackedReal (.finite t n e hn))
      (UnpackedFloat.div .binary64 u (.finite t n e hn)) := by
  cases u, fu using finite_cases with
  | zero s =>
    rw [unpackedReal_zero, zero_div]
    exact unpackedRounds_zero _
  | finite s m d hm =>
    obtain ⟨k, hk⟩ : ∃ k, k = Min.min (d - e) (Format.binary64.targetExponent
        (totalExponent m d - totalExponent n e)) := ⟨_, rfl⟩
    have hk' : k = Min.min (d - e) (Max.max (m.log2 + d - (n.log2 + e) - 53 : ℤ) (-1074)) := by
      rw [hk]
      simp [Format.targetExponent, totalExponent, Format.mantissaBits, Format.minExponent]
      omega
    have hshift : ((d - e - k).toNat : ℤ) = d - e - k := by omega
    have hnR : (0 : ℝ) < n := by exact_mod_cast hn
    have hr : ((s / t).apply 1 : ℝ) * ((m <<< (d - e - k).toNat : ℕ) / n * 2 ^ k) =
        unpackedReal (.finite s m d hm) / unpackedReal (.finite t n e hn) := by
      have hm' := shiftLeft_mul_zpow m (d - e - k).toNat (d - e)
      rw [hshift, sub_sub_cancel] at hm'
      rw [div_apply_one, Int.cast_mul, unpackedReal, unpackedReal, sign_apply s, sign_apply t,
        div_mul_eq_mul_div, hm', zpow_sub₀ two_ne_zero]
      have ht : ((t.apply 1 : ℤ) : ℝ) * t.apply 1 = 1 := by cases t <;> norm_num [Sign.apply]
      have ht0 : ((t.apply 1 : ℤ) : ℝ) ≠ 0 := fun h0 => by simp [h0] at ht
      field_simp
      linear_combination ((s.apply 1 : ℤ) : ℝ) * ht
    have h := unpackedRounds_roundWithAccuracy (s := s / t) (m := (m <<< (d - e - k).toNat) / n)
      (e := k) (a := UnpackedFloat.accuracyOfFraction ((m <<< (d - e - k).toNat) % n) n)
      (r := (m <<< (d - e - k).toNat : ℕ) / n * 2 ^ k)
      (by rw [mul_div_assoc, div_self (by positivity), mul_one]
          exact standsFor_accuracyOfFraction hn)
      (by have := divCore_places hm hn hk' hshift; omega)
    rw [hr] at h
    simpa only [UnpackedFloat.div, UnpackedFloat.divCore, ← hk] using h

end Operations

/-! ### Packing -/

section Packing

variable {s : Sign} {m : ℕ} {e : ℤ} {hm : 0 < m}

/-- An exponent that fits survives packing. -/
theorem unpack_pack_finite (hc : Canonical (.finite s m e hm)) (he : e ≤ 971) :
    unpack .binary64 (pack .binary64 (.finite s m e hm)) = .finite s m e hm := by
  obtain ⟨hlt, hle, hfull⟩ := hc
  obtain ⟨k, hk⟩ : ∃ k, k = (e + Format.binary64.exponentBias +
    Format.binary64.mantissaBitsWithoutImplicit).toNat := ⟨_, rfl⟩
  have hbias : Format.binary64.exponentBias = 1023 := rfl
  have hbiased : k = (e + (1023 : ℕ) + (52 : ℕ)).toNat := hk
  have hfits : ¬2 ^ 11 ≤ k + 1 := by omega
  rw [pack, ← hk, if_neg (show ¬2 ^ Format.binary64.exponentBits ≤ k + 1 from hfits)]
  clear hk
  by_cases hnormal : 2 ^ 52 ≤ m
  · have hlog : m.log2 = 52 := (Nat.log2_eq_iff hm.ne').2 ⟨hnormal, hlt⟩
    have hk' : (BitVec.ofNat 11 k).toNat = k := Nat.mod_eq_of_lt (by omega)
    have hones : ¬BitVec.ofNat 11 k = -1#11 := fun h => by
      have := congrArg BitVec.toNat h
      rw [hk'] at this
      change k = 2047 at this
      omega
    have hzero : ¬BitVec.ofNat 11 k = 0#11 := fun h => by
      have := congrArg BitVec.toNat h
      rw [hk'] at this
      change k = 0 at this
      omega
    have hm' : (1#1 ++ BitVec.ofNat 52 m).toNat = m := by
      rw [toNat_leadingOne, BitVec.toNat_ofNat]
      omega
    rw [if_pos (by rw [hlog]; rfl), unpack]
    simp only [UnpackedFloat.unpackExponent_packComponents,
      UnpackedFloat.unpackMantissa_packComponents, UnpackedFloat.unpackSign_packComponents,
      UnpackedFloat.Sign.ofBitVec_toBitVec, hones, hzero, if_false, hm', hk', hbias]
    congr 1
    omega
  · have hmin : e = -1074 := hfull.resolve_left hnormal
    have hlog : m.log2 < 52 := (Nat.log2_lt hm.ne').2 (by omega)
    have hm' : (BitVec.ofNat 52 m).toNat = m := Nat.mod_eq_of_lt (by omega)
    have hzero : ¬BitVec.ofNat 52 m = 0#52 := fun h => by
      have := congrArg BitVec.toNat h
      rw [hm'] at this
      change m = 0 at this
      omega
    have hones : ¬0#11 = -1#11 := by decide
    rw [if_neg (show ¬m.log2 + 1 = Format.binary64.mantissaBits by change ¬m.log2 + 1 = 53; omega),
      unpack]
    simp only [UnpackedFloat.unpackExponent_packComponents,
      UnpackedFloat.unpackMantissa_packComponents, UnpackedFloat.unpackSign_packComponents,
      UnpackedFloat.Sign.ofBitVec_toBitVec, hones, hzero, if_false, if_true, dite_false, hm', hbias,
      hmin]
    rfl

theorem pack_of_lt (he : 971 < e) :
    pack .binary64 (.finite s m e hm) = UnpackedFloat.packedInfinity .binary64 s := by
  have hlarge : 2 ^ Format.binary64.exponentBits ≤
      (e + Format.binary64.exponentBias +
        Format.binary64.mantissaBitsWithoutImplicit).toNat + 1 := by
    change 2 ^ 11 ≤ (e + (1023 : ℕ) + (52 : ℕ)).toNat + 1
    omega
  rw [pack, if_pos hlarge]

/-- The exponents of numbers fit. -/
theorem exponent_le_of_unpack {b : BitVec Format.binary64.numBits}
    (h : unpack .binary64 b = .finite s m e hm) : e ≤ 971 := by
  have hlt : (UnpackedFloat.unpackExponent b).toNat < 2 ^ 11 :=
    (UnpackedFloat.unpackExponent b).isLt
  unfold unpack at h
  dsimp only at h
  have hbias : Format.binary64.exponentBias = 1023 := rfl
  split_ifs at h with h1 h2 h3 h4
  · rw [UnpackedFloat.finite.injEq] at h
    rw [← h.2.2, h3, hbias]
    decide
  · rw [UnpackedFloat.finite.injEq] at h
    have hones : (UnpackedFloat.unpackExponent b).toNat ≠ 2047 := fun h' =>
      h1 (BitVec.eq_of_toNat_eq h')
    rw [← h.2.2, hbias]
    omega

end Packing

/-! ### Rounded numbers -/

/-- The number is the rounding of a real, or the infinity on the side where the rounding
exceeds all numbers. -/
inductive RoundsTo (r : ℝ) (z : Float) : Prop
  | finite (hz : z.isFinite = true) (h : Rounds r (real z))
  | above (hz : z = inf) (w : ℝ) (h : Rounds r w) (hw : 2 ^ 53 * topPlace ≤ w)
  | below (hz : z = negInf) (w : ℝ) (h : Rounds r w) (hw : w ≤ -(2 ^ 53 * topPlace))

theorem roundsTo_pack {r : ℝ} {u : UnpackedFloat} (h : UnpackedRounds r u) :
    RoundsTo r (.ofModel (Float.Model.pack u)) := by
  obtain ⟨hf, hc, hr⟩ := h
  have hkept (hu : unpack .binary64 (pack .binary64 u) = u) :
      RoundsTo r (.ofModel (Float.Model.pack u)) := by
    refine .finite ?_ ?_
    · change (unpack .binary64 (pack .binary64 u)).isFinite = true
      rwa [hu]
    · change Rounds r (unpackedReal (unpack .binary64 (pack .binary64 u)))
      rwa [hu]
  cases u, hf using finite_cases with
  | zero s => exact hkept UnpackedFloat.unpack_packedZero
  | finite s m e hm =>
    rcases le_or_gt e 971 with he | he
    · exact hkept (unpack_pack_finite hc he)
    · have hlarge : 2 ^ 53 * topPlace ≤ m * 2 ^ e := by
        have hm' : (2 : ℝ) ^ 52 ≤ m := by
          exact_mod_cast hc.2.2.resolve_right (by omega)
        have he' : 2 * topPlace ≤ 2 ^ e := by
          rw [topPlace, ← zpow_succ]
          exact zpow_mono (by omega)
        calc 2 ^ 53 * topPlace = 2 ^ 52 * (2 * topPlace) := by ring
          _ ≤ (m : ℝ) * 2 ^ e := by
            gcongr
            exact (mul_pos two_pos topPlace_pos).le
      have hpacked : (Float.ofModel (Float.Model.pack (.finite s m e hm))) =
          .ofModel (Float.Model.pack (.infinity s)) := by
        unfold Float.Model.pack
        simp only [pack_of_lt he]
        rfl
      rw [hpacked]
      cases s with
      | negative =>
        rw [unpackedReal_negative] at hr
        exact .below rfl _ hr (neg_le_neg hlarge)
      | positive =>
        rw [unpackedReal_positive] at hr
        exact .above rfl _ hr hlarge

variable {x y : Float}

theorem roundsTo_add (hx : x.isFinite) (hy : y.isFinite) : RoundsTo (real x + real y) (x + y) :=
  roundsTo_pack (unpackedRounds_add (canonical_toModel x) (canonical_toModel y) hx hy)

theorem roundsTo_sub (hx : x.isFinite) (hy : y.isFinite) : RoundsTo (real x - real y) (x - y) :=
  roundsTo_pack (unpackedRounds_sub (canonical_toModel x) (canonical_toModel y) hx hy)

theorem roundsTo_mul (hx : x.isFinite) (hy : y.isFinite) : RoundsTo (real x * real y) (x * y) :=
  roundsTo_pack (unpackedRounds_mul (canonical_toModel x) (canonical_toModel y) hx hy)

theorem roundsTo_div (hx : x.isFinite) (hy : y.isFinite) (h0 : (y == 0.0) = false) :
    RoundsTo (real x / real y) (x / y) := by
  obtain ⟨s, m, e, hm, hu⟩ := eq_finite_of_isFinite hy h0
  have h := unpackedRounds_div (u := x.toModel.unpack) hx (t := s) (e := e) hm
  rw [← hu] at h
  exact roundsTo_pack h

end FlowTube.Binary64

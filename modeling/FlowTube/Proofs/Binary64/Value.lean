import FlowTube.Proofs.Binary64.Defs

/-! The extended real that a binary64 number stands for. A number that is not NaN is a sign
times `m * 2 ^ e`, or an infinity, and numbers compare as these values do. A finite number
also has a real; breakpoints of tubes are read through it. -/

namespace FlowTube.Binary64

open Float.Model (UnpackedFloat Format)
open Float.Model.UnpackedFloat (Sign)

/-! ### Unpacked numbers -/

theorem unpackedReal_positive {m : ℕ} {e : ℤ} (hm : 0 < m) :
    unpackedReal (.finite .positive m e hm) = m * 2 ^ e := by
  simp [unpackedReal, Sign.apply]

theorem unpackedReal_negative {m : ℕ} {e : ℤ} (hm : 0 < m) :
    unpackedReal (.finite .negative m e hm) = -(m * 2 ^ e) := by
  simp [unpackedReal, Sign.apply]

theorem unpackedReal_zero (s : Sign) : unpackedReal (.zero s) = 0 := rfl

/-- A finite unpacked number is a zero or has a significand. -/
@[elab_as_elim]
theorem finite_cases {motive : (u : UnpackedFloat) → u.isFinite = true → Prop}
    (zero : ∀ s, motive (.zero s) rfl) (finite : ∀ s m e hm, motive (.finite s m e hm) rfl)
    (u : UnpackedFloat) (hu : u.isFinite = true) : motive u hu := by
  cases u with
  | notANumber => contradiction
  | infinity s => contradiction
  | zero s => exact zero s
  | finite s m e hm => exact finite s m e hm

theorem unpackedValue_of_isFinite {u : UnpackedFloat} (h : u.isFinite) :
    unpackedValue u = unpackedReal u := by
  cases u, h using finite_cases with
  | zero s => rfl
  | finite s m e hm => rfl

/-- The unpacked numbers with the exponent of the format: a significand of 53 bits, or a
shorter one at the least exponent. -/
def Canonical : UnpackedFloat → Prop
  | .finite _ m e _ => m < 2 ^ 53 ∧ -1074 ≤ e ∧ (2 ^ 52 ≤ m ∨ e = -1074)
  | _ => True

theorem toNat_leadingOne {w : ℕ} (v : BitVec w) : (1#1 ++ v).toNat = 2 ^ w + v.toNat := by
  rw [BitVec.toNat_append, ← Nat.shiftLeft_add_eq_or_of_lt v.isLt]
  simp [Nat.shiftLeft_eq]

theorem canonical_unpack (b : BitVec Format.binary64.numBits) :
    Canonical (UnpackedFloat.unpack .binary64 b) := by
  have hm : (UnpackedFloat.unpackMantissa b).toNat < 2 ^ 52 := (UnpackedFloat.unpackMantissa b).isLt
  unfold UnpackedFloat.unpack
  generalize UnpackedFloat.unpackExponent b = e
  dsimp only
  split_ifs with h1 h2 h3 h4
  · trivial
  · trivial
  · trivial
  · have he : e.toNat = 0 := by rw [h3]; rfl
    refine ⟨by omega, ?_, Or.inr ?_⟩ <;> simp [he, Format.exponentBias]
  · have he : e.toNat ≠ 0 := fun h => h3 (BitVec.eq_of_toNat_eq (by simpa using h))
    have h52 : 2 ^ Format.binary64.mantissaBitsWithoutImplicit = 2 ^ 52 := rfl
    rw [Canonical, toNat_leadingOne, h52]
    refine ⟨by omega, ?_, Or.inl (by omega)⟩
    simp [Format.exponentBias]
    omega

theorem canonical_toModel (x : Float) : Canonical x.toModel.unpack :=
  canonical_unpack _

/-- A full significand at a greater exponent outweighs any other one. -/
theorem scaled_lt_scaled {m n : ℕ} {d e : ℤ} (hm : m < 2 ^ 53) (hn : 2 ^ 52 ≤ n) (hde : d < e) :
    (m : ℝ) * 2 ^ d < n * 2 ^ e := by
  have h1 : (m : ℝ) < 2 ^ 53 := by exact_mod_cast hm
  have h2 : (2 ^ 52 : ℝ) ≤ n := by exact_mod_cast hn
  have h3 : (2 : ℝ) ^ (d + 1) ≤ 2 ^ e := zpow_le_zpow_right₀ (by norm_num) (by omega)
  calc (m : ℝ) * 2 ^ d < 2 ^ 53 * 2 ^ d := by gcongr
    _ = 2 ^ 52 * 2 ^ (d + 1) := by rw [zpow_add₀ (by norm_num)]; ring
    _ ≤ n * 2 ^ e := by gcongr

/-- Exponents first and then significands is the order of the values. -/
theorem compare_scaled {m n : ℕ} {d e : ℤ} (hm : m < 2 ^ 53) (hn : n < 2 ^ 53) (hd : -1074 ≤ d)
    (he : -1074 ≤ e) (hm' : 2 ^ 52 ≤ m ∨ d = -1074) (hn' : 2 ^ 52 ≤ n ∨ e = -1074) :
    (compare d e).then (compare m n) = cmp ((m : ℝ) * 2 ^ d) (n * 2 ^ e) := by
  rcases lt_trichotomy d e with h | h | h
  · have hlt := scaled_lt_scaled hm (hn'.resolve_right (by omega)) h
    rw [Int.compare_eq_lt.2 h, (cmp_eq_lt_iff _ _).2 hlt]; rfl
  · subst h
    rw [Int.compare_eq_eq.2 rfl]
    have hp : (0 : ℝ) < 2 ^ d := by positivity
    rcases lt_trichotomy m n with h | h | h
    · rw [Nat.compare_eq_lt.2 h, (cmp_eq_lt_iff _ _).2 (by gcongr)]; rfl
    · rw [Nat.compare_eq_eq.2 h, (cmp_eq_eq_iff _ _).2 (by rw [h])]; rfl
    · rw [Nat.compare_eq_gt.2 h, (cmp_eq_gt_iff _ _).2 (by gcongr)]; rfl
  · have hlt := scaled_lt_scaled hn (hm'.resolve_right (by omega)) h
    rw [Int.compare_eq_gt.2 h, (cmp_eq_gt_iff _ _).2 hlt]; rfl

theorem swap_cmp_neg (a b : ℝ) : (cmp a b).swap = cmp (-a) (-b) := by
  rw [cmp_swap]
  rcases lt_trichotomy a b with h | h | h
  · rw [(cmp_eq_gt_iff _ _).2 h, (cmp_eq_gt_iff _ _).2 (neg_lt_neg h)]
  · rw [h, cmp_self_eq_eq, cmp_self_eq_eq]
  · rw [(cmp_eq_lt_iff _ _).2 h, (cmp_eq_lt_iff _ _).2 (neg_lt_neg h)]

/-- On finite canonical numbers, the comparison is that of the reals. -/
theorem compare_finite {u v : UnpackedFloat} (hu : Canonical u) (hv : Canonical v)
    (fu : u.isFinite) (fv : v.isFinite) :
    u.compare v = some (cmp (unpackedReal u) (unpackedReal v)) := by
  have pos {m : ℕ} (e : ℤ) (hm : 0 < m) : (0 : ℝ) < m * 2 ^ e := by positivity
  cases u, fu using finite_cases with
  | zero s =>
    rw [unpackedReal_zero]
    cases v, fv using finite_cases with
    | zero t => exact congrArg some (cmp_self_eq_eq _).symm
    | finite t n e hn =>
      cases t with
      | negative =>
        rw [unpackedReal_negative, (cmp_eq_gt_iff _ _).2 (neg_lt_zero.2 (pos e hn))]; rfl
      | positive => rw [unpackedReal_positive, (cmp_eq_lt_iff _ _).2 (pos e hn)]; rfl
  | finite s m d hm =>
    have hd := pos d hm
    cases v, fv using finite_cases with
    | zero t =>
      rw [unpackedReal_zero]
      cases s with
      | negative => rw [unpackedReal_negative, (cmp_eq_lt_iff _ _).2 (neg_lt_zero.2 hd)]; rfl
      | positive => rw [unpackedReal_positive, (cmp_eq_gt_iff _ _).2 hd]; rfl
    | finite t n e hn =>
      have he := pos e hn
      have lex := compare_scaled hu.1 hv.1 hu.2.1 hv.2.1 hu.2.2 hv.2.2
      cases s <;> cases t
      · rw [unpackedReal_negative, unpackedReal_negative, ← swap_cmp_neg, ← lex]; rfl
      · rw [unpackedReal_negative, unpackedReal_positive, (cmp_eq_lt_iff _ _).2 (by linarith)]; rfl
      · rw [unpackedReal_negative, unpackedReal_positive, (cmp_eq_gt_iff _ _).2 (by linarith)]; rfl
      · rw [unpackedReal_positive, unpackedReal_positive, ← lex]; rfl

theorem isFinite_or_eq_infinity {u : UnpackedFloat} (h : u.isNaN = false) :
    u.isFinite ∨ ∃ s, u = .infinity s := by
  cases u with
  | notANumber => contradiction
  | infinity s => exact Or.inr ⟨s, rfl⟩
  | zero s => exact Or.inl rfl
  | finite s m e hm => exact Or.inl rfl

theorem compare_infinity {u : UnpackedFloat} (h : u.isFinite) (s : Sign) :
    u.compare (.infinity s) = some (cmp (unpackedValue u) (unpackedValue (.infinity s))) ∧
      (UnpackedFloat.infinity s).compare u =
        some (cmp (unpackedValue (.infinity s)) (unpackedValue u)) := by
  rw [unpackedValue_of_isFinite h]
  cases s with
  | negative =>
    have hb := EReal.bot_lt_coe (unpackedReal u)
    rw [unpackedValue, (cmp_eq_gt_iff _ _).2 hb, (cmp_eq_lt_iff _ _).2 hb]
    cases u <;> first | contradiction | exact ⟨rfl, rfl⟩
  | positive =>
    have ht := EReal.coe_lt_top (unpackedReal u)
    rw [unpackedValue, (cmp_eq_lt_iff _ _).2 ht, (cmp_eq_gt_iff _ _).2 ht]
    cases u <;> first | contradiction | exact ⟨rfl, rfl⟩

/-- On canonical numbers other than NaN, the comparison is that of the values. -/
theorem compare_eq_cmp {u v : UnpackedFloat} (hu : Canonical u) (hv : Canonical v)
    (nu : u.isNaN = false) (nv : v.isNaN = false) :
    u.compare v = some (cmp (unpackedValue u) (unpackedValue v)) := by
  rcases isFinite_or_eq_infinity nu with fu | ⟨s, rfl⟩ <;>
    rcases isFinite_or_eq_infinity nv with fv | ⟨t, rfl⟩
  · rw [compare_finite hu hv fu fv, unpackedValue_of_isFinite fu, unpackedValue_of_isFinite fv,
      EReal.coe_strictMono.cmp_map_eq]
  · exact (compare_infinity fu t).1
  · exact (compare_infinity fv s).2
  · have h : cmp (⊥ : EReal) ⊤ = .lt := (cmp_eq_lt_iff _ _).2 bot_lt_top
    have h' : cmp (⊤ : EReal) ⊥ = .gt := (cmp_eq_gt_iff _ _).2 bot_lt_top
    cases s <;> cases t <;> simp only [unpackedValue, cmp_self_eq_eq, h, h'] <;> rfl

/-! ### Numbers -/

theorem value_of_isFinite {x : Float} (h : x.isFinite) : value x = real x :=
  unpackedValue_of_isFinite h

theorem real_zero : real 0.0 = 0 := rfl

theorem real_one : real 1.0 = 1 := by
  change (((2 ^ 52 : ℕ) : ℤ) : ℝ) * 2 ^ (-52 : ℤ) = 1
  norm_num

theorem isNaN_of_isFinite {x : Float} (h : x.isFinite) : x.isNaN = false := by
  change x.toModel.unpack.isNaN = false
  change x.toModel.unpack.isFinite = true at h
  cases hu : x.toModel.unpack <;> rw [hu] at h <;> first | contradiction | rfl

theorem isFinite_iff {x : Float} :
    x.isFinite = true ↔ x.isNaN = false ∧ value x ≠ ⊤ ∧ value x ≠ ⊥ := by
  constructor
  · intro h
    rw [value_of_isFinite h]
    exact ⟨isNaN_of_isFinite h, EReal.coe_ne_top _, EReal.coe_ne_bot _⟩
  · rintro ⟨hn, htop, hbot⟩
    rcases isFinite_or_eq_infinity hn with hf | ⟨s, hs⟩
    · exact hf
    · unfold value at htop hbot
      rw [hs] at htop hbot
      cases s with
      | negative => exact absurd rfl hbot
      | positive => exact absurd rfl htop

/-- A number with a real as its value is finite. -/
theorem real_of_value {x : Float} {r : ℝ} (hx : x.isNaN = false) (h : value x = r) :
    x.isFinite = true ∧ real x = r := by
  have hfinite : x.isFinite = true :=
    isFinite_iff.2 ⟨hx, h ▸ EReal.coe_ne_top r, h ▸ EReal.coe_ne_bot r⟩
  rw [value_of_isFinite hfinite, EReal.coe_eq_coe_iff] at h
  exact ⟨hfinite, h⟩

theorem eq_notANumber_of_isNaN {u : UnpackedFloat} (h : u.isNaN = true) : u = .notANumber := by
  cases u <;> first | contradiction | rfl

theorem compare_eq_some_iff {x y : Float} {o : Ordering} :
    x.toModel.unpack.compare y.toModel.unpack = some o ↔
      x.isNaN = false ∧ y.isNaN = false ∧ cmp (value x) (value y) = o := by
  cases hx : x.isNaN with
  | true =>
    rw [eq_notANumber_of_isNaN hx]
    simp [UnpackedFloat.compare]
  | false =>
    cases hy : y.isNaN with
    | true =>
      rw [eq_notANumber_of_isNaN hy]
      cases x.toModel.unpack <;> simp [UnpackedFloat.compare]
    | false =>
      have h := compare_eq_cmp (canonical_toModel x) (canonical_toModel y) hx hy
      rw [h]
      simp [value]

theorem lt_iff {x y : Float} :
    x < y ↔ x.isNaN = false ∧ y.isNaN = false ∧ value x < value y := by
  have h : x < y ↔ x.toModel.unpack.compare y.toModel.unpack = some .lt := by
    change (decide (x.toModel.unpack.lt y.toModel.unpack = true) = true) ↔ _
    simp [UnpackedFloat.lt]
  rw [h, compare_eq_some_iff, cmp_eq_lt_iff]

theorem beq_iff {x y : Float} :
    (x == y) = true ↔ x.isNaN = false ∧ y.isNaN = false ∧ value x = value y := by
  have h : (x == y) = true ↔ x.toModel.unpack.compare y.toModel.unpack = some .eq := by
    change (x.toModel.unpack.beq y.toModel.unpack = true) ↔ _
    simp [UnpackedFloat.beq]
  rw [h, compare_eq_some_iff, cmp_eq_eq_iff]

theorem le_iff {x y : Float} :
    x ≤ y ↔ x.isNaN = false ∧ y.isNaN = false ∧ value x ≤ value y := by
  have h : x ≤ y ↔ ∃ o : Ordering, x.toModel.unpack.compare y.toModel.unpack = some o ∧ o.isLE := by
    change (decide (x.toModel.unpack.le y.toModel.unpack = true) = true) ↔ _
    rw [decide_eq_true_iff, UnpackedFloat.le, Option.any_eq_true]
  simp only [h, compare_eq_some_iff, Ordering.isLE_iff_ne_gt]
  constructor
  · rintro ⟨o, ⟨hx, hy, rfl⟩, ho⟩
    exact ⟨hx, hy, not_lt.1 fun hlt => ho ((cmp_eq_gt_iff _ _).2 hlt)⟩
  · rintro ⟨hx, hy, hle⟩
    exact ⟨_, ⟨hx, hy, rfl⟩, fun hgt => hle.not_gt ((cmp_eq_gt_iff _ _).1 hgt)⟩

variable {x y : Float}

theorem lt_trans {z : Float} (hxy : x < y) (hyz : y < z) : x < z := by
  obtain ⟨hx, -, h1⟩ := lt_iff.1 hxy
  obtain ⟨-, hz, h2⟩ := lt_iff.1 hyz
  exact lt_iff.2 ⟨hx, hz, h1.trans h2⟩

/-! ### Finite numbers compare as reals -/

theorem lt_iff_real (hx : x.isFinite) (hy : y.isFinite) : x < y ↔ real x < real y := by
  rw [lt_iff, value_of_isFinite hx, value_of_isFinite hy, EReal.coe_lt_coe_iff]
  exact ⟨fun h => h.2.2, fun h => ⟨isNaN_of_isFinite hx, isNaN_of_isFinite hy, h⟩⟩

theorem le_iff_real (hx : x.isFinite) (hy : y.isFinite) : x ≤ y ↔ real x ≤ real y := by
  rw [le_iff, value_of_isFinite hx, value_of_isFinite hy, EReal.coe_le_coe_iff]
  exact ⟨fun h => h.2.2, fun h => ⟨isNaN_of_isFinite hx, isNaN_of_isFinite hy, h⟩⟩

theorem beq_iff_real (hx : x.isFinite) (hy : y.isFinite) : (x == y) = true ↔ real x = real y := by
  rw [beq_iff, value_of_isFinite hx, value_of_isFinite hy, EReal.coe_eq_coe_iff]
  exact ⟨fun h => h.2.2, fun h => ⟨isNaN_of_isFinite hx, isNaN_of_isFinite hy, h⟩⟩

/-- What lies between finite numbers is finite. -/
theorem isFinite_of_between {t : Float} (hx : x.isFinite) (hy : y.isFinite) (hxt : x ≤ t)
    (hty : t ≤ y) : t.isFinite = true := by
  obtain ⟨-, ht, hlow⟩ := le_iff.1 hxt
  obtain ⟨-, -, hup⟩ := le_iff.1 hty
  rw [value_of_isFinite hx] at hlow
  rw [value_of_isFinite hy] at hup
  exact isFinite_iff.2 ⟨ht, (hup.trans_lt (EReal.coe_lt_top _)).ne,
    ((EReal.bot_lt_coe _).trans_le hlow).ne'⟩

/-! ### The total order -/

theorem eq_of_toBits_eq (h : x.toBits = y.toBits) : x = y := by
  obtain ⟨⟨b, hb⟩⟩ := x
  obtain ⟨⟨c, hc⟩⟩ := y
  change b = c at h
  subst h
  rfl

theorem toNat_totalKey (x : Float) :
    (totalKey x).toNat =
      if 2 ^ 63 ≤ x.toBits.toNat then 2 ^ 64 - 1 - x.toBits.toNat else 2 ^ 63 + x.toBits.toNat := by
  have hneg : isNegative x = true ↔ 2 ^ 63 ≤ x.toBits.toNat := by
    simp only [isNegative, decide_eq_true_iff, ge_iff_le, UInt64.le_iff_toNat_le]
    rfl
  unfold totalKey
  by_cases h : isNegative x = true
  · rw [if_pos h, if_pos (hneg.1 h), UInt64.toNat_not]
    rfl
  · have hlt : x.toBits.toNat < 2 ^ 63 := by
      have := mt hneg.2 h
      omega
    rw [if_neg h, if_neg (mt hneg.2 h), UInt64.toNat_or, Nat.or_comm]
    exact (Nat.two_pow_add_eq_or_of_lt hlt 1).symm

/-- Only a number itself has its place in the total order. -/
theorem eq_of_totalCompare (h : totalCompare x y = .eq) : x = y := by
  have hkey : (totalKey x).toNat = (totalKey y).toNat :=
    congrArg UInt64.toNat (Std.LawfulEqOrd.eq_of_compare h)
  have hx := x.toBits.toNat_lt
  have hy := y.toBits.toNat_lt
  rw [toNat_totalKey, toNat_totalKey] at hkey
  refine eq_of_toBits_eq (UInt64.toNat_inj.1 ?_)
  split_ifs at hkey <;> omega

end FlowTube.Binary64

import FlowTube.Proofs.Binary64.DirectedSums

/-! The total order of numbers, and the two zeros that it tells apart. It is the order of the
values, with `-0` just below `0`: below the bits of infinity, greater bits stand for a greater
magnitude. So numbers other than `-0` are told apart by their values, and a search by the total
order finds what a search by value would find. A sum is `-0` only if both summands are, so no
middle between a negative and a positive number is. -/

namespace FlowTube.Binary64

variable {x y : Float}

theorem bitsMagnitude_mod (n : ℕ) : bitsMagnitude (n % 2 ^ 63) = bitsMagnitude n := by
  have hfield : n % 2 ^ 63 / 2 ^ 52 % 2 ^ 11 = n / 2 ^ 52 % 2 ^ 11 := by omega
  have hfraction : n % 2 ^ 63 % 2 ^ 52 = n % 2 ^ 52 := by omega
  rw [bitsMagnitude, bitsMagnitude, hfield, hfraction]

theorem bitsMagnitude_lt_of_lt {m n : ℕ} (hmn : m < n) (hn : n < 2047 * 2 ^ 52) :
    bitsMagnitude m < bitsMagnitude n := by
  induction n, hmn using Nat.le_induction with
  | base => exact bitsMagnitude_lt (by omega)
  | succ n _ ih => exact (ih (by omega)).trans (bitsMagnitude_lt (by omega))

/-- The count of least positive numbers, from the bits. -/
theorem units_eq_bits (x : Float) :
    units x = if 2 ^ 63 ≤ x.toBits.toNat then -(bitsMagnitude (x.toBits.toNat % 2 ^ 63) : ℤ)
      else bitsMagnitude (x.toBits.toNat % 2 ^ 63) := by
  rw [units, magnitude_eq, bitsMagnitude_mod]
  exact if_congr isNegative_iff rfl rfl

theorem eq_negZero_of_toBits (h : x.toBits.toNat = 2 ^ 63) : x = -0.0 :=
  eq_of_toBits_eq (UInt64.toNat_inj.1 h)

theorem eq_zero_of_toBits (h : x.toBits.toNat = 0) : x = 0.0 :=
  eq_of_toBits_eq (UInt64.toNat_inj.1 h)

theorem units_lt_units (hx : x.isFinite) (hy : y.isFinite)
    (h : (totalKey x).toNat < (totalKey y).toNat) : units x < units y ∨ x = -0.0 ∧ y = 0.0 := by
  have hxbits := toBits_of_isFinite hx
  have hybits := toBits_of_isFinite hy
  have hxlt := x.toBits.toNat_lt
  have hylt := y.toBits.toNat_lt
  rw [toNat_totalKey, toNat_totalKey] at h
  rw [units_eq_bits, units_eq_bits]
  by_cases hxneg : 2 ^ 63 ≤ x.toBits.toNat <;> by_cases hyneg : 2 ^ 63 ≤ y.toBits.toNat
  · rw [if_pos hxneg, if_pos hyneg] at h ⊢
    have hlt := bitsMagnitude_lt_of_lt
      (show y.toBits.toNat % 2 ^ 63 < x.toBits.toNat % 2 ^ 63 by omega) hxbits
    omega
  · rw [if_pos hxneg, if_neg hyneg]
    have hpos : ∀ n < 2047 * 2 ^ 52, n ≠ 0 → 0 < bitsMagnitude n := fun n hn h0 =>
      (Nat.zero_le _).trans_lt (bitsMagnitude_lt_of_lt (Nat.pos_of_ne_zero h0) hn)
    by_cases hx0 : x.toBits.toNat % 2 ^ 63 = 0
    · by_cases hy0 : y.toBits.toNat % 2 ^ 63 = 0
      · exact Or.inr ⟨eq_negZero_of_toBits (by omega), eq_zero_of_toBits (by omega)⟩
      · have := hpos _ hybits hy0
        omega
    · have := hpos _ hxbits hx0
      omega
  · rw [if_neg hxneg, if_pos hyneg] at h
    omega
  · rw [if_neg hxneg, if_neg hyneg] at h ⊢
    have hlt := bitsMagnitude_lt_of_lt
      (show x.toBits.toNat % 2 ^ 63 < y.toBits.toNat % 2 ^ 63 by omega) hybits
    omega

/-- A place further up in the total order is a greater value, but for the two zeros. -/
theorem value_lt_of_totalKey (hx : x.isNaN = false) (hy : y.isNaN = false)
    (h : (totalKey x).toNat < (totalKey y).toNat) : value x < value y ∨ x = -0.0 ∧ y = 0.0 := by
  have hinf : (totalKey inf).toNat = 2 ^ 63 + 2047 * 2 ^ 52 := by decide
  have hnegInf : (totalKey negInf).toNat = 2 ^ 63 - 1 - 2047 * 2 ^ 52 := by decide
  have hfinite {z : Float} (hz : z.isFinite) : 2 ^ 63 - 1 - 2047 * 2 ^ 52 < (totalKey z).toNat ∧
      (totalKey z).toNat < 2 ^ 63 + 2047 * 2 ^ 52 := by
    have hbits := toBits_of_isFinite hz
    have hlt := z.toBits.toNat_lt
    rw [toNat_totalKey]
    split_ifs <;> omega
  rcases isFinite_or_eq_inf hx with fx | rfl | rfl <;>
    rcases isFinite_or_eq_inf hy with fy | rfl | rfl
  · rw [value_of_isFinite fx, value_of_isFinite fy, EReal.coe_lt_coe_iff]
    exact (units_lt_units fx fy h).imp_left (real_lt_real_of_units fx fy)
  · rw [value_of_isFinite fx]
    exact Or.inl (EReal.coe_lt_top _)
  · have := hfinite fx
    omega
  · have := hfinite fy
    omega
  · omega
  · omega
  · rw [value_of_isFinite fy]
    exact Or.inl (EReal.bot_lt_coe _)
  · exact Or.inl bot_lt_top
  · omega

theorem eq_of_totalKey (h : (totalKey x).toNat = (totalKey y).toNat) : x = y :=
  eq_of_totalCompare (Std.LawfulEqOrd.compare_eq_iff_eq.2 (UInt64.toNat_inj.1 h))

theorem totalKey_lt_of_value_lt (hx : x.isNaN = false) (hy : y.isNaN = false)
    (h : value x < value y) : (totalKey x).toNat < (totalKey y).toNat := by
  rcases Nat.lt_trichotomy (totalKey x).toNat (totalKey y).toNat with hkey | hkey | hkey
  · exact hkey
  · rw [eq_of_totalKey hkey] at h
    exact absurd h (lt_irrefl _)
  · rcases value_lt_of_totalKey hy hx hkey with hlt | ⟨rfl, rfl⟩
    · exact absurd h hlt.not_gt
    · exact absurd h (lt_irrefl _)

theorem totalCompare_of_lt (h : x < y) : totalCompare x y = .lt := by
  obtain ⟨hx, hy, hlt⟩ := lt_iff.1 h
  exact if_pos (UInt64.lt_iff_toNat_lt.2 (totalKey_lt_of_value_lt hx hy hlt))

theorem totalCompare_of_gt (h : x < y) : totalCompare y x = .gt := by
  have hlt : compare (totalKey x) (totalKey y) = .lt := totalCompare_of_lt h
  rw [totalCompare, Std.OrientedOrd.eq_swap, hlt]
  rfl

theorem totalCompare_self (x : Float) : totalCompare x x = .eq :=
  Std.LawfulEqOrd.compare_eq_iff_eq.2 rfl

/-- Numbers of one value are the same, if neither is `-0`. -/
theorem eq_of_value_eq (hx : x.isNaN = false) (hy : y.isNaN = false) (hx0 : x ≠ -0.0)
    (hy0 : y ≠ -0.0) (h : value x = value y) : x = y := by
  rcases Nat.lt_trichotomy (totalKey x).toNat (totalKey y).toNat with hkey | hkey | hkey
  · rcases value_lt_of_totalKey hx hy hkey with hlt | ⟨hzero, -⟩
    · exact absurd h hlt.ne
    · exact absurd hzero hx0
  · exact eq_of_totalKey hkey
  · rcases value_lt_of_totalKey hy hx hkey with hlt | ⟨hzero, -⟩
    · exact absurd h hlt.ne'
    · exact absurd hzero hy0

/-- Numbers in increasing order are different ones, of which there are finitely many. -/
theorem length_le_of_increasing {ts : List Float} (h : ts.Pairwise (· < ·)) :
    ts.length ≤ 2 ^ 64 := by
  have hbits : (ts.map fun t => t.toBits.toFin).Nodup := by
    refine List.Nodup.map (fun a b hab => eq_of_toBits_eq (UInt64.toFin_inj.1 hab)) ?_
    refine h.imp fun hlt heq => ?_
    exact (lt_iff.1 hlt).2.2.ne (congrArg value heq)
  have hcard := hbits.length_le_card
  rwa [List.length_map, Fintype.card_fin] at hcard

/-- There is no number between a finite one and the next. -/
theorem value_nextUp_le (hx : x.isFinite) (hy : y.isNaN = false) (h : value x < value y) :
    value (nextUp x) ≤ value y := by
  by_contra hgap
  have hlow := totalKey_lt_of_value_lt (isNaN_of_isFinite hx) hy h
  have hup := totalKey_lt_of_value_lt hy (isNaN_nextUp hx) (not_le.1 hgap)
  have hbits := toBits_of_isFinite hx
  have hlt := x.toBits.toNat_lt
  rcases nextUp_cases hx with ⟨hzero, heq⟩ | ⟨hpos, heq⟩ | ⟨hneg, heq⟩ <;> rw [heq] at hup
  · have hlow := totalKey_lt_of_value_lt (x := 0.0) rfl hy (hzero ▸ h)
    have hkey : (totalKey (Float.ofBits 1)).toNat = (totalKey 0.0).toNat + 1 := by decide
    omega
  · have hsucc : (x.toBits + 1).toNat = x.toBits.toNat + 1 := toNat_succ (by omega)
    have hkey : (totalKey x).toNat = 2 ^ 63 + x.toBits.toNat := by
      rw [toNat_totalKey, if_neg (by omega)]
    have hkey' : (totalKey (Float.ofBits (x.toBits + 1))).toNat = 2 ^ 63 + x.toBits.toNat + 1 := by
      rw [toNat_totalKey, toBits_ofBits (by rw [hsucc]; omega), hsucc, if_neg (by omega)]
      rfl
    omega
  · have hpred : (x.toBits - 1).toNat = x.toBits.toNat - 1 := toNat_pred (by omega)
    have hkey : (totalKey x).toNat = 2 ^ 64 - 1 - x.toBits.toNat := by
      rw [toNat_totalKey, if_pos (by omega)]
    have hkey' : (totalKey (Float.ofBits (x.toBits - 1))).toNat = 2 ^ 64 - x.toBits.toNat := by
      rw [toNat_totalKey, toBits_ofBits (by rw [hpred]; omega), hpred, if_pos (by omega)]
      omega
    omega

/-! ### Sums that are zero -/

section Zeros

open Float.Model (UnpackedFloat)
open Float.Model.UnpackedFloat (Sign pack unpack)

/-- Packing makes no zero of anything else. -/
theorem eq_zero_of_pack {u : UnpackedFloat} (hc : Canonical u) {s : Sign}
    (h : unpack .binary64 (pack .binary64 u) = .zero s) : u = .zero s := by
  cases u with
  | notANumber => rw [UnpackedFloat.pack, UnpackedFloat.unpack_packedNaN] at h; contradiction
  | infinity t => rw [UnpackedFloat.pack, unpack_packedInfinity] at h; contradiction
  | zero t => rwa [UnpackedFloat.pack, UnpackedFloat.unpack_packedZero] at h
  | finite t m e hm =>
    rcases le_or_gt e 971 with he | he
    · rw [unpack_pack_finite hc he] at h
      contradiction
    · rw [pack_of_lt he, unpack_packedInfinity] at h
      contradiction

/-- A multiple of the least positive number is not rounded to zero, unless it is zero. -/
theorem Rounds.eq_zero {r : ℝ} (h : Rounds r 0) (hr : r ∈ grid (-1074)) : r = 0 := by
  refine eq_zero_of_mem_grid hr (not_le.1 fun hle => ?_)
  have hleast : Representable ((2 : ℝ) ^ (-1074 : ℤ)) :=
    ⟨-1074, le_rfl, zpow_mem_grid le_rfl, by rw [abs_of_pos (by positivity)]; norm_num⟩
  rcases le_abs.1 hle with hpos | hneg
  · have := h.le_of_le hleast hpos
    exact absurd this (not_le.2 (by positivity))
  · have := h.ge_of_ge hleast.neg (by linarith)
    exact absurd this (not_le.2 (neg_lt_zero.2 (by positivity)))

/-- An exact sum of zero is rounded to the positive zero. -/
theorem normalize_ne_zero (m : ℤ) {e : ℤ} (he : -1074 ≤ e) :
    UnpackedFloat.normalize .binary64 m e .positive ≠ .zero .negative := by
  intro h
  have hrounds := (unpackedRounds_normalize m e .positive).rounds
  rw [h, unpackedReal_zero] at hrounds
  have hzero := hrounds.eq_zero (grid_mono he (mul_mem_grid m e))
  have hm : m = 0 := by
    rcases mul_eq_zero.1 hzero with hm | hpow
    · exact_mod_cast hm
    · exact absurd hpow (by positivity)
  rw [hm] at h
  simp [UnpackedFloat.normalize] at h

theorem unpack_of_negZero (h : x = -0.0) : x.toModel.unpack = .zero .negative := by
  rw [h]
  rfl

/-- Only negative zeros have a negative zero as sum. -/
theorem eq_negZero_of_add (hx : x.isFinite) (hy : y.isFinite) (h : x + y = -0.0) :
    y = -0.0 := by
  have hx' := canonical_toModel x
  have hy' := canonical_toModel y
  have hsum := unpack_of_negZero h
  change unpack .binary64 (pack .binary64
    (UnpackedFloat.add .binary64 x.toModel.unpack y.toModel.unpack)) = _ at hsum
  have hadd := eq_zero_of_pack (unpackedRounds_add hx' hy' hx hy).canonical hsum
  refine eq_of_unpack (Eq.trans ?_ (unpack_of_negZero rfl).symm)
  change x.toModel.unpack.isFinite = true at hx
  change y.toModel.unpack.isFinite = true at hy
  generalize x.toModel.unpack = u at hx' hx hadd
  generalize y.toModel.unpack = v at hy' hy hadd ⊢
  cases u, hx using finite_cases with
  | zero s =>
    cases v, hy using finite_cases with
    | zero t =>
      cases t with
      | negative => rfl
      | positive => cases s <;> simp [UnpackedFloat.add] at hadd
    | finite t n e hn => contradiction
  | finite s m d hm =>
    cases v, hy using finite_cases with
    | zero t => contradiction
    | finite t n e hn => exact absurd hadd (normalize_ne_zero _ (le_min hx'.2.1 hy'.2.1))

theorem eq_positive_of_pos {u : UnpackedFloat} (h : 0 < unpackedReal u) :
    ∃ m e hm, u = .finite .positive m e hm := by
  cases u with
  | notANumber => exact absurd h (lt_irrefl 0)
  | infinity s => exact absurd h (lt_irrefl 0)
  | zero s => exact absurd h (lt_irrefl 0)
  | finite s m e hm =>
    cases s with
    | positive => exact ⟨m, e, hm, rfl⟩
    | negative =>
      have hpos : (0 : ℝ) < m * 2 ^ e := by positivity
      rw [unpackedReal_negative] at h
      linarith

/-- A product of positive numbers is not a negative zero. -/
theorem mul_ne_negZero (hx : x.isFinite) (hy : y.isFinite) (hx0 : 0 < real x) (hy0 : 0 < real y) :
    x * y ≠ -0.0 := by
  intro h
  have hproduct := unpack_of_negZero h
  change unpack .binary64 (pack .binary64
    (UnpackedFloat.mul .binary64 x.toModel.unpack y.toModel.unpack)) = _ at hproduct
  have hmul := eq_zero_of_pack
    (unpackedRounds_mul (canonical_toModel x) (canonical_toModel y) hx hy).canonical hproduct
  obtain ⟨m, d, hm, hx'⟩ := eq_positive_of_pos hx0
  obtain ⟨n, e, hn, hy'⟩ := eq_positive_of_pos hy0
  rw [hx', hy'] at hmul
  change UnpackedFloat.roundWithAccuracy .binary64 .positive (m * n) (d + e) .exact = _ at hmul
  unfold UnpackedFloat.roundWithAccuracy at hmul
  dsimp only at hmul
  split_ifs at hmul
  simp at hmul

theorem real_half : real 0.5 = 1 / 2 := by
  change (((2 ^ 52 : ℕ) : ℤ) : ℝ) * 2 ^ (-53 : ℤ) = 1 / 2
  norm_num

theorem real_two : real 2.0 = 2 := by
  change (((2 ^ 52 : ℕ) : ℤ) : ℝ) * 2 ^ (-51 : ℤ) = 2
  norm_num

theorem isFinite_half (hx : x.isFinite) : (0.5 * x).isFinite = true := by
  rw [(roundsTo_mul rfl hx).isFinite_iff, real_half, abs_mul]
  have hle := abs_real_le_maxFinite x
  have habs := abs_nonneg (real x)
  norm_num
  linarith [topPlace_pos]

/-- The middle of two numbers is not the negative zero, unless the greater one is. -/
theorem middle_ne_negZero (hx : x.isFinite) (hy : y.isFinite) (hy0 : 0 ≤ real y)
    (hne : y ≠ -0.0) : 0.5 * x + 0.5 * y ≠ -0.0 := by
  intro h
  have hhalf := eq_negZero_of_add (isFinite_half hx) (isFinite_half hy) h
  rcases hy0.eq_or_lt with hzero | hpos
  · have hvalue : value y = value 0.0 := by
      rw [value_of_isFinite hy, ← hzero]
      rfl
    rw [eq_of_value_eq (isNaN_of_isFinite hy) rfl hne (by decide) hvalue] at hhalf
    contradiction
  · exact mul_ne_negZero rfl hy (by rw [real_half]; norm_num) hpos hhalf

end Zeros

end FlowTube.Binary64

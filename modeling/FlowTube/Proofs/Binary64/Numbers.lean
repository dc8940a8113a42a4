import FlowTube.Binary64.Directed
import FlowTube.Proofs.Binary64.Value

/-! Results that are numbers. Packing a number gives a number, so a rounded sum, product or
quotient is NaN only where the exact operation has no value; and the neighbour above a
finite number is a number again. -/

namespace FlowTube.Binary64

open Float.Model (UnpackedFloat Format)
open Float.Model.UnpackedFloat (Sign pack unpack packComponents unpackExponent unpackMantissa)

/-! ### Packing -/

/-- A packed number is NaN only with all exponent bits and some mantissa bit set. -/
theorem isNaN_unpack_iff (b : BitVec Format.binary64.numBits) :
    (unpack .binary64 b).isNaN = true ↔ unpackExponent b = -1#_ ∧ unpackMantissa b ≠ 0#_ := by
  unfold unpack
  dsimp only
  split_ifs with h1 h2 h3 h4
  · exact iff_of_false Bool.false_ne_true fun h => h.2 h2
  · exact iff_of_true rfl ⟨h1, h2⟩
  all_goals exact iff_of_false Bool.false_ne_true fun h => h1 h.1

theorem isNaN_unpack_pack {u : UnpackedFloat} (h : u.isNaN = false) :
    (unpack .binary64 (pack .binary64 u)).isNaN = false := by
  refine Bool.eq_false_iff.2 fun hn => ?_
  obtain ⟨he, hm⟩ := (isNaN_unpack_iff _).1 hn
  fun_cases pack with
  | case1 => contradiction
  | case2 s => simp [pack, UnpackedFloat.packedInfinity] at hm
  | case3 s => simp [pack, UnpackedFloat.packedZero] at hm
  | case4 s m e hp biased hlarge =>
    rw [pack, if_pos hlarge] at hm
    simp [UnpackedFloat.packedInfinity] at hm
  | case5 s m e hp bits biased hlarge hbits =>
    rw [pack, if_neg hlarge, if_pos hbits, UnpackedFloat.unpackExponent_packComponents] at he
    have hlt : biased < 2 ^ 11 - 1 := by
      have : ¬2 ^ 11 ≤ biased + 1 := hlarge
      omega
    have h := congrArg BitVec.toNat he
    rw [BitVec.toNat_ofNat, Nat.mod_eq_of_lt (hlt.trans (by norm_num))] at h
    exact hlt.ne h
  | case6 s m e hp bits biased hlarge hbits =>
    rw [pack, if_neg hlarge, if_neg hbits, UnpackedFloat.unpackExponent_packComponents] at he
    exact absurd he (by decide)

/-! ### Rounded results -/

theorem isNaN_roundWithAccuracy (s : Sign) (m : ℕ) (e : ℤ) (a : UnpackedFloat.Accuracy) :
    (UnpackedFloat.roundWithAccuracy .binary64 s m e a).isNaN = false := by
  unfold UnpackedFloat.roundWithAccuracy
  dsimp only
  split_ifs <;> rfl

theorem isNaN_normalize (m e : ℤ) (s : Sign) :
    (UnpackedFloat.normalize .binary64 m e s).isNaN = false := by
  unfold UnpackedFloat.normalize
  split
  · exact isNaN_roundWithAccuracy ..
  · rfl
  · exact isNaN_roundWithAccuracy ..

variable {x y : Float}

theorem isNaN_add (hx : x.isFinite) (hy : y.isNaN = false) : (x + y).isNaN = false := by
  refine isNaN_unpack_pack ?_
  change x.toModel.unpack.isFinite = true at hx
  change y.toModel.unpack.isNaN = false at hy
  generalize x.toModel.unpack = u at hx
  generalize y.toModel.unpack = v at hy
  cases u, hx using finite_cases with
  | zero s =>
    cases v with
    | notANumber => contradiction
    | infinity t => rfl
    | zero t => cases s <;> cases t <;> rfl
    | finite t n e hn => rfl
  | finite s m d hm =>
    cases v with
    | notANumber => contradiction
    | infinity t => rfl
    | zero t => rfl
    | finite t n e hn => exact isNaN_normalize ..

theorem eq_finite_of_isFinite (hf : y.isFinite) (hz : (y == 0.0) = false) :
    ∃ s m e hm, y.toModel.unpack = .finite s m e hm := by
  change y.toModel.unpack.isFinite = true at hf
  change y.toModel.unpack.beq (UnpackedFloat.zero .positive) = false at hz
  generalize y.toModel.unpack = u at hf hz
  cases u, hf using finite_cases with
  | zero s => contradiction
  | finite s m e hm => exact ⟨s, m, e, hm, rfl⟩

/-- A factor or divisor that is neither zero nor infinite leaves a number a number. -/
theorem isNaN_mul_div (hx : x.isNaN = false) (hf : y.isFinite) (hz : (y == 0.0) = false) :
    (x * y).isNaN = false ∧ (x / y).isNaN = false := by
  obtain ⟨s, m, e, hm, hy⟩ := eq_finite_of_isFinite hf hz
  change x.toModel.unpack.isNaN = false at hx
  refine ⟨isNaN_unpack_pack ?_, isNaN_unpack_pack ?_⟩ <;> rw [hy] <;>
    cases hu : x.toModel.unpack with
    | notANumber => rw [hu] at hx; contradiction
    | infinity t => rfl
    | zero t => rfl
    | finite t n d hn => exact isNaN_roundWithAccuracy ..

/-! ### Neighbours -/

theorem toNat_unpackExponent (b : BitVec Format.binary64.numBits) :
    (unpackExponent b).toNat = b.toNat / 2 ^ 52 % 2 ^ 11 := by
  simp [unpackExponent, Nat.shiftRight_eq_div_pow]

theorem toNat_unpackMantissa (b : BitVec Format.binary64.numBits) :
    (unpackMantissa b).toNat = b.toNat % 2 ^ 52 := by
  simp [unpackMantissa]

/-- Bits without the sign up to those of infinity make a number. -/
theorem isNaN_ofBits {a : UInt64} (h : a.toNat % 2 ^ 63 ≤ 2047 * 2 ^ 52) :
    (Float.ofBits a).isNaN = false := by
  refine isNaN_unpack_pack (Bool.eq_false_iff.2 fun hn => ?_)
  obtain ⟨he, hm⟩ := (isNaN_unpack_iff _).1 hn
  have he' : a.toNat / 2 ^ 52 % 2 ^ 11 = 2047 := by
    refine (toNat_unpackExponent _).symm.trans ?_
    rw [he]
    rfl
  refine hm (BitVec.eq_of_toNat_eq ?_)
  rw [toNat_unpackMantissa]
  change a.toNat % 2 ^ 52 = 0
  omega

/-- The bits of a number in its format. -/
def packed (x : Float) : BitVec Format.binary64.numBits := x.toBits.toBitVec

theorem toBits_of_isFinite (h : x.isFinite) : x.toBits.toNat % 2 ^ 63 < 2047 * 2 ^ 52 := by
  change (unpack .binary64 (packed x)).isFinite = true at h
  have he : unpackExponent (packed x) ≠ -1#_ := by
    intro he
    unfold unpack at h
    dsimp only at h
    rw [if_pos he] at h
    split_ifs at h <;> contradiction
  have hn : x.toBits.toNat / 2 ^ 52 % 2 ^ 11 ≠ 2047 := fun hn =>
    he (BitVec.eq_of_toNat_eq ((toNat_unpackExponent _).trans hn))
  omega

theorem beq_zero_of_toBits (h : x.toBits.toNat % 2 ^ 63 = 0) : (x == 0.0) = true := by
  have he : unpackExponent (packed x) = 0#_ :=
    BitVec.eq_of_toNat_eq ((toNat_unpackExponent _).trans (by
      change x.toBits.toNat / 2 ^ 52 % 2 ^ 11 = 0
      omega))
  have hm : unpackMantissa (packed x) = 0#_ :=
    BitVec.eq_of_toNat_eq ((toNat_unpackMantissa _).trans (by
      change x.toBits.toNat % 2 ^ 52 = 0
      omega))
  have hu : ∃ s, x.toModel.unpack = .zero s := by
    refine ⟨Sign.ofBitVec (UnpackedFloat.unpackSign (packed x)), ?_⟩
    change unpack .binary64 (packed x) = _
    unfold unpack
    dsimp only
    rw [if_neg (by rw [he]; decide), if_pos he, dif_pos hm]
  obtain ⟨s, hs⟩ := hu
  change x.toModel.unpack.beq _ = true
  rw [hs]
  rfl

theorem toNat_succ {a : UInt64} (h : a.toNat + 1 < 2 ^ 64) : (a + 1).toNat = a.toNat + 1 := by
  rw [UInt64.toNat_add]
  exact Nat.mod_eq_of_lt h

theorem toNat_pred {a : UInt64} (h : 0 < a.toNat) : (a - 1).toNat = a.toNat - 1 :=
  UInt64.toNat_sub_of_le _ _ (UInt64.le_iff_toNat_le.2 h)

theorem isNaN_nextUp (h : x.isFinite) : (nextUp x).isNaN = false := by
  have hb := toBits_of_isFinite h
  have hlt := x.toBits.toNat_lt
  unfold nextUp
  split_ifs with h1 h2 h3
  · exact isNaN_of_isFinite h
  · rfl
  · refine isNaN_ofBits ?_
    rw [toNat_succ (by omega)]
    omega
  · have hz : x.toBits.toNat % 2 ^ 63 ≠ 0 := fun hz => h2 (beq_zero_of_toBits hz)
    refine isNaN_ofBits ?_
    rw [toNat_pred (by omega)]
    omega

theorem isFinite_of_not_isNaN_isInf (hn : ¬x.isNaN = true) (hi : ¬x.isInf = true) :
    x.isFinite = true := by
  change ¬x.toModel.unpack.isNaN = true at hn
  change ¬x.toModel.unpack.isInf = true at hi
  change x.toModel.unpack.isFinite = true
  cases hu : x.toModel.unpack with
  | finite s m e h => rfl
  | zero s => rfl
  | infinity s => rw [hu] at hi; exact absurd rfl hi
  | notANumber => rw [hu] at hn; exact absurd rfl hn

theorem isNaN_addUp (x y : Float) : (addUp x y).isNaN = false := by
  unfold addUp
  dsimp only
  split_ifs with h1 h2 h3 h4
  · rfl
  · rfl
  · exact Bool.eq_false_iff.2 h1
  · exact isNaN_nextUp (isFinite_of_not_isNaN_isInf h1 h2)
  · exact Bool.eq_false_iff.2 h1

end FlowTube.Binary64

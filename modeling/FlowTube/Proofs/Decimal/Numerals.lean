import FlowTube.Proofs.Binary64.Monotone
import FlowTube.Proofs.Decimal.Rounding

/-! The conversion of numerals. A numeral is made of digits, one at least, and at most one point. It
is converted to the number nearest to the real that it stands for. A real that is rounded to zero
does not tell which zero; a numeral has no sign, and is converted to the positive one. -/

namespace FlowTube

/-! ### Results without a sign -/

namespace Binary64

open Float.Model (UnpackedFloat Format)
open Float.Model.UnpackedFloat (Sign pack unpack unpackSign)

variable {u v : UnpackedFloat} {x y : Float} {r : ℝ}

/-- Sizes, zero and infinity among them. -/
inductive Unsigned : UnpackedFloat → Prop
  | zero : Unsigned (.zero .positive)
  | infinity : Unsigned (.infinity .positive)
  | finite (m : ℕ) (e : ℤ) (hm : 0 < m) : Unsigned (.finite .positive m e hm)

namespace Unsigned

theorem unpackSign_pack (h : Unsigned u) : unpackSign (pack .binary64 u) = 0#1 := by
  cases h with
  | zero => rfl
  | infinity => rfl
  | finite m e hm =>
    rw [pack]
    dsimp only
    split_ifs
    · rfl
    · rw [UnpackedFloat.unpackSign_packComponents]
      rfl
    · rw [UnpackedFloat.unpackSign_packComponents]
      rfl

theorem pack_ne_negZero (h : Unsigned u) :
    unpack .binary64 (pack .binary64 u) ≠ .zero .negative := by
  rw [unpack, h.unpackSign_pack]
  dsimp only
  split_ifs <;> simp [Sign.ofBitVec]

theorem roundWithAccuracy (m : ℕ) (e : ℤ) (a : UnpackedFloat.Accuracy) :
    Unsigned (UnpackedFloat.roundWithAccuracy .binary64 .positive m e a) := by
  unfold UnpackedFloat.roundWithAccuracy
  dsimp only
  split_ifs
  · exact .zero
  · exact .finite ..

theorem mul (h : Unsigned u) (n : ℕ) (e : ℤ) (hn : 0 < n) :
    Unsigned (UnpackedFloat.mul .binary64 u (.finite .positive n e hn)) := by
  cases h with
  | zero => exact .zero
  | infinity => exact .infinity
  | finite m d hm => exact roundWithAccuracy ..

theorem div (h : Unsigned u) (n : ℕ) (e : ℤ) (hn : 0 < n) :
    Unsigned (UnpackedFloat.div .binary64 u (.finite .positive n e hn)) := by
  cases h with
  | zero => exact .zero
  | infinity => exact .infinity
  | finite m d hm => exact roundWithAccuracy ..

theorem of_pos (h : 0 < real x) : Unsigned x.toModel.unpack := by
  obtain ⟨m, e, hm, hx⟩ := eq_positive_of_pos h
  rw [hx]
  exact .finite ..

/-- Neither a product nor a quotient by a positive number is a negative zero. -/
theorem mul_div_ne_negZero (hx : Unsigned x.toModel.unpack) (hy : 0 < real y) :
    x * y ≠ -0.0 ∧ x / y ≠ -0.0 := by
  obtain ⟨n, e, hn, hy⟩ := eq_positive_of_pos hy
  have hmul := (hx.mul n e hn).pack_ne_negZero
  have hdiv := (hx.div n e hn).pack_ne_negZero
  rw [← hy] at hmul hdiv
  constructor
  · intro h
    have hzero := unpack_of_negZero h
    exact hmul hzero
  · intro h
    have hzero := unpack_of_negZero h
    exact hdiv hzero

theorem ofScientific (m : ℕ) (e : ℤ) : Unsigned (UnpackedFloat.ofScientific .binary64 m e) := by
  unfold UnpackedFloat.ofScientific
  split_ifs
  · exact .zero
  · exact .infinity
  · exact .zero
  · exact mul (.finite ..) ..
  · exact div (.finite ..) ..

end Unsigned

theorem unsigned_toUInt64_toFloat {m : ℕ} (hm : m < 2 ^ 53) :
    Unsigned m.toUInt64.toFloat.toModel.unpack := by
  rcases Nat.eq_zero_or_pos m with rfl | hpos
  · exact .zero
  · refine .of_pos ?_
    rw [(real_toUInt64_toFloat hm).2]
    exact_mod_cast hpos

/-- A decimal literal of the core library has no sign. -/
theorem ofScientific_ne_negZero (m : ℕ) (negative : Bool) (k : ℕ) :
    Float.ofScientific m negative k ≠ -0.0 := by
  unfold Float.ofScientific
  by_cases hshort : m < 2 ^ 53 ∧ k ≤ 22
  · rw [dif_pos hshort]
    have hpow : 0 < real Float.exactlyRepresentablePowersOfTen[(⟨k, by omega⟩ : Fin 23)] := by
      rw [real_exactlyRepresentablePowersOfTen]
      positivity
    obtain ⟨hmul, hdiv⟩ := (unsigned_toUInt64_toFloat hshort.1).mul_div_ne_negZero hpow
    cases negative with
    | false => exact hmul
    | true => exact hdiv
  · rw [dif_neg hshort]
    intro h
    have hzero := unpack_of_negZero h
    exact (Unsigned.ofScientific m _).pack_ne_negZero hzero

/-- What two numbers are both nearest to makes them equal, up to the sign of a zero. -/
theorem RoundsTo.unique (hx : RoundsTo r x) (hy : RoundsTo r y) (hx0 : x ≠ -0.0) (hy0 : y ≠ -0.0) :
    x = y :=
  eq_of_value_eq hx.isNaN hy.isNaN hx0 hy0 (le_antisymm (hx.mono hy le_rfl) (hy.mono hx le_rfl))

end Binary64

namespace Decimal

open Binary64

variable {cs whole fraction : List Char} {d : Decimal} {x y : Float}

/-! ### Numerals -/

/-- Digits, one at least, with at most one point among them. -/
structure IsNumeral (cs : List Char) : Prop where
  characters : ∀ c ∈ cs, c.isDigit = true ∨ c = '.'
  points : cs.count '.' ≤ 1
  someDigit : ∃ c ∈ cs, c.isDigit = true

/-- The number that a numeral is converted to. -/
structure ConvertsTo (cs : List Char) (x : Float) : Prop where
  nearest : RoundsTo (textValue cs) x
  unsigned : x ≠ -0.0

theorem ConvertsTo.unique (hx : ConvertsTo cs x) (hy : ConvertsTo cs y) : x = y :=
  hx.nearest.unique hy.nearest hx.unsigned hy.unsigned

theorem toFloat_ne_negZero (d : Decimal) : d.toFloat ≠ -0.0 := by
  unfold toFloat
  split_ifs
  · exact ofScientific_ne_negZero _ _ _
  · exact ofScientific_ne_negZero _ _ _

theorem convertsTo_of_read? (h : read? cs = some d) : ConvertsTo cs d.toFloat :=
  ⟨exact_of_read? h ▸ d.roundsTo_toFloat, d.toFloat_ne_negZero⟩

theorem count_point (h : ∀ c ∈ cs, c.isDigit = true) : cs.count '.' = 0 :=
  List.count_eq_zero.2 fun hmem => absurd (h _ hmem) (by decide)

theorem isNumeral_whole (h : ∀ c ∈ whole, c.isDigit = true) : IsNumeral whole ↔ whole ≠ [] := by
  constructor
  · rintro ⟨-, -, c, hc, -⟩
    exact List.ne_nil_of_mem hc
  · intro hne
    obtain ⟨c, hc⟩ := List.exists_mem_of_ne_nil whole hne
    exact ⟨fun c hc => Or.inl (h c hc), by rw [count_point h]; exact Nat.zero_le 1, c, hc, h c hc⟩

theorem isNumeral_point (h : ∀ c ∈ whole, c.isDigit = true) :
    IsNumeral (whole ++ '.' :: fraction) ↔
      (∀ c ∈ fraction, c.isDigit = true) ∧ whole ++ fraction ≠ [] := by
  have hcount : (whole ++ '.' :: fraction).count '.' = fraction.count '.' + 1 := by
    rw [List.count_append, count_point h, zero_add, List.count_cons_self]
  constructor
  · rintro ⟨hcharacters, hpoints, c, hc, hdigit⟩
    refine ⟨fun c hc => (hcharacters c (by simp [hc])).resolve_right ?_, ?_⟩
    · rintro rfl
      have hpos := List.count_pos_iff.2 hc
      omega
    · rw [List.mem_append, List.mem_cons] at hc
      rcases hc with hc | rfl | hc
      · exact List.append_ne_nil_of_left_ne_nil (List.ne_nil_of_mem hc) _
      · exact absurd hdigit (by decide)
      · exact List.append_ne_nil_of_right_ne_nil _ (List.ne_nil_of_mem hc)
  · rintro ⟨hfraction, hne⟩
    have hdigits : ∀ c ∈ whole ++ fraction, c.isDigit = true := fun c hc =>
      (List.mem_append.1 hc).elim (h c) (hfraction c)
    obtain ⟨c, hc⟩ := List.exists_mem_of_ne_nil _ hne
    refine ⟨fun c hc => ?_, by rw [hcount, count_point hfraction], c, ?_, hdigits c hc⟩
    · rw [List.mem_append, List.mem_cons] at hc
      rcases hc with hc | rfl | hc
      · exact Or.inl (h c hc)
      · exact Or.inr rfl
      · exact Or.inl (hfraction c hc)
    · rw [List.mem_append] at hc
      rw [List.mem_append, List.mem_cons]
      exact hc.imp_right Or.inr

/-- Numerals are read, and nothing else is. -/
theorem exists_read?_iff : (∃ d, read? cs = some d) ↔ IsNumeral cs := by
  have hwhole : ∀ c ∈ cs.takeWhile Char.isDigit, c.isDigit = true := fun c hc =>
    List.mem_takeWhile_imp hc
  have hsplit := List.takeWhile_append_dropWhile (p := Char.isDigit) (l := cs)
  unfold read?
  dsimp only
  split
  · rename_i hrest
    rw [hrest, List.append_nil] at hsplit
    rw [hsplit] at hwhole ⊢
    rw [isNumeral_whole hwhole]
    cases cs <;> simp
  · rename_i fraction hrest
    rw [hrest] at hsplit
    have hnumeral := @isNumeral_point _ fraction hwhole
    rw [hsplit] at hnumeral
    have hread : (fraction.all Char.isDigit &&
        !((cs.takeWhile Char.isDigit).isEmpty && fraction.isEmpty)) = true ↔ IsNumeral cs := by
      rw [hnumeral, Bool.and_eq_true, List.all_eq_true, Bool.not_eq_true', Bool.and_eq_false_iff,
        List.isEmpty_eq_false_iff, List.isEmpty_eq_false_iff]
      exact and_congr_right fun _ => by rw [Ne, Ne, Ne, List.append_eq_nil_iff, not_and_or]
    rw [← hread]
    split_ifs with h
    · exact iff_of_true ⟨_, rfl⟩ h
    · exact iff_of_false (by simp) h
  · rename_i hnil hpoint
    refine iff_of_false (by simp) fun hnumeral => ?_
    obtain ⟨c, rest, hrest⟩ := List.exists_cons_of_ne_nil hnil
    have hc := List.head?_dropWhile_not Char.isDigit cs
    rw [hrest] at hc
    have hmem : c ∈ cs := by
      rw [← hsplit, hrest]
      simp
    rcases hnumeral.characters c hmem with hdigit | rfl
    · exact absurd hdigit (Bool.eq_false_iff.1 hc)
    · exact hpoint rest hrest

end Decimal

end FlowTube

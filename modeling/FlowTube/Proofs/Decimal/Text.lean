import FlowTube.Decimal.Text
import Mathlib

/-! Decimals and the texts they are read from. A text stands for a real, digit by digit: the digits
before the point count ones, tens and hundreds, those behind it tenths and hundredths. Reading puts
all digits into one number and moves the point with the exponent, and keeps this real. -/

namespace FlowTube.Decimal

/-- The real that a decimal is. -/
noncomputable def exact (d : Decimal) : ℝ := d.digits * 10 ^ d.exponent

/-- What a digit stands for. -/
def digitValue (c : Char) : ℕ := c.toNat - '0'.toNat

/-- What digits before the point stand for: ones, tens, hundreds from the right. -/
def wholeValue : List Char → ℕ
  | [] => 0
  | c :: cs => digitValue c * 10 ^ cs.length + wholeValue cs

/-- What digits behind the point stand for: tenths, hundredths from the left. -/
noncomputable def fractionValue : List Char → ℝ
  | [] => 0
  | c :: cs => (digitValue c + fractionValue cs) / 10

/-- The real that a text of digits with at most one point stands for. -/
noncomputable def textValue (cs : List Char) : ℝ :=
  wholeValue (cs.takeWhile (· ≠ '.')) + fractionValue (cs.dropWhile (· ≠ '.')).tail

variable {cs whole fraction : List Char} {d : Decimal}

theorem wholeValue_append (cs ds : List Char) :
    wholeValue (cs ++ ds) = wholeValue cs * 10 ^ ds.length + wholeValue ds := by
  induction cs with
  | nil => simp [wholeValue]
  | cons c cs ih =>
    rw [List.cons_append, wholeValue, wholeValue, ih, List.length_append, pow_add]
    ring

/-- Reading digits from the left gives the value of their places. -/
theorem ofDigits_eq (cs : List Char) : ofDigits cs = wholeValue cs := by
  have key (n : ℕ) : cs.foldl (fun n c => 10 * n + (c.toNat - '0'.toNat)) n =
      n * 10 ^ cs.length + wholeValue cs := by
    induction cs generalizing n with
    | nil => simp [wholeValue]
    | cons c cs ih =>
      rw [List.foldl_cons, ih, wholeValue, List.length_cons, digitValue, pow_succ]
      ring
  rw [ofDigits, key, zero_mul, zero_add]

theorem fractionValue_eq (cs : List Char) :
    fractionValue cs = wholeValue cs * 10 ^ (-(cs.length : ℤ)) := by
  induction cs with
  | nil => simp [fractionValue, wholeValue]
  | cons c cs ih =>
    rw [fractionValue, ih, wholeValue, List.length_cons]
    push_cast
    rw [neg_add, zpow_add₀ (by norm_num), zpow_neg_one, zpow_neg, zpow_natCast]
    field_simp

theorem forall_ne_point (h : ∀ c ∈ whole, c.isDigit = true) :
    ∀ c ∈ whole, decide (c ≠ '.') = true := fun c hc =>
  decide_eq_true fun heq => absurd (h c hc) (by rw [heq]; decide)

theorem textValue_whole (h : ∀ c ∈ whole, c.isDigit = true) :
    textValue whole = wholeValue whole := by
  have hne := forall_ne_point h
  rw [textValue, List.takeWhile_eq_self_iff.2 hne, List.dropWhile_eq_nil_iff.2 hne]
  exact add_zero _

theorem textValue_point (h : ∀ c ∈ whole, c.isDigit = true) :
    textValue (whole ++ '.' :: fraction) = wholeValue whole + fractionValue fraction := by
  have hne := forall_ne_point h
  rw [textValue, List.takeWhile_append_of_pos hne, List.dropWhile_append_of_pos hne]
  simp

/-- The decimal that is read from a text is the real that the text stands for. -/
theorem exact_of_read? (h : read? cs = some d) : d.exact = textValue cs := by
  have hwhole : ∀ c ∈ cs.takeWhile Char.isDigit, c.isDigit = true := fun c hc =>
    List.mem_takeWhile_imp hc
  have hsplit := List.takeWhile_append_dropWhile (p := Char.isDigit) (l := cs)
  unfold read? at h
  dsimp only at h
  split at h
  · rename_i hrest
    split_ifs at h
    cases h
    rw [hrest, List.append_nil] at hsplit
    rw [exact, ofDigits_eq, zpow_zero, mul_one, ← textValue_whole hwhole, hsplit]
  · rename_i fraction hrest
    split_ifs at h
    cases h
    rw [hrest] at hsplit
    have hvalue : textValue cs =
        wholeValue (cs.takeWhile Char.isDigit) + fractionValue fraction := by
      conv_lhs => rw [← hsplit]
      exact textValue_point hwhole
    rw [hvalue, exact, ofDigits_eq, wholeValue_append, fractionValue_eq]
    push_cast
    rw [add_mul, mul_assoc, zpow_neg, zpow_natCast, mul_inv_cancel₀ (by positivity), mul_one]
  · contradiction

end FlowTube.Decimal

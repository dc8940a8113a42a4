import FlowTube.Text.Classes
import Mathlib

/-! Characters of one class and of no other. Below the code point 128 the classes are ranges far
apart; above it they are tables, and the blanks are apart from the letters and from the numerals
since each of their ranges is apart from every other one. -/

namespace FlowTube.Text

variable {c : Char} {n : ℕ} {r s : Array (ℕ × ℕ)}

/-- No code point is in ranges of both tables. -/
def Apart (r s : Array (ℕ × ℕ)) : Prop :=
  ∀ a ∈ r.toList, ∀ b ∈ s.toList, a.2 < b.1 ∨ b.2 < a.1

instance : Decidable (Apart r s) :=
  inferInstanceAs (Decidable (∀ a ∈ r.toList, ∀ b ∈ s.toList, a.2 < b.1 ∨ b.2 < a.1))

theorem inRanges_iff : inRanges r n = true ↔ ∃ a ∈ r.toList, a.1 ≤ n ∧ n ≤ a.2 := by
  simp [inRanges, ← Array.any_toList]

theorem Apart.not_inRanges (h : Apart r s) (hr : inRanges r n = true) : ¬inRanges s n = true := by
  intro hs
  obtain ⟨a, ha, hlow, hup⟩ := inRanges_iff.1 hr
  obtain ⟨b, hb, hlow', hup'⟩ := inRanges_iff.1 hs
  have := h a ha b hb
  omega

theorem apart_letters : Apart blankRanges letterRanges := by decide +kernel

theorem apart_numerals : Apart blankRanges numeralRanges := by decide +kernel

theorem digit_bounds (h : c.isDigit = true) : 48 ≤ c.toNat ∧ c.toNat ≤ 57 := by
  rw [Char.isDigit, Bool.and_eq_true, decide_eq_true_eq, decide_eq_true_eq] at h
  exact ⟨UInt32.le_iff_toNat_le.1 h.1, UInt32.le_iff_toNat_le.1 h.2⟩

theorem alpha_bounds (h : c.isAlpha = true) : 65 ≤ c.toNat ∧ c.toNat ≤ 122 := by
  rw [Char.isAlpha, Char.isUpper, Char.isLower, Bool.or_eq_true, Bool.and_eq_true,
    decide_eq_true_eq, decide_eq_true_eq, decide_eq_true_eq] at h
  rcases h with ⟨hlow, hup⟩ | ⟨hlow, hup⟩
  · have hlow : 65 ≤ c.toNat := UInt32.le_iff_toNat_le.1 hlow
    have hup : c.toNat ≤ 90 := UInt32.le_iff_toNat_le.1 hup
    omega
  · have hlow : 97 ≤ c.toNat := UInt32.le_iff_toNat_le.1 hlow
    have hup : c.toNat ≤ 122 := UInt32.le_iff_toNat_le.1 hup
    omega

theorem letter_cases (h : isLetter c = true) :
    (65 ≤ c.toNat ∧ c.toNat ≤ 122) ∨ 128 ≤ c.toNat ∧ inRanges letterRanges c.toNat = true := by
  rw [isLetter, Bool.or_eq_true, Bool.and_eq_true, decide_eq_true_eq] at h
  exact h.imp_left alpha_bounds

theorem blank_cases (h : isBlank c = true) :
    c.toNat ≤ 32 ∨ 128 ≤ c.toNat ∧ inRanges blankRanges c.toNat = true := by
  rw [isBlank, Bool.or_eq_true, Bool.or_eq_true, Bool.and_eq_true, Bool.and_eq_true, beq_iff_eq,
    decide_eq_true_eq, decide_eq_true_eq, decide_eq_true_eq] at h
  rcases h with (rfl | ⟨-, hup⟩) | hwide
  · exact Or.inl (by decide)
  · exact Or.inl (by omega)
  · exact Or.inr hwide

theorem isWordChar_of_isLetter (h : isLetter c = true) : isWordChar c = true := by
  rw [isWordChar, h, Bool.true_or, Bool.true_or]

theorem isWordChar_of_isDigit (h : c.isDigit = true) : isWordChar c = true := by
  rw [isWordChar, isNumeral, h, Bool.true_or, Bool.or_true, Bool.true_or]

/-- No character of a word is a blank. -/
theorem isBlank_of_isWordChar (h : isWordChar c = true) : isBlank c = false := by
  refine Bool.eq_false_iff.2 fun hblank => ?_
  have hb := blank_cases hblank
  rw [isWordChar, isNumeral, Bool.or_eq_true, Bool.or_eq_true, Bool.or_eq_true, Bool.and_eq_true,
    decide_eq_true_eq, beq_iff_eq] at h
  rcases h with (hletter | hdigit | ⟨hwide, hnumeral⟩) | rfl
  · rcases letter_cases hletter with hl | ⟨hl, hrange⟩
    · omega
    · exact apart_letters.not_inRanges (hb.resolve_left (by omega)).2 hrange
  · have := digit_bounds hdigit
    omega
  · exact apart_numerals.not_inRanges (hb.resolve_left (by omega)).2 hnumeral
  · exact absurd hblank (by decide)

end FlowTube.Text

import FlowTube.Proofs.Decimal.Rounding
import FlowTube.Proofs.Enclosure.Exact
import FlowTube.Proofs.Expr.Reading
import FlowTube.Proofs.Text.Classes
import FlowTube.Expr.Compile

/-! Numbers in expressions. A text of digits and points stands for a real, digit by digit, and is
read as the number nearest to that real; the constant that is compiled for it depends on this
number only. Both neighbours of the number are in the constant, unless the number is a small
integer: then nothing else is, and the texts that were rounded to the integer are missed. -/

namespace FlowTube

/-! ### Constants -/

namespace Binary64

variable {x : Float} {r : ℝ}

theorem isSmallInteger_iff :
    IsSmallInteger x ↔ (isIntegral x && decide (x.abs ≤ 9007199254740992.0)) = true := by
  rw [Bool.and_eq_true, isIntegral_iff, decide_eq_true_eq, IsSmallInteger, and_assoc]
  refine and_congr_right fun hx => and_congr_right fun _ => ?_
  rw [le_iff_real (by simpa using hx) rfl, real_abs, real_fiftyThreeBits]

/-- The neighbours of a number have between them what is rounded to it. -/
theorem RoundsTo.neighbours (h : RoundsTo r x) :
    IsLower (nextDown x) r ∧ IsUpper (nextUp x) r := by
  cases h with
  | finite hx h => exact ⟨⟨isNaN_nextDown hx, h.nextDown_le hx⟩, isNaN_nextUp hx, h.le_nextUp hx⟩
  | above hx w h hw =>
    subst hx
    have hdown : nextDown inf = maxFinite := rfl
    rw [hdown, isLower_iff_of_isFinite isFinite_maxFinite]
    exact ⟨h.maxFinite_le hw, rfl, le_top⟩
  | below hx w h hw =>
    subst hx
    have hup : nextUp negInf = -maxFinite := rfl
    rw [hup, isUpper_iff_of_isFinite (by rw [isFinite_neg_eq]; rfl), real_neg]
    exact ⟨⟨rfl, bot_le⟩, by linarith [h.neg.maxFinite_le (by linarith)]⟩

end Binary64

namespace Interval

open Binary64

/-- The constant of a rounded real has the real, unless it was rounded to a small integer. -/
theorem mem_ofLiteral_iff {x : Float} {r : ℝ} (h : RoundsTo r x) :
    r ∈ ofLiteral x ↔ (IsSmallInteger x → real x = r) := by
  by_cases hsmall : IsSmallInteger x
  · rw [ofLiteral, if_pos (isSmallInteger_iff.1 hsmall), mem_point_iff]
    exact ⟨fun hr _ => hr.2, fun hr => ⟨hsmall.1, hr hsmall⟩⟩
  · rw [ofLiteral, if_neg (mt isSmallInteger_iff.2 hsmall), mem_ofBounds]
    exact iff_of_true h.neighbours fun hx => absurd hx hsmall

end Interval

/-! ### Texts -/

namespace Expr

open Binary64

variable {cs : List Char} {ts : List Token}

theorem isBlank_of_isNumberChar {c : Char} (h : isNumberChar c = true) :
    Text.isBlank c = false := by
  rw [isNumberChar, Bool.or_eq_true, beq_iff_eq] at h
  rcases h with hdigit | rfl
  · exact Text.isBlank_of_isWordChar (Text.isWordChar_of_isDigit hdigit)
  · decide

/-- A text of digits and points is one token, a number, or no token at all. -/
theorem tokenize_number (hne : cs ≠ []) (h : ∀ c ∈ cs, isNumberChar c = true) :
    tokenize cs = match Decimal.read? cs with
      | none => .error (.badNumber (String.ofList cs))
      | some d => .ok [.number d.toFloat] := by
  obtain ⟨c, cs, rfl⟩ := List.exists_cons_of_ne_nil hne
  obtain ⟨hc, hcs⟩ := List.forall_mem_cons.1 h
  rw [tokenize, if_neg (Bool.eq_false_iff.1 (isBlank_of_isNumberChar hc)), if_pos hc]
  dsimp only
  rw [List.takeWhile_eq_self_iff.2 hcs, List.dropWhile_eq_nil_iff.2 hcs, tokenize]
  rfl

/-- The constant of a number. -/
theorem compile_number (scope : Scope) (x : Float) :
    compile scope (.number x) = .ok [Instr.const (Interval.ofLiteral x)] := rfl

/-- A text of digits and points that is accepted is one number, the one nearest to what the text
stands for, and one constant. The constant has the real that the text stands for, unless the text
was rounded, and to a small integer. -/
theorem literal_enclosed_iff (hne : cs ≠ []) (hcs : ∀ c ∈ cs, isNumberChar c = true)
    (h : tokenize cs = .ok ts) :
    ∃ x a, ts = [.number x] ∧ parse (String.ofList cs) = .ok (.number x) ∧
      (∀ scope, compile scope (.number x) = .ok [Instr.const a]) ∧
      RoundsTo (Decimal.textValue cs) x ∧
      (Decimal.textValue cs ∈ (a : Interval) ↔
        (IsSmallInteger x → real x = Decimal.textValue cs)) := by
  rw [tokenize_number hne hcs] at h
  cases hread : Decimal.read? cs with
  | none =>
    rw [hread] at h
    contradiction
  | some d =>
    rw [hread] at h
    obtain rfl := Except.ok.inj h
    have hround := d.roundsTo_toFloat
    rw [Decimal.exact_of_read? hread] at hround
    refine ⟨d.toFloat, Interval.ofLiteral d.toFloat, rfl, ?_, fun scope => compile_number scope _,
      hround, Interval.mem_ofLiteral_iff hround⟩
    refine parse_eq_ok_iff.2 ⟨_, ?_, .product (.signed (.power (.atom (.number _))))⟩
    rw [String.toList_ofList, tokenize_number hne hcs, hread]

/-- A tenth is not a binary number, and is in its constant. -/
theorem literal_enclosed_iff_tenth :
    ∃ x, tokenize "0.1".toList = .ok [.number x] ∧ ∃ a, (∀ scope, compile scope (.number x) =
      .ok [Instr.const a]) ∧ (1 / 10 : ℝ) ∈ (a : Interval) := by
  have hread : Decimal.read? "0.1".toList = some ⟨1, -1⟩ := by decide
  have hne : "0.1".toList ≠ [] := by decide
  have hcs : ∀ c ∈ "0.1".toList, isNumberChar c = true :=
    List.all_eq_true.1 rfl
  have htoken : tokenize "0.1".toList = .ok [.number (Decimal.toFloat ⟨1, -1⟩)] := by
    rw [tokenize_number hne hcs, hread]
  obtain ⟨x, a, hx, -, hcompile, -, hmem⟩ := literal_enclosed_iff hne hcs htoken
  obtain rfl : Decimal.toFloat ⟨1, -1⟩ = x := by simpa using hx
  have hsmall : ¬IsSmallInteger (Decimal.toFloat ⟨1, -1⟩) := by
    rw [isSmallInteger_iff]
    decide +kernel
  have hvalue : Decimal.textValue "0.1".toList = 1 / 10 := by
    rw [← Decimal.exact_of_read? hread, Decimal.exact]
    norm_num
  rw [hvalue] at hmem
  exact ⟨_, htoken, a, hcompile, hmem.2 fun h => absurd h hsmall⟩

/-- A text that lies above one by less than half a place is rounded to one, which is the whole
constant. -/
theorem literal_missed :
    tokenize "1.00000000000000001".toList = .ok [.number 1.0] ∧
      (∀ scope, compile scope (.number 1.0) = .ok [Instr.const (Interval.point 1.0)]) ∧
      Decimal.textValue "1.00000000000000001".toList = 1 + 1 / 10 ^ 17 ∧
      Decimal.textValue "1.00000000000000001".toList ∉ Interval.point 1.0 := by
  have hread : Decimal.read? "1.00000000000000001".toList = some ⟨100000000000000001, -17⟩ := by
    decide
  have hfloat : Decimal.toFloat ⟨100000000000000001, -17⟩ = 1.0 :=
    eq_of_toBits_eq (by decide +kernel)
  have hvalue : Decimal.textValue "1.00000000000000001".toList = 1 + 1 / 10 ^ 17 := by
    rw [← Decimal.exact_of_read? hread, Decimal.exact]
    norm_num
  have hliteral : Interval.ofLiteral 1.0 = Interval.point 1.0 := if_pos (by decide +kernel)
  refine ⟨?_, fun scope => by rw [compile_number, hliteral], hvalue, ?_⟩
  · rw [tokenize_number (by decide) (List.all_eq_true.1 rfl), hread, ← hfloat]
  · rw [hvalue, Interval.mem_point_one]
    norm_num

end Expr

end FlowTube

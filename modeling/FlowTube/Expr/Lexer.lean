import FlowTube.Expr.Basic

/-! From text to tokens. Blanks separate tokens and are dropped. A number is a longest
run of digits and points, an identifier a letter with the longest run of word
characters after it, and any other token is one character. -/

namespace FlowTube.Expr

/-- Characters of a number. -/
def isNumberChar (c : Char) : Bool := c.isDigit || c == '.'

/-- The token of a single character. -/
def Token.ofChar? : Char → Option Token
  | '+' => some .plus
  | '-' => some .minus
  | '*' => some .star
  | '/' => some .slash
  | '^' => some .caret
  | '(' => some .leftParen
  | ')' => some .rightParen
  | _ => none

theorem length_dropWhile_lt (p : Char → Bool) (c : Char) (cs : List Char) :
    (cs.dropWhile p).length < (c :: cs).length :=
  Nat.lt_succ_of_le (List.dropWhile_sublist p).length_le

/-- Splits a text into tokens. -/
def tokenize (text : List Char) : Except Problem (List Token) :=
  match text with
  | [] => .ok []
  | c :: cs =>
    if Text.isBlank c then tokenize cs
    else if isNumberChar c then
      let digits := c :: cs.takeWhile isNumberChar
      match Decimal.read? digits with
      | none => .error (.badNumber (String.ofList digits))
      | some d => (tokenize (cs.dropWhile isNumberChar)).map (.number d.toFloat :: ·)
    else if Text.isLetter c then
      let word := c :: cs.takeWhile Text.isWordChar
      (tokenize (cs.dropWhile Text.isWordChar)).map (.word (String.ofList word) :: ·)
    else
      match Token.ofChar? c with
      | none => .error (.badCharacter c)
      | some t => (tokenize cs).map (t :: ·)
termination_by text.length
decreasing_by all_goals first | exact length_dropWhile_lt _ _ _ | simp

end FlowTube.Expr

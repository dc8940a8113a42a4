import FlowTube.Text.Classes
import FlowTube.Decimal.Text

/-! Expressions of a right-hand side, their tokens, and what can be wrong with them.
Operators and functions are kept as they were written; which of them mean something is
decided when an expression is compiled. -/

namespace FlowTube

/-- An arithmetic expression. -/
inductive Expr
  | number (x : Float)
  | name (s : String)
  | binary (op : Char) (left right : Expr)
  | unary (op : Char) (arg : Expr)
  | call (function : String) (arg : Expr)

namespace Expr

/-- The lexical units of an expression. -/
inductive Token
  | number (x : Float)
  | word (s : String)
  | plus
  | minus
  | star
  | slash
  | caret
  | leftParen
  | rightParen

/-- The name of a token in messages. -/
def Token.label : Token → String
  | .number x => "Number(" ++ Decimal.text x ++ ")"
  | .word s => "Identifier(\"" ++ s ++ "\")"
  | .plus => "Plus"
  | .minus => "Minus"
  | .star => "Star"
  | .slash => "Slash"
  | .caret => "Caret"
  | .leftParen => "LParen"
  | .rightParen => "RParen"

/-- Why a text is no expression, or an expression has no meaning. -/
inductive Problem
  | badCharacter (c : Char)
  | badNumber (digits : String)
  | badToken (t : Token)
  | unexpectedEnd
  | unclosed
  | trailing (source : String)
  | unknownName (s : String)
  | unknownBinary (op : Char)
  | unknownUnary (op : Char)
  | unknownFunction (s : String)

/-- The message of a problem. -/
def Problem.message : Problem → String
  | .badCharacter c => "Unexpected character '" ++ c.toString ++ "'"
  | .badNumber digits => "Invalid number: " ++ digits
  | .badToken t => "Unexpected token " ++ t.label
  | .unexpectedEnd => "Unexpected end of expression"
  | .unclosed => "Expected ')'"
  | .trailing source => "Unexpected trailing input in '" ++ source ++ "'"
  | .unknownName s => "Unknown variable or parameter: " ++ s
  | .unknownBinary op => "Unknown binary operator: " ++ op.toString
  | .unknownUnary op => "Unknown unary operator: " ++ op.toString
  | .unknownFunction s => "Unknown function: " ++ s

end Expr

end FlowTube

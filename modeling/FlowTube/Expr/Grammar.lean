import FlowTube.Expr.Lexer

/-! The grammar of expressions as relations between a list of tokens and its tree. Sums
and products grow on their right end, so they group to the left; an exponent is a signed
power, so powers group to the right and a sign binds weaker than a power. -/

namespace FlowTube.Expr

mutual

/-- A sum: products with plus and minus signs between them. -/
inductive IsSum : List Token → Expr → Prop
  | product {ts : List Token} {e : Expr} : IsProduct ts e → IsSum ts e
  | add {ts us : List Token} {a b : Expr} :
    IsSum ts a → IsProduct us b → IsSum (ts ++ .plus :: us) (.binary '+' a b)
  | sub {ts us : List Token} {a b : Expr} :
    IsSum ts a → IsProduct us b → IsSum (ts ++ .minus :: us) (.binary '-' a b)

/-- A product: signed powers with stars and slashes between them. -/
inductive IsProduct : List Token → Expr → Prop
  | signed {ts : List Token} {e : Expr} : IsSigned ts e → IsProduct ts e
  | mul {ts us : List Token} {a b : Expr} :
    IsProduct ts a → IsSigned us b → IsProduct (ts ++ .star :: us) (.binary '*' a b)
  | div {ts us : List Token} {a b : Expr} :
    IsProduct ts a → IsSigned us b → IsProduct (ts ++ .slash :: us) (.binary '/' a b)

/-- A power with any number of minus signs before it. -/
inductive IsSigned : List Token → Expr → Prop
  | power {ts : List Token} {e : Expr} : IsPower ts e → IsSigned ts e
  | neg {ts : List Token} {e : Expr} : IsSigned ts e → IsSigned (.minus :: ts) (.unary '-' e)

/-- An atom, or an atom raised to a signed power. -/
inductive IsPower : List Token → Expr → Prop
  | atom {ts : List Token} {e : Expr} : IsAtom ts e → IsPower ts e
  | pow {ts us : List Token} {a b : Expr} :
    IsAtom ts a → IsSigned us b → IsPower (ts ++ .caret :: us) (.binary '^' a b)

/-- A number, a name, a call or an expression in parentheses. -/
inductive IsAtom : List Token → Expr → Prop
  | number (x : Float) : IsAtom [.number x] (.number x)
  | name (s : String) : IsAtom [.word s] (.name s)
  | call {ts : List Token} {e : Expr} (s : String) :
    IsSum ts e → IsAtom (.word s :: .leftParen :: ts ++ [.rightParen]) (.call s e)
  | group {ts : List Token} {e : Expr} : IsSum ts e → IsAtom (.leftParen :: ts ++ [.rightParen]) e

end

end FlowTube.Expr

import FlowTube.Expr.Lexer

/-! From tokens to expressions, for the grammar

* sum = product (('+' | '-') product)*
* product = signed (('*' | '/') signed)*
* signed = '-' signed | power
* power = atom ['^' signed]
* atom = number | name | name '(' sum ')' | '(' sum ')'

Sums and products group to the left and powers to the right, and a sign binds weaker
than a power. Each function returns the tokens it leaves, fewer than it was given. -/

namespace FlowTube.Expr

/-- What is left of `ts` after at least one token was taken. -/
abbrev Shorter (ts : List Token) := { rest : List Token // rest.length < ts.length }

/-- What is left of `ts` after any number of tokens was taken. -/
abbrev NoLonger (ts : List Token) := { rest : List Token // rest.length ≤ ts.length }

mutual

/-- Reads a sum. -/
def readSum (ts : List Token) : Except Problem (Expr × Shorter ts) :=
  match readProduct ts with
  | .error e => .error e
  | .ok (left, ⟨rest, h⟩) =>
    match readSumTail left rest with
    | .error e => .error e
    | .ok (e, ⟨rest', h'⟩) => .ok (e, ⟨rest', Nat.lt_of_le_of_lt h' h⟩)
termination_by (ts.length, 4)

/-- Reads the further terms of a sum that starts with `left`. -/
def readSumTail (left : Expr) (ts : List Token) : Except Problem (Expr × NoLonger ts) :=
  match ts with
  | .plus :: us =>
    match readProduct us with
    | .error e => .error e
    | .ok (right, ⟨rest, h⟩) =>
      match readSumTail (.binary '+' left right) rest with
      | .error e => .error e
      | .ok (e, ⟨rest', h'⟩) =>
        .ok (e, ⟨rest', Nat.le_of_lt (Nat.lt_succ_of_lt (Nat.lt_of_le_of_lt h' h))⟩)
  | .minus :: us =>
    match readProduct us with
    | .error e => .error e
    | .ok (right, ⟨rest, h⟩) =>
      match readSumTail (.binary '-' left right) rest with
      | .error e => .error e
      | .ok (e, ⟨rest', h'⟩) =>
        .ok (e, ⟨rest', Nat.le_of_lt (Nat.lt_succ_of_lt (Nat.lt_of_le_of_lt h' h))⟩)
  | ts => .ok (left, ⟨ts, Nat.le_refl _⟩)
termination_by (ts.length, 4)

/-- Reads a product. -/
def readProduct (ts : List Token) : Except Problem (Expr × Shorter ts) :=
  match readSigned ts with
  | .error e => .error e
  | .ok (left, ⟨rest, h⟩) =>
    match readProductTail left rest with
    | .error e => .error e
    | .ok (e, ⟨rest', h'⟩) => .ok (e, ⟨rest', Nat.lt_of_le_of_lt h' h⟩)
termination_by (ts.length, 3)

/-- Reads the further factors of a product that starts with `left`. -/
def readProductTail (left : Expr) (ts : List Token) : Except Problem (Expr × NoLonger ts) :=
  match ts with
  | .star :: us =>
    match readSigned us with
    | .error e => .error e
    | .ok (right, ⟨rest, h⟩) =>
      match readProductTail (.binary '*' left right) rest with
      | .error e => .error e
      | .ok (e, ⟨rest', h'⟩) =>
        .ok (e, ⟨rest', Nat.le_of_lt (Nat.lt_succ_of_lt (Nat.lt_of_le_of_lt h' h))⟩)
  | .slash :: us =>
    match readSigned us with
    | .error e => .error e
    | .ok (right, ⟨rest, h⟩) =>
      match readProductTail (.binary '/' left right) rest with
      | .error e => .error e
      | .ok (e, ⟨rest', h'⟩) =>
        .ok (e, ⟨rest', Nat.le_of_lt (Nat.lt_succ_of_lt (Nat.lt_of_le_of_lt h' h))⟩)
  | ts => .ok (left, ⟨ts, Nat.le_refl _⟩)
termination_by (ts.length, 3)

/-- Reads a power with any number of minus signs before it. -/
def readSigned (ts : List Token) : Except Problem (Expr × Shorter ts) :=
  match ts with
  | .minus :: us =>
    match readSigned us with
    | .error e => .error e
    | .ok (e, ⟨rest, h⟩) => .ok (.unary '-' e, ⟨rest, Nat.lt_succ_of_lt h⟩)
  | ts => readPower ts
termination_by (ts.length, 2)

/-- Reads an atom with an exponent if one follows. -/
def readPower (ts : List Token) : Except Problem (Expr × Shorter ts) :=
  match readAtom ts with
  | .error e => .error e
  | .ok (base, ⟨.caret :: us, h⟩) =>
    have : us.length < ts.length := Nat.lt_of_succ_lt h
    match readSigned us with
    | .error e => .error e
    | .ok (exponent, ⟨rest, h'⟩) =>
      .ok (.binary '^' base exponent, ⟨rest, Nat.lt_trans h' this⟩)
  | .ok (base, rest) => .ok (base, rest)
termination_by (ts.length, 1)

/-- Reads a number, a name, a call or an expression in parentheses. -/
def readAtom (ts : List Token) : Except Problem (Expr × Shorter ts) :=
  match ts with
  | .number x :: us => .ok (.number x, ⟨us, Nat.lt_succ_self _⟩)
  | .word s :: .leftParen :: us =>
    match readSum us with
    | .error e => .error e
    | .ok (arg, ⟨.rightParen :: rest, h⟩) =>
      .ok (.call s arg, ⟨rest, Nat.lt_succ_of_lt (Nat.lt_succ_of_lt (Nat.lt_of_succ_lt h))⟩)
    | .ok _ => .error .unclosed
  | .word s :: us => .ok (.name s, ⟨us, Nat.lt_succ_self _⟩)
  | .leftParen :: us =>
    match readSum us with
    | .error e => .error e
    | .ok (e, ⟨.rightParen :: rest, h⟩) => .ok (e, ⟨rest, Nat.lt_succ_of_lt (Nat.lt_of_succ_lt h)⟩)
    | .ok _ => .error .unclosed
  | t :: _ => .error (.badToken t)
  | [] => .error .unexpectedEnd
termination_by (ts.length, 0)

end

/-- Reads an expression from text. -/
def parse (source : String) : Except Problem Expr := do
  let tokens ← tokenize source.toList
  let (e, rest) ← readSum tokens
  if rest.1.isEmpty then return e else throw (.trailing source)

end FlowTube.Expr

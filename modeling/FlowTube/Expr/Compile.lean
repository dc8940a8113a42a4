import FlowTube.Expr.Parser
import FlowTube.Expr.Program

/-! Compilation of expressions to programs. A name is a variable, else a parameter,
else one of `t`, `pi` and `e`; if a list has a name twice, the last place counts. -/

namespace FlowTube

/-- The names that an expression may use. -/
structure Scope where
  vars : List String
  params : List String

/-- The last place of a name in a list. -/
def Scope.place? (names : List String) (s : String) : Option Nat :=
  let rec go : Nat → List String → Option Nat
    | _, [] => none
    | i, n :: rest =>
      match go (i + 1) rest with
      | some j => some j
      | none => if n == s then some i else none
  go 0 names

variable {ι : Type} [Elementary ι]

/-- Enclosure of pi. -/
def Elementary.pi : ι :=
  Enclosure.ofInterval (Interval.ofBounds Binary64.pi (Binary64.nextUp Binary64.pi))

/-- Enclosure of Euler's number. -/
def Elementary.euler : ι :=
  Enclosure.ofInterval
    (Interval.ofBounds (Binary64.nextDown Binary64.euler) (Binary64.nextUp Binary64.euler))

/-- The operand that a name stands for. -/
def Scope.operand? (scope : Scope) (s : String) : Option (Instr ι) :=
  match place? scope.vars s with
  | some i => some (.var i)
  | none =>
    match place? scope.params s with
    | some i => some (.param i)
    | none =>
      match s with
      | "t" => some .time
      | "pi" => some (.const Elementary.pi)
      | "e" => some (.const Elementary.euler)
      | _ => none

namespace Instr

/-- The instruction of a binary operator. -/
def ofBinary? : Char → Option (Instr ι)
  | '+' => some .add
  | '-' => some .sub
  | '*' => some .mul
  | '/' => some .div
  | '^' => some .pow
  | _ => none

/-- The instruction of a unary operator. -/
def ofUnary? : Char → Option (Instr ι)
  | '-' => some .neg
  | _ => none

/-- The instruction of a function. -/
def ofFunction? : String → Option (Instr ι)
  | "sin" => some .sin
  | "cos" => some .cos
  | "exp" => some .exp
  | "ln" => some .ln
  | "log" => some .ln
  | "sqrt" => some .sqrt
  | _ => none

end Instr

namespace Expr

/-- Puts the instructions of an expression on those already emitted, the latest first.
Operands come before their operator. -/
def emit (scope : Scope) : Expr → Program ι → Except Problem (Program ι)
  | .number x, code => .ok (.const (Enclosure.ofInterval (Interval.ofLiteral x)) :: code)
  | .name s, code =>
    match scope.operand? s with
    | some i => .ok (i :: code)
    | none => .error (.unknownName s)
  | .binary op left right, code => do
    let code ← emit scope left code
    let code ← emit scope right code
    match (Instr.ofBinary? op : Option (Instr ι)) with
    | some i => .ok (i :: code)
    | none => .error (.unknownBinary op)
  | .unary op arg, code => do
    let code ← emit scope arg code
    match (Instr.ofUnary? op : Option (Instr ι)) with
    | some i => .ok (i :: code)
    | none => .error (.unknownUnary op)
  | .call function arg, code => do
    let code ← emit scope arg code
    match (Instr.ofFunction? function : Option (Instr ι)) with
    | some i => .ok (i :: code)
    | none => .error (.unknownFunction function)

/-- The program of an expression. -/
def compile (scope : Scope) (e : Expr) : Except Problem (Program ι) :=
  List.reverse <$> emit scope e []

end Expr

/-- A vector of functions of time and state, one program per component. -/
structure VectorFunction (ι : Type) where
  programs : List (Program ι)
  params : Box ι

namespace VectorFunction

/-- Reads one expression per component over variables and named parameters. -/
def parse (vars : List String) (params : List (String × ι)) (sources : List String) :
    Except Error (VectorFunction ι) := do
  let scope : Scope := ⟨vars, params.map (·.1)⟩
  let programs ← sources.mapM fun source =>
    (do (← Expr.parse source).compile scope : Except Expr.Problem (Program ι)).mapError .expression
  return ⟨programs, params.map (·.2)⟩

/-- The number of components. -/
def dimension (f : VectorFunction ι) : Nat := f.programs.length

/-- The values of the given programs. -/
def values (programs : List (Program ι)) (env : Surroundings ι) : Except Error (Box ι) :=
  programs.mapM fun p => (·.1) <$> Machine.execute ⟨[]⟩ p env

/-- All components at a time and a state. -/
def eval (f : VectorFunction ι) (t : ι) (x : Box ι) : Except Error (Box ι) :=
  values f.programs ⟨t, x, f.params⟩

/-- Fills `slots` places: components as far as they go, and the whole line beyond. -/
def fill (f : VectorFunction ι) (slots : Nat) (t : ι) (x : Box ι) : Except Error (Box ι) := do
  let ys ← values (f.programs.take slots) ⟨t, x, f.params⟩
  return ys ++ List.replicate (slots - f.dimension) Enclosure.whole

end VectorFunction

end FlowTube

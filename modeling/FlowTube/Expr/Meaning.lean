import FlowTube.Expr.Compile

/-! The meaning of an expression, read off its structure: every name, operator and
function stands for a value or an operation on intervals. The instruction of each puts
this value on the stack, or the result of the operation in place of its operands. -/

namespace FlowTube

variable {ι : Type} [Elementary ι]

/-- The value of a name: a variable, else a parameter, else `t`, `pi` or `e`. -/
def Scope.value? (scope : Scope) (env : Surroundings ι) (s : String) : Option ι :=
  match place? scope.vars s with
  | some i => env.vars[i]?
  | none =>
    match place? scope.params s with
    | some i => env.params[i]?
    | none =>
      if s = "t" then some env.time
      else if s = "pi" then some Elementary.pi
      else if s = "e" then some Elementary.euler
      else none

namespace Expr

/-- What a binary operator does. -/
def binaryMeaning? (op : Char) : Option (ι → ι → ι) :=
  if op = '+' then some (· + ·)
  else if op = '-' then some (· - ·)
  else if op = '*' then some (· * ·)
  else if op = '/' then some (· / ·)
  else if op = '^' then some Elementary.pow
  else none

/-- What a function does. -/
def functionMeaning? (f : String) : Option (ι → ι) :=
  if f = "sin" then some Elementary.sin
  else if f = "cos" then some Elementary.cos
  else if f = "exp" then some Elementary.exp
  else if f = "ln" ∨ f = "log" then some Elementary.ln
  else if f = "sqrt" then some Elementary.sqrt
  else none

/-- The value of an expression, if all that it mentions is known. -/
def value? (scope : Scope) (env : Surroundings ι) : Expr → Option ι
  | .number x => some (Enclosure.ofInterval (Interval.ofLiteral x))
  | .name s => scope.value? env s
  | .binary op left right => do
    let a ← value? scope env left
    let b ← value? scope env right
    return (← binaryMeaning? op) a b
  | .unary op arg => do
    let a ← value? scope env arg
    if op = '-' then return -a else none
  | .call f arg => do
    let a ← value? scope env arg
    return (← functionMeaning? f) a

end Expr

namespace Machine

omit [Elementary ι] in
theorem load_of_getElem? {x : Box ι} {i : Nat} {a : ι} (h : x[i]? = some a) (stack : List ι) :
    load x i stack = .ok (a :: stack) := by
  rw [load, h]

/-- The operand of a name pushes its value. -/
theorem step_operand {scope : Scope} {env : Surroundings ι} {s : String} {i : Instr ι} {v : ι}
    (hi : scope.operand? s = some i) (hv : scope.value? env s = some v) (stack : List ι) :
    step env stack i = .ok (v :: stack) := by
  unfold Scope.operand? at hi
  unfold Scope.value? at hv
  cases hvar : Scope.place? scope.vars s with
  | some k =>
    simp only [hvar, Option.some.injEq] at hi hv
    subst hi
    exact load_of_getElem? hv stack
  | none =>
    simp only [hvar] at hi hv
    cases hparam : Scope.place? scope.params s with
    | some k =>
      simp only [hparam, Option.some.injEq] at hi hv
      subst hi
      exact load_of_getElem? hv stack
    | none =>
      simp only [hparam] at hi hv
      split at hi <;> simp at hi hv <;> subst hi hv <;> rfl

theorem step_ofBinary? {op : Char} {i : Instr ι} {f : ι → ι → ι} (hi : Instr.ofBinary? op = some i)
    (hf : Expr.binaryMeaning? op = some f) (env : Surroundings ι) (a b : ι) (stack : List ι) :
    step env (b :: a :: stack) i = .ok (f a b :: stack) := by
  unfold Instr.ofBinary? at hi
  unfold Expr.binaryMeaning? at hf
  split at hi <;> simp at hi hf <;> subst hi hf <;> rfl

theorem step_ofFunction? {name : String} {i : Instr ι} {f : ι → ι}
    (hi : Instr.ofFunction? name = some i) (hf : Expr.functionMeaning? name = some f)
    (env : Surroundings ι) (a : ι) (stack : List ι) :
    step env (a :: stack) i = .ok (f a :: stack) := by
  unfold Instr.ofFunction? at hi
  unfold Expr.functionMeaning? at hf
  split at hi <;> simp at hi hf <;> subst hi hf <;> rfl

end Machine

end FlowTube

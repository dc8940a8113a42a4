import FlowTube.Enclosure
import FlowTube.Error

/-! Programs of a stack machine over intervals. Operands are pushed from the
surroundings of the evaluation and operators replace the topmost values; the result is
the value on top at the end. An operator that finds no value takes the whole line. -/

namespace FlowTube

/-- One instruction of a program. -/
inductive Instr (ι : Type)
  | const (value : ι)
  | var (index : Nat)
  | param (index : Nat)
  | time
  | add
  | sub
  | mul
  | div
  | pow
  | sin
  | cos
  | exp
  | ln
  | sqrt
  | neg

/-- A sequence of instructions. -/
abbrev Program (ι : Type) := List (Instr ι)

/-- The values that the operands of a program refer to. -/
structure Surroundings (ι : Type) where
  time : ι
  vars : Box ι
  params : Box ι

/-- A machine with its stack, the top first. -/
structure Machine (ι : Type) where
  stack : List ι

namespace Machine

variable {ι : Type} [Elementary ι]

/-- Takes the top value. -/
def pop (stack : List ι) : ι × List ι :=
  match stack with
  | [] => (Enclosure.whole, [])
  | a :: rest => (a, rest)

/-- Replaces the top value. -/
def unary (f : ι → ι) (stack : List ι) : List ι :=
  f (pop stack).1 :: (pop stack).2

/-- Replaces the top two values; the right operand is on top. -/
def binary (f : ι → ι → ι) (stack : List ι) : List ι :=
  let (b, rest) := pop stack
  let (a, rest) := pop rest
  f a b :: rest

/-- Pushes the value at an index of a box. -/
def load (x : Box ι) (i : Nat) (stack : List ι) : Except Error (List ι) :=
  match x[i]? with
  | some a => .ok (a :: stack)
  | none => .error .indexOutOfRange

/-- What one instruction does to the stack. -/
def step (env : Surroundings ι) (stack : List ι) : Instr ι → Except Error (List ι)
  | .const a => .ok (a :: stack)
  | .var i => load env.vars i stack
  | .param i => load env.params i stack
  | .time => .ok (env.time :: stack)
  | .add => .ok (binary (· + ·) stack)
  | .sub => .ok (binary (· - ·) stack)
  | .mul => .ok (binary (· * ·) stack)
  | .div => .ok (binary (· / ·) stack)
  | .pow => .ok (binary Elementary.pow stack)
  | .sin => .ok (unary Elementary.sin stack)
  | .cos => .ok (unary Elementary.cos stack)
  | .exp => .ok (unary Elementary.exp stack)
  | .ln => .ok (unary Elementary.ln stack)
  | .sqrt => .ok (unary Elementary.sqrt stack)
  | .neg => .ok (unary (- ·) stack)

/-- Runs a program on a stack. -/
def run (env : Surroundings ι) : Program ι → List ι → Except Error (List ι)
  | [], stack => .ok stack
  | i :: rest, stack => do run env rest (← step env stack i)

/-- Clears the stack, runs the program and takes the result. -/
def execute (_ : Machine ι) (program : Program ι) (env : Surroundings ι) :
    Except Error (ι × Machine ι) := do
  let (result, rest) := pop (← run env program [])
  return (result, ⟨rest⟩)

end Machine

end FlowTube

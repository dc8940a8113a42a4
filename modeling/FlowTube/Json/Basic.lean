import FlowTube.Decimal.Text

/-! JSON values as they are written: numbers keep their exact decimal, and objects
their fields in order, repeated ones included. A string with a lone surrogate escape
has no text. -/

namespace FlowTube

/-- A number as it is written. -/
structure JsonNumber where
  negative : Bool
  magnitude : Decimal
  /-- Written without a fraction and without an exponent. -/
  isInteger : Bool

/-- A JSON value. -/
inductive Json
  | null
  | bool (b : Bool)
  | num (n : JsonNumber)
  | str (s : Option String)
  | arr (items : List Json)
  | obj (fields : List (Option String × Json))

/-- The nearest number, if it is not too large to have one. -/
def JsonNumber.toFloat? (n : JsonNumber) : Option Float :=
  let x := n.magnitude.toFloat
  if x.isFinite then some (if n.negative then -x else x) else none

/-- The value of an integer of at most 64 bits, written without a sign. -/
def JsonNumber.toNat? (n : JsonNumber) : Option Nat :=
  if n.isInteger && !n.negative && n.magnitude.digits < 0x10000000000000000 then some n.magnitude.digits
  else none

namespace Json

/-- The number that a value denotes. -/
def toFloat? : Json → Option Float
  | num n => n.toFloat?
  | _ => none

/-- The natural number that a value denotes. -/
def toNat? : Json → Option Nat
  | num n => n.toNat?
  | _ => none

def toBool? : Json → Option Bool
  | bool b => some b
  | _ => none

/-- The name of a choice: a string, or an object whose one field has the name and the
value `null`. -/
def toChoice? : Json → Option String
  | str s => s
  | obj [(some s, null)] => some s
  | _ => none

/-- Text of a number; what is not finite is written `null`. -/
def numberText (x : Float) : String := if x.isFinite then Decimal.traceText x else "null"

end Json

end FlowTube

/-! Binary64 numbers beyond the core operations: the named constants, the parts and the
exact value of a finite number, the rounding of an exact value `m * 2 ^ e`, integer
parts, a minimum and a maximum that prefer numbers to NaN, and the total order in which
`-0` comes before `0`. -/

namespace FlowTube.Binary64

/-! ### Constants -/

/-- Positive infinity. -/
def inf : Float := Float.ofBits 0x7ff0000000000000

/-- Negative infinity. -/
def negInf : Float := Float.ofBits 0xfff0000000000000

/-- The number that is no number. -/
def nan : Float := Float.ofBits 0x7ff8000000000000

/-- The largest finite number. -/
def maxFinite : Float := Float.ofBits 0x7fefffffffffffff

/-- The smallest positive normal number, `2 ^ -1022`. -/
def minNormal : Float := Float.ofBits 0x0010000000000000

/-- The distance `2 ^ -52` from one to the next number. -/
def epsilon : Float := Float.ofBits 0x3cb0000000000000

/-- The number nearest to half of pi. -/
def halfPi : Float := Float.ofBits 0x3ff921fb54442d18

/-- The number nearest to pi. It lies below pi. -/
def pi : Float := Float.ofBits 0x400921fb54442d18

/-- The number nearest to two pi. -/
def twoPi : Float := Float.ofBits 0x401921fb54442d18

/-- The number nearest to Euler's number. -/
def euler : Float := Float.ofBits 0x4005bf0a8b145769

/-! ### Parts of a number

A finite number is its sign times `significand * 2 ^ (exponent - 1075)`. -/

/-- Whether the sign bit is set. -/
def isNegative (x : Float) : Bool := x.toBits ≥ 0x8000000000000000

/-- The exponent field: zero below the normal numbers, 2047 beyond the finite ones. -/
def exponentField (x : Float) : Nat := ((x.toBits >>> 52) &&& 0x7ff).toNat

/-- The exponent of the last place; all numbers below the normal ones share one. -/
def exponent (x : Float) : Nat := if exponentField x = 0 then 1 else exponentField x

/-- The fraction bits, with the leading bit that a normal number does not store. -/
def significand (x : Float) : Nat :=
  let fraction := x.toBits &&& 0xfffffffffffff
  (if exponentField x = 0 then fraction else 0x10000000000000 ||| fraction).toNat

/-- The least positive number is two to the power of minus this. -/
@[irreducible] def unitExponent : Nat := 1074

/-- How many least positive numbers make up one. -/
def unitsPerOne : Nat := Nat.pow 2 unitExponent

/-- The magnitude of a finite number, counted in least positive numbers. -/
def magnitude (x : Float) : Nat := significand x * Nat.pow 2 (exponent x - 1)

/-- The value of a finite number, counted in least positive numbers. -/
def units (x : Float) : Int := if isNegative x then -magnitude x else magnitude x

/-- Mantissa and exponent of a finite number: its value is `m * 2 ^ e`. -/
def toScaled? (x : Float) : Option (Int × Int) :=
  if exponentField x = 2047 then none
  else some (if isNegative x then -(significand x : Int) else significand x,
    (exponent x : Int) - 1075)

/-! ### Rounding -/

/-- `n / 2 ^ k` rounded to the nearest integer, halfway cases to the even one. -/
def shiftNearest (n k : Nat) : Nat :=
  let q := n >>> k
  let twice := 2 * (n - (q <<< k))
  let one := 1 <<< k
  if twice > one || (twice == one && q % 2 == 1) then q + 1 else q

/-- The number nearest to `m * 2 ^ e`, halfway cases to the even neighbour. A significand
that is rounded up to the next power of two carries into the exponent, where 2047
stands for infinity. -/
def ofScaled (m e : Int) : Float :=
  let n := m.natAbs
  let field := (e + n.log2 + 1023).toNat
  let field := if field = 0 then 1 else field
  let shift := (field : Int) - 1075 - e
  let s := if 0 ≤ shift then shiftNearest n shift.toNat else n <<< (-shift).toNat
  let size :=
    if n = 0 then 0.0
    else if field < 2047 then Float.ofBits (((field - 1).toUInt64 <<< 52) + s.toUInt64)
    else inf
  if m < 0 then -size else size

/-! ### Integer parts -/

/-- The integer part, rounded toward zero. -/
def trunc (x : Float) : Float :=
  if x.abs < 9007199254740992.0 then
    if x < 0.0 then -(x.abs.toUInt64.toFloat) else x.abs.toUInt64.toFloat
  else x

/-- The least integer that is not below `x`. -/
def ceil (x : Float) : Float :=
  if trunc x < x then trunc x + 1.0 else trunc x

/-- Whether `x` is a finite number without a fractional part. -/
def isIntegral (x : Float) : Bool := x.isFinite && trunc x == x

/-- The integer part of a number of magnitude below `2 ^ 64`, as an integer. -/
def toInt (x : Float) : Int :=
  if x < 0.0 then -(x.abs.toUInt64.toNat : Int) else (x.abs.toUInt64.toNat : Int)

/-! ### Order -/

/-- The smaller of two numbers; a NaN gives way to the other one, and of two equal
numbers the first is taken. -/
def min (x y : Float) : Float := if x.isNaN then y else if y < x then y else x

/-- The larger of two numbers; a NaN gives way to the other one, and of two equal
numbers the first is taken. -/
def max (x y : Float) : Float := if x.isNaN then y else if x < y then y else x

/-- `x` moved into `[lo, hi]`. -/
def clamp (x lo hi : Float) : Float :=
  if x < lo then lo else if hi < x then hi else x

/-- Position of `x` in the total order: as the numeric order, with `-0` just below
`0`. -/
def totalKey (x : Float) : UInt64 :=
  if isNegative x then ~~~x.toBits else x.toBits ||| 0x8000000000000000

/-- The place of `x` against `y` in the total order. -/
def totalCompare (x y : Float) : Ordering := compare (totalKey x) (totalKey y)

/-- Whether `x` is smaller in magnitude than every normal number. -/
def isTiny (x : Float) : Bool := x.abs < minNormal

end FlowTube.Binary64

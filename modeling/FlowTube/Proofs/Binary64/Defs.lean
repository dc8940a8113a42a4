import FlowTube.Binary64.Basic
import Mathlib

/-! What the theory of binary64 numbers speaks of: the real and the extended real that a number
stands for, the grids on which the numbers of one exponent lie, the places at both ends of the
range, and the operands for which a directed operation is no bound. The modules beside this one
prove what holds of them. -/

namespace FlowTube.Binary64

open Float.Model (UnpackedFloat)
open Float.Model.UnpackedFloat (ExtendedMantissa)

/-! ### The real of a number -/

/-- The real of a finite unpacked number; zero for the others. -/
noncomputable def unpackedReal : UnpackedFloat → ℝ
  | .finite s m e _ => s.apply m * 2 ^ e
  | _ => 0

/-- The extended real of an unpacked number; zero for the one that is no number. -/
noncomputable def unpackedValue : UnpackedFloat → EReal
  | .infinity .positive => ⊤
  | .infinity .negative => ⊥
  | u => unpackedReal u

/-- The real of a finite number; zero for the others. -/
noncomputable def real (x : Float) : ℝ := unpackedReal x.toModel.unpack

/-- The extended real of a number; zero for NaN. -/
noncomputable def value (x : Float) : EReal := unpackedValue x.toModel.unpack

/-! ### Places -/

/-- The multiples of `2 ^ e`. -/
noncomputable def grid (e : ℤ) : AddSubgroup ℝ := AddSubgroup.zmultiples ((2 : ℝ) ^ e)

/-- A multiple of a power of two that is not below the least one, with 53 places. -/
def Representable (r : ℝ) : Prop := ∃ e : ℤ, -1074 ≤ e ∧ r ∈ grid e ∧ |r| < 2 ^ 53 * 2 ^ e

/-- The last place of the largest numbers. -/
noncomputable def topPlace : ℝ := 2 ^ (971 : ℤ)

theorem topPlace_pos : 0 < topPlace := by
  unfold topPlace
  positivity

/-- The least positive number. -/
noncomputable def leastPlace : ℝ := 2 ^ (-1074 : ℤ)

theorem leastPlace_pos : 0 < leastPlace := by
  unfold leastPlace
  positivity

/-- An integer that needs no more places than a number has. -/
def IsSmallInteger (x : Float) : Prop :=
  x.isFinite = true ∧ (∃ n : ℤ, real x = n) ∧ |real x| ≤ 2 ^ 53

/-! ### Mantissas with a remainder -/

/-- The bits tell where `x` lies between the mantissa and the next one. -/
def StandsFor (m : ExtendedMantissa) (x : ℝ) : Prop :=
  match m.roundBit, m.stickyBit with
  | false, false => x = m.mantissa
  | false, true => m.mantissa < x ∧ x < m.mantissa + 1 / 2
  | true, false => x = m.mantissa + 1 / 2
  | true, true => m.mantissa + 1 / 2 < x ∧ x < m.mantissa + 1

/-! ### Results that escape the directed operations -/

/-- The second summand is the largest number, and the sum was rounded up by half of the
greatest place. -/
def SumLosesBelow (x y : Float) : Prop :=
  (x.isFinite ∧ y.isFinite ∧ (x + y).isFinite) ∧
    real y = real maxFinite ∧ real (x + y) = real x + real y + topPlace / 2

/-- The second summand is the least number, and the sum was rounded down by half of the
greatest place. -/
def SumLosesAbove (x y : Float) : Prop :=
  (x.isFinite ∧ y.isFinite ∧ (x + y).isFinite) ∧
    real y = -real maxFinite ∧ real (x + y) = real x + real y - topPlace / 2

/-- The product is not tiny, and was rounded up by at most half of the least positive
number. -/
def ProductLosesBelow (x y : Float) : Prop :=
  (x.isFinite ∧ y.isFinite ∧ (x * y).isFinite) ∧ isTiny (x * y) = false ∧
    real x * real y < real (x * y) ∧ real (x * y) - leastPlace / 2 ≤ real x * real y

/-- The product is not tiny, and was rounded down by at most half of the least positive
number. -/
def ProductLosesAbove (x y : Float) : Prop :=
  (x.isFinite ∧ y.isFinite ∧ (x * y).isFinite) ∧ isTiny (x * y) = false ∧
    real (x * y) < real x * real y ∧ real x * real y ≤ real (x * y) + leastPlace / 2

/-- The quotient overflows upward, or it is not tiny and was rounded up with a residual of at
most half of the least positive number. -/
def QuotientLosesBelow (x y : Float) : Prop :=
  (x.isFinite ∧ y.isFinite) ∧ (x / y = inf ∨ (x / y).isFinite ∧ isTiny (x / y) = false ∧
    real x / real y < real (x / y) ∧ |real (x / y) * real y - real x| ≤ leastPlace / 2)

/-- The quotient overflows downward, or it is not tiny and was rounded down with a residual of
at most half of the least positive number. -/
def QuotientLosesAbove (x y : Float) : Prop :=
  (x.isFinite ∧ y.isFinite) ∧ (x / y = negInf ∨ (x / y).isFinite ∧ isTiny (x / y) = false ∧
    real (x / y) < real x / real y ∧ |real (x / y) * real y - real x| ≤ leastPlace / 2)

/-- The root was rounded up, and its square exceeds the number by at most half of the least
positive number. -/
def RootLosesBelow (x : Float) : Prop :=
  (x.isFinite ∧ x.sqrt.isFinite) ∧ real x < real x.sqrt * real x.sqrt ∧
    real x.sqrt * real x.sqrt ≤ real x + leastPlace / 2

/-- The root was rounded down, and its square falls short by at most half of the least positive
number. -/
def RootLosesAbove (x : Float) : Prop :=
  (x.isFinite ∧ x.sqrt.isFinite) ∧ real x.sqrt * real x.sqrt < real x ∧
    real x - leastPlace / 2 ≤ real x.sqrt * real x.sqrt

end FlowTube.Binary64

import FlowTube.Expr.Compile
import FlowTube.TubeVector.Basic

/-! Right-hand sides of differential inclusions `x' ∈ f (t, x)`. A system may look at
the whole tube, for values at other times. -/

namespace FlowTube

/-- A right-hand side over `dimension` components. -/
structure Dynamics (ι : Type) where
  dimension : Nat
  /-- Enclosure of the derivative at a time and a state, in the given number of
  places. -/
  apply : Nat → Interval → Box ι → Except Error (Box ι)
  /-- Enclosure of the derivative at a time and a state of a solution that lies in the
  tube. -/
  applyOnTube : Interval → Box ι → TubeVector ι → Except Error (Box ι)

namespace Dynamics

/-- The system of a vector of expressions, which does not look at the tube. -/
def ofFunction {ι : Type} [Elementary ι] (f : VectorFunction ι) : Dynamics ι where
  dimension := f.dimension
  apply slots t x := f.fill slots (Enclosure.ofInterval t) x
  applyOnTube t x _ := f.fill f.dimension (Enclosure.ofInterval t) x

/-- The first side of a box. -/
def firstSide {ι : Type} (x : Box ι) : Except Error ι :=
  match x with
  | a :: _ => .ok a
  | [] => .error .indexOutOfRange

/-- The derivative of a delay equation: `e ^ delay` times the value `delay` earlier, and
the value itself where that time lies before the domain. -/
def delayed (delay : Float) (t : Interval) (x : Box Interval) (tube : TubeVector Interval) :
    Except Error Interval := do
  let earlier := t - Interval.point delay
  let own ← if earlier.lb ≤ tube.domain.lb then (Interval.empty ∪ ·) <$> firstSide x
    else pure Interval.empty
  if earlier.ub ≥ tube.domain.lb then
    return own ∪ (Interval.point delay).exp * tube.first.evalOver (earlier ∩ tube.domain)
  else return own

/-- The scalar system with a constant delay. -/
def delay (delay : Float) : Dynamics Interval where
  dimension := 1
  apply slots _ x := do
    let a ← firstSide x
    match slots with
    | 0 => throw .indexOutOfRange
    | n + 1 => return a :: List.replicate n Interval.whole
  applyOnTube t x tube := do return [← delayed delay t x tube]

end Dynamics

end FlowTube

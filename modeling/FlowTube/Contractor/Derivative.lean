import FlowTube.Dynamics

/-! Contraction of a tube by an enclosure of its derivative. On a slice of width `dt`
with derivative in `v`, the gate at the end lies in the gate at the start plus `dt v`,
the gate at the start in the gate at the end minus `dt v`, and the codomain between the
cones that open from both gates with the slopes of `v`. -/

namespace FlowTube

/-- Directions in which slices are visited. -/
inductive Direction
  | forward
  | backward
  | both
deriving DecidableEq

namespace Direction

/-- Whether slices are visited in order of time. -/
def goesForward : Direction → Bool
  | backward => false
  | _ => true

/-- Whether slices are visited against the order of time. -/
def goesBackward : Direction → Bool
  | forward => false
  | _ => true

end Direction

variable {ι : Type} [Enclosure ι]

namespace Enclosure

/-- Enclosure of the width of a time interval. -/
def width (t : Interval) : ι := point t.ub - point t.lb

/-- All times from the start of a time interval on, counted from there. -/
def elapsed (t : Interval) : ι := fromZero (width t)

end Enclosure

/-- The derivative of the solutions in a tube: a tube with the same breakpoints whose
gates and codomains enclose `f` there. -/
def Dynamics.derivative (f : Dynamics ι) (x : TubeVector ι) : Except Error (TubeVector ι) := do
  let gates ← x.times.toList.zipIdx.mapM fun (t, k) => f.applyOnTube (Interval.point t) (x.gate k) x
  let codomains ← (List.range x.sliceCount).mapM fun i =>
    f.applyOnTube (x.sliceDomain i) (x.codomain i) x
  TubeVector.ofTubes ((List.range x.dimension).map fun j =>
    { times := x.times
      codomains := (codomains.filterMap (·[j]?)).toArray
      gates := (gates.filterMap (·[j]?)).toArray })

namespace Derivative

/-- Codomain, first gate and last gate of a slice of time domain `t` under a derivative
in `v`. -/
def narrowSlice (t : Interval) (v codomain first last : ι) : ι × ι × ι :=
  let dt := Enclosure.width t
  let span := Enclosure.elapsed t
  let last' := last ∩ (first + dt * v)
  let first' := first ∩ (last' - dt * v)
  let codomain' := codomain ∩ (first' + span * v) ∩ (last' - span * v)
  (codomain', first' ∩ codomain', last' ∩ codomain')

/-- Contracts slice `i`, and tells whether anything changed. -/
def contractSlice (x : Tube ι) (i : Nat) (v : ι) : Tube ι × Bool :=
  let c := x.codomain i
  let a := x.gate i
  let b := x.gate (i + 1)
  let (codomain, first, last) := narrowSlice (x.sliceDomain i) v c a b
  let changed := first != a || last != b || codomain != c
  (x.putSlice i codomain first last, changed)

/-- Contracts the listed slices one after the other. -/
def sweep (v : Tube ι) (slices : List Nat) (x : Tube ι) : Tube ι × Bool :=
  slices.foldl (fun (x, changed) i =>
    let (x, b) := contractSlice x i (v.codomain i)
    (x, changed || b)) (x, false)

/-- Contracts one component. -/
def contractTube (direction : Direction) (v x : Tube ι) : Tube ι × Bool :=
  let slices := List.range x.sliceCount
  let (x, b) := if direction.goesForward then sweep v slices x else (x, false)
  let (x, c) := if direction.goesBackward then sweep v slices.reverse x else (x, false)
  (x, b || c)

/-- Contracts a tube vector by an enclosure of its derivative over the same slices, and
tells whether anything changed. -/
def contract (direction : Direction) (v x : TubeVector ι) : Except Error (TubeVector ι × Bool) :=
  if x.dimension != v.dimension then .error (.broken .derivativeDimension)
  else if x.sliceCount != v.sliceCount then .error (.broken .derivativeSlicing)
  else if v.components.any fun c => c.sliceCount < x.sliceCount then .error .indexOutOfRange
  else
    let results := List.zipWith (contractTube direction) v.components x.components
    .ok (⟨results.map (·.1)⟩, results.any (·.2))

end Derivative

end FlowTube

import FlowTube.Settings.Modes
import FlowTube.TubeVector.Basic

/-! When a tube is thin enough, and when a loop of contractions has come to rest. -/

namespace FlowTube

variable {ι : Type} [Enclosure ι]

namespace TubeVector

/-- Whether the widths that a mode looks at are within the thresholds, one per
component. -/
def isThin (mode : StoppingMode) (thresholds : List Float) (x : TubeVector ι) : Bool :=
  (x.components.zip thresholds).all fun (c, bound) =>
    match mode with
    | .diam => c.codomains.all fun a => Enclosure.diam a ≤ bound
    | .gate => c.maxGateDiam.1 ≤ bound
    | .boundaryGate =>
      Enclosure.diam (c.gate 0) ≤ bound && Enclosure.diam (c.gate x.sliceCount) ≤ bound

/-- Whether a tube is thin enough; there must be one threshold per component. -/
def stopped (mode : StoppingMode) (thresholds : List Float) (x : TubeVector ι) :
    Except Error Bool :=
  if x.dimension == thresholds.length then .ok (x.isThin mode thresholds)
  else .error (.broken .thresholdDimension)

end TubeVector

/-- Whether a pass from volume `before` to volume `after` ends a loop of the given
ratio. -/
def fixedPointReached (before after ratio : Float) : Bool :=
  if ratio > 1.0 then false
  else if ratio == 0.0 || after == before then true
  else after / before ≥ ratio

end FlowTube

import FlowTube.Error
import FlowTube.Settings.Modes

/-! The settings of a search and the values that are refused. A fixed-point ratio above
one never ends its loop by itself, a ratio of zero allows one pass, a negative ratio
skips the loop, and any other ratio ends the loop once a pass leaves at least that part
of the volume. -/

namespace FlowTube

/-- The settings of a search. -/
structure Settings where
  propagationRatio : Float := 0.005
  refiningRatio : Float := 0.005
  peelingRatio : Float := 0.005
  /-- Ratio of the propagation inside peeling. -/
  peelPropagationRatio : Float := 0.005
  /-- The part of a gate that is first peeled off. -/
  peelMinRate : Float := 1e-4
  /-- The part of a gate at which peeling stops. -/
  peelMaxRate : Float := 0.4
  /-- Growth of the part after a success. -/
  peelRateFactor : Float := 2.0
  peelTime : PeelTime := .maxGateDiam
  /-- Whether peeling also runs the constraints. -/
  peelConstraints : Bool := true
  bisection : BisectionPolicy := .maxGateDiam
  maxSlices : Nat := 5000
  refining : RefiningMode := .allSlices
  contraction : ContractionMode := .basic
  stopping : StoppingMode := .diam
  trace : Bool := false
  seed : Nat := 0

namespace Settings

/-- Refuses settings that no search can run with. -/
def validate (s : Settings) : Except Error Unit := do
  let ratios := [("propa_fxpt_ratio", s.propagationRatio), ("refining_fxpt_ratio", s.refiningRatio),
    ("var3b_fxpt_ratio", s.peelingRatio), ("var3b_propa_fxpt_ratio", s.peelPropagationRatio)]
  ratios.forM fun (name, ratio) =>
    if ratio.isNaN then throw (.refused (.ratioNotANumber name)) else pure ()
  if s.maxSlices == 0 then throw (.refused .noSliceBudget)
  if !(s.peelMinRate > 0.0 && s.peelMinRate < 1.0) then throw (.refused .peelMinRate)
  if !(s.peelMaxRate > 0.0 && s.peelMaxRate < 1.0) then throw (.refused .peelMaxRate)
  if !(s.peelRateFactor > 1.0) then throw (.refused .peelRateFactor)

end Settings

end FlowTube

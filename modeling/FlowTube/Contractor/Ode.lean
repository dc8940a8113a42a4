import FlowTube.Contractor.Integration
import FlowTube.Settings.Modes

/-! The contraction by the dynamics that a mode stands for: integration from both ends
of the time domain, or a Picard step for unbounded tubes followed by contraction with
the derivative. -/

namespace FlowTube

/-- A contraction by the dynamics. -/
inductive OdeContractor
  | integration (scheme : Scheme)
  | picardDerivative
  | disabled

namespace OdeContractor

/-- The contraction of a mode. -/
def ofMode : ContractionMode → OdeContractor
  | .basic => .integration .basic
  | .pieces => .integration .pieces
  | .guessedPieces => .integration .guessedPieces
  | .constraintsOnly => .disabled
  | .picardDerivative => .picardDerivative

variable {ι : Type} [Enclosure ι]

/-- The direction in which news at `t0` spread: from an end of the time domain to the
other one if nothing else is new, and both ways otherwise. -/
def spread (domain : Interval) (t0 : Float) (incremental : Bool) : Direction :=
  if incremental && t0 == domain.lb then .forward
  else if incremental && t0 == domain.ub then .backward
  else .both

/-- A Picard step, if the tube is unbounded and no slices are peeled, then contraction
with the derivative. -/
def boundThenDerive (picard : Picard) (fuel : Nat) (f : Dynamics ι) (t0 : Float)
    (incremental peeling : Bool) (x : TubeVector ι) : Except Error (TubeVector ι) := do
  let y ← if !peeling && x.volume ≥ Binary64.maxFinite then
      (·.1) <$> picard.contract fuel f .both x
    else pure x
  let v ← f.derivative y
  (·.1) <$> Derivative.contract (spread x.domain t0 incremental) v y

/-- Contracts a tube by the dynamics. News are expected at `t0`, and only there if
`incremental` is set; `peeling` skips the Picard step, which keeps the slices. -/
def contract (c : OdeContractor) (f : Dynamics ι) (t0 : Float) (incremental peeling : Bool)
    (x : TubeVector ι) : Except Error (TubeVector ι) :=
  match c with
  | .disabled => .ok x
  | .integration scheme => do
    let m : Integration := ⟨scheme, x.volume ≥ Binary64.maxFinite, false⟩
    let (y, _) ← m.contract f x.domain.lb .forward x
    let (z, _) ← m.contract f x.domain.ub .backward y
    return z
  | .picardDerivative =>
    boundThenDerive { preserveSlicing := true } x.sliceCount f t0 incremental peeling x

end OdeContractor

end FlowTube

import FlowTube.Expr.Basic
import FlowTube.Interval.Basic

/-! Everything that can go wrong, by cause, with the text of each cause. Failures of a
split and bad expressions are part of normal work; a refusal answers unusable problem
data; a broken requirement and an index out of range are faults of the caller; and a
loop that outlasts its budget is unfinished. -/

namespace FlowTube

/-- Why a gate cannot be split. -/
inductive SplitFailure
  | noGate
  | thinGate (gate : Interval)
  | noFiniteGate

/-- Problem data that is refused. -/
inductive Refusal
  | ratioNotANumber (setting : String)
  | noSliceBudget
  | peelMinRate
  | peelMaxRate
  | peelRateFactor
  | enclosureDimension (expected found : Nat)
  | dynamicsDimension (expected found : Nat)
  | trajectoryDomain (domain : Interval)
  | noSample
  | noTrajectoryComponent
  | sampleTime (t : Float)
  | sampleDimension (expected found : Nat)

/-- What a caller has to respect. -/
inductive Requirement
  | timeDomain (domain : Interval)
  | someComponent
  | sharedPartition
  | valueDimension
  | trajectoryDimension
  | equalDimensions
  | equalVectorDomains
  | equalDomains
  | derivativeDimension
  | derivativeSlicing
  | thresholdDimension

/-- A failed operation. -/
inductive Error
  | notBisectable (t : Float) (why : SplitFailure)
  | outOfDomain (t lb ub : Float)
  | emptySlicing
  | expression (problem : Expr.Problem)
  | refused (why : Refusal)
  | broken (rule : Requirement)
  | indexOutOfRange
  | unfinished

def SplitFailure.message : SplitFailure → String
  | .noGate => "no gate at this time"
  | .thinGate gate => "gate " ++ gate.text ++ " cannot be split"
  | .noFiniteGate => "no finite gate"

def Refusal.message : Refusal → String
  | .ratioNotANumber setting => setting ++ " must be a number."
  | .noSliceBudget => "max_slices must be at least 1."
  | .peelMinRate => "var3b_min_rate must lie in (0, 1)."
  | .peelMaxRate => "var3b_max_rate must lie in (0, 1)."
  | .peelRateFactor => "var3b_rate_factor must be greater than 1."
  | .enclosureDimension expected found =>
    s!"Initial enclosure dimension mismatch. Expected {expected}, got {found}."
  | .dynamicsDimension expected found =>
    s!"Dynamics dimension mismatch. Expected {expected}, got {found}."
  | .trajectoryDomain domain =>
    "Trajectory domain must be bounded and non-empty, got " ++ domain.text ++ "."
  | .noSample => "Trajectory needs at least one sample."
  | .noTrajectoryComponent => "Trajectory needs at least one component."
  | .sampleTime t => "Sample time must be finite, got " ++ Decimal.text t ++ "."
  | .sampleDimension expected found =>
    s!"Sample dimension mismatch. Expected {expected}, got {found}."

def Requirement.message : Requirement → String
  | .timeDomain domain => "time domain must be bounded with positive width, got " ++ domain.text
  | .someComponent => "a tube vector needs at least one component"
  | .sharedPartition => "components must share the same time partition"
  | .valueDimension => "dimension mismatch in TubeVector::set"
  | .trajectoryDimension => "trajectory and tube vector dimensions differ"
  | .equalDimensions => "cannot combine tube vectors of different dimensions"
  | .equalVectorDomains => "cannot combine tube vectors with different time domains"
  | .equalDomains => "cannot combine tubes with different time domains"
  | .derivativeDimension => "derivative dimension mismatch"
  | .derivativeSlicing => "derivative slicing mismatch"
  | .thresholdDimension => "threshold dimension mismatch"

/-- The message of an error; empty for the causes that have none. -/
def Error.message : Error → String
  | .notBisectable t why => "unable to bisect at t=" ++ Decimal.text t ++ ": " ++ why.message
  | .outOfDomain t lb ub =>
    "t=" ++ Decimal.text t ++ " lies outside the time domain [" ++ Decimal.text lb ++ ", " ++
      Decimal.text ub ++ "]"
  | .emptySlicing => "cannot build a tube from an empty list of slices"
  | .expression problem => "expression error: " ++ problem.message
  | .refused why => why.message
  | .broken rule => rule.message
  | .indexOutOfRange => ""
  | .unfinished => ""

end FlowTube

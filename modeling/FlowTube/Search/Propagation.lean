import FlowTube.Contractor.Ode
import FlowTube.Search.Journal
import FlowTube.Search.Goal
import FlowTube.Settings.Basic

/-! Problems, and their propagation: passes of the constraints and of the contraction by
the dynamics, repeated until they come to rest. Loops that may run for ever take an
amount of fuel and are unfinished when it is used up. -/

namespace FlowTube

/-- Tightens a tube by constraints other than the dynamics. News are expected at the
given time, and only there if the flag is set. -/
abbrev ConstraintStep :=
  TubeVector Interval → Float → Bool → Except Error (TubeVector Interval)

/-- A problem to be searched for solutions. -/
structure Problem where
  settings : Settings
  thresholds : List Float
  dynamics : Option (Dynamics Interval)
  constraints : Option ConstraintStep
  /-- The random decisions, by number. -/
  coins : Nat → Bool

/-- Random decisions from 64-bit words taken in turn, yes for a word below `2 ^ 63`. -/
def coinsOfWords (words : List Nat) (i : Nat) : Bool :=
  words.getD (i % words.length) 0 < 0x8000000000000000

namespace Problem

/-- Whether a tube is thin enough. -/
def stopped (p : Problem) (x : TubeVector Interval) : Except Error Bool :=
  x.stopped p.settings.stopping p.thresholds

/-- The contraction by the dynamics; inside peeling always the one by the derivative. -/
def ode (p : Problem) (peeling : Bool) : OdeContractor :=
  .ofMode (if peeling then .picardDerivative else p.settings.contraction)

/-- Runs the constraints, and tells whether news are still expected at one time only. -/
def constrain (p : Problem) (peeling : Bool) (t0 : Float) (incremental : Bool)
    (x : TubeVector Interval) : SearchM (TubeVector Interval × Bool) :=
  match p.constraints with
  | none => return (x, incremental)
  | some step =>
    if peeling && !p.settings.peelConstraints then return (x, incremental)
    else do
      SearchM.record (.called t0 incremental)
      let y ← step x t0 incremental
      return (y, false)

/-- One pass: the constraints, then the dynamics. -/
def pass (p : Problem) (peeling : Bool) (t0 : Float) (incremental : Bool)
    (x : TubeVector Interval) : SearchM (TubeVector Interval) := do
  let (y, incremental) ← p.constrain peeling t0 incremental x
  match p.dynamics with
  | none => return y
  | some f =>
    if y.isEmpty then return y else (p.ode peeling).contract f t0 incremental peeling y

/-- Passes until one leaves the tube empty, thin or nearly as large as it was. Only the
first pass may be incremental. -/
def propagateLoop (p : Problem) (peeling : Bool) (ratio t0 : Float) :
    Nat → Bool → TubeVector Interval → SearchM (TubeVector Interval)
  | 0, _, _ => throw .unfinished
  | fuel + 1, incremental, x => do
    let before := x.volume
    let y ← p.pass peeling t0 incremental x
    let after := y.volume
    if y.isEmpty || ratio == 0.0 || after == before then return y
    else if ← p.stopped y then return y
    else if fixedPointReached before after ratio then return y
    else propagateLoop p peeling ratio t0 fuel false y

/-- Propagation to a fixed point; nothing for a negative ratio. -/
def propagate (p : Problem) (fuel : Nat) (peeling : Bool) (ratio t0 : Float) (incremental : Bool)
    (x : TubeVector Interval) : SearchM (TubeVector Interval) :=
  if ratio < 0.0 then return x else p.propagateLoop peeling ratio t0 fuel incremental x

end Problem

end FlowTube

import FlowTube.Search.Propagation

/-! Splitting the tube of a node: at the time that the policy names, and if that fails
at the time of the widest gate. -/

namespace FlowTube

/-- A time to split a tube that is unbounded somewhere: its start or its end, if the gate
there is finite, else the first finite gate that is no single value. -/
def TubeVector.finiteGateTime (x : TubeVector Interval) : Except Error Float :=
  let finite (k : Nat) : Bool := (x.gate k).all fun g => g.diam < Binary64.maxFinite
  if finite 0 then .ok x.domain.lb
  else if finite x.sliceCount then .ok x.domain.ub
  else
    let gateTime? (c : Tube Interval) : Option Float :=
      ((List.range c.sliceCount).find? fun i =>
        (c.gate i).diam < Binary64.maxFinite && (c.gate i).diam > 0.0).map
          fun i => (c.sliceDomain i).lb
    match x.components.findSome? gateTime? with
    | some t => .ok t
    | none => .error (.notBisectable x.domain.lb .noFiniteGate)

namespace Problem

/-- The place of a split inside a gate. -/
def splitRatio : Float := 0.49

/-- The time at which the policy splits a tube. -/
def bisectionTime (p : Problem) (x : TubeVector Interval) (level : Nat) :
    SearchM (Except Error Float) := do
  match p.settings.bisection with
  | .maxGateDiam | .disabled =>
    if x.volume < Binary64.maxFinite then return .ok x.maxGateDiam.2
    else return x.finiteGateTime
  | .upperBound => return .ok x.domain.ub
  | .lowerBound => return .ok x.domain.lb
  | .random =>
    if ← SearchM.draw p.coins then return .ok x.domain.lb else return .ok x.domain.ub
  | .alternate => return .ok (if level % 2 != 0 then x.domain.lb else x.domain.ub)

/-- Splits a tube at a time. -/
def splitAt (x : TubeVector Interval) (t : Float) :
    Except Error (Float × TubeVector Interval × TubeVector Interval) := do
  let (a, b) ← x.bisect t splitRatio
  return (t, a, b)

/-- Splits a tube, and counts it. -/
def bisect (p : Problem) (x : TubeVector Interval) (level : Nat) :
    SearchM (Except Error (Float × TubeVector Interval × TubeVector Interval)) := do
  let attempt := (← p.bisectionTime x level).bind (splitAt x)
  let halves :=
    match attempt with
    | .ok h => .ok h
    | .error _ => splitAt x x.maxGateDiam.2
  match halves with
  | .ok _ => modify fun j => { j with bisections := j.bisections + 1 }
  | .error _ => pure ()
  return halves

end Problem

end FlowTube

import FlowTube.Search.Propagation

/-! Peeling: at one time, thin parts are cut off both ends of the gate of every
component and dropped if the contraction proves them empty. A part grows after each
success; the first part that is not empty is joined to the rest again. -/

namespace FlowTube.Problem

variable (p : Problem)

/-- The time at which values are peeled off. -/
def peelTime (x : TubeVector Interval) : SearchM Float := do
  match p.settings.peelTime with
  | .upperBound => return x.domain.ub
  | .lowerBound => return x.domain.lb
  | .random => if ← SearchM.draw p.coins then return x.domain.lb else return x.domain.ub
  | .maxGateDiam => return x.maxGateDiam.2

/-- Propagation inside peeling, with news at `t`. -/
def peelPropagate (fuel : Nat) (t : Float) (x : TubeVector Interval) :
    SearchM (TubeVector Interval) :=
  p.propagate fuel true p.settings.peelPropagationRatio t true x

/-- Peels component `k` from below, from a rate on. -/
def peelBelow (fuel : Nat) (t : Float) (k : Nat) :
    Nat → Float → TubeVector Interval → SearchM (TubeVector Interval)
  | 0, rate, x => if rate < p.settings.peelMaxRate then throw .unfinished else return x
  | n + 1, rate, x =>
    if rate < p.settings.peelMaxRate then
      match x.bisectAt t k rate with
      | .error _ => return x
      | .ok (low, high) => do
        let low ← p.peelPropagate fuel t low
        if low.isEmpty then peelBelow fuel t k n (rate * p.settings.peelRateFactor) high
        else high.hull low
    else return x

/-- Peels component `k` from above, from a rate on. -/
def peelAbove (fuel : Nat) (t : Float) (k : Nat) :
    Nat → Float → TubeVector Interval → SearchM (TubeVector Interval)
  | 0, rate, x => if rate > 1.0 - p.settings.peelMaxRate then throw .unfinished else return x
  | n + 1, rate, x =>
    if rate > 1.0 - p.settings.peelMaxRate then
      match x.bisectAt t k rate with
      | .error _ => return x
      | .ok (low, high) => do
        let high ← p.peelPropagate fuel t high
        if high.isEmpty then
          peelAbove fuel t k n (1.0 - p.settings.peelRateFactor * (1.0 - rate)) low
        else low.hull high
    else return x

/-- Peels component `k` from both ends, with a propagation after each. -/
def peelComponent (fuel : Nat) (t : Float) (k : Nat) (x : TubeVector Interval) :
    SearchM (TubeVector Interval) := do
  let x ← p.peelBelow fuel t k fuel p.settings.peelMinRate x
  let x ← p.peelPropagate fuel t x
  if x.isEmpty then return x
  else
    let x ← p.peelAbove fuel t k fuel (1.0 - p.settings.peelMinRate) x
    p.peelPropagate fuel t x

/-- Peels the listed components until the tube is empty. -/
def peelComponents (fuel : Nat) (t : Float) :
    List Nat → TubeVector Interval → SearchM (TubeVector Interval)
  | [], x => return x
  | k :: rest, x => do
    let x ← p.peelComponent fuel t k x
    if x.isEmpty then return x else peelComponents fuel t rest x

/-- Peels all components at one time. -/
def peel (fuel : Nat) (x : TubeVector Interval) : SearchM (TubeVector Interval) := do
  let t ← p.peelTime x
  p.peelComponents fuel t (List.range x.dimension) x

/-- Peels until the tube is empty, thin or nearly as large as it was. -/
def peelLoop (fuel : Nat) : Nat → TubeVector Interval → SearchM (TubeVector Interval)
  | 0, _ => throw .unfinished
  | n + 1, x => do
    let before := x.volume
    let y ← p.peel fuel x
    if y.isEmpty then return y
    else if ← p.stopped y then return y
    else if fixedPointReached before y.volume p.settings.peelingRatio then return y
    else peelLoop fuel n y

/-- Propagation, then peeling unless its ratio is negative. -/
def contract (fuel : Nat) (incremental : Bool) (t0 : Float) (x : TubeVector Interval) :
    SearchM (TubeVector Interval) := do
  let x ← p.propagate fuel false p.settings.propagationRatio t0 incremental x
  if !x.isEmpty && p.settings.peelingRatio ≥ 0.0 then p.peelLoop fuel fuel x else return x

end FlowTube.Problem

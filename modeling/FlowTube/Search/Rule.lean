import FlowTube.Search.Propagation
import FlowTube.TubeVector.Checked

/-! Constraints on single components of a tube, to be given to a search. -/

namespace FlowTube

/-- What a rule demands of component `c`. -/
inductive Rule
  /-- The squares of the first and the last value add up to a value in `y`. -/
  | boundarySquares (c : Nat) (y : Interval)
  /-- The value is constant, with its square in `y`. -/
  | constantSquare (c : Nat) (y : Interval)
  /-- Every codomain is multiplied by `y`. -/
  | scale (c : Nat) (y : Interval)
  /-- Every value lies in `y`. -/
  | band (c : Nat) (y : Interval)
  /-- The value at breakpoint `k` lies in `y`. -/
  | gate (c k : Nat) (y : Interval)
  /-- The first and the last value agree. -/
  | periodic (c : Nat)
  /-- Nothing. -/
  | none

namespace Rule

/-- Replaces every codomain by `f` of it. -/
def mapCodomains (f : Interval → Interval) (x : Tube Interval) : Tube Interval :=
  (List.range x.sliceCount).foldl (fun x i => x.setCodomain i (f (x.codomain i))) x

/-- Narrows the first and the last gate so that their squares can add up to a value in
`y`. -/
def boundary (y : Interval) (x : Tube Interval) : Tube Interval :=
  let last := x.sliceCount
  let start := (x.gate 0).inverseSqr (y - (x.gate last).sqr)
  let stop := (x.gate last).inverseSqr (y - start.sqr)
  (x.setGate 0 start).setGate last stop

/-- Narrows the tube to the values that it has everywhere and that have their square in
`y`. -/
def constant (y : Interval) (x : Tube Interval) : Tube Interval :=
  let start := (x.gate 0).inverseSqr y
  let value := x.gates.foldl (· ∩ ·) (x.range ∩ start)
  let pinned := (List.range (x.sliceCount + 1)).foldl (fun x k => x.setGate k value) x
  mapCodomains (· ∩ value) pinned

/-- Narrows the first and the last gate to their common values. -/
def closeUp (x : Tube Interval) : Tube Interval :=
  let value := x.gate 0 ∩ x.gate x.sliceCount
  (x.setGate 0 value).setGate x.sliceCount value

/-- Applies a change to component `c`, if there is one. -/
def onComponent (c : Nat) (x : TubeVector Interval) (f : Tube Interval → Except Error (Tube Interval)) :
    Except Error (TubeVector Interval) := do
  let y ← f (← x.componentAt c)
  return x.modify c fun _ => y

/-- Narrows a tube by a rule. -/
def apply (x : TubeVector Interval) : Rule → Except Error (TubeVector Interval)
  | boundarySquares c y => onComponent c x fun t => .ok (boundary y t)
  | constantSquare c y => onComponent c x fun t => .ok (constant y t)
  | scale c y => onComponent c x fun t => .ok (mapCodomains (· * y) t)
  | band c y => onComponent c x fun t => .ok (mapCodomains (· ∩ y) t)
  | gate c k y => onComponent c x fun t => do t.setGateAt k ((← t.gateAt k) ∩ y)
  | periodic c => onComponent c x fun t => .ok (closeUp t)
  | none => .ok x

/-- The constraint step that applies rules in order. -/
def step (rules : List Rule) : ConstraintStep := fun x _ _ => rules.foldlM apply x

end Rule

end FlowTube

import FlowTube.Error
import FlowTube.Notice

/-! What a search does, as it happens: the nodes it opens, its calls of the constraints,
and the steps that a trace shows. The journal also counts bisections, accepted tubes
and random decisions. -/

namespace FlowTube

/-- A step of a search. -/
inductive Event
  /-- A node is taken up; its tube came from a split at `t`. -/
  | opened (level : Nat) (t : Float)
  /-- The constraints are called. -/
  | called (t0 : Float) (incremental : Bool)
  | contracted (volume : Float)
  | refined (slices : Nat) (volume : Float)
  | bisected (t : Float) (level : Nat) (volume : Float) (slices : Nat)
  | unsplittable (cause : Error)
  | accepted (count : Nat) (volume maxDiam boundaryWidth : Float)
  | searched (solutions bisections : Nat)
  | clustered (solutions : Nat)

/-- The line that a log always has of a step. -/
def Event.warning? : Event → Option String
  | .unsplittable cause =>
    some ("warn: tube cannot be bisected (" ++ cause.message ++ "), kept as a solution")
  | _ => none

/-- The line that a trace has of a step. -/
def Event.trace? : Event → Option String
  | .contracted volume => some ("info: volume after contraction " ++ Decimal.traceText volume)
  | .refined slices volume =>
    some (s!"info: {slices} slices after refining, volume " ++ Decimal.traceText volume)
  | .bisected t level volume slices =>
    some ("info: bisection at t = " ++ Decimal.text t ++ s!" (level {level}), volume " ++
      Decimal.traceText volume ++ s!", {slices} slices")
  | .accepted count volume maxDiam boundaryWidth =>
    some (s!"info: solution {count}: volume " ++ Decimal.traceText volume ++ ", max diam " ++
      Decimal.traceText maxDiam ++ ", boundary gates " ++ Decimal.traceText boundaryWidth)
  | .searched solutions bisections =>
    some s!"info: search done: {solutions} solutions, {bisections} bisections"
  | .clustered solutions => some s!"info: {solutions} solutions after clustering"
  | e => e.warning?

/-- The record of a search. -/
structure Journal where
  /-- How many random decisions were made. -/
  draws : Nat := 0
  bisections : Nat := 0
  /-- How many tubes were accepted. -/
  accepted : Nat := 0
  /-- The steps, the latest one first. -/
  latest : List Event := []

namespace Journal

/-- The steps in order. -/
def events (j : Journal) : List Event := j.latest.reverse

/-- The calls of the constraints in order. -/
def calls (j : Journal) : List (Float × Bool) :=
  j.events.filterMap fun
    | .called t0 incremental => some (t0, incremental)
    | _ => none

/-- The lines of a log in order; a trace shows more of them. -/
def log (j : Journal) (trace : Bool) : List String :=
  j.events.filterMap (if trace then Event.trace? else Event.warning?)

end Journal

/-- A step of a search with its record; it may fail. -/
abbrev SearchM := StateT Journal (Except Error)

namespace SearchM

/-- Adds a step to the record. -/
def record (e : Event) : SearchM Unit :=
  modify fun j => { j with latest := e :: j.latest }

/-- Makes the next random decision. -/
def draw (coins : Nat → Bool) : SearchM Bool := do
  let j ← get
  set { j with draws := j.draws + 1 }
  return coins j.draws

end SearchM

end FlowTube

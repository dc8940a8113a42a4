import FlowTube.Clustering
import FlowTube.Search.Split
import FlowTube.Search.Peeling
import FlowTube.Search.Slicing

/-! The search. Every node of a depth-first search is contracted, refined in time, and
then dropped if it is empty, accepted if it is thin or cannot be split, and split
otherwise. The accepted tubes are clustered at the end. -/

namespace FlowTube

/-- A tube that is still to be searched, with the time of the split it came from. -/
structure Node where
  level : Nat
  time : Float
  tube : TubeVector Interval

/-- What a search returns. -/
structure Findings where
  solutions : List (TubeVector Interval)
  journal : Journal

namespace Problem

variable (p : Problem)

/-- Refines and contracts until the slices are used up or the tube is empty, thin or
nearly as large as it was. -/
def refineLoop (fuel : Nat) : Nat → TubeVector Interval → SearchM (TubeVector Interval)
  | 0, _ => throw .unfinished
  | n + 1, x => do
    let before := x.volume
    match Slicing.refine? p.settings.refining p.settings.maxSlices x with
    | none => return x
    | some y =>
      let y ← p.contract fuel false y.domain.lb y
      SearchM.record (.refined y.sliceCount y.volume)
      if y.isEmpty then return y
      else if ← p.stopped y then return y
      else if fixedPointReached before y.volume p.settings.refiningRatio then return y
      else refineLoop fuel n y

/-- Contracts and refines the tube of a node. -/
def narrow (fuel : Nat) (node : Node) : SearchM (TubeVector Interval) := do
  SearchM.record (.opened node.level node.time)
  let x ← p.contract fuel (node.level > 0) node.time node.tube
  if x.isEmpty then return x
  SearchM.record (.contracted x.volume)
  if p.settings.refiningRatio ≥ 0.0 then p.refineLoop fuel fuel x else return x

/-- Counts a tube as a solution. -/
def accept (x : TubeVector Interval) : SearchM Unit := do
  let count := (← get).accepted + 1
  modify fun j => { j with accepted := count }
  SearchM.record (.accepted count x.volume x.maxDiam x.boundaryWidth)

/-- Searches the nodes of a stack, the top first; at most `n` nodes. The solutions are
listed with the latest one first. -/
def explore (fuel : Nat) :
    Nat → List Node → List (TubeVector Interval) → SearchM (List (TubeVector Interval))
  | _, [], solutions => return solutions
  | 0, _ :: _, _ => throw .unfinished
  | n + 1, node :: stack, solutions => do
    let x ← p.narrow fuel node
    if x.isEmpty then explore fuel n stack solutions
    else if (← p.stopped x) || p.settings.bisection == .disabled then
      accept x
      explore fuel n stack (x :: solutions)
    else
      match ← p.bisect x node.level with
      | .error cause =>
        SearchM.record (.unsplittable cause)
        accept x
        explore fuel n stack (x :: solutions)
      | .ok (t, first, second) =>
        SearchM.record (.bisected t node.level x.volume x.sliceCount)
        let level := node.level + 1
        explore fuel n (⟨level, t, first⟩ :: ⟨level, t, second⟩ :: stack) solutions

/-- Searches from a first tube and clusters what is accepted. -/
def search (fuel : Nat) (x0 : TubeVector Interval) : SearchM (List (TubeVector Interval)) := do
  let solutions ← p.explore fuel fuel [⟨0, x0.domain.lb, x0⟩] []
  let journal ← get
  SearchM.record (.searched journal.accepted journal.bisections)
  let clusters ← Clustering.cluster solutions.reverse
  SearchM.record (.clustered clusters.length)
  return clusters

/-- Refuses a problem that does not fit a first tube. -/
def check (x0 : TubeVector Interval) : Except Error Unit := do
  p.settings.validate
  if x0.dimension != p.thresholds.length then
    throw (.refused (.enclosureDimension p.thresholds.length x0.dimension))
  match p.dynamics with
  | none => return
  | some f =>
    if f.dimension != x0.dimension then
      throw (.refused (.dynamicsDimension x0.dimension f.dimension))

/-- Tubes that together contain every solution of the problem in a first tube. Each loop
of the search runs at most `fuel` times. -/
def solve (fuel : Nat) (x0 : TubeVector Interval) : Except Error Findings := do
  p.check x0
  let (solutions, journal) ← (p.search fuel x0).run {}
  return ⟨solutions, journal⟩

end Problem

end FlowTube

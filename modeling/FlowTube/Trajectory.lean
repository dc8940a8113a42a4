import FlowTube.Expr.Compile
import FlowTube.BinarySearch
import FlowTube.Notice
import FlowTube.TubeVector.Basic

/-! Trajectories: functions of time that are known, by one expression per component or
by samples with straight lines between them, and the question whether a tube contains
one. The answer is yes if every gate and codomain contains the enclosure of the
trajectory there, no if some gate or codomain misses it, and open otherwise. -/

namespace FlowTube

/-- An answer to a question of containment. -/
inductive Verdict
  | no
  | maybe
  | yes
deriving DecidableEq

def Verdict.label : Verdict → String
  | .no => "NO"
  | .maybe => "MAYBE"
  | .yes => "YES"

/-- How a trajectory is given. -/
inductive Trajectory.Definition (ι : Type)
  /-- Expressions of time, evaluated `shift` later. -/
  | analytic (function : VectorFunction ι) (shift : Float)
  /-- Points in order of time. -/
  | sampled (points : Array (Float × List Float))

/-- A function of time over a domain. -/
structure Trajectory (ι : Type) where
  domain : Interval
  dimension : Nat
  definition : Trajectory.Definition ι

namespace Trajectory

variable {ι : Type} [Elementary ι]

/-! ### Construction -/

/-- One expression of `t` per component. -/
def ofExprs (domain : Interval) (sources : List String) : Except Error (Trajectory ι) := do
  if domain.isEmpty || domain.isUnbounded then throw (.refused (.trajectoryDomain domain))
  if sources.isEmpty then throw (.refused .noTrajectoryComponent)
  let function ← VectorFunction.parse [] [] sources
  return ⟨domain, sources.length, .analytic function 0.0⟩

/-- Refuses a sample at a time that is not finite or of another dimension. -/
def checkSample (dimension : Nat) (p : Float × List Float) : Except Error Unit :=
  if !p.1.isFinite then .error (.refused (.sampleTime p.1))
  else if p.2.length != dimension then
    .error (.refused (.sampleDimension dimension p.2.length))
  else .ok ()

/-- Drops every point at the time of the last point kept. -/
def dropRepeated : List (Float × List Float) → List (Float × List Float)
  | [] => []
  | p :: rest => p :: go p.1 rest
where
  go (last : Float) : List (Float × List Float) → List (Float × List Float)
    | [] => []
    | p :: rest => if p.1 == last then go last rest else p :: go p.1 rest

/-- Straight lines through points; of several points at one time the first is kept. -/
def ofSamples (points : List (Float × List Float)) : Except Error (Trajectory ι) := do
  match points with
  | [] => throw (.refused .noSample)
  | p :: _ =>
    let dimension := p.2.length
    if dimension == 0 then throw (.refused .noTrajectoryComponent)
    points.forM (checkSample dimension)
    let sorted := points.mergeSort fun a b => Binary64.totalKey a.1 ≤ Binary64.totalKey b.1
    let points := dropRepeated sorted
    let start := (points.head?.map (·.1)).getD 0.0
    let stop := (points.getLast?.map (·.1)).getD 0.0
    return ⟨Interval.ofBounds start stop, dimension, .sampled points.toArray⟩

/-! ### Values -/

/-- The value at `t` on the line from `(t0, a)` to `(t1, b)`. -/
def onLine (t0 t1 : Float) (a b : List Float) (t : Float) : Box ι :=
  let ratio : ι := (Enclosure.point t - Enclosure.point t0) / (Enclosure.point t1 - Enclosure.point t0)
  List.zipWith (fun u v =>
    let u : ι := Enclosure.point u
    let v : ι := Enclosure.point v
    (u + ratio * (v - u)) ∩ (u ∪ v)) a b

/-- The value at `t` between the points around it; nothing before the first and after
the last one. -/
def interpolate (points : Array (Float × List Float)) (t : Float) : Except Error (Box ι) :=
  let upper := BinarySearch.partitionPoint (fun p => p.1 < t) points
  match points[0]? with
  | none => .error .indexOutOfRange
  | some first =>
    match (if upper = 0 then none else points[upper - 1]?), points[upper]? with
    | before?, some after =>
      if after.1 == t then .ok (after.2.map Enclosure.point)
      else
        match before? with
        | none => .ok (List.replicate first.2.length Enclosure.empty)
        | some before => .ok (onLine before.1 after.1 before.2 after.2 t)
    | _, none => .ok (List.replicate first.2.length Enclosure.empty)

/-- Enclosure of the values of a piecewise linear function over `[t.lb, t.ub]`: the
values at both ends and at every point between. -/
def evalSamples (points : Array (Float × List Float)) (t : Interval) : Except Error (Box ι) := do
  let left ← interpolate points t.lb
  if t.isDegenerate then return left
  let right ← interpolate points t.ub
  let ends := List.zipWith (· ∪ ·) left right
  let start := BinarySearch.partitionPoint (fun p => p.1 < t.lb) points
  let inner := (points.toList.drop start).takeWhile fun p => p.1 ≤ t.ub
  return inner.foldl (fun acc p => List.zipWith (fun r v => r ∪ Enclosure.point v) acc p.2) ends

/-- Enclosure of the values over the part of `t` in the domain. -/
def eval (x : Trajectory ι) (t : Interval) : Except Error (Box ι) :=
  let t := t ∩ x.domain
  if t.isEmpty then .ok (List.replicate x.dimension Enclosure.empty)
  else
    match x.definition with
    | .analytic function shift =>
      function.eval (Enclosure.ofInterval (t + Interval.point shift)) []
    | .sampled points => evalSamples points t

/-- Enclosure of all values. -/
def range (x : Trajectory ι) : Except Error (Box ι) := x.eval x.domain

/-- The midpoints of the enclosure at `t`; nothing outside the domain. -/
def valueAt (x : Trajectory Interval) (t : Float) : Except Error (Option (List Float)) :=
  if x.domain.contains t then do
    return some ((← x.eval (Interval.point t)).map Interval.mid)
  else .ok none

/-! ### Changes of the domain -/

/-- Restricts the domain and drops the points outside of it. -/
def truncate (x : Trajectory ι) (domain : Interval) : Trajectory ι :=
  let kept := x.domain ∩ domain
  { x with
    domain := kept
    definition :=
      match x.definition with
      | .analytic function shift => .analytic function shift
      | .sampled points => .sampled (points.filter fun p => kept.contains p.1) }

/-- Moves the origin of time: what was at `t` is then at `t - amount`. -/
def shift (x : Trajectory ι) (amount : Float) : Trajectory ι :=
  { x with
    domain := x.domain - Interval.point amount
    definition :=
      match x.definition with
      | .analytic function s => .analytic function (s + amount)
      | .sampled points => .sampled (points.map fun p => (p.1 - amount, p.2)) }

end Trajectory

/-! ### Containment -/

namespace TubeVector

variable {ι : Type} [Elementary ι]

/-- What one place of a tube says of the values of a trajectory there. -/
def judge (x y : Box ι) : Verdict :=
  if (List.zipWith (fun a b => Enclosure.isEmpty (a ∩ b)) x y).any id then .no
  else if (List.zipWith (fun a b => Enclosure.isSubset b a) x y).all id then .yes
  else .maybe

/-- The answer after further places, each a value of the tube with its time. -/
def judgeAll (truth : Trajectory ι) : Verdict → List (Box ι × Interval) → Except Error Verdict
  | v, [] => .ok v
  | v, (x, t) :: rest => do
    match judge x (← truth.eval t) with
    | .no => return .no
    | .maybe => judgeAll truth .maybe rest
    | .yes => judgeAll truth v rest

/-- The gates with their times, then the slices with theirs. -/
def places (x : TubeVector ι) : List (Box ι × Interval) :=
  (x.times.toList.mapIdx fun k t => (x.gate k, Interval.point t)) ++
    (List.range x.sliceCount).map fun i => (x.codomain i, x.sliceDomain i)

/-- Whether the tube contains a trajectory. A trajectory that does not cover the time
domain leaves the answer open. -/
def contains (x : TubeVector ι) (truth : Trajectory ι) : Except Error (Reported Verdict) :=
  if truth.dimension != x.dimension then .error (.broken .trajectoryDimension)
  else if !x.domain.isSubset truth.domain then
    .ok ⟨.maybe, [.notCovered truth.domain x.domain]⟩
  else do return ⟨← judgeAll truth .yes x.places, []⟩

/-- Whether some tube of a list contains a trajectory: yes for a tube that does, no if
none can. The reports made before a failure are kept. -/
def someContains (truth : Trajectory ι) (tubes : List (TubeVector ι)) :
    Reported (Except Error Verdict) :=
  go .no [] tubes
where
  go (v : Verdict) (notices : List Notice) : List (TubeVector ι) → Reported (Except Error Verdict)
    | [] => ⟨.ok v, notices⟩
    | x :: rest =>
      match x.contains truth with
      | .error e => ⟨.error e, notices⟩
      | .ok ⟨.yes, more⟩ => ⟨.ok .yes, notices ++ more⟩
      | .ok ⟨.maybe, more⟩ => go .maybe (notices ++ more) rest
      | .ok ⟨.no, more⟩ => go v (notices ++ more) rest

end TubeVector

end FlowTube

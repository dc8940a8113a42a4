import FlowTube.Contractor.Derivative

/-! Bounds for slices of unbounded codomain. If a box `G` contains
`entry + [0, dt] f (G)`, then it contains every solution that enters the slice through
`entry`. Candidates for `G` grow by a factor until this holds or the tries are used up;
a slice without success may be cut in half and both parts tried again. -/

namespace FlowTube

/-- How Picard boxes are sought. -/
structure Picard where
  /-- Growth of the candidates. -/
  delta : Float := 1.1
  /-- Whether slices stay as they are. -/
  preserveSlicing : Bool := false

variable {ι : Type} [Enclosure ι]

/-- What a solution reaches from `entry` after a time in `h` with slopes in `v`, forward
or backward in time. -/
def Box.step (forward : Bool) (entry v : Box ι) (h : ι) : Box ι :=
  List.zipWith (fun e v => if forward then e + h * v else e - h * v) entry v

/-- Indices of the gates through which slice `i` is entered and left. -/
def TubeVector.entryExit (forward : Bool) (i : Nat) : Nat × Nat :=
  if forward then (i, i + 1) else (i + 1, i)

namespace Picard

/-- How many candidates are tried. -/
def maxTries : Nat := 50

/-- A slice narrower than this part of the time domain is not cut. -/
def minSliceFraction : Float := 1e-3

/-- Tries candidates from `guess` on. -/
def search (delta : Float) (f : Dynamics ι) (x : TubeVector ι) (t : Interval) (entry : Box ι)
    (forward : Bool) : Nat → Box ι → Except Error (Option (Box ι × Box ι))
  | 0, _ => .ok none
  | tries + 1, guess => do
    let span : ι := Enclosure.elapsed t
    let next := Box.step forward entry (← f.applyOnTube t guess x) span
    if !Box.isBounded next then return none
    else if Box.isSubset next guess then
      let v ← f.applyOnTube t next x
      let codomain := Box.inter (Box.step forward entry v span) next
      let exit := Box.inter (Box.step forward entry v (Enclosure.width t)) codomain
      return some (codomain, exit)
    else
      search delta f x t entry forward tries
        (List.zipWith (fun n g => Enclosure.grow delta (n ∪ g)) next guess)

/-- A box for the solutions over `t` that enter through `entry`, and one for their
values at the other end. -/
def enclosure (p : Picard) (f : Dynamics ι) (x : TubeVector ι) (t : Interval) (entry : Box ι)
    (forward : Bool) : Except Error (Option (Box ι × Box ι)) :=
  search p.delta f x t entry forward maxTries entry

/-- What became of a slice. -/
inductive Outcome
  | skipped
  | enclosed
  | failed
deriving DecidableEq

/-- Restricts slice `i` of a tube to a codomain and, at the exit, to a gate. -/
def restrictSlice (forward : Bool) (i : Nat) (c : Tube ι) (codomain exit : ι) : Tube ι :=
  let (entryIndex, exitIndex) := TubeVector.entryExit forward i
  let inner := c.codomain i ∩ codomain
  { c with
    codomains := c.codomains.setIfInBounds i inner
    gates := (c.gates.setIfInBounds entryIndex (c.gate entryIndex ∩ inner)).setIfInBounds
      exitIndex (c.gate exitIndex ∩ (exit ∩ inner)) }

/-- Bounds slice `i`, if its codomain is unbounded and its entry is bounded. -/
def contractSlice (p : Picard) (f : Dynamics ι) (x : TubeVector ι) (i : Nat) (forward : Bool) :
    Except Error (TubeVector ι × Outcome) := do
  if Box.isBounded (x.codomain i) then return (x, .skipped)
  let entry := x.gate (TubeVector.entryExit forward i).1
  if !Box.isBounded entry then return (x, .skipped)
  match ← p.enclosure f x (x.sliceDomain i) entry forward with
  | none => return (x, .failed)
  | some (codomain, exit) =>
    if codomain.length < x.dimension || exit.length < x.dimension then throw .indexOutOfRange
    return (⟨List.zipWith (fun c (a, b) => restrictSlice forward i c a b) x.components
      (codomain.zip exit)⟩, .enclosed)

/-- Whether slice `i` may be cut. -/
def splittable (p : Picard) (x : TubeVector ι) (i : Nat) (minWidth : Float) : Bool :=
  !p.preserveSlicing && (x.sliceDomain i).diam > minWidth

/-- Visits the slices from `i` on; at most `fuel` visits. -/
def forwardLoop (p : Picard) (f : Dynamics ι) (minWidth : Float) :
    Nat → Nat → Bool → TubeVector ι → Except Error (TubeVector ι × Bool)
  | 0, i, found, x => if i < x.sliceCount then .error .unfinished else .ok (x, found)
  | fuel + 1, i, found, x =>
    if i < x.sliceCount then do
      let (x, outcome) ← p.contractSlice f x i true
      if outcome == .failed && p.splittable x i minWidth then
        forwardLoop p f minWidth fuel i found (x.sample (x.sliceDomain i).mid).1
      else forwardLoop p f minWidth fuel (i + 1) (found || outcome == .enclosed) x
    else .ok (x, found)

/-- Visits the first `i` slices, the last one first; at most `fuel` visits. After a cut the
visits go on one slice later, also if the midpoint was a breakpoint and nothing was cut; there
may be no such slice then. -/
def backwardLoop (p : Picard) (f : Dynamics ι) (minWidth : Float) :
    Nat → Nat → Bool → TubeVector ι → Except Error (TubeVector ι × Bool)
  | _, 0, found, x => .ok (x, found)
  | 0, _ + 1, _, _ => .error .unfinished
  | fuel + 1, k + 1, found, x =>
    if k < x.sliceCount then do
      let (x, outcome) ← p.contractSlice f x k false
      if outcome == .failed && p.splittable x k minWidth then
        backwardLoop p f minWidth fuel (k + 2) found (x.sample (x.sliceDomain k).mid).1
      else backwardLoop p f minWidth fuel k (found || outcome == .enclosed) x
    else .error .indexOutOfRange

/-- Bounds the slices of a tube, and tells whether one was bounded. Each direction ends
within `fuel` visits of a slice or is left unfinished. -/
def contract (p : Picard) (fuel : Nat) (f : Dynamics ι) (direction : Direction)
    (x : TubeVector ι) : Except Error (TubeVector ι × Bool) := do
  let minWidth := x.domain.diam * minSliceFraction
  let (x, found) ← if direction.goesForward then forwardLoop p f minWidth fuel 0 false x
    else pure (x, false)
  if direction.goesBackward then backwardLoop p f minWidth fuel x.sliceCount found x
  else return (x, found)

end Picard

end FlowTube

import FlowTube.BinarySearch
import FlowTube.Enclosure
import FlowTube.Error

/-! Tubes: enclosures of a function of time over a partition of its time domain. With
breakpoints `t 0 < … < t n`, slice `i` covers `[t i, t (i + 1)]` and has a codomain,
and gate `k` encloses the value at `t k`. Gates are kept inside the codomains on both
sides. The value of a tube at a time is the gate there, if the time is a breakpoint,
and otherwise the codomain of its slice. Breakpoints are found by the total order, so
that `-0` is not the breakpoint `0`. -/

namespace FlowTube

/-- A tube with one more breakpoint and gate than slices. -/
structure Tube (ι : Type) where
  times : Array Float
  codomains : Array ι
  gates : Array ι
deriving Inhabited

namespace Tube

variable {ι : Type}

/-! ### Parts -/

def sliceCount (x : Tube ι) : Nat := x.codomains.size

/-- Breakpoint `k`. -/
def time (x : Tube ι) (k : Nat) : Float := x.times.getD k 0.0

/-- From the first to the last breakpoint. -/
def domain (x : Tube ι) : Interval :=
  Interval.ofBounds (x.time 0) (x.time (x.times.size - 1))

/-- The time domain of slice `i`. -/
def sliceDomain (x : Tube ι) (i : Nat) : Interval :=
  Interval.ofBounds (x.time i) (x.time (i + 1))

/-- Index of the slice at `t`; a breakpoint belongs to the slice that it starts, the
last one to the last slice. -/
def sliceIndex? (x : Tube ι) (t : Float) : Option Nat :=
  if x.domain.contains t then
    some (min (BinarySearch.partitionPoint (fun s => s ≤ t) x.times - 1) (x.sliceCount - 1))
  else none

/-- Index of the gate at `t`. -/
def gateIndex? (x : Tube ι) (t : Float) : Option Nat :=
  BinarySearch.find? (fun s => Binary64.totalCompare s t) x.times

/-- Splits the slice around `t`; both parts and the new gate take its codomain. No
change if `t` is outside or a breakpoint. -/
def sample (x : Tube ι) (t : Float) : Tube ι × Bool :=
  match x.sliceIndex? t with
  | none => (x, false)
  | some i =>
    match x.codomains[i]? with
    | none => (x, false)
    | some c =>
      if t ≤ x.time i || t ≥ x.time (i + 1) then (x, false)
      else
        ({ times := x.times.insertIdxIfInBounds (i + 1) t
           codomains := x.codomains.insertIdxIfInBounds (i + 1) c
           gates := x.gates.insertIdxIfInBounds (i + 1) c }, true)

variable [Enclosure ι]

/-- The codomain of slice `i`. -/
def codomain (x : Tube ι) (i : Nat) : ι := x.codomains.getD i Enclosure.empty

/-- Gate `k`. -/
def gate (x : Tube ι) (k : Nat) : ι := x.gates.getD k Enclosure.empty

/-- Hull of all codomains. -/
def range (x : Tube ι) : ι := x.codomains.foldl (· ∪ ·) Enclosure.empty

/-- Whether some codomain or gate is empty. -/
def isEmpty (x : Tube ι) : Bool :=
  x.codomains.any Enclosure.isEmpty || x.gates.any Enclosure.isEmpty

/-- The same breakpoints, codomains and gates, numbers compared as numbers. -/
def beq (x y : Tube ι) : Bool :=
  x.times == y.times && x.codomains == y.codomains && x.gates == y.gates

instance : BEq (Tube ι) := ⟨beq⟩

/-! ### Construction -/

/-- The points `lb + i * step` below `ub`, for `i` from a start on. -/
def stepsBelow (lb ub step : Float) : Nat → Nat → List Float
  | 0, _ => []
  | fuel + 1, i =>
    let t := lb + Float.ofNat i * step
    if t ≥ ub then [] else t :: stepsBelow lb ub step fuel (i + 1)

/-- Breakpoints from `lb` to `ub` at multiples of the step, and none between them if
the step is not a positive number. There are at most `2 ^ 64` of them. -/
def partition (domain : Interval) (step : Float) : List Float :=
  let inner := if step > 0.0 && step.isFinite then
    stepsBelow domain.lb domain.ub step 0x10000000000000000 1 else []
  domain.lb :: inner ++ [domain.ub]

/-- A tube with one codomain over a partition of the domain in steps. -/
def uniform (domain : Interval) (step : Float) (codomain : ι) : Except Error (Tube ι) :=
  if !domain.isDegenerate && !domain.isUnbounded then
    let times := (partition domain step).toArray
    .ok { times
          codomains := Array.replicate (times.size - 1) codomain
          gates := Array.replicate times.size codomain }
  else .error (.broken (.timeDomain domain))

/-! ### Changes -/

/-- Replaces slice `i` as a whole: its codomain and the gates at its ends. -/
def putSlice (x : Tube ι) (i : Nat) (codomain first last : ι) : Tube ι :=
  { x with
    codomains := x.codomains.setIfInBounds i codomain
    gates := (x.gates.setIfInBounds i first).setIfInBounds (i + 1) last }

/-- Replaces the codomain of slice `i` and restricts the gates at its ends to it. -/
def setCodomain (x : Tube ι) (i : Nat) (y : ι) : Tube ι :=
  x.putSlice i y (x.gate i ∩ y) (x.gate (i + 1) ∩ y)

/-- `y` restricted to the codomains on both sides of gate `k`. -/
def insideNeighbours (x : Tube ι) (k : Nat) (y : ι) : ι :=
  let y := if 0 < k then y ∩ x.codomain (k - 1) else y
  if k < x.sliceCount then y ∩ x.codomain k else y

/-- Replaces gate `k`, inside the codomains on both sides. -/
def setGate (x : Tube ι) (k : Nat) (y : ι) : Tube ι :=
  { x with gates := x.gates.setIfInBounds k (x.insideNeighbours k y) }

/-- Sets the value at `t`, which becomes a breakpoint. -/
def set (x : Tube ι) (y : ι) (t : Float) : Tube ι :=
  let x := (x.sample t).1
  match x.gateIndex? t with
  | some k => x.setGate k y
  | none => x

/-- Restricts every gate to the codomains on both sides. -/
def enforceGates (x : Tube ι) : Tube ι :=
  { x with gates := x.gates.mapIdx fun k y => x.insideNeighbours k y }

/-! ### Values -/

/-- The value at `t`; nothing outside the time domain. -/
def eval (x : Tube ι) (t : Float) : ι :=
  match x.gateIndex? t with
  | some k => x.gate k
  | none =>
    match x.sliceIndex? t with
    | some i => x.codomain i
    | none => Enclosure.empty

/-- Hull of the values over the part of `n` slices from `i` on in `tdom`, up to the first
slice that starts after it. -/
def evalFrom (x : Tube ι) (tdom : Interval) : Nat → Nat → ι → ι
  | 0, _, acc => acc
  | n + 1, i, acc =>
    if x.time i > tdom.ub then acc
    else
      let overlap := x.sliceDomain i ∩ tdom
      if overlap.isEmpty then evalFrom x tdom n (i + 1) acc
      else if overlap.isDegenerate then evalFrom x tdom n (i + 1) (acc ∪ x.eval overlap.lb)
      else evalFrom x tdom n (i + 1) (acc ∪ x.codomain i)

/-- Hull of the values over `tdom`. -/
def evalOver (x : Tube ι) (tdom : Interval) : ι :=
  let tdom := tdom ∩ x.domain
  if tdom.isEmpty then Enclosure.empty
  else if tdom.isDegenerate then x.eval tdom.lb
  else
    let start := (x.sliceIndex? tdom.lb).getD 0
    x.evalFrom tdom (x.sliceCount - start) start Enclosure.empty

end Tube

end FlowTube

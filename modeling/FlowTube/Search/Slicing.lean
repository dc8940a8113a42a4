import FlowTube.Settings.Modes
import FlowTube.TubeVector.Basic

/-! Further breakpoints, within a budget of slices. Every slice is cut in half, or the
steepest one, or the widest ones together with those that are at least as steep as the
average or the median. Values do not change. -/

namespace FlowTube.Slicing

/-- Midpoint of slice `i` in time. -/
def sliceMid (x : TubeVector Interval) (i : Nat) : Float := (x.sliceDomain i).mid

/-- Adds breakpoints one after the other, until the slices reach the budget; `used` is
their number at the start and with each addition. -/
def sampleWithin (maxSlices : Nat) : Nat → List Float → TubeVector Interval → TubeVector Interval
  | _, [], x => x
  | used, t :: rest, x =>
    if used ≥ maxSlices then x
    else
      let (y, added) := x.sample t
      sampleWithin maxSlices (if added then used + 1 else used) rest y

/-- Cuts every slice in half. -/
def cutAll (maxSlices : Nat) (x : TubeVector Interval) : TubeVector Interval :=
  sampleWithin maxSlices x.sliceCount ((List.range x.sliceCount).map (sliceMid x)) x

/-- Mean of the steps that are below the largest finite number, zero if there is none. -/
def averageStep (steps : List Float) : Float :=
  let step (acc : Float × Float) (s : Float) : Float × Float :=
    let count := acc.2 + 1.0
    ((acc.1 * (count - 1.0) + s) / count, count)
  ((steps.filter fun s => s < Binary64.maxFinite).foldl step (0.0, 0.0)).1

/-- Upper median of the steps that are below the largest finite number, zero if there is
none. -/
def medianStep (steps : List Float) : Float :=
  let finite := steps.filter fun s => s < Binary64.maxFinite
  let sorted := finite.mergeSort fun a b => Binary64.totalKey a ≤ Binary64.totalKey b
  sorted.getD (sorted.length / 2) 0.0

/-- Cuts the slices that reach the threshold and are not very narrow. -/
def cutSteep (threshold : List Float → Float) (maxSlices : Nat) (x : TubeVector Interval) :
    TubeVector Interval :=
  let n := x.sliceCount
  let bound := threshold ((List.range n).map x.steepness)
  let minWidth := x.domain.diam / (100.0 * Float.ofNat n)
  let targets := (List.range n).filter fun i =>
    x.steepness i ≥ bound && (x.sliceDomain i).diam > minWidth
  sampleWithin maxSlices n (targets.map (sliceMid x)) x

/-- Cuts the widest slice up to `n` times, and tells whether the budget was left
unspent; `count` is the number of slices counted before each cut. -/
def cutWidest (maxSlices : Nat) : Nat → Nat → TubeVector Interval → TubeVector Interval × Bool
  | 0, _, x => (x, true)
  | n + 1, count, x =>
    let y := (x.sample (sliceMid x x.widestSlice)).1
    if count + 1 ≥ maxSlices then (y, false) else cutWidest maxSlices n (count + 1) y

/-- Cuts the widest slices, a tenth of all and one more, and then the steep ones. -/
def cutByThreshold (threshold : List Float → Float) (maxSlices : Nat) (x : TubeVector Interval) :
    TubeVector Interval :=
  let (y, unspent) := cutWidest maxSlices (x.sliceCount / 10 + 1) x.sliceCount x
  if unspent then cutSteep threshold maxSlices y else y

/-- Adds breakpoints; none if the budget is spent. An unbounded tube has all its slices
cut instead of the steep ones. -/
def refine? (mode : RefiningMode) (maxSlices : Nat) (x : TubeVector Interval) :
    Option (TubeVector Interval) :=
  if x.sliceCount ≥ maxSlices then none
  else
    match mode with
    | .steepestSlice => some (x.sample (sliceMid x x.steepestSlice)).1
    | .allSlices => some (cutAll maxSlices x)
    | .averageThreshold =>
      some (if x.volume ≥ Binary64.maxFinite then cutAll maxSlices x
        else cutByThreshold averageStep maxSlices x)
    | .medianThreshold =>
      some (if x.volume ≥ Binary64.maxFinite then cutAll maxSlices x
        else cutByThreshold medianStep maxSlices x)

end FlowTube.Slicing

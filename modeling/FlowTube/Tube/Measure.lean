import FlowTube.Tube.Basic

/-! Sizes of tubes: volume, widest values, widest and steepest slices. Of several
places with one size the first counts. -/

namespace FlowTube.Tube

variable {ι : Type} [Enclosure ι]

/-- Adds width times diameter over the non-empty ones of `n` slices from `i` on to `v`;
the largest finite number stands for an unbounded slice and for larger sums. -/
def addVolume (x : Tube ι) : Nat → Nat → Float → Float
  | 0, _, v => Binary64.min v Binary64.maxFinite
  | n + 1, i, v =>
    let c := x.codomain i
    if Enclosure.isEmpty c then addVolume x n (i + 1) v
    else if Enclosure.isUnbounded c then Binary64.maxFinite
    else addVolume x n (i + 1) (v + (x.time (i + 1) - x.time i) * Enclosure.diam c)

/-- Sum of width times diameter over the slices. -/
def volume (x : Tube ι) : Float := x.addVolume x.sliceCount 0 0.0

/-- The greatest diameter of a codomain. -/
def maxDiam (x : Tube ι) : Float :=
  x.codomains.foldl (fun d a => Binary64.max d (Enclosure.diam a)) 0.0

/-- The greatest diameter of a gate, with its time. -/
def maxGateDiam (x : Tube ι) : Float × Float :=
  (x.gates.zip x.times).foldl
    (fun best (g, t) => if Enclosure.diam g > best.1 then (Enclosure.diam g, t) else best)
    (Enclosure.diam (x.gate 0), x.time 0)

/-- The first index below `n` at which `size` is greatest. -/
def argmax (size : Nat → Float) (n : Nat) : Nat :=
  let step (best : Nat × Float) (i : Nat) : Nat × Float :=
    let s := size i
    if s > best.2 then (i, s) else best
  ((List.range n).foldl step (0, size 0)).1

/-- Index of the slice that is widest in time. -/
def widestSlice (x : Tube ι) : Nat := argmax (fun i => (x.sliceDomain i).diam) x.sliceCount

/-- Distance between the midpoints of the gates of slice `i`; zero if one is empty. -/
def steepness (x : Tube Interval) (i : Nat) : Float :=
  let a := x.gate i
  let b := x.gate (i + 1)
  if a.isEmpty || b.isEmpty then 0.0 else (b.mid - a.mid).abs

/-- Index of the steepest slice. -/
def steepestSlice (x : Tube Interval) : Nat := argmax x.steepness x.sliceCount

/-- Text of a tube in messages. -/
def text (x : Tube Interval) : String :=
  let n := x.sliceCount
  x.domain.text ++ "↦" ++ x.range.text ++ s!", {n} slices"

end FlowTube.Tube

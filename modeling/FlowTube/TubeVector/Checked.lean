import FlowTube.TubeVector.Basic

/-! Access by index that refuses an index out of range, and tubes assembled from their
breakpoints and values. -/

namespace FlowTube

/-- Refuses an index that is not below `n`. -/
def checkIndex (i n : Nat) : Except Error Unit :=
  if i < n then .ok () else .error .indexOutOfRange

namespace Tube

variable {ι : Type} [Enclosure ι]

/-- Replaces the codomain of slice `i`, if there is one. -/
def setCodomainAt (x : Tube ι) (i : Nat) (y : ι) : Except Error (Tube ι) := do
  checkIndex i x.sliceCount
  return x.setCodomain i y

/-- Replaces gate `k`, if there is one. -/
def setGateAt (x : Tube ι) (k : Nat) (y : ι) : Except Error (Tube ι) := do
  checkIndex k x.gates.size
  return x.setGate k y

/-- Gate `k`, if there is one. -/
def gateAt (x : Tube ι) (k : Nat) : Except Error ι := do
  checkIndex k x.gates.size
  return x.gate k

/-- Codomain, gates and time domain of a slice. -/
structure Slice (ι : Type) where
  domain : Interval
  codomain : ι
  first : ι
  last : ι

/-- Slice `i`, if there is one. -/
def sliceAt (x : Tube ι) (i : Nat) : Except Error (Slice ι) := do
  checkIndex i x.sliceCount
  return ⟨x.sliceDomain i, x.codomain i, x.gate i, x.gate (i + 1)⟩

/-- A tube with the given breakpoints; then its codomains and its gates are set one
after the other. -/
def assemble (times : List Float) (codomains gates : List ι) : Except Error (Tube ι) := do
  let base ← uniform (Interval.ofBounds (times.headD 0.0) (times.getLastD 0.0)) 0.0 Enclosure.whole
  let sampled := (times.drop 1).dropLast.foldl (fun x t => (x.sample t).1) base
  let filled ← codomains.zipIdx.foldlM (fun x (c, i) => x.setCodomainAt i c) sampled
  gates.zipIdx.foldlM (fun x (g, k) => x.setGateAt k g) filled

end Tube

namespace TubeVector

variable {ι : Type} [Enclosure ι]

/-- Component `j`, if there is one. -/
def componentAt (x : TubeVector ι) (j : Nat) : Except Error (Tube ι) := do
  checkIndex j x.dimension
  return x.component j

/-- Replaces a codomain of component `j`. -/
def setCodomainAt (x : TubeVector ι) (j i : Nat) (y : ι) : Except Error (TubeVector ι) := do
  let c ← (← x.componentAt j).setCodomainAt i y
  return x.modify j fun _ => c

/-- Replaces a gate of component `j`. -/
def setGateAt (x : TubeVector ι) (j k : Nat) (y : ι) : Except Error (TubeVector ι) := do
  let c ← (← x.componentAt j).setGateAt k y
  return x.modify j fun _ => c

/-- Gate `k`, if there is one. -/
def gateAt (x : TubeVector ι) (k : Nat) : Except Error (Box ι) :=
  x.components.mapM (·.gateAt k)

/-- Slice `i` of every component, if there is one. -/
def slicesAt (x : TubeVector ι) (i : Nat) : Except Error (List (Tube.Slice ι)) :=
  x.components.mapM (·.sliceAt i)

/-- Tubes assembled from shared breakpoints and their own values; a missing row of
values is empty. -/
def assemble (times : List Float) (dimension : Nat) (codomains gates : List (List ι)) :
    Except Error (TubeVector ι) := do
  let tubes ← (List.range dimension).mapM fun j =>
    Tube.assemble times (codomains.getD j []) (gates.getD j [])
  ofTubes tubes

end TubeVector

end FlowTube

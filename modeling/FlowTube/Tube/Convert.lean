import FlowTube.SliceTree.Update
import FlowTube.Tube.Basic

/-! Tubes from slice trees, and slice trees from tubes. -/

namespace FlowTube

variable {ι : Type} [Enclosure ι]

/-- The intersections of neighbours in a list. -/
def Tube.meetings : List ι → List ι
  | a :: b :: rest => (a ∩ b) :: Tube.meetings (b :: rest)
  | _ => []

/-- The tube with the slices of a tree; an inner gate is the intersection of the
slices on both sides. -/
def Tube.ofSliceTree (x : SliceTree ι) : Tube ι :=
  let codomains := x.values
  { times := (x.leaves.map (·.domain.lb) ++ [x.domain.ub]).toArray
    codomains := codomains.toArray
    gates :=
      (codomains.take 1 ++ Tube.meetings codomains ++ codomains.getLast?.toList).toArray }

/-- A slice tree of step `dt` over the domain of a tube; each slice holds the hull of
the tube over it. -/
def Tube.toSliceTree (x : Tube ι) (dt : Float) : SliceTree ι :=
  let tree := SliceTree.uniform x.domain dt Enclosure.whole
  tree.withValues (tree.leaves.map fun l => x.evalOver l.domain)

end FlowTube

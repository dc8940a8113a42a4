import FlowTube.Tube.Bisect
import FlowTube.Tube.Combine
import FlowTube.Tube.Measure

/-! Vectors of tubes over one partition of time, one tube per component of the state.
What concerns time is read off the first component; breakpoints are added to all
components together. -/

namespace FlowTube

/-- Tubes that share their breakpoints. -/
structure TubeVector (ι : Type) where
  components : List (Tube ι)
deriving Inhabited

namespace TubeVector

variable {ι : Type}

/-! ### Parts -/

/-- The number of components. -/
def dimension (x : TubeVector ι) : Nat := x.components.length

/-- Component `j`. -/
def component (x : TubeVector ι) (j : Nat) : Tube ι := x.components.getD j ⟨#[], #[], #[]⟩

/-- The first component. -/
def first (x : TubeVector ι) : Tube ι := x.component 0

def sliceCount (x : TubeVector ι) : Nat := x.first.sliceCount

def times (x : TubeVector ι) : Array Float := x.first.times

def domain (x : TubeVector ι) : Interval := x.first.domain

def sliceDomain (x : TubeVector ι) (i : Nat) : Interval := x.first.sliceDomain i

/-- Applies a change to component `j`. -/
def modify (x : TubeVector ι) (j : Nat) (f : Tube ι → Tube ι) : TubeVector ι :=
  ⟨x.components.modify j f⟩

/-- Adds the breakpoint `t` to every component. -/
def sample (x : TubeVector ι) (t : Float) : TubeVector ι × Bool :=
  let results := x.components.map (·.sample t)
  (⟨results.map (·.1)⟩, results.any (·.2))

variable [Enclosure ι]

/-- The hull of all codomains, by component. -/
def range (x : TubeVector ι) : Box ι := x.components.map Tube.range

/-- The codomains of slice `i`. -/
def codomain (x : TubeVector ι) (i : Nat) : Box ι := x.components.map (·.codomain i)

/-- Gate `k`. -/
def gate (x : TubeVector ι) (k : Nat) : Box ι := x.components.map (·.gate k)

/-- The value at `t`. -/
def eval (x : TubeVector ι) (t : Float) : Box ι := x.components.map (·.eval t)

/-- Hull of the values over `tdom`. -/
def evalOver (x : TubeVector ι) (tdom : Interval) : Box ι := x.components.map (·.evalOver tdom)

/-- Whether some codomain or gate is empty. -/
def isEmpty (x : TubeVector ι) : Bool := x.components.any Tube.isEmpty

def beq (x y : TubeVector ι) : Bool := x.components == y.components

instance : BEq (TubeVector ι) := ⟨beq⟩

/-! ### Construction -/

/-- Tubes with one codomain each over a partition of the domain in steps. -/
def uniform (domain : Interval) (step : Float) (codomain : Box ι) : Except Error (TubeVector ι) :=
  if codomain.length == 0 then .error (.broken .someComponent)
  else do return ⟨← codomain.mapM fun c => Tube.uniform domain step c⟩

/-- Tubes that already share their breakpoints. -/
def ofTubes (tubes : List (Tube ι)) : Except Error (TubeVector ι) :=
  match tubes with
  | [] => .error (.broken .someComponent)
  | t :: _ =>
    if tubes.all fun c => c.times == t.times then .ok ⟨tubes⟩
    else .error (.broken .sharedPartition)

/-! ### Changes -/

/-- Sets the value at `t`, which becomes a breakpoint. -/
def set (x : TubeVector ι) (values : Box ι) (t : Float) : Except Error (TubeVector ι) :=
  if values.length == x.dimension then
    .ok ⟨List.zipWith (fun c y => c.set y t) x.components values⟩
  else .error (.broken .valueDimension)

/-- Restricts every gate to the codomains on both sides. -/
def enforceGates (x : TubeVector ι) : TubeVector ι := ⟨x.components.map Tube.enforceGates⟩

/-- Combines two vectors of one dimension and time domain, over the breakpoints of
both. -/
def combine (op : Tube ι → Tube ι → Except Error (Tube ι)) (x y : TubeVector ι) :
    Except Error (TubeVector ι) :=
  if x.dimension != y.dimension then .error (.broken .equalDimensions)
  else if x.domain != y.domain then .error (.broken .equalVectorDomains)
  else
    let times := Tube.jointTimes x.first y.first
    do return ⟨← (x.components.zip y.components).mapM fun (a, b) =>
      op (a.refine times) (b.refine times)⟩

/-- Pointwise hull. -/
def hull (x y : TubeVector ι) : Except Error (TubeVector ι) := combine Tube.hull x y

/-- Pointwise intersection. -/
def inter (x y : TubeVector ι) : Except Error (TubeVector ι) := combine Tube.inter x y

/-! ### Sizes -/

/-- Adds the volumes of components to `v`; the largest finite number stands for an
unbounded component and for larger sums. -/
def addVolume : Float → List (Tube ι) → Float
  | v, [] => Binary64.min v Binary64.maxFinite
  | v, c :: rest =>
    if c.volume ≥ Binary64.maxFinite then Binary64.maxFinite else addVolume (v + c.volume) rest

/-- Sum of the volumes of the components. -/
def volume (x : TubeVector ι) : Float := addVolume 0.0 x.components

/-- The greatest diameter of a codomain. -/
def maxDiam (x : TubeVector ι) : Float :=
  x.components.foldl (fun d c => Binary64.max d c.maxDiam) 0.0

/-- The greatest diameter of a gate, with its time. -/
def maxGateDiam (x : TubeVector ι) : Float × Float :=
  (x.components.drop 1).foldl
    (fun best c => if c.maxGateDiam.1 > best.1 then c.maxGateDiam else best) x.first.maxGateDiam

/-- Index of the slice that is widest in time. -/
def widestSlice (x : TubeVector ι) : Nat := x.first.widestSlice

/-- Sum of the diameters of the first and the last gate of every component. -/
def boundaryWidth (x : TubeVector ι) : Float :=
  x.components.foldl
    (fun s c => s + (Enclosure.diam (c.gate 0) + Enclosure.diam (c.gate x.sliceCount))) 0.0

/-- The greatest steepness of slice `i` in a component. -/
def steepness (x : TubeVector Interval) (i : Nat) : Float :=
  x.components.foldl (fun d c => Binary64.max d (c.steepness i)) 0.0

/-- Index of the steepest slice. -/
def steepestSlice (x : TubeVector Interval) : Nat := Tube.argmax x.steepness x.sliceCount

/-! ### Splitting -/

/-- Splits component `k` at a breakpoint `t`. -/
def bisectComponent (x : TubeVector Interval) (t : Float) (k : Nat) (ratio : Float) :
    Except Error (TubeVector Interval × TubeVector Interval) :=
  match x.components[k]? with
  | none => .error .indexOutOfRange
  | some c => do
    let (lo, hi) ← c.bisect t ratio
    return (⟨x.components.set k lo⟩, ⟨x.components.set k hi⟩)

/-- Splits the value of component `k` at `t`. -/
def bisectAt (x : TubeVector Interval) (t : Float) (k : Nat) (ratio : Float) :
    Except Error (TubeVector Interval × TubeVector Interval) := do
  x.first.checkTime t
  (x.sample t).1.bisectComponent t k ratio

/-- Splits the widest component of the value at `t`. -/
def bisect (x : TubeVector Interval) (t ratio : Float) :
    Except Error (TubeVector Interval × TubeVector Interval) := do
  x.first.checkTime t
  let base := (x.sample t).1
  base.bisectComponent t (Box.widest (base.eval t)) ratio

/-- Text of a tube vector in messages. -/
def text (x : TubeVector Interval) : String :=
  let n := x.sliceCount
  x.domain.text ++ "↦(" ++ " ; ".intercalate (x.range.map Interval.text) ++ s!"), {n} slices"

end TubeVector

end FlowTube

import FlowTube.SliceTree.Update
import FlowTube.Notice

/-! The operations of a slice tree with their reports: a slice that does not exist, and
operands of different shape. -/

namespace FlowTube.SliceTree

variable {ι : Type} [Enclosure ι]

/-- The report about an index. -/
def indexNotices (x : SliceTree ι) (i : Nat) : List Notice :=
  if i < x.size then [] else [.noSliceAtIndex i x.size]

/-- The report about a time. -/
def timeNotices (x : SliceTree ι) (t : Float) : List Notice :=
  if x.domain.contains t then [] else [.noSliceAtTime t x.domain]

/-- The reports about a second operand. -/
def shapeNotices (operation : String) (x y : SliceTree ι) : List Notice :=
  (if x.size == y.size then [] else [.sizesDiffer operation x.size y.size]) ++
    (if x.domain == y.domain then [] else [.domainsDiffer operation x.domain y.domain])

/-- The report about a derivative. -/
def derivativeNotices (operation : String) (x v : SliceTree ι) : List Notice :=
  if x.size == v.size then [] else [.derivativeSize operation]

/-- Slice `i`. -/
def lookup (x : SliceTree ι) (i : Nat) : Reported (Option (SliceLabel ι)) :=
  ⟨x.slice? i, x.indexNotices i⟩

/-- The index of the slice at `t`. -/
def locate (x : SliceTree ι) (t : Float) : Reported (Option Nat) :=
  ⟨x.indexAt? t, x.timeNotices t⟩

/-- The value at `t`. -/
def read (x : SliceTree ι) (t : Float) : Reported (Option ι) := ⟨x.at? t, x.timeNotices t⟩

/-- Gives slice `i` a value. -/
def write (i : Nat) (y : ι) (x : SliceTree ι) : Reported (SliceTree ι) :=
  ⟨x.set i y, x.indexNotices i⟩

/-- Gives the slice at `t` a value. -/
def writeAt (t : Float) (y : ι) (x : SliceTree ι) : Reported (SliceTree ι) :=
  ⟨x.setAt t y, x.timeNotices t⟩

/-- Narrows slice `i`. -/
def restrict (i : Nat) (y : ι) (x : SliceTree ι) : Reported (SliceTree ι × Bool) :=
  ⟨x.narrow i y, x.indexNotices i⟩

/-- Narrows the slice at `t`. -/
def restrictAt (t : Float) (y : ι) (x : SliceTree ι) : Reported (SliceTree ι × Bool) :=
  ⟨x.narrowAt t y, x.timeNotices t⟩

/-- Refreshes the caches above the slice at `t`. -/
def refreshAt (t : Float) (x : SliceTree ι) : Reported (SliceTree ι) :=
  ⟨match x.indexAt? t with
    | some i => x.updateAt i
    | none => x, x.timeNotices t⟩

/-- Slice by slice hull. -/
def unionWith (x y : SliceTree ι) : Reported (SliceTree ι) :=
  ⟨x.join y, shapeNotices "union_with" x y⟩

/-- Slice by slice intersection. -/
def intersectWith (x y : SliceTree ι) : Reported (SliceTree ι) :=
  ⟨x.meet y, shapeNotices "intersect_with" x y⟩

/-- The integrals of the least and of the greatest values of `x`. -/
def integrateBounds (x primitive : SliceTree ι) (t1 t2 : Interval) : Reported (ι × ι) :=
  ⟨partialIntegral primitive t1 t2, shapeNotices "partial_time_integration" x primitive⟩

/-- The integral of `x`. -/
def integrate (x primitive : SliceTree ι) (t1 t2 : Interval) : Reported ι :=
  ⟨integral primitive t1 t2, shapeNotices "partial_time_integration" x primitive⟩

/-- Forward Euler consistency. -/
def contractForward (v x : SliceTree ι) : Reported (SliceTree ι × Bool) :=
  ⟨eulerForward v x, derivativeNotices "ctc_fwd" x v⟩

/-- Backward Euler consistency. -/
def contractBackward (v x : SliceTree ι) : Reported (SliceTree ι × Bool) :=
  ⟨eulerBackward v x, derivativeNotices "ctc_bwd" x v⟩

/-- Euler consistency in both directions. -/
def contractBoth (v x : SliceTree ι) : Reported (SliceTree ι × Bool) :=
  ⟨euler v x, derivativeNotices "ctc_fwd" x v ++ derivativeNotices "ctc_bwd" x v⟩

end FlowTube.SliceTree

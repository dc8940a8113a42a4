import FlowTube.Interval.Arithmetic

/-! What the library asks of a type of intervals. Tubes, contractors, trajectories and
expressions are written for any such type, so that their laws depend only on what its
operations promise, and not on how the bounds are rounded. Time stays on the binary64
axis: domains of functions of time are always `Interval`s. -/

namespace FlowTube

/-- A type of intervals of reals: arithmetic, the set operations `∩` and `∪` (the
hull), tests, and the few constructions that contractors need. -/
class Enclosure (ι : Type) extends Add ι, Sub ι, Mul ι, Div ι, Inter ι, Union ι, BEq ι where
  /-- No real. -/
  empty : ι
  /-- Every real. -/
  whole : ι
  /-- The reals of an interval with binary64 bounds. -/
  ofInterval : Interval → ι
  /-- From zero up to the greatest value. -/
  fromZero : ι → ι
  /-- The least value alone, and the greatest value alone. -/
  ends : ι → ι × ι
  /-- From the least value of the first to the greatest value of the second. -/
  span : ι → ι → ι
  isEmpty : ι → Bool
  /-- Non-empty and without a least or a greatest value. -/
  isUnbounded : ι → Bool
  /-- At most one value. -/
  isDegenerate : ι → Bool
  isSubset : ι → ι → Bool
  /-- A measure of width, infinite for an unbounded interval. -/
  diam : ι → Float
  /-- Consecutive pieces that cover the interval. -/
  subdivide : ι → Nat → List ι
  /-- An interval around the given one, wider by about the factor `delta`. -/
  grow : Float → ι → ι

namespace Enclosure

variable {ι : Type} [Enclosure ι]

/-- One binary64 number. -/
def point (x : Float) : ι := ofInterval (Interval.point x)

/-- Non-empty with a least and a greatest value. -/
def isBounded (a : ι) : Bool := !isEmpty a && !isUnbounded a

end Enclosure

/-- Intervals with the functions that expressions may use. -/
class Elementary (ι : Type) extends Enclosure ι, Neg ι where
  powInt : ι → Int → ι
  /-- The only value of the interval, if it is an integer of moderate size. -/
  integer? : ι → Option Int
  sin : ι → ι
  cos : ι → ι
  exp : ι → ι
  ln : ι → ι
  sqrt : ι → ι

/-- `a ^ b`: repeated multiplication for a single integer exponent, `exp (b ln a)` for
any other one. -/
def Elementary.pow {ι : Type} [Elementary ι] (a b : ι) : ι :=
  match integer? b with
  | some n => powInt a n
  | none => exp (b * ln a)

namespace Interval

/-- The interval widened on both sides by `delta - 1` times its radius and a little
more, so that a degenerate one grows too. -/
def grow (delta : Float) (a : Interval) : Interval :=
  a.inflate ((delta - 1.0) * a.rad + Binary64.epsilon * (1.0 + a.mid.abs))

/-- The bounds as single values; nothing for the empty interval. -/
def ends (a : Interval) : Interval × Interval :=
  if a.isEmpty then (empty, empty) else (point a.lb, point a.ub)

instance : Enclosure Interval where
  empty := empty
  whole := whole
  ofInterval := id
  fromZero a := ofBounds 0.0 a.ub
  ends := ends
  span a b := ofBounds a.lb b.ub
  isEmpty := isEmpty
  isUnbounded := isUnbounded
  isDegenerate := isDegenerate
  isSubset := isSubset
  diam := diam
  subdivide := subdivide
  grow := grow

instance : Elementary Interval where
  powInt := powInt
  integer? := integer?
  sin := sin
  cos := cos
  exp := exp
  ln := ln
  sqrt := sqrt

end Interval

/-- One interval per dimension. -/
abbrev Box (ι : Type) := List ι

/-! ### Boxes

Operations on two boxes go as far as the shorter one. -/

namespace Box

variable {ι : Type} [Enclosure ι]

/-- Whether some side is empty. -/
def isEmpty (x : Box ι) : Bool := x.any Enclosure.isEmpty

/-- Whether every side is bounded and non-empty. -/
def isBounded (x : Box ι) : Bool := x.all Enclosure.isBounded

def hull (x y : Box ι) : Box ι := List.zipWith (· ∪ ·) x y

def inter (x y : Box ι) : Box ι := List.zipWith (· ∩ ·) x y

def isSubset (x y : Box ι) : Bool := (List.zipWith Enclosure.isSubset x y).all id

/-- The greatest width of a side. -/
def maxDiam (x : Box ι) : Float := x.foldl (fun d a => Binary64.max d (Enclosure.diam a)) 0.0

/-- Index of the first side of greatest width. -/
def widest (x : Box ι) : Nat :=
  (List.range x.length).foldl (fun best k =>
    if Enclosure.diam (x.getD k Enclosure.empty) > Enclosure.diam (x.getD best Enclosure.empty)
    then k else best) 0

end Box

end FlowTube

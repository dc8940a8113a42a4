import FlowTube.Binary64.Directed
import FlowTube.Decimal.Text

/-! Closed intervals of reals with binary64 bounds. An interval whose lower bound
exceeds its upper bound is empty; a bound may be infinite. This module holds the order
and set side: construction, emptiness, width and midpoint, inclusion, intersection,
hull, and splitting in two. -/

namespace FlowTube

/-- A closed interval, empty if `ub < lb`. -/
structure Interval where
  lb : Float
  ub : Float
deriving BEq, Inhabited

namespace Interval

open Binary64 (inf negInf maxFinite)

/-! ### Construction -/

/-- The canonical empty interval. -/
def empty : Interval := ⟨inf, negInf⟩

/-- The whole line. -/
def whole : Interval := ⟨negInf, inf⟩

/-- The reals from zero on. -/
def nonneg : Interval := ⟨0.0, inf⟩

/-- `[lb, ub]`, or the empty interval if no real lies between the bounds. -/
def ofBounds (lb ub : Float) : Interval :=
  if lb.isNaN || ub.isNaN || lb > ub || lb == inf || ub == negInf then empty else ⟨lb, ub⟩

/-- The interval of one number. -/
def point (x : Float) : Interval := ofBounds x x

/-- The single value zero. -/
def zero : Interval := point 0.0

/-- The single value one. -/
def one : Interval := point 1.0

/-! ### Shape -/

def isEmpty (a : Interval) : Bool := a.lb > a.ub

/-- Whether the interval is non-empty and reaches an infinity. -/
def isUnbounded (a : Interval) : Bool := !a.isEmpty && (a.lb == negInf || a.ub == inf)

/-- Whether the interval is non-empty with finite bounds. -/
def isBounded (a : Interval) : Bool := !a.isEmpty && !a.isUnbounded

/-- Whether the interval holds at most one number. -/
def isDegenerate (a : Interval) : Bool := a.isEmpty || a.lb == a.ub

/-- Whether the interval is the single value zero. -/
def isZero (a : Interval) : Bool := a.lb == 0.0 && a.ub == 0.0

/-- Width, rounded up; zero for the empty interval. -/
def diam (a : Interval) : Float :=
  if a.isEmpty then 0.0
  else if a.isUnbounded then inf
  else Binary64.addUp a.ub (-a.lb)

/-- Half the width, rounded up. -/
def rad (a : Interval) : Float :=
  if a.diam.isFinite then Binary64.nextUp (0.5 * a.diam) else a.diam

/-- Midpoint. A half line has the largest finite number on its unbounded side, the
whole line has zero. -/
def mid (a : Interval) : Float :=
  if a.isEmpty then Binary64.nan
  else
    match a.lb == negInf, a.ub == inf with
    | true, true => 0.0
    | true, false => -maxFinite
    | false, true => maxFinite
    | false, false => Binary64.clamp (0.5 * a.lb + 0.5 * a.ub) a.lb a.ub

/-! ### Sets -/

def contains (a : Interval) (x : Float) : Bool := a.lb ≤ x && x ≤ a.ub

/-- Whether the two intervals share a number. -/
def meets (a b : Interval) : Bool :=
  !a.isEmpty && !b.isEmpty && a.lb ≤ b.ub && b.lb ≤ a.ub

def isSubset (a b : Interval) : Bool := a.isEmpty || (b.lb ≤ a.lb && a.ub ≤ b.ub)

def inter (a b : Interval) : Interval :=
  ofBounds (Binary64.max a.lb b.lb) (Binary64.min a.ub b.ub)

/-- The smallest interval that holds both. -/
def hull (a b : Interval) : Interval :=
  if a.isEmpty then b
  else if b.isEmpty then a
  else ⟨Binary64.min a.lb b.lb, Binary64.max a.ub b.ub⟩

instance : Inter Interval := ⟨inter⟩

instance : Union Interval := ⟨hull⟩

/-- The smallest interval that holds every listed number. -/
def hullOf (xs : List Float) : Interval := xs.foldl (fun a x => a ∪ point x) empty

/-- Splits at `lb * (1 - ratio) + ub * ratio`, an unbounded interval at its midpoint;
`none` if no number lies strictly inside at that place. -/
def bisect? (a : Interval) (ratio : Float) : Option (Interval × Interval) :=
  if a.isEmpty then none
  else
    let split := if a.isUnbounded then a.mid else a.lb * (1.0 - ratio) + a.ub * ratio
    if split > a.lb && split < a.ub then some (⟨a.lb, split⟩, ⟨split, a.ub⟩) else none

/-- The `k`-th of the bounds that cut `a` in `n` parts. -/
def cut (a : Interval) (n k : Nat) : Float :=
  if k = 0 then a.lb
  else if k = n then a.ub
  else a.lb + a.diam * Float.ofNat k / Float.ofNat n

/-- `n` consecutive pieces of `a`. -/
def subdivide (a : Interval) (n : Nat) : List Interval :=
  (List.range n).map fun k => ofBounds (a.cut n k) (a.cut n (k + 1))

/-! ### Text -/

/-- Text in messages: `[lb, ub]`, or `[ empty ]`. -/
def text (a : Interval) : String :=
  if a.isEmpty then "[ empty ]" else "[" ++ Decimal.text a.lb ++ ", " ++ Decimal.text a.ub ++ "]"

end Interval

end FlowTube

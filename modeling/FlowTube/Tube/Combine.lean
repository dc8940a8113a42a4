import FlowTube.Tube.Basic

/-! Union and intersection of tubes over one time domain. Both tubes are brought to the
partition with the breakpoints of either, on which they keep their values, and are then
combined slice by slice and gate by gate. -/

namespace FlowTube.Tube

/-- The breakpoints of both lists in order, common ones once. -/
def mergeTimes : List Float → List Float → List Float
  | x :: xs, y :: ys =>
    if x < y then x :: mergeTimes xs (y :: ys)
    else if y < x then y :: mergeTimes (x :: xs) ys
    else x :: mergeTimes xs ys
  | xs, [] => xs
  | [], ys => ys
termination_by xs ys => xs.length + ys.length

variable {ι : Type} [Enclosure ι]

/-- The same values over a partition with further breakpoints. -/
def refine (x : Tube ι) (times : Array Float) : Tube ι :=
  { times
    codomains := times.pop.map fun t => x.codomain ((x.sliceIndex? t).getD 0)
    gates := times.map x.eval }

/-- The breakpoints of both tubes. -/
def jointTimes (x y : Tube ι) : Array Float := (mergeTimes x.times.toList y.times.toList).toArray

/-- Combines two tubes of one time domain. -/
def combine (op : ι → ι → ι) (x y : Tube ι) : Except Error (Tube ι) :=
  if x.domain == y.domain then
    let times := jointTimes x y
    let a := x.refine times
    let b := y.refine times
    .ok { times
          codomains := Array.zipWith op a.codomains b.codomains
          gates := Array.zipWith op a.gates b.gates }
  else .error (.broken .equalDomains)

/-- Pointwise hull. -/
def hull (x y : Tube ι) : Except Error (Tube ι) := combine (· ∪ ·) x y

/-- Pointwise intersection. -/
def inter (x y : Tube ι) : Except Error (Tube ι) := combine (· ∩ ·) x y

end FlowTube.Tube

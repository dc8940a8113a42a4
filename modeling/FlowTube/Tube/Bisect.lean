import FlowTube.Tube.Basic

/-! Splitting a tube in two by the value at one time. -/

namespace FlowTube.Tube

/-- Refuses a time outside the domain. -/
def checkTime (x : Tube Interval) (t : Float) : Except Error Unit :=
  if x.domain.contains t then .ok () else .error (.outOfDomain t x.domain.lb x.domain.ub)

/-- Splits the gate at `t`, which becomes a breakpoint. Both tubes keep the time
domain, and all else. -/
def bisect (x : Tube Interval) (t ratio : Float) : Except Error (Tube Interval × Tube Interval) := do
  x.checkTime t
  let base := (x.sample t).1
  match base.gateIndex? t with
  | none => throw (.notBisectable t .noGate)
  | some k =>
    match (base.gate k).bisect? ratio with
    | none => throw (.notBisectable t (.thinGate (base.gate k)))
    | some (lo, hi) =>
      return ({ base with gates := base.gates.setIfInBounds k lo },
        { base with gates := base.gates.setIfInBounds k hi })

end FlowTube.Tube

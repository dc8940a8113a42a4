import FlowTube.Interval.Basic

/-! Reports that accompany an answer without changing it: an index or a time outside a
tube, operands of different shape, a trajectory that does not cover a tube. -/

namespace FlowTube

/-- How grave a report is. -/
inductive Level
  | error
  | warn
  | info
deriving DecidableEq

def Level.label : Level → String
  | .error => "error"
  | .warn => "warn"
  | .info => "info"

/-- A report about the arguments of an operation. -/
inductive Notice
  | noSliceAtIndex (index size : Nat)
  | noSliceAtTime (t : Float) (domain : Interval)
  | sizesDiffer (operation : String) (left right : Nat)
  | domainsDiffer (operation : String) (left right : Interval)
  | derivativeSize (operation : String)
  | notCovered (trajectory tube : Interval)

namespace Notice

def level : Notice → Level
  | noSliceAtIndex _ _ => .error
  | noSliceAtTime _ _ => .error
  | _ => .warn

def message : Notice → String
  | noSliceAtIndex index size => s!"IntervalTube::slice: index {index} out of range [0,{size})"
  | noSliceAtTime t domain =>
    "IntervalTube::input_to_index: no slice for t=" ++ Decimal.text t ++ " in " ++ domain.text
  | sizesDiffer operation left right =>
    s!"IntervalTube::{operation}: tubes of different sizes ({left} and {right})"
  | domainsDiffer operation left right =>
    s!"IntervalTube::{operation}: tubes of different domains (" ++ left.text ++ " and " ++
      right.text ++ ")"
  | derivativeSize operation => s!"IntervalTube::{operation}: derivative tube of different size"
  | notCovered trajectory tube =>
    "trajectory domain " ++ trajectory.text ++ " does not cover tube domain " ++ tube.text

/-- The line of a report in a log. -/
def line (n : Notice) : String := n.level.label ++ ": " ++ n.message

end Notice

/-- A value with the reports made on the way to it. -/
structure Reported (α : Type) where
  value : α
  notices : List Notice := []

end FlowTube

import FlowTube.Interval.Basic
import FlowTube.Json.Parser

/-! Intervals as JSON objects with the fields `lb` and `ub`. An infinite bound is
written `null` and cannot be read back. -/

namespace FlowTube.Interval

/-- The interval as a JSON text. -/
def toJson (a : Interval) : String :=
  "\x7b\"lb\":" ++ Json.numberText a.lb ++ ",\"ub\":" ++ Json.numberText a.ub ++ "\x7d"

/-- Reads an interval; the bounds are stored as they are. -/
def ofJson? (text : String) : Option Interval :=
  match Json.parse? text with
  | some (.obj [(some "lb", lb), (some "ub", ub)]) => do return ⟨← lb.toFloat?, ← ub.toFloat?⟩
  | _ => none

end FlowTube.Interval

import FlowTube.Json.Parser
import FlowTube.Settings.Basic

/-! Settings by name, and their reading from JSON text: an object with some of the
settings, or an array with the first ones in order. -/

namespace FlowTube.Settings

/-- How the values of settings are read from a format. -/
structure Reader (α : Type) where
  number : α → Option Float
  natural : α → Option Nat
  flag : α → Option Bool
  choice : α → Option String

/-- The names of the settings, in order. -/
def fieldNames : List String :=
  ["propa_fxpt_ratio", "refining_fxpt_ratio", "var3b_fxpt_ratio", "var3b_propa_fxpt_ratio",
    "var3b_min_rate", "var3b_max_rate", "var3b_rate_factor", "var3b_time_policy",
    "var3b_external_contraction", "bisection_policy", "max_slices", "refining_mode",
    "contraction_mode", "stopping_mode", "trace", "seed"]

/-- Sets one setting by name; `none` for a value of the wrong kind and for a name that is
no setting. -/
def assign? {α : Type} (r : Reader α) (s : Settings) (field : String) (v : α) : Option Settings :=
  match field with
  | "propa_fxpt_ratio" => (r.number v).map fun x => { s with propagationRatio := x }
  | "refining_fxpt_ratio" => (r.number v).map fun x => { s with refiningRatio := x }
  | "var3b_fxpt_ratio" => (r.number v).map fun x => { s with peelingRatio := x }
  | "var3b_propa_fxpt_ratio" => (r.number v).map fun x => { s with peelPropagationRatio := x }
  | "var3b_min_rate" => (r.number v).map fun x => { s with peelMinRate := x }
  | "var3b_max_rate" => (r.number v).map fun x => { s with peelMaxRate := x }
  | "var3b_rate_factor" => (r.number v).map fun x => { s with peelRateFactor := x }
  | "var3b_time_policy" => ((r.choice v).bind PeelTime.ofName?).map fun x => { s with peelTime := x }
  | "var3b_external_contraction" => (r.flag v).map fun x => { s with peelConstraints := x }
  | "bisection_policy" =>
    ((r.choice v).bind BisectionPolicy.ofName?).map fun x => { s with bisection := x }
  | "max_slices" => (r.natural v).map fun x => { s with maxSlices := x }
  | "refining_mode" => ((r.choice v).bind RefiningMode.ofName?).map fun x => { s with refining := x }
  | "contraction_mode" =>
    ((r.choice v).bind ContractionMode.ofName?).map fun x => { s with contraction := x }
  | "stopping_mode" => ((r.choice v).bind StoppingMode.ofName?).map fun x => { s with stopping := x }
  | "trace" => (r.flag v).map fun x => { s with trace := x }
  | "seed" => (r.natural v).map fun x => { s with seed := x }
  | _ => none

/-- Reads values of settings from JSON. -/
def jsonReader : Reader Json := ⟨Json.toFloat?, Json.toNat?, Json.toBool?, Json.toChoice?⟩

/-- Sets the settings that an object names. A repeated setting and a name without text
are refused, other names are passed over. -/
def ofFields? : List String → List (Option String × Json) → Settings → Option Settings
  | _, [], s => some s
  | _, (none, _) :: _, _ => none
  | seen, (some field, v) :: rest, s =>
    if !fieldNames.contains field then ofFields? seen rest s
    else if seen.contains field then none
    else (s.assign? jsonReader field v).bind (ofFields? (field :: seen) rest)

/-- Sets the settings in order, as far as there are values. -/
def ofItems? : List String → List Json → Settings → Option Settings
  | _, [], s => some s
  | [], _ :: _, _ => none
  | field :: fields, v :: rest, s => (s.assign? jsonReader field v).bind (ofItems? fields rest)

/-- Reads settings from a JSON text; what it does not name has its default. -/
def parse? (text : String) : Option Settings :=
  match Json.parse? text with
  | some (.obj fields) => ofFields? [] fields {}
  | some (.arr items) => ofItems? fieldNames items {}
  | _ => none

end FlowTube.Settings

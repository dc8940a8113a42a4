/-! The choices that a search offers, with their names in settings and their codes. -/

namespace FlowTube

/-- Which slices are cut between contractions. -/
inductive RefiningMode
  | allSlices
  | steepestSlice
  | averageThreshold
  | medianThreshold
deriving DecidableEq

/-- Which contraction by the dynamics is run. -/
inductive ContractionMode
  | basic
  | pieces
  | guessedPieces
  | constraintsOnly
  | picardDerivative
deriving DecidableEq

/-- At which time a tube is split. -/
inductive BisectionPolicy
  | disabled
  | lowerBound
  | maxGateDiam
  | upperBound
  | random
  | alternate
deriving DecidableEq

/-- At which time values are peeled off. -/
inductive PeelTime
  | lowerBound
  | maxGateDiam
  | upperBound
  | random
deriving DecidableEq

/-- Which widths have to be below the thresholds. -/
inductive StoppingMode
  | diam
  | gate
  | boundaryGate
deriving DecidableEq

/-- The entry of a table with the given key. -/
def lookupBy {α β : Type} [BEq β] (key : α → β) (table : List α) (k : β) : Option α :=
  table.find? fun a => key a == k

namespace RefiningMode

def all : List RefiningMode := [allSlices, steepestSlice, averageThreshold, medianThreshold]

def name : RefiningMode → String
  | allSlices => "all_slices"
  | steepestSlice => "steepest_slice"
  | averageThreshold => "average_threshold"
  | medianThreshold => "median_threshold"

def code : RefiningMode → Int
  | allSlices => 0
  | steepestSlice => 1
  | averageThreshold => 2
  | medianThreshold => 3

def ofName? (s : String) : Option RefiningMode := lookupBy name all s

def ofCode? (c : Int) : Option RefiningMode := lookupBy code all c

end RefiningMode

namespace ContractionMode

def all : List ContractionMode := [basic, pieces, guessedPieces, constraintsOnly, picardDerivative]

def name : ContractionMode → String
  | basic => "basic"
  | pieces => "cid"
  | guessedPieces => "cid_guess"
  | constraintsOnly => "constraints_only"
  | picardDerivative => "picard_deriv"

def code : ContractionMode → Int
  | basic => 0
  | pieces => 1
  | guessedPieces => 2
  | constraintsOnly => 3
  | picardDerivative => 4

def ofName? (s : String) : Option ContractionMode := lookupBy name all s

def ofCode? (c : Int) : Option ContractionMode := lookupBy code all c

end ContractionMode

namespace BisectionPolicy

def all : List BisectionPolicy := [disabled, lowerBound, maxGateDiam, upperBound, random, alternate]

def name : BisectionPolicy → String
  | disabled => "disabled"
  | lowerBound => "lower_bound"
  | maxGateDiam => "max_gate_diam"
  | upperBound => "upper_bound"
  | random => "random"
  | alternate => "alternate"

def code : BisectionPolicy → Int
  | disabled => -2
  | lowerBound => -1
  | maxGateDiam => 0
  | upperBound => 1
  | random => 2
  | alternate => 3

def ofName? (s : String) : Option BisectionPolicy := lookupBy name all s

def ofCode? (c : Int) : Option BisectionPolicy := lookupBy code all c

end BisectionPolicy

namespace PeelTime

def all : List PeelTime := [lowerBound, maxGateDiam, upperBound, random]

def name : PeelTime → String
  | lowerBound => "lower_bound"
  | maxGateDiam => "max_gate_diam"
  | upperBound => "upper_bound"
  | random => "random"

def code : PeelTime → Int
  | lowerBound => -1
  | maxGateDiam => 0
  | upperBound => 1
  | random => 2

def ofName? (s : String) : Option PeelTime := lookupBy name all s

def ofCode? (c : Int) : Option PeelTime := lookupBy code all c

end PeelTime

namespace StoppingMode

def all : List StoppingMode := [diam, gate, boundaryGate]

def name : StoppingMode → String
  | diam => "diam"
  | gate => "gate"
  | boundaryGate => "boundary_gate"

/-- The name on a command line, without separators. -/
def shortName : StoppingMode → String
  | diam => "diam"
  | gate => "gate"
  | boundaryGate => "boundarygate"

def ofName? (s : String) : Option StoppingMode := lookupBy name all s

def ofShortName? (s : String) : Option StoppingMode := lookupBy shortName all s

end StoppingMode

end FlowTube

import FlowTube.Binary64.Basic
import FlowTube.Binary64.Directed
import FlowTube.Binary64.Elementary
import FlowTube.Binary64.Product
import FlowTube.Binary64.Series
import FlowTube.BinarySearch
import FlowTube.Clustering
import FlowTube.Contractor.Derivative
import FlowTube.Contractor.Integration
import FlowTube.Contractor.Ode
import FlowTube.Contractor.Picard
import FlowTube.Decimal.Shortest
import FlowTube.Decimal.Text
import FlowTube.Dynamics
import FlowTube.Enclosure
import FlowTube.Error
import FlowTube.Expr.Basic
import FlowTube.Expr.Compile
import FlowTube.Expr.Grammar
import FlowTube.Expr.Lexer
import FlowTube.Expr.Meaning
import FlowTube.Expr.Parser
import FlowTube.Expr.Program
import FlowTube.Interval.Arithmetic
import FlowTube.Interval.Basic
import FlowTube.Interval.Json
import FlowTube.Json.Basic
import FlowTube.Json.Parser
import FlowTube.Notice
import FlowTube.Proofs.Binary64.Defs
import FlowTube.Proofs.Binary64.Numbers
import FlowTube.Proofs.Binary64.Value
import FlowTube.Proofs.Contractor.Derivative
import FlowTube.Proofs.Contractor.Integration
import FlowTube.Proofs.Contractor.Picard
import FlowTube.Proofs.Contractor.Reach
import FlowTube.Proofs.Contractor.Shape
import FlowTube.Proofs.Enclosure.Laws
import FlowTube.Proofs.Interval.Membership
import FlowTube.Proofs.Interval.Subdivision
import FlowTube.Proofs.Search.Completeness
import FlowTube.Proofs.Tube.Encloses
import FlowTube.Proofs.Tube.Merge
import FlowTube.Proofs.Tube.Sliced
import FlowTube.Proofs.TubeVector.Encloses
import FlowTube.Proofs.TubeVector.Timed
import FlowTube.Search.Goal
import FlowTube.Search.Journal
import FlowTube.Search.Peeling
import FlowTube.Search.Propagation
import FlowTube.Search.Rule
import FlowTube.Search.Slicing
import FlowTube.Search.Solve
import FlowTube.Search.Split
import FlowTube.Settings.Basic
import FlowTube.Settings.Modes
import FlowTube.Settings.Reading
import FlowTube.SliceTree.Basic
import FlowTube.SliceTree.Coherent
import FlowTube.SliceTree.Report
import FlowTube.SliceTree.Update
import FlowTube.Text.Classes
import FlowTube.Trajectory
import FlowTube.Tube.Basic
import FlowTube.Tube.Bisect
import FlowTube.Tube.Combine
import FlowTube.Tube.Convert
import FlowTube.Tube.Measure
import FlowTube.Tube.WellFormed
import FlowTube.TubeVector.Basic
import FlowTube.TubeVector.Checked
import FlowTube.Proofs.Binary64.Arithmetic
import FlowTube.Proofs.Binary64.Neighbours
import FlowTube.Proofs.Binary64.DirectedSums
import FlowTube.Proofs.Binary64.DirectedProducts
import FlowTube.Proofs.Interval.OutwardSums
import FlowTube.Proofs.Interval.OutwardProducts
import FlowTube.Proofs.Interval.OutwardQuotients
import FlowTube.Proofs.Binary64.TotalOrder
import FlowTube.Proofs.Interval.Inclusion
import FlowTube.Proofs.Tube.Breakpoints
import FlowTube.Proofs.Tube.Regular
import FlowTube.Proofs.TubeVector.Regular
import FlowTube.Proofs.Contractor.Answers
import FlowTube.Proofs.Contractor.Regular
import FlowTube.Proofs.Interval.Midpoint
import FlowTube.Proofs.TubeVector.Operations
import FlowTube.Proofs.TubeVector.Pointwise
import FlowTube.Proofs.Expr.Compilation
import FlowTube.Proofs.Expr.Reading
import FlowTube.Proofs.Interval.Hull
import FlowTube.Proofs.SliceTree.Refinement
import FlowTube.Proofs.SliceTree.Queries
import FlowTube.Proofs.TubeVector.Probes
import FlowTube.Proofs.Clustering.Groups
import FlowTube.Proofs.Clustering.Order
import FlowTube.Proofs.Search.Solutions
import FlowTube.Proofs.Search.Calls
import FlowTube.Proofs.Search.Rules
import FlowTube.Proofs.Contractor.Narrowing
import FlowTube.Proofs.Trajectory.Containment
import FlowTube.Proofs.SliceTree.Uniform
import FlowTube.Proofs.Tube.EvalOver
import FlowTube.Proofs.Tube.Conversion
import FlowTube.Proofs.SliceTree.NarrowOver
import FlowTube.Proofs.TubeVector.Bisection
import FlowTube.Proofs.Search.Idle
import FlowTube.Proofs.Interval.Halves
import FlowTube.Proofs.Contractor.Visits
import FlowTube.Proofs.Contractor.Cuts
import FlowTube.Proofs.Search.Refining
import FlowTube.Proofs.TubeVector.Setting
import FlowTube.Proofs.Tube.HullOver
import FlowTube.Proofs.Enclosure.Exact
import FlowTube.Proofs.Contractor.FixedPoint
import FlowTube.Proofs.Interval.OutwardRoots
import FlowTube.Proofs.Binary64.Tightness
import FlowTube.Proofs.SliceTree.Flags
import FlowTube.Proofs.Enclosure.Isotone
import FlowTube.Proofs.Contractor.Parts
import FlowTube.Proofs.Contractor.Pieces
import FlowTube.Proofs.SliceTree.Euler
import FlowTube.Proofs.SliceTree.Integral
import FlowTube.Proofs.Trajectory.Evaluation
import FlowTube.Proofs.Trajectory.Samples
import FlowTube.Proofs.Trajectory.Interpolation
import FlowTube.Proofs.Trajectory.Widening
import FlowTube.Proofs.Binary64.Monotone
import FlowTube.Proofs.TubeVector.Volume
import FlowTube.Proofs.Binary64.Integers
import FlowTube.Proofs.Decimal.Text
import FlowTube.Proofs.Decimal.Rounding
import FlowTube.Proofs.Expr.Literals
import FlowTube.Proofs.Expr.Powers
import FlowTube.Proofs.Binary64.Multiples
import FlowTube.Proofs.Tube.Partition
import FlowTube.Proofs.Decimal.Numerals
import FlowTube.Proofs.Text.Classes
import FlowTube.Proofs.Interval.ExactCover
import FlowTube.Proofs.Expr.Spelling

import FlowTube.TubeVector.Basic

/-! Clusters of tubes that overlap. A pass joins every tube to the first cluster that
it overlaps, or opens a new cluster with it; passes are repeated until one joins
nothing. -/

namespace FlowTube.Clustering

variable {ι : Type} [Enclosure ι]

/-- Whether the intersection of two tubes is empty at no slice and no gate. -/
def overlaps (x y : TubeVector ι) : Except Error Bool := do
  return !(← x.inter y).isEmpty

/-- Joins a tube to the first cluster that it overlaps, or adds it as the last one. -/
def place (x : TubeVector ι) : List (TubeVector ι) → Except Error (List (TubeVector ι))
  | [] => .ok [x]
  | c :: rest => do
    if ← overlaps x c then return (← c.hull x) :: rest
    else return c :: (← place x rest)

/-- Places the tubes one after the other. -/
def pass (tubes : List (TubeVector ι)) : Except Error (List (TubeVector ι)) :=
  tubes.foldlM (fun clusters x => place x clusters) []

/-- At most `n` passes, as long as they reduce the number of tubes. -/
def passes : Nat → List (TubeVector ι) → Except Error (List (TubeVector ι))
  | 0, tubes => .ok tubes
  | n + 1, tubes =>
    if tubes.length ≤ 1 then .ok tubes
    else do
      let merged ← pass tubes
      if merged.length == tubes.length then return merged else passes n merged

/-- Passes until one joins nothing; every other one leaves fewer tubes. -/
def cluster (tubes : List (TubeVector ι)) : Except Error (List (TubeVector ι)) :=
  passes tubes.length tubes

end FlowTube.Clustering

import FlowTube.Contractor.Picard

/-! Contraction by integrating the dynamics slice by slice. Inside a slice the codomain
is intersected with `entry + [0, dt] f (codomain)` until it is stable, and what leaves
the slice follows from it. The entry may be cut in pieces along its widest side, each
integrated alone, and the results joined. -/

namespace FlowTube

/-- How a slice is integrated. -/
inductive Scheme
  /-- The whole entry at once. -/
  | basic
  /-- Piece by piece along the widest side of the entry. -/
  | pieces
  /-- Piece by piece, each within its own Picard box. -/
  | guessedPieces
deriving DecidableEq

/-- How slices are integrated. -/
structure Integration where
  scheme : Scheme
  /-- Whether unbounded codomains are first bounded by a Picard box. -/
  picardMode : Bool
  /-- Whether a sweep stops at the first slice that it does not contract. -/
  incremental : Bool

variable {ι : Type} [Enclosure ι]

namespace Integration

/-- Bound on the iterations inside a slice. -/
def localIterations : Nat := 10

/-- How many pieces an entry is cut in. -/
def pieceCount : Nat := 4

/-- Shrinks a codomain by the dynamics until it is stable or empty. -/
def settle (f : Dynamics ι) (x : TubeVector ι) (t : Interval) (entry : Box ι) (forward : Bool) :
    Nat → Box ι → Except Error (Box ι)
  | 0, codomain => .ok codomain
  | n + 1, codomain => do
    let v ← f.applyOnTube t codomain x
    let next := Box.inter codomain (Box.step forward entry v (Enclosure.elapsed t))
    if next == codomain || Box.isEmpty next then return next
    else settle f x t entry forward n next

/-- The codomain and the exit of a slice from its entry and a first codomain. -/
def integrate (f : Dynamics ι) (x : TubeVector ι) (t : Interval) (entry seed : Box ι)
    (forward : Bool) : Except Error (Box ι × Box ι) := do
  let codomain ← settle f x t entry forward localIterations seed
  let v ← f.applyOnTube t codomain x
  return (codomain, Box.inter (Box.step forward entry v (Enclosure.width t)) codomain)

/-- Integrates one piece of the entry. -/
def integratePiece (m : Integration) (f : Dynamics ι) (x : TubeVector ι) (t : Interval)
    (entry seed : Box ι) (forward : Bool) : Except Error (Box ι × Box ι) := do
  let seed ← if m.scheme == .guessedPieces then do
      match ← ({} : Picard).enclosure f x t entry forward with
      | some (guess, _) => pure (Box.inter seed guess)
      | none => pure seed
    else pure seed
  integrate f x t entry seed forward

/-- Integrates the listed pieces of side `k` and joins what is not empty. -/
def integratePieces (m : Integration) (f : Dynamics ι) (x : TubeVector ι) (t : Interval)
    (entry seed : Box ι) (forward : Bool) (k : Nat) :
    List ι → Box ι × Box ι → Except Error (Box ι × Box ι)
  | [], joined => .ok joined
  | piece :: rest, (codomain, exit) => do
    let (c, e) ← m.integratePiece f x t (entry.set k piece) seed forward
    if Box.isEmpty c || Box.isEmpty e then
      integratePieces m f x t entry seed forward k rest (codomain, exit)
    else
      integratePieces m f x t entry seed forward k rest (Box.hull codomain c, Box.hull exit e)

/-- Integrates a slice by pieces of the widest side of its entry; at once, if the entry
is unbounded or a single point. -/
def integrateByPieces (m : Integration) (f : Dynamics ι) (x : TubeVector ι) (t : Interval)
    (entry seed : Box ι) (forward : Bool) : Except Error (Box ι × Box ι) :=
  let k := Box.widest entry
  let side := entry.getD k Enclosure.empty
  if !Box.isBounded entry || Enclosure.isDegenerate side then
    integrate f x t entry seed forward
  else
    let nothing := entry.map fun _ => Enclosure.empty
    m.integratePieces f x t entry seed forward k (Enclosure.subdivide side pieceCount)
      (nothing, nothing)

/-- The codomain to start from, bounded by a Picard box where allowed; none if the
slice cannot be integrated. -/
def seed? (m : Integration) (f : Dynamics ι) (x : TubeVector ι) (i : Nat) (entry : Box ι)
    (forward : Bool) : Except Error (Option (Box ι)) := do
  let codomain := x.codomain i
  if Box.isBounded codomain then return some codomain
  else if !m.picardMode || !Box.isBounded entry then return none
  else
    match ← ({} : Picard).enclosure f x (x.sliceDomain i) entry forward with
    | some (box, _) => return some (Box.inter codomain box)
    | none => return none

/-- Restricts slice `i` of a tube, and tells whether anything changed. -/
def restrictSlice (forward : Bool) (i : Nat) (c : Tube ι) (codomain exit : ι) : Tube ι × Bool :=
  let (entryIndex, exitIndex) := TubeVector.entryExit forward i
  let inner := c.codomain i ∩ codomain
  let entryGate := c.gate entryIndex ∩ inner
  let exitGate := c.gate exitIndex ∩ exit ∩ inner
  let changed :=
    inner != c.codomain i || entryGate != c.gate entryIndex || exitGate != c.gate exitIndex
  ({ c with
     codomains := c.codomains.setIfInBounds i inner
     gates :=
       (c.gates.setIfInBounds entryIndex entryGate).setIfInBounds exitIndex exitGate }, changed)

/-- Contracts slice `i`, and tells whether anything changed. -/
def contractSlice (m : Integration) (f : Dynamics ι) (x : TubeVector ι) (i : Nat)
    (forward : Bool) : Except Error (TubeVector ι × Bool) := do
  let entry := x.gate (TubeVector.entryExit forward i).1
  if Box.isEmpty entry then return (x, false)
  match ← m.seed? f x i entry forward with
  | none => return (x, false)
  | some seed =>
    let (codomain, exit) ← match m.scheme with
      | .basic => integrate f x (x.sliceDomain i) entry seed forward
      | _ => m.integrateByPieces f x (x.sliceDomain i) entry seed forward
    if codomain.length < x.dimension || exit.length < x.dimension then throw .indexOutOfRange
    let results := List.zipWith (fun c (a, b) => restrictSlice forward i c a b) x.components
      (codomain.zip exit)
    return (⟨results.map (·.1)⟩, results.any (·.2))

/-- Contracts the listed slices until the tube is empty or, in incremental mode, a slice
does not change. -/
def sweep (m : Integration) (f : Dynamics ι) (forward : Bool) :
    List Nat → Bool → TubeVector ι → Except Error (TubeVector ι × Bool)
  | [], changed, x => .ok (x, changed)
  | i :: rest, changed, x => do
    let (x, narrowed) ← m.contractSlice f x i forward
    if x.isEmpty || (m.incremental && !narrowed) then return (x, changed || narrowed)
    else sweep m f forward rest (changed || narrowed) x

/-- The first slice to visit from `t0` on, and how many slices end at it or contain it. -/
def startEnd? (x : TubeVector ι) (t0 : Float) : Option (Nat × Nat) :=
  match x.first.sliceIndex? t0, x.first.gateIndex? t0 with
  | _, some k => some (k, k)
  | some i, none => some (i, i + 1)
  | none, none => none

/-- Contracts the slices after `t0` in order and those before it in reverse order, as
the direction says, and tells whether anything changed. -/
def contract (m : Integration) (f : Dynamics ι) (t0 : Float) (direction : Direction)
    (x : TubeVector ι) : Except Error (TubeVector ι × Bool) :=
  match startEnd? x t0 with
  | none => .ok (x, false)
  | some (start, stop) => do
    let (x, changed) ← if direction.goesForward then
        m.sweep f true (List.range' start (x.sliceCount - start)) false x
      else pure (x, false)
    if direction.goesBackward && !x.isEmpty then
      m.sweep f false (List.range (min stop x.sliceCount)).reverse changed x
    else return (x, changed)

end Integration

end FlowTube

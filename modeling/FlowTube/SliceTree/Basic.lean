import FlowTube.Enclosure
import FlowTube.Error

/-! Interval-valued functions of time over consecutive slices, kept as a binary tree.
A leaf is a slice with its value. A node stands for the slices below it and caches the
hull of their values, and the hulls of their least and of their greatest values, which
are called the bounds. The list of slices is cut in two halves at every level, the
first one longer if the number is odd. `leaves` is the meaning of a tree; the caches
are refreshed by `sync`. -/

namespace FlowTube

/-- What a leaf or a node of a slice tree says of its slices. -/
structure SliceLabel (ι : Type) where
  domain : Interval
  /-- Width of the first slice. -/
  dt : Float
  /-- How many slices there are. -/
  size : Nat
  value : ι
  /-- Hulls of the least and of the greatest values. -/
  bounds : ι × ι

/-- A tree of slices. -/
inductive SliceTree (ι : Type)
  | leaf (label : SliceLabel ι)
  | node (label : SliceLabel ι) (past future : SliceTree ι)

namespace SliceTree

variable {ι : Type}

def label : SliceTree ι → SliceLabel ι
  | leaf l => l
  | node l _ _ => l

def domain (x : SliceTree ι) : Interval := x.label.domain

def dt (x : SliceTree ι) : Float := x.label.dt

def size (x : SliceTree ι) : Nat := x.label.size

def value (x : SliceTree ι) : ι := x.label.value

def bounds (x : SliceTree ι) : ι × ι := x.label.bounds

/-- Whether the tree is a single slice. -/
def isSlice : SliceTree ι → Bool
  | leaf _ => true
  | node _ _ _ => false

/-- The slices in order of time. -/
def leaves : SliceTree ι → List (SliceLabel ι)
  | leaf l => [l]
  | node _ past future => past.leaves ++ future.leaves

/-- The values of the slices in order of time. -/
def values (x : SliceTree ι) : List ι := x.leaves.map (·.value)

/-- How many of `n` slices go to the first half. -/
def half (n : Nat) : Nat := (n + 1) / 2

variable [Enclosure ι]

/-! ### Caches -/

/-- The hulls of two pairs of bounds. -/
def joinBounds (a b : ι × ι) : ι × ι := (a.1 ∪ b.1, a.2 ∪ b.2)

/-- Recomputes the caches at the root from what is directly below it. -/
def sync : SliceTree ι → SliceTree ι
  | leaf l => leaf { l with bounds := Enclosure.ends l.value }
  | node l past future =>
    node { l with value := past.value ∪ future.value, bounds := joinBounds past.bounds future.bounds }
      past future

/-- Recomputes the caches everywhere. -/
def update : SliceTree ι → SliceTree ι
  | leaf l => sync (leaf l)
  | node l past future => sync (node l past.update future.update)

/-- Recomputes the caches between slice `i` and the root; no change if there is no
such slice. -/
def updateAt (i : Nat) (x : SliceTree ι) : SliceTree ι :=
  if i < x.size then go i x else x
where
  go (i : Nat) : SliceTree ι → SliceTree ι
    | leaf l => sync (leaf l)
    | node l past future =>
      if i < half l.size then sync (node l (go i past) future)
      else sync (node l past (go (i - half l.size) future))

/-! ### Construction -/

/-- The label of a run of slices before its caches are computed. -/
def labelOf (slices : List Interval) (value : ι) : SliceLabel ι :=
  { domain := Interval.ofBounds (slices.headD Interval.empty).lb (slices.getLastD Interval.empty).ub
    dt := (slices.headD Interval.empty).diam
    size := slices.length
    value
    bounds := (Enclosure.empty, Enclosure.empty) }

/-- The tree over a run of slices that all have one value. -/
def build (slices : List Interval) (value : ι) : SliceTree ι :=
  if _h : slices.length ≤ 1 then leaf (labelOf slices value)
  else
    node (labelOf slices value) (build (slices.take (half slices.length)) value)
      (build (slices.drop (half slices.length)) value)
termination_by slices.length
decreasing_by
  · simp only [List.length_take, half]; omega
  · simp only [List.length_drop, half]; omega

/-- A function with one value over the given consecutive slices. -/
def ofSlices (slices : List Interval) (value : ι) : Except Error (SliceTree ι) :=
  if slices.isEmpty then .error .emptySlicing else .ok (build slices value).update

/-- Slices of width `dt` from `lb` on, until one ends at or after `ub`; one slice if
`dt` is not positive. -/
def uniformSlices (dt ub : Float) : Nat → Float → List Interval
  | 0, _ => []
  | fuel + 1, lb =>
    let next := lb + dt
    let rest := if next < ub && dt > 0.0 then uniformSlices dt ub fuel next else []
    Interval.ofBounds lb next :: rest

/-- A function with one value over slices of width `dt`; the last one may overhang the
domain. There are at most `2 ^ 64` slices. -/
def uniform (domain : Interval) (dt : Float) (value : ι) : SliceTree ι :=
  (build (uniformSlices dt domain.ub 0x10000000000000000 domain.lb) value).update

/-! ### Queries -/

/-- Slice `i`. -/
def slice? (x : SliceTree ι) (i : Nat) : Option (SliceLabel ι) :=
  if i < x.size then some (go i x) else none
where
  go (i : Nat) : SliceTree ι → SliceLabel ι
    | leaf l => l
    | node l past future =>
      if i < half l.size then go i past else go (i - half l.size) future

/-- Index of the first slice that contains `t`. -/
def indexAt? (x : SliceTree ι) (t : Float) : Option Nat :=
  if x.domain.contains t then some (go x) else none
where
  go : SliceTree ι → Nat
    | leaf _ => 0
    | node _ past future => if past.domain.contains t then go past else past.size + go future

/-- The value at `t`. -/
def at? (x : SliceTree ι) (t : Float) : Option ι :=
  (x.indexAt? t).bind fun i => (x.slice? i).map (·.value)

/-- Hull of the values of the slices that meet `tdom`. -/
def valueOver (tdom : Interval) : SliceTree ι → ι
  | leaf l => if l.domain.meets tdom then l.value else Enclosure.empty
  | node l past future =>
    if !l.domain.meets tdom then Enclosure.empty
    else if !tdom.isUnbounded && !l.domain.isSubset tdom then valueOver tdom past ∪ valueOver tdom future
    else l.value

/-- Hull of the bounds of the slices that meet `tdom`. -/
def boundsOver (tdom : Interval) : SliceTree ι → ι × ι
  | leaf l =>
    if tdom == Interval.whole then l.bounds
    else if tdom.isEmpty || !l.domain.meets tdom then (Enclosure.empty, Enclosure.empty)
    else l.bounds
  | node l past future =>
    if tdom == Interval.whole then l.bounds
    else if tdom.isEmpty || !l.domain.meets tdom then (Enclosure.empty, Enclosure.empty)
    else if !l.domain.isSubset tdom then
      joinBounds (boundsOver tdom past) (boundsOver tdom future)
    else l.bounds

/-- Sum of width times diameter over the non-empty slices. -/
def volume (x : SliceTree ι) : Float :=
  x.values.foldl (fun v a => if Enclosure.isEmpty a then v else v + x.dt * Enclosure.diam a) 0.0

/-- Equality of slices, values and caches. -/
def beq : SliceTree ι → SliceTree ι → Bool
  | leaf l, leaf m => sameLabel l m
  | node l p f, node m q g => sameLabel l m && beq p q && beq f g
  | _, _ => false
where
  sameLabel (l m : SliceLabel ι) : Bool :=
    l.domain == m.domain && l.dt == m.dt && l.size == m.size && l.value == m.value &&
      l.bounds.1 == m.bounds.1 && l.bounds.2 == m.bounds.2

instance : BEq (SliceTree ι) := ⟨beq⟩

end SliceTree

/-- Text of a slice tree in messages. -/
def SliceTree.text (x : SliceTree Interval) : String :=
  let size := x.size
  "IntervalTube: t=" ++ x.domain.text ++ ", y=" ++ x.value.text ++ s!", slices={size}, dt=" ++
    Decimal.text x.dt

end FlowTube

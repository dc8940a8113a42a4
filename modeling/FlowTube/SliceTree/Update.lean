import FlowTube.SliceTree.Basic

/-! Changes of the values of a slice tree. Each one says what becomes of the list of
leaf values; the caches on the way are refreshed. A narrowing also tells whether a
value became empty or less wide. -/

namespace FlowTube

variable {ι : Type} [Enclosure ι]

/-- The part of `a` inside `y`, and whether it is empty or less wide; an empty `a`
stays as it is. -/
def Enclosure.narrow (a y : ι) : ι × Bool :=
  if isEmpty a then (a, false)
  else (a ∩ y, isEmpty (a ∩ y) || diam (a ∩ y) < diam a)

namespace SliceTree

/-! ### One slice -/

/-- Replaces the value of slice `i` by `f` of it, with a result of `f`. -/
def modify {β : Type} (f : ι → ι × β) (i : Nat) : SliceTree ι → SliceTree ι × β
  | leaf l => (sync (leaf { l with value := (f l.value).1 }), (f l.value).2)
  | node l past future =>
    if i < half l.size then
      let (p, b) := modify f i past
      (sync (node l p future), b)
    else
      let (q, b) := modify f (i - half l.size) future
      (sync (node l past q), b)

/-- Gives slice `i` the value `y`; no change if there is no such slice. -/
def set (i : Nat) (y : ι) (x : SliceTree ι) : SliceTree ι :=
  if i < x.size then (modify (fun _ => (y, ())) i x).1 else x

/-- Gives the slice at `t` the value `y`. -/
def setAt (t : Float) (y : ι) (x : SliceTree ι) : SliceTree ι :=
  match x.indexAt? t with
  | some i => x.set i y
  | none => x

/-- Narrows slice `i` to `y`. -/
def narrow (i : Nat) (y : ι) (x : SliceTree ι) : SliceTree ι × Bool :=
  if i < x.size then modify (fun a => Enclosure.narrow a y) i x else (x, false)

/-- Narrows the slice at `t` to `y`. -/
def narrowAt (t : Float) (y : ι) (x : SliceTree ι) : SliceTree ι × Bool :=
  match x.indexAt? t with
  | some i => x.narrow i y
  | none => (x, false)

/-! ### The slices over an interval of time -/

/-- Gives every slice that meets `tdom` the value `y`. -/
def setOver (tdom : Interval) (y : ι) : SliceTree ι → SliceTree ι
  | leaf l => if l.domain.meets tdom then sync (leaf { l with value := y }) else leaf l
  | node l past future =>
    if l.domain.meets tdom then sync (node l (setOver tdom y past) (setOver tdom y future))
    else node l past future

/-- Narrows every slice that meets `tdom` to `y`. Caches are refreshed where a slice
below was narrowed. -/
def narrowOver (tdom : Interval) (y : ι) : SliceTree ι → SliceTree ι × Bool
  | leaf l =>
    if l.domain.meets tdom then
      let (a, b) := Enclosure.narrow l.value y
      let x := leaf { l with value := a }
      (if b then sync x else x, b)
    else (leaf l, false)
  | node l past future =>
    if l.domain.meets tdom then
      let (p, b) := narrowOver tdom y past
      let (q, c) := narrowOver tdom y future
      let x := node l p q
      (if b || c then sync x else x, b || c)
    else (node l past future, false)

/-! ### All slices -/

/-- Combines the values of two trees place by place. A leaf opposite to a node takes
the cached value of that node. -/
def combine (op : ι → ι → ι) : SliceTree ι → SliceTree ι → SliceTree ι
  | leaf l, y => leaf { l with value := op l.value y.value }
  | node l p f, leaf m => node { l with value := op l.value m.value } p f
  | node l p f, node m q g => node { l with value := op l.value m.value } (combine op p q) (combine op f g)

/-- Slice by slice hull with another tree. -/
def join (x y : SliceTree ι) : SliceTree ι := (combine (· ∪ ·) x y).update

/-- Slice by slice intersection with another tree. -/
def meet (x y : SliceTree ι) : SliceTree ι := (combine (· ∩ ·) x y).update

/-- Hands out values to the leaves in order, with the values that are left. -/
def assign : SliceTree ι → List ι → SliceTree ι × List ι
  | leaf l, [] => (leaf l, [])
  | leaf l, a :: rest => (leaf { l with value := a }, rest)
  | node l past future, values =>
    let (p, rest) := assign past values
    let (f, rest) := assign future rest
    (node l p f, rest)

/-- The same slices with other values. -/
def withValues (x : SliceTree ι) (values : List ι) : SliceTree ι := (x.assign values).1.update

/-! ### Integration -/

/-- The running sums `c, c + v0 dt, c + v0 dt + v1 dt, …`, one per value. -/
def runningSums (dt : ι) : ι → List ι → List ι
  | _, [] => []
  | c, v :: rest => c :: runningSums dt (c + v * dt) rest

/-- The antiderivative in steps: slice `i` holds `initial` plus the integral over the
slices before it. -/
def primitive (initial : ι) (x : SliceTree ι) : SliceTree ι :=
  x.withValues (runningSums (Enclosure.point x.dt) initial x.values)

/-- The integrals of the least and of the greatest values from `t1` to `t2`, as
differences of the bounds of a primitive. -/
def partialIntegral (primitive : SliceTree ι) (t1 t2 : Interval) : ι × ι :=
  let start := primitive.boundsOver t1
  let stop := primitive.boundsOver t2
  (stop.1 - start.1, stop.2 - start.2)

/-- An enclosure of the integral from `t1` to `t2`. -/
def integral (primitive : SliceTree ι) (t1 t2 : Interval) : ι :=
  let (lower, upper) := partialIntegral primitive t1 t2
  Enclosure.span lower upper

/-! ### Euler steps -/

/-- Narrows each value after `x` to the Euler step from the value before it; `v` is the
derivative that belongs to `x`. -/
def stepsForward (dt : ι) : ι → ι → List ι → List ι → List ι × Bool
  | x, v, y :: ys, w :: ws =>
    let (y', b) := Enclosure.narrow y (x + v * dt)
    let (rest, c) := stepsForward dt y' w ys ws
    (y' :: rest, b || c)
  | _, _, ys, _ => (ys, false)

/-- Narrows `x` and each value after it to the Euler step back from the next value;
`ws` are the derivatives that belong to the values after `x`. -/
def stepsBackward (dt : ι) : ι → List ι → List ι → ι × List ι × Bool
  | x, y :: ys, w :: ws =>
    let (y', rest, c) := stepsBackward dt y ys ws
    let (x', b) := Enclosure.narrow x (y' - w * dt)
    (x', y' :: rest, b || c)
  | x, ys, _ => (x, ys, false)

/-- Forward consistency with a derivative: slice `i` lies in `x (i - 1) + v (i - 1) dt`. -/
def eulerForward (v x : SliceTree ι) : SliceTree ι × Bool :=
  match x.values, v.values with
  | a :: as, w :: ws =>
    let (bs, changed) := stepsForward (Enclosure.point v.dt) a w as ws
    (x.withValues (a :: bs), changed)
  | _, _ => (x.update, false)

/-- Backward consistency with a derivative: slice `i` lies in `x (i + 1) - v (i + 1) dt`. -/
def eulerBackward (v x : SliceTree ι) : SliceTree ι × Bool :=
  match x.values, v.values with
  | a :: as, _ :: ws =>
    let (b, bs, changed) := stepsBackward (Enclosure.point v.dt) a as ws
    (x.withValues (b :: bs), changed)
  | _, _ => (x.update, false)

/-- Forward, then backward consistency. -/
def euler (v x : SliceTree ι) : SliceTree ι × Bool :=
  let (y, b) := eulerForward v x
  let (z, c) := eulerBackward v y
  (z, b || c)

end SliceTree

end FlowTube

import FlowTube.Interval.Basic
import FlowTube.Binary64.Elementary

/-! Interval arithmetic with outward rounding, and the elementary functions over
intervals. A result contains the exact result for every choice of reals in the
operands, as far as the directed roundings of the bounds do. Division by an interval
around zero gives the whole line, by an interval that ends in zero a half line. The
elementary functions widen the rounded values at the bounds by one neighbour. -/

namespace FlowTube.Interval

open Binary64 (inf negInf)

/-! ### Arithmetic -/

def neg (a : Interval) : Interval := if a.isEmpty then a else ⟨-a.ub, -a.lb⟩

def add (a b : Interval) : Interval :=
  if a.isEmpty || b.isEmpty then empty
  else ofBounds (Binary64.addDown a.lb b.lb) (Binary64.addUp a.ub b.ub)

def sub (a b : Interval) : Interval := add a (neg b)

/-- From the least value of `down` to the greatest value of `up` at the four pairs of
bounds, one from each interval. -/
@[inline] def overCorners (down up : Float → Float → Float) (a b : Interval) : Interval :=
  let lower := Binary64.min (Binary64.min (Binary64.min (Binary64.min inf
    (down a.lb b.lb)) (down a.lb b.ub)) (down a.ub b.lb)) (down a.ub b.ub)
  let upper := Binary64.max (Binary64.max (Binary64.max (Binary64.max negInf
    (up a.lb b.lb)) (up a.lb b.ub)) (up a.ub b.lb)) (up a.ub b.ub)
  ofBounds lower upper

def mul (a b : Interval) : Interval :=
  if a.isEmpty || b.isEmpty then empty
  else overCorners Binary64.mulDown Binary64.mulUp a b

/-- Quotient by an interval from zero up to `b > 0`. -/
def divByPositivePart (a : Interval) (b : Float) : Interval :=
  if a.lb ≥ 0.0 then ofBounds (if a.lb == 0.0 then 0.0 else Binary64.divDown a.lb b) inf
  else if a.ub ≤ 0.0 then ofBounds negInf (if a.ub == 0.0 then 0.0 else Binary64.divUp a.ub b)
  else whole

/-- Quotient by an interval from `b < 0` up to zero. -/
def divByNegativePart (a : Interval) (b : Float) : Interval :=
  if a.lb ≥ 0.0 then ofBounds negInf (if a.lb == 0.0 then 0.0 else Binary64.divUp a.lb b)
  else if a.ub ≤ 0.0 then ofBounds (if a.ub == 0.0 then 0.0 else Binary64.divDown a.ub b) inf
  else whole

def div (a b : Interval) : Interval :=
  if a.isEmpty || b.isEmpty || b.isZero then empty
  else if a.isZero then a
  else if b.lb > 0.0 || b.ub < 0.0 then overCorners Binary64.divDown Binary64.divUp a b
  else if b.lb == 0.0 then divByPositivePart a b.ub
  else if b.ub == 0.0 then divByNegativePart a b.lb
  else whole

instance : Neg Interval := ⟨neg⟩

instance : Add Interval := ⟨add⟩

instance : Sub Interval := ⟨sub⟩

instance : Mul Interval := ⟨mul⟩

instance : Div Interval := ⟨div⟩

/-- `[lb - r, ub + r]`. -/
def inflate (a : Interval) (r : Float) : Interval :=
  if a.isEmpty then a else ofBounds (Binary64.addDown a.lb (-r)) (Binary64.addUp a.ub r)

/-! ### Powers and roots -/

def abs (a : Interval) : Interval :=
  if a.isEmpty then a
  else if a.lb ≥ 0.0 then a
  else if a.ub ≤ 0.0 then neg a
  else ofBounds 0.0 (Binary64.max (-a.lb) a.ub)

def sqr (a : Interval) : Interval :=
  if a.isEmpty then a
  else ofBounds (Binary64.mulDown a.abs.lb a.abs.lb) (Binary64.mulUp a.abs.ub a.abs.ub)

/-- Power by a natural number. -/
def powNat (a : Interval) (n : Nat) : Interval :=
  if a.isEmpty then a
  else if n = 0 then one
  else if n % 2 = 0 then ofBounds (Binary64.powDown a.abs.lb n) (Binary64.powUp a.abs.ub n)
  else ofBounds (Binary64.oddPowDown a.lb n) (Binary64.oddPowUp a.ub n)

/-- Power by an integer. -/
def powInt (a : Interval) : Int → Interval
  | .ofNat n => powNat a n
  | .negSucc n => if a.isEmpty then a else one / powNat a (n + 1)

def sqrt (a : Interval) : Interval :=
  let x := a ∩ nonneg
  if x.isEmpty then empty else ofBounds (Binary64.sqrtDown x.lb) (Binary64.sqrtUp x.ub)

/-- The numbers of `x` whose square lies in `y`. -/
def inverseSqr (x y : Interval) : Interval :=
  if y.sqrt.isEmpty then empty else (x ∩ y.sqrt) ∪ (x ∩ -y.sqrt)

/-! ### Elementary functions -/

def exp (a : Interval) : Interval :=
  if a.isEmpty then a
  else ofBounds (Binary64.max (Binary64.nextDown (Binary64.exp a.lb)) 0.0)
    (Binary64.widenUp (Binary64.exp a.ub))

def ln (a : Interval) : Interval :=
  let x := a ∩ nonneg
  if x.isEmpty || x.ub == 0.0 then empty
  else
    ofBounds (if x.lb == 0.0 then negInf else Binary64.widenDown (Binary64.ln x.lb))
      (Binary64.widenUp (Binary64.ln x.ub))

/-- Whether `phase` plus a multiple of two pi may lie in `a`. In doubt near the bounds
the answer is yes. -/
def mayContainPhase (a : Interval) (phase : Float) : Bool :=
  let margin := 1e-9 * (1.0 + Binary64.max a.lb.abs a.ub.abs)
  let k := Binary64.ceil ((a.lb - phase) / Binary64.twoPi)
  phase + (k - 1.0) * Binary64.twoPi ≥ a.lb - margin ||
    phase + k * Binary64.twoPi ≤ a.ub + margin

/-- Range of a function of period two pi with values in `[-1, 1]`, monotone between
its maxima at `top` and its minima at `bottom`. -/
def periodic (f : Float → Float) (top bottom : Float) (a : Interval) : Interval :=
  if a.isEmpty then a
  else if a.isUnbounded || a.diam ≥ Binary64.twoPi then ofBounds (-1.0) 1.0
  else
    let u := f a.lb
    let v := f a.ub
    let lo := Binary64.max (Binary64.nextDown (Binary64.min u v)) (-1.0)
    let hi := Binary64.min (Binary64.nextUp (Binary64.max u v)) 1.0
    ofBounds (if a.mayContainPhase bottom then -1.0 else lo)
      (if a.mayContainPhase top then 1.0 else hi)

def sin (a : Interval) : Interval := periodic Binary64.sin Binary64.halfPi (-Binary64.halfPi) a

def cos (a : Interval) : Interval := periodic Binary64.cos 0.0 Binary64.pi a

/-- The integer that is the only value of `a`, if there is one below `2 ^ 31` in
magnitude. -/
def integer? (a : Interval) : Option Int :=
  if a.isDegenerate && !a.isEmpty && Binary64.isIntegral a.lb && a.lb.abs ≤ 2147483647.0 then
    some (Binary64.toInt a.lb)
  else none

/-- The interval of a number that was read from text: small integers are exact, any
other number is widened to its neighbours. -/
def ofLiteral (x : Float) : Interval :=
  if Binary64.isIntegral x && x.abs ≤ 9007199254740992.0 then point x
  else ofBounds (Binary64.nextDown x) (Binary64.nextUp x)

end FlowTube.Interval

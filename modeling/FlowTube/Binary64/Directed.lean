import FlowTube.Binary64.Product

/-! Neighbours of a number, and arithmetic rounded down or up. A bound is computed in
round-to-nearest and moved to its outer neighbour only if the rounding error is
known, or cannot be excluded, to lie on that side. The error of a sum comes from the
two-sum residual, that of a product, a quotient or a root from the side of an exact
product. Exact results are not moved; a result that overflows from finite operands stays
finite on the inner side. -/

namespace FlowTube.Binary64

/-! ### Neighbours -/

/-- The least number above `x`. -/
def nextUp (x : Float) : Float :=
  if x.isNaN || x == inf then x
  else if x == 0.0 then Float.ofBits 1
  else if x > 0.0 then Float.ofBits (x.toBits + 1)
  else Float.ofBits (x.toBits - 1)

/-- The greatest number below `x`. -/
def nextDown (x : Float) : Float := -(nextUp (-x))

/-- The number below a finite `x`; an infinite one stays. -/
def widenDown (x : Float) : Float := if x.isFinite then nextDown x else x

/-- The number above a finite `x`; an infinite one stays. -/
def widenUp (x : Float) : Float := if x.isFinite then nextUp x else x

/-! ### Sums -/

/-- The rounding error of `s = a + b`. -/
def sumError (a b s : Float) : Float :=
  let bb := s - a
  (a - (s - bb)) + (b - bb)

/-- A number not above the exact sum. -/
def addDown (a b : Float) : Float :=
  let s := a + b
  if s.isNaN then negInf
  else if s.isInf then
    if a.isFinite && b.isFinite && s > 0.0 then maxFinite else s
  else if sumError a b s < 0.0 then nextDown s else s

/-- A number not below the exact sum. -/
def addUp (a b : Float) : Float :=
  let s := a + b
  if s.isNaN then inf
  else if s.isInf then
    if a.isFinite && b.isFinite && s < 0.0 then -maxFinite else s
  else if sumError a b s > 0.0 then nextUp s else s

/-! ### Products -/

/-- A number not above the exact product; zero times anything is zero. -/
def mulDown (a b : Float) : Float :=
  if a == 0.0 || b == 0.0 then 0.0
  else
    let p := a * b
    if p.isNaN then negInf
    else if p.isInf then
      if a.isFinite && b.isFinite && p > 0.0 then maxFinite else p
    else if isTiny p || productSide a b p == .lt then nextDown p else p

/-- A number not below the exact product; zero times anything is zero. -/
def mulUp (a b : Float) : Float :=
  if a == 0.0 || b == 0.0 then 0.0
  else
    let p := a * b
    if p.isNaN then inf
    else if p.isInf then
      if a.isFinite && b.isFinite && p < 0.0 then -maxFinite else p
    else if isTiny p || productSide a b p == .gt then nextUp p else p

/-! ### Quotients -/

/-- Side of the exact quotient `a / b` from `q`: `gt` if it lies above `q`. -/
def quotientSide (a b q : Float) : Ordering :=
  if b > 0.0 then (productSide q b a).swap else productSide q b a

/-- A number not above the exact quotient. -/
def divDown (a b : Float) : Float :=
  let q := a / b
  if q.isNaN then negInf
  else if a == 0.0 then 0.0
  else if q.isInf || a.isInf || b.isInf then q
  else if isTiny q || quotientSide a b q == .lt then nextDown q else q

/-- A number not below the exact quotient. -/
def divUp (a b : Float) : Float :=
  let q := a / b
  if q.isNaN then inf
  else if a == 0.0 then 0.0
  else if q.isInf || a.isInf || b.isInf then q
  else if isTiny q || quotientSide a b q == .gt then nextUp q else q

/-! ### Roots and powers -/

/-- A number not above the exact square root. -/
def sqrtDown (x : Float) : Float :=
  let s := x.sqrt
  if !s.isFinite || s == 0.0 then s
  else if productSide s s x == .gt then nextDown s else s

/-- A number not below the exact square root. -/
def sqrtUp (x : Float) : Float :=
  let s := x.sqrt
  if !s.isFinite then s
  else if s == 0.0 then if x == 0.0 then 0.0 else nextUp s
  else if productSide s s x == .lt then nextUp s else s

/-- `a ^ n` for `0 ≤ a`, every product rounded down. -/
def powDown (a : Float) (n : Nat) : Float := Nat.repeat (mulDown · a) n 1.0

/-- `a ^ n` for `0 ≤ a`, every product rounded up. -/
def powUp (a : Float) (n : Nat) : Float := Nat.repeat (mulUp · a) n 1.0

/-- A number not above `x ^ n`, for odd `n`. -/
def oddPowDown (x : Float) (n : Nat) : Float :=
  if x ≥ 0.0 then powDown x n else -(powUp (-x) n)

/-- A number not below `x ^ n`, for odd `n`. -/
def oddPowUp (x : Float) (n : Nat) : Float :=
  if x ≥ 0.0 then powUp x n else -(powDown (-x) n)

end FlowTube.Binary64

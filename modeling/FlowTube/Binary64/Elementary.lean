import FlowTube.Binary64.Basic
import FlowTube.Binary64.Series

/-! The exponential, the natural logarithm, sine and cosine, rounded to nearest. Each
value is bracketed in fixed point at a working precision; if both ends of the bracket
round to one number, that number is the answer, and otherwise the precision doubles.
No argument but zero (one, for the logarithm) has an exact result, so the bracket
settles at some precision. -/

namespace FlowTube.Binary64

/-- Distance, in units of the last place, from a fixed-point value to the ends of its
bracket. It is far above the error of every series used here. -/
def slack : Int := 0x1000000

/-- The number nearest to the value that `approx` brackets. `approx p` is a pair of
mantissa and exponent at working precision `p`, off by less than `slack` units. -/
def settle (approx : Nat → Int × Int) : Nat → Nat → Float
  | 0, p => ofScaled (approx p).1 (approx p).2
  | fuel + 1, p =>
    let (m, e) := approx p
    let lo := ofScaled (m - slack) e
    if lo.toBits == (ofScaled (m + slack) e).toBits then lo
    else settle approx fuel (2 * p)

/-- The bracketed value at a first working precision of 96 bits, doubled up to eight
times. -/
def nearest (approx : Nat → Int × Int) : Float := settle approx 8 96

/-- `n * 2 ^ e` at precision `p`, rounded down. -/
def toFixed (p n : Nat) (e : Int) : Nat :=
  if 0 ≤ e + p then n <<< (e + p).toNat else n >>> (-(e + p)).toNat

/-- `m * 2 ^ e` at precision `p`, rounded toward zero. -/
def toSignedFixed (p : Nat) (m e : Int) : Int :=
  if m < 0 then -(toFixed p m.natAbs e : Int) else toFixed p m.natAbs e

/-- `exp x` as `2 ^ k * exp r` with `0 ≤ r < ln 2`. -/
def expScaled (m e : Int) (p : Nat) : Int × Int :=
  let ln2 := Series.lnTwo (p + 16)
  let x := toSignedFixed (p + 16) m e
  let k := x / ln2
  let r := (x - k * ln2).toNat
  (Series.exp p (r >>> 16), k - p)

/-- The exponential. -/
def exp (x : Float) : Float :=
  match toScaled? x with
  | none => if x == negInf then 0.0 else x
  | some (m, e) =>
    if m = 0 then 1.0
    else if x > 710.0 then inf
    else if x < -746.0 then 0.0
    else nearest (expScaled m e)

/-- `ln x` as `k ln 2 + 2 atanh ((f - 1) / (f + 1))` with `x = 2 ^ k * f` and
`1 ≤ f < 2`. -/
def lnScaled (m : Nat) (e : Int) (p : Nat) : Int × Int :=
  let k := e + m.log2
  let one := 1 <<< p
  let f := toFixed p m (-(m.log2 : Int))
  let z := (f - one) <<< p / (f + one)
  let ln2 := Series.lnTwo (p + 16)
  (k * ln2 / 65536 + 2 * Series.atanh p z, -p)

/-- The natural logarithm. -/
def ln (x : Float) : Float :=
  match toScaled? x with
  | none => if x == inf then x else nan
  | some (m, e) =>
    if m = 0 then negInf
    else if m < 0 then nan
    else if x == 1.0 then 0.0
    else nearest (lnScaled m.toNat e)

/-- The nearest multiple of `pi / 2`, counted modulo four, and what is left of
`m * 2 ^ e` beyond it. -/
def quarterTurns (m e : Int) (p : Nat) : Int × Int :=
  let extra := (e + m.natAbs.log2 + 17).toNat + 16
  let hp : Int := Series.halfPi (p + extra)
  let x := toSignedFixed (p + extra) m e
  let q := (x + hp / 2) / hp
  let r := x - q * hp
  (q % 4, if r < 0 then -(r.natAbs >>> extra : Nat) else (r.natAbs >>> extra : Nat))

/-- Sine of a fixed-point number of either sign, below one in magnitude. -/
def sinFixed (p : Nat) (r : Int) : Int :=
  if r < 0 then -(Series.sin p r.natAbs : Int) else Series.sin p r.natAbs

/-- Cosine of a fixed-point number of either sign, below one in magnitude. -/
def cosFixed (p : Nat) (r : Int) : Int := Series.cos p r.natAbs

/-- Sine of `m * 2 ^ e` after `shift` further quarter turns. -/
def sinScaled (shift m e : Int) (p : Nat) : Int × Int :=
  let (q, r) := quarterTurns m e p
  let v :=
    match ((q + shift) % 4).toNat with
    | 0 => sinFixed p r
    | 1 => cosFixed p r
    | 2 => -(sinFixed p r)
    | _ => -(cosFixed p r)
  (v, -p)

/-- The sine. A small argument has a small sine, which takes as many places more. -/
def sin (x : Float) : Float :=
  match toScaled? x with
  | none => nan
  | some (m, e) =>
    if m = 0 then x
    else nearest fun p => sinScaled 0 m e (p + (-(e + m.natAbs.log2)).toNat)

/-- The cosine. -/
def cos (x : Float) : Float :=
  match toScaled? x with
  | none => nan
  | some (m, e) => if m = 0 then 1.0 else nearest (sinScaled 1 m e)

end FlowTube.Binary64

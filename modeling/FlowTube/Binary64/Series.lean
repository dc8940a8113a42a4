/-! Power series in fixed point. A natural number `a` at precision `p` stands for
`a / 2 ^ p`. Every series here has positive terms that are rounded down, so that each
term is off by at most a few units of the last place and the terms reach zero; the
number of terms is bounded by the precision. Where signs alternate the terms decrease,
so that no partial sum is negative. -/

namespace FlowTube.Binary64.Series

/-- `a * b` at precision `p`, rounded down. -/
def mul (p a b : Nat) : Nat := (a * b) >>> p

/-- Adds the terms of a series until one vanishes: `next i t` is the term after the
`i`-th, and signs alternate if `alternating` is set. -/
@[specialize] def sum (alternating : Bool) (next : Nat → Nat → Nat) : Nat → Nat → Nat → Nat
  | 0, _, _ => 0
  | fuel + 1, i, t =>
    if t = 0 then 0
    else
      let rest := sum alternating next fuel (i + 1) (next i t)
      if alternating then t - rest else t + rest

/-- `exp r` for `0 ≤ r < 1`: the series at `r / 256`, squared eight times. -/
def exp (p r : Nat) : Nat :=
  let s := r >>> 8
  let y := sum false (fun i t => mul p t s / (i + 1)) (p + 1) 0 (1 <<< p)
  Nat.repeat (fun y => mul p y y) 8 y

/-- The powers of `1 / n` over the odd numbers: `atanh (1 / n)`, or `atan (1 / n)` if
the signs alternate. -/
def atanInv (alternating : Bool) (p n : Nat) : Nat :=
  let rec go : Nat → Nat → Nat → Nat
    | 0, _, _ => 0
    | fuel + 1, k, t =>
      if t = 0 then 0
      else
        let rest := go fuel (k + 2) (t / (n * n))
        if alternating then t / k - rest else t / k + rest
  go (p + 1) 1 ((1 <<< p) / n)

/-- `ln 2` as `2 atanh (1 / 3)`, computed at precision `p`. -/
def computeLnTwo (p : Nat) : Nat := 2 * atanInv false p 3

/-- `pi / 2` as `8 atan (1 / 5) - 2 atan (1 / 239)`, computed at precision `p`. -/
def computeHalfPi (p : Nat) : Nat := 8 * atanInv true p 5 - 2 * atanInv true p 239

/-- The precision at which the constants are kept. -/
def kept : Nat := 1280

/-- `ln 2` at the kept precision. -/
def keptLnTwo : Nat := computeLnTwo kept

/-- `pi / 2` at the kept precision. -/
def keptHalfPi : Nat := computeHalfPi kept

/-- `ln 2` at precision `p`. -/
def lnTwo (p : Nat) : Nat := if p ≤ kept then keptLnTwo >>> (kept - p) else computeLnTwo p

/-- `pi / 2` at precision `p`. -/
def halfPi (p : Nat) : Nat := if p ≤ kept then keptHalfPi >>> (kept - p) else computeHalfPi p

/-- `atanh z` for `0 ≤ z < 1 / 2`. -/
def atanh (p z : Nat) : Nat :=
  let q := mul p z z
  let rec go : Nat → Nat → Nat → Nat
    | 0, _, _ => 0
    | fuel + 1, k, t => if t = 0 then 0 else t / k + go fuel (k + 2) (mul p t q)
  go (p + 1) 1 z

/-- `sin r` for `0 ≤ r < 1`. -/
def sin (p r : Nat) : Nat :=
  let q := mul p r r
  sum true (fun i t => mul p t q / ((2 * i + 2) * (2 * i + 3))) (p + 1) 0 r

/-- `cos r` for `0 ≤ r < 1`. -/
def cos (p r : Nat) : Nat :=
  let q := mul p r r
  sum true (fun i t => mul p t q / ((2 * i + 1) * (2 * i + 2))) (p + 1) 0 (1 <<< p)

end FlowTube.Binary64.Series

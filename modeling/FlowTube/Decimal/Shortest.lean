import FlowTube.Binary64.Basic

/-! The shortest decimal that reads back as a given number. Of the decimals with the
fewest significant digits among those that round to the number, the one nearest to it
is taken. All comparisons are between natural numbers at one decimal scale. -/

namespace FlowTube

/-- The decimal `digits * 10 ^ exponent`. -/
structure Decimal where
  digits : Nat
  exponent : Int
deriving Repr, DecidableEq

namespace Decimal

/-- At least as many as `n` has decimal digits, and hardly more: `2 ^ 4096` is below
`10 ^ 1234`. -/
def digitBound (n : Nat) : Nat := (n.log2 + 1) * 1234 / 4096 + 1

/-- A number and the ends of the interval of reals that round to it, at one decimal
scale; the ends themselves round to it if `closed` is set. -/
structure Cell where
  value : Nat
  low : Nat
  high : Nat
  exponent : Int
  closed : Bool

/-- The cell of `m * 2 ^ e`. Half the gap to the next number lies on each side, save
below a power of two, where the gap is half as wide. -/
def Cell.ofScaled (m : Nat) (e : Int) : Cell :=
  let s := e - 2
  let weight := if 0 ≤ s then Nat.pow 2 s.toNat else Nat.pow 5 (-s).toNat
  let below := if m = 0x10000000000000 ∧ -1074 < e then 1 else 2
  { value := 4 * m * weight
    low := (4 * m - below) * weight
    high := (4 * m + 2) * weight
    exponent := if 0 ≤ s then 0 else s
    closed := m % 2 == 0 }

/-- Whether a decimal at the scale of the cell lies in it. -/
def Cell.holds (c : Cell) (n : Nat) : Bool :=
  if c.closed then c.low ≤ n && n ≤ c.high else c.low < n && n < c.high

/-- The nearest decimal of the cell on the grid of spacing `10 ^ j`, if one of the two
grid neighbours of the value lies in it. A tie goes up. -/
def Cell.onGrid? (c : Cell) (j : Nat) : Option Decimal :=
  let grid := Nat.pow 10 j
  let d := c.value / grid
  let below := d * grid
  let above := below + grid
  let up := if above - c.value ≤ c.value - below then above else below
  let near := if c.holds below && c.holds above then up
    else if c.holds below then below else above
  if c.holds near then some ⟨near / grid, c.exponent + j⟩ else none

/-- The first grid with a decimal of the cell, from one digit on. Seventeen digits are
enough for every number, and the bound on their count is too large by two at most. -/
def Cell.shortest (c : Cell) : Decimal :=
  let bound := digitBound c.value
  ((List.range 19).findSome? fun n => c.onGrid? (bound - (n + 1))).getD ⟨c.value, c.exponent⟩

/-- Drops trailing zeros; at most `fuel` of them. -/
def strip : Nat → Decimal → Decimal
  | 0, d => d
  | fuel + 1, d =>
    if d.digits % 10 = 0 ∧ d.digits ≠ 0 then strip fuel ⟨d.digits / 10, d.exponent + 1⟩ else d

/-- The shortest decimal of `m * 2 ^ e`, without trailing zeros. -/
def ofScaled (m : Nat) (e : Int) : Decimal :=
  if m = 0 then ⟨0, 0⟩ else strip 17 (Cell.ofScaled m e).shortest

end Decimal

end FlowTube

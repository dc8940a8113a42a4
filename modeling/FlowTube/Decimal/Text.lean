import FlowTube.Decimal.Shortest

/-! Texts of numbers. Messages show a number positionally, without an exponent and
without a fraction that is zero; trace lines show it with one digit before the point
and an exponent. Both keep the sign of zero. Numbers are read from digits with at most
one point among them. -/

namespace FlowTube.Decimal

/-- A run of `n` zeros. -/
def zeros (n : Nat) : String := String.ofList (List.replicate n '0')

/-- Positional text of a decimal: `1200`, `12.5`, `0.0031`. -/
def positional (d : Decimal) : String :=
  let ds := Nat.toDigits 10 d.digits
  let point := (ds.length : Int) + d.exponent
  if 0 ≤ d.exponent then String.ofList ds ++ zeros d.exponent.toNat
  else if 0 < point then
    String.ofList (ds.take point.toNat) ++ "." ++ String.ofList (ds.drop point.toNat)
  else "0." ++ zeros (-point).toNat ++ String.ofList ds

/-- Text of a decimal with an exponent: `1.2e3`, `5e-324`. -/
def scientific (d : Decimal) : String :=
  let ds := Nat.toDigits 10 d.digits
  let exponent := toString (d.exponent + (ds.length - 1 : Nat))
  match ds with
  | [] => ""
  | [c] => String.ofList [c] ++ "e" ++ exponent
  | c :: rest => String.ofList [c] ++ "." ++ String.ofList rest ++ "e" ++ exponent

/-- Text of a number: `write` is given the shortest decimal of its magnitude. -/
def textWith (write : Decimal → String) (x : Float) : String :=
  match Binary64.toScaled? x with
  | none => if x.isNaN then "NaN" else if x > 0.0 then "inf" else "-inf"
  | some (m, e) =>
    let sign := if x.toBits ≥ 0x8000000000000000 then "-" else ""
    sign ++ write (ofScaled m.natAbs e)

/-- Text of a number in messages. -/
def text (x : Float) : String := textWith positional x

/-- Text of a number in trace lines. -/
def traceText (x : Float) : String := textWith scientific x

/-- The value of a list of digits. -/
def ofDigits (cs : List Char) : Nat := cs.foldl (fun n c => 10 * n + (c.toNat - '0'.toNat)) 0

/-- The number nearest to a decimal. -/
def toFloat (d : Decimal) : Float :=
  if 0 ≤ d.exponent then Float.ofScientific d.digits false d.exponent.toNat
  else Float.ofScientific d.digits true (-d.exponent).toNat

/-- Reads digits with at most one point and at least one digit. -/
def read? (cs : List Char) : Option Decimal :=
  let whole := cs.takeWhile Char.isDigit
  match cs.dropWhile Char.isDigit with
  | [] => if whole.isEmpty then none else some ⟨ofDigits whole, 0⟩
  | '.' :: fraction =>
    if fraction.all Char.isDigit && !(whole.isEmpty && fraction.isEmpty) then
      some ⟨ofDigits (whole ++ fraction), -(fraction.length : Int)⟩
    else none
  | _ => none

end FlowTube.Decimal

import FlowTube.Json.Basic

/-! Reading JSON texts. A text is one value with blanks around it; numbers, strings and
escapes follow the standard, and control characters may not stand in strings. -/

namespace FlowTube.Json

/-- Blanks between the parts of a text. -/
def isSpace (c : Char) : Bool := c == ' ' || c == '\n' || c == '\t' || c == '\r'

def skipSpace (cs : List Char) : List Char := cs.dropWhile isSpace

/-! ### Numbers -/

/-- The integer part: a single zero, or digits that do not start with zero. -/
def readWhole (cs : List Char) : Option (List Char × List Char) :=
  match cs.takeWhile Char.isDigit with
  | [] => none
  | ['0'] => some (['0'], cs.drop 1)
  | '0' :: _ => none
  | ds => some (ds, cs.dropWhile Char.isDigit)

/-- The digits after a point, none if there is no point. -/
def readFraction (cs : List Char) : Option (List Char × List Char) :=
  match cs with
  | '.' :: rest =>
    match rest.takeWhile Char.isDigit with
    | [] => none
    | ds => some (ds, rest.dropWhile Char.isDigit)
  | _ => some ([], cs)

/-- The digits of an exponent, which has at least one. -/
def readExponentDigits (cs : List Char) : Option (Nat × List Char) :=
  match cs.takeWhile Char.isDigit with
  | [] => none
  | ds => some (Decimal.ofDigits ds, cs.dropWhile Char.isDigit)

/-- The exponent, `none` inside if there is none. -/
def readExponent (cs : List Char) : Option (Option Int × List Char) :=
  match cs with
  | c :: rest =>
    if c == 'e' || c == 'E' then
      match rest with
      | '-' :: ds => (readExponentDigits ds).map fun (n, r) => (some (-(n : Int)), r)
      | '+' :: ds => (readExponentDigits ds).map fun (n, r) => (some (n : Int), r)
      | ds => (readExponentDigits ds).map fun (n, r) => (some (n : Int), r)
    else some (none, cs)
  | [] => some (none, cs)

/-- Reads a number. -/
def readNumber (cs : List Char) : Option (JsonNumber × List Char) := do
  let (negative, cs) := match cs with
    | '-' :: rest => (true, rest)
    | _ => (false, cs)
  let (whole, rest) ← readWhole cs
  let (fraction, rest') ← readFraction rest
  let (exponent, rest'') ← readExponent rest'
  return ({ negative
            magnitude := ⟨Decimal.ofDigits (whole ++ fraction),
              exponent.getD 0 - (fraction.length : Int)⟩
            isInteger := fraction.isEmpty && exponent.isNone }, rest'')

/-! ### Strings -/

/-- Value of a hexadecimal digit. -/
def hexDigit? (c : Char) : Option Nat :=
  if c.isDigit then some (c.toNat - '0'.toNat)
  else if 'a' ≤ c && c ≤ 'f' then some (c.toNat - 'a'.toNat + 10)
  else if 'A' ≤ c && c ≤ 'F' then some (c.toNat - 'A'.toNat + 10)
  else none

/-- The code unit of four hexadecimal digits. -/
def readUnit : List Char → Option (Nat × List Char)
  | a :: b :: c :: d :: rest => do
    let a ← hexDigit? a
    let b ← hexDigit? b
    let c ← hexDigit? c
    let d ← hexDigit? d
    return (((a * 16 + b) * 16 + c) * 16 + d, rest)
  | _ => none

/-- The character of a simple escape. -/
def simpleEscape? : Char → Option Char
  | '"' => some '"'
  | '\\' => some '\\'
  | '/' => some '/'
  | 'b' => some (Char.ofNat 8)
  | 'f' => some (Char.ofNat 12)
  | 'n' => some '\n'
  | 'r' => some '\r'
  | 't' => some '\t'
  | _ => none

/-- Reads the characters of a string after its opening quote, as code units for
escapes and as code points otherwise. -/
def readStringUnits : Nat → List Char → Option (List (Nat ⊕ Char) × List Char)
  | 0, _ => none
  | _ + 1, [] => none
  | _ + 1, '"' :: rest => some ([], rest)
  | fuel + 1, '\\' :: 'u' :: rest => do
    let (unit, rest) ← readUnit rest
    let (more, rest) ← readStringUnits fuel rest
    return (.inl unit :: more, rest)
  | fuel + 1, '\\' :: c :: rest => do
    let c ← simpleEscape? c
    let (more, rest) ← readStringUnits fuel rest
    return (.inr c :: more, rest)
  | fuel + 1, c :: rest =>
    if c.toNat < 32 || c == '\\' then none
    else do
      let (more, rest) ← readStringUnits fuel rest
      return (.inr c :: more, rest)

/-- Joins surrogate pairs; `none` for a lone surrogate. -/
def joinUnits : List (Nat ⊕ Char) → Option (List Char)
  | [] => some []
  | .inr c :: rest => (joinUnits rest).map (c :: ·)
  | .inl hi :: .inl lo :: rest =>
    if 0xd800 ≤ hi && hi < 0xdc00 && 0xdc00 ≤ lo && lo < 0xe000 then
      (joinUnits rest).map (Char.ofNat (0x10000 + (hi - 0xd800) * 0x400 + (lo - 0xdc00)) :: ·)
    else if 0xd800 ≤ hi && hi < 0xe000 then none
    else (joinUnits (.inl lo :: rest)).map (Char.ofNat hi :: ·)
  | .inl u :: rest =>
    if 0xd800 ≤ u && u < 0xe000 then none else (joinUnits rest).map (Char.ofNat u :: ·)

/-- Reads a string after its opening quote. -/
def readString (cs : List Char) : Option (Option String × List Char) := do
  let (units, rest) ← readStringUnits (cs.length + 1) cs
  return ((joinUnits units).map String.ofList, rest)

/-! ### Values -/

mutual

/-- Reads a value. -/
def readValue : Nat → List Char → Option (Json × List Char)
  | 0, _ => none
  | fuel + 1, cs =>
    match skipSpace cs with
    | 'n' :: 'u' :: 'l' :: 'l' :: rest => some (.null, rest)
    | 't' :: 'r' :: 'u' :: 'e' :: rest => some (.bool true, rest)
    | 'f' :: 'a' :: 'l' :: 's' :: 'e' :: rest => some (.bool false, rest)
    | '"' :: rest => (readString rest).map fun (s, r) => (.str s, r)
    | '[' :: rest =>
      match skipSpace rest with
      | ']' :: r => some (.arr [], r)
      | r => (readItems fuel r).map fun (items, r) => (.arr items, r)
    | '{' :: rest =>
      match skipSpace rest with
      | '}' :: r => some (.obj [], r)
      | r => (readFields fuel r).map fun (fields, r) => (.obj fields, r)
    | cs => (readNumber cs).map fun (n, r) => (.num n, r)

/-- Reads the items of an array and its closing bracket. -/
def readItems : Nat → List Char → Option (List Json × List Char)
  | 0, _ => none
  | fuel + 1, cs => do
    let (item, rest) ← readValue fuel cs
    match skipSpace rest with
    | ']' :: r => return ([item], r)
    | ',' :: r =>
      let (items, r) ← readItems fuel r
      return (item :: items, r)
    | _ => none

/-- Reads the fields of an object and its closing brace. -/
def readFields : Nat → List Char → Option (List (Option String × Json) × List Char)
  | 0, _ => none
  | fuel + 1, cs =>
    match skipSpace cs with
    | '"' :: rest => do
      let (key, rest) ← readString rest
      match skipSpace rest with
      | ':' :: rest =>
        let (value, rest) ← readValue fuel rest
        match skipSpace rest with
        | '}' :: r => return ([(key, value)], r)
        | ',' :: r =>
          let (fields, r) ← readFields fuel r
          return ((key, value) :: fields, r)
        | _ => none
      | _ => none
    | _ => none

end

/-- Reads a text that is one value. -/
def parse? (text : String) : Option Json := do
  let cs := text.toList
  let (value, rest) ← readValue (2 * cs.length + 2) cs
  if (skipSpace rest).isEmpty then return value else none

end FlowTube.Json

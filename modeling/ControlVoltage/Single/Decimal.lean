import ControlVoltage.Single.Basic

/-!
# Decimal numerals

* `Decimal` : a sign, an integer and a power of ten, and the nearest number of either width.
* `Decimal.read?` : the plain numeral `[+-] digits [. digits] [e [+-] digits]`, where the point may
  also stand first or last.
* `readSingle?` : a numeral or one of the words for infinity and NaN, read as a single.
-/

namespace ControlVoltage

/-- The number `± digits · 10 ^ exponent`. -/
structure Decimal where
  negative : Bool
  digits : Nat
  exponent : Int
deriving DecidableEq, Repr

namespace Decimal

/-- The nearest double, ties to even. -/
def toDouble (d : Decimal) : Float :=
  let x := Float.ofModel (.ofScientific d.digits d.exponent)
  if d.negative then -x else x

/-- The nearest single, ties to even, in one rounding. -/
def toSingle (d : Decimal) : Float32 :=
  let x := Float32.ofModel (.ofScientific d.digits d.exponent)
  if d.negative then -x else x

/-! ## Reading -/

/-- The value of a list of decimal digits, continuing from `acc`. -/
def digitsValue (acc : Nat) : List Char → Nat
  | [] => acc
  | c :: cs => digitsValue (10 * acc + (c.toNat - '0'.toNat)) cs

/-- A leading sign: whether it is a minus, and what follows. -/
def splitSign : List Char → Bool × List Char
  | '-' :: cs => (true, cs)
  | '+' :: cs => (false, cs)
  | cs => (false, cs)

/-- The exponent part: nothing, or `e` with an optional sign and at least one digit. -/
def readExponent? : List Char → Option Int
  | [] => some 0
  | c :: cs =>
    if c = 'e' ∨ c = 'E' then
      let (negative, ds) := splitSign cs
      if ds.isEmpty ∨ !ds.all Char.isDigit then none
      else if negative then some (-(digitsValue 0 ds : Int)) else some (digitsValue 0 ds)
    else none

/-- Reads a whole numeral; at least one digit stands before or after the point. -/
def read? (text : List Char) : Option Decimal :=
  let (negative, body) := splitSign text
  let whole := body.takeWhile Char.isDigit
  let rest := body.dropWhile Char.isDigit
  let (fraction, rest) : List Char × List Char :=
    match rest with
    | '.' :: cs => (cs.takeWhile Char.isDigit, cs.dropWhile Char.isDigit)
    | cs => ([], cs)
  if whole.isEmpty ∧ fraction.isEmpty then none
  else
    (readExponent? rest).map fun e =>
      { negative, digits := digitsValue 0 (whole ++ fraction), exponent := e - fraction.length }

end Decimal

/-- Reads a numeral, or `inf`, `infinity` or `nan` in any case and with an optional sign. -/
def readSingle? (text : String) : Option Float32 :=
  let (negative, body) := Decimal.splitSign text.toList
  let word := String.ofList (body.map Char.toLower)
  if word = "inf" ∨ word = "infinity" then
    some (if negative then -(1 / 0) else 1 / 0)
  else if word = "nan" then some (0 / 0)
  else (Decimal.read? text.toList).map Decimal.toSingle

end ControlVoltage

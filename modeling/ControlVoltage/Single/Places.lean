import ControlVoltage.Single.Basic

/-!
# Text with fixed places

A number is written with a fixed count of decimal places. The exact value is rounded once, and an
exact half goes to the even neighbour. The sign is written for every negative number, also for
negative zero and for what rounds to it.
-/

namespace ControlVoltage

/-- The whole number nearest to `num / den`; an exact half goes to the even neighbour. -/
def roundHalfEven (num den : Nat) : Nat :=
  let q := num / den
  let r := num % den
  if 2 * r < den then q
  else if den < 2 * r then q + 1
  else q + q % 2

/-- `units / Nat.pow 10 places` with all its places. -/
def placesText (places units : Nat) : String :=
  let fraction := toString (units % Nat.pow 10 places)
  toString (units / Nat.pow 10 places) ++ "." ++ "".pushn '0' (places - fraction.length) ++ fraction

namespace Single

/-- How many units of `10 ^ -places` there are in `m · 2 ^ e`, rounded. -/
def placesUnits (places m : Nat) (e : Int) : Nat :=
  roundHalfEven (m * Nat.pow 10 places * Nat.pow 2 e.toNat) (Nat.pow 2 (-e).toNat)

/-- The text of `x` with `places` decimal places. -/
def fixedText (places : Nat) (x : Float32) : String :=
  match x.toModel.unpack with
  | .notANumber => "NaN"
  | .infinity .positive => "inf"
  | .infinity .negative => "-inf"
  | .zero .positive => placesText places 0
  | .zero .negative => "-" ++ placesText places 0
  | .finite .positive m e _ => placesText places (placesUnits places m e)
  | .finite .negative m e _ => "-" ++ placesText places (placesUnits places m e)

end Single

end ControlVoltage

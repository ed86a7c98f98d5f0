import ControlVoltage.Single.Basic

/-!
# Shortest decimal text

The text of a single has the fewest significant digits that read back as the same single; of two
candidates with that many digits the nearer one is taken, and the larger one on a tie. It is always
positional: no exponent is written, and no point when there is no fraction.

* `Shortest.digits` : the digits and their power of ten, on exact integers.
* `Single.text` : the whole text with sign, infinities and NaN.
-/

namespace ControlVoltage.Shortest

/-- How many decimal digits a positive number has. -/
def digitCount (n : Nat) : Nat :=
  (Nat.toDigits 10 n).length

/-- The reals that round to `m · 2 ^ e`, as numerators over the common denominator `den`. -/
structure Cell where
  low : Nat
  value : Nat
  high : Nat
  den : Nat
  /-- The ends belong to the cell when the significand is even, as ties go to even. -/
  closed : Bool
deriving Repr

/-- The cell of the positive single `m · 2 ^ e`. Below a power of two the neighbour is half as
far away, except at the smallest exponent. -/
def Cell.ofScaled (m : Nat) (e : Int) : Cell :=
  let below := if m = 8388608 ∧ -149 < e then 1 else 2
  let shift := e - 2
  let num := Nat.pow 2 shift.toNat
  { low := (4 * m - below) * num
    value := 4 * m * num
    high := (4 * m + 2) * num
    den := Nat.pow 2 (-shift).toNat
    closed := m % 2 = 0 }

/-- Whether `c · 10 ^ j` lies in the cell. -/
def Cell.holds (cell : Cell) (c : Nat) (j : Int) : Bool :=
  let x := c * Nat.pow 10 j.toNat * cell.den
  let scale := Nat.pow 10 (-j).toNat
  let low := cell.low * scale
  let high := cell.high * scale
  if cell.closed then low ≤ x ∧ x ≤ high else low < x ∧ x < high

/-- The decimal with `count` digits, or the first larger count, whose grid has a point in the
cell. Each grid is tried at the two points around the value. -/
def Cell.search (cell : Cell) (top : Int) : (fuel count : Nat) → Nat × Int
  | 0, _ => (0, 0)
  | fuel + 1, count =>
    let j := top - count
    let num := cell.value * Nat.pow 10 (-j).toNat
    let den := cell.den * Nat.pow 10 j.toNat
    let c := num / den
    let low := cell.holds c j
    let high := cell.holds (c + 1) j
    if low ∧ high then
      if 2 * (num - c * den) < den then (c, j) else (c + 1, j)
    else if low then (c, j)
    else if high then (c + 1, j)
    else cell.search top fuel (count + 1)

/-- Takes the trailing zeros of `c` into the power of ten. -/
def dropZeros : (fuel c : Nat) → Int → Nat × Int
  | 0, c, j => (c, j)
  | fuel + 1, c, j => if c % 10 = 0 then dropZeros fuel (c / 10) (j + 1) else (c, j)

/-- The shortest decimal `c · 10 ^ j` of the positive single `m · 2 ^ e`. Nine digits always
suffice. -/
def digits (m : Nat) (e : Int) : Nat × Int :=
  let cell := Cell.ofScaled m e
  let top : Int := digitCount (cell.value * Nat.pow 10 60 / cell.den) - 60
  let (c, j) := cell.search top 10 1
  dropZeros 10 c j

/-- `c · 10 ^ j` in positional notation. -/
def positional (c : Nat) (j : Int) : String :=
  if 0 ≤ j then toString c ++ "".pushn '0' j.toNat
  else
    let places := (-j).toNat
    let ds := Nat.toDigits 10 c
    let ds := List.replicate (places + 1 - ds.length) '0' ++ ds
    let whole := ds.length - places
    String.ofList (ds.take whole) ++ "." ++ String.ofList (ds.drop whole)

end ControlVoltage.Shortest

namespace ControlVoltage.Single

/-- The shortest text that reads back as `x`. -/
def text (x : Float32) : String :=
  match x.toModel.unpack with
  | .notANumber => "NaN"
  | .infinity .positive => "inf"
  | .infinity .negative => "-inf"
  | .zero .positive => "0"
  | .zero .negative => "-0"
  | .finite s m e _ =>
    let (c, j) := Shortest.digits m e
    (match s with | .positive => "" | .negative => "-") ++ Shortest.positional c j

end ControlVoltage.Single

/-!
# Single-precision numbers

Core's `Float32` is the number type of the whole library: its four operations and its comparisons
are defined there on a bit-level model.

* `ofScaled s m e` : the single nearest to `± m · 2 ^ e`, ties to even.
* `floor`, `roundAway` : rounding to a whole number, on the unpacked form `± m · 2 ^ e`.
* `widen`, `narrow` : the change between single and double precision.
* `clamp`, `larger` : comparisons that say what a NaN does.
-/

namespace ControlVoltage.Single

open Float.Model (Format UnpackedFloat)
open Float.Model.UnpackedFloat (Sign)

/-! ## From scaled integers -/

/-- The single nearest to `± m · 2 ^ e`; a tie goes to the even neighbour, and too large a number
to infinity. -/
def ofScaled (s : Sign) (m : Nat) (e : Int) : Float32 :=
  .ofModel (.pack (UnpackedFloat.round .binary32 s m e))

/-- The single nearest to an integer. -/
def ofInt (n : Int) : Float32 :=
  ofScaled (if n < 0 then .negative else .positive) n.natAbs 0

/-- The single nearest to a natural number below `2 ^ 32`. -/
def ofNat (n : Nat) : Float32 :=
  n.toUInt32.toFloat32

/-! ## Whole numbers -/

/-- The greatest whole number at most `x`. A zero keeps its sign, and what is not finite stays. -/
def floor (x : Float32) : Float32 :=
  match x.toModel.unpack with
  | .finite s m e _ =>
    if 0 ≤ e then x
    else
      let unit := Nat.pow 2 (-e).toNat
      match s with
      | .positive => ofScaled .positive (m / unit) 0
      | .negative => ofScaled .negative ((m + (unit - 1)) / unit) 0
  | _ => x

/-- The whole number nearest to `x`; half way between two it is the one farther from zero. -/
def roundAway (x : Float32) : Float32 :=
  match x.toModel.unpack with
  | .finite s m e _ =>
    if 0 ≤ e then x
    else
      let unit := Nat.pow 2 (-e).toNat
      ofScaled s ((m + unit / 2) / unit) 0
  | _ => x

/-! ## The two widths -/

/-- The double with the same value. -/
def widen (x : Float32) : Float :=
  match x.toModel.unpack with
  | .finite s m e _ => .ofModel (.pack (UnpackedFloat.round .binary64 s m e))
  | y => .ofModel (.pack y)

/-- The single nearest to a double, ties to even. -/
def narrow (x : Float) : Float32 :=
  match x.toModel.unpack with
  | .finite s m e _ => ofScaled s m e
  | y => .ofModel (.pack y)

/-! ## Comparisons -/

/-- `x` moved into `lo ≤ · ≤ hi`. A NaN passes through, since it compares with nothing. -/
def clamp (lo hi x : Float32) : Float32 :=
  let y := if x < lo then lo else x
  if hi < y then hi else y

/-- The larger of two numbers; `x` when they are equal or when `y` is a NaN. -/
def larger (x y : Float32) : Float32 :=
  if x < y then y else x

end ControlVoltage.Single

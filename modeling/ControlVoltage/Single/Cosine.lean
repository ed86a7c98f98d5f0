import ControlVoltage.Single.Basic

/-!
# Cosine

The cosine of a single is computed in double precision by a polynomial on `|x| ≤ π / 4` and by
shifting the argument by a multiple of `π / 2` beyond, and is then rounded once. Only arguments up
to `5 π / 4` are served, since a half-cosine curve asks for no more.
-/

namespace ControlVoltage.Single

/-- `π / 2` in double precision. -/
def halfPi : Float := 1.57079632679489661923

/-- Cosine of a double with `|x| ≤ π / 4`, to 34 bits. -/
def cosNearZero (x : Float) : Float32 :=
  let z := x * x
  let w := z * z
  let r := -0.00138867637746099294692 + z * 0.0000243904487962774090654
  narrow (((1.0 + z * -0.499999997251031003120) + w * 0.0416666233237390631894) + (w * z) * r)

/-- Sine of a double with `|x| ≤ π / 4`, to 37 bits. -/
def sinNearZero (x : Float) : Float32 :=
  let z := x * x
  let w := z * z
  let r := -0.000198393348360966317347 + z * 0.0000027183114939898219064
  let s := z * x
  narrow ((x + s * (-0.166666666416265235595 + z * 0.0083333293858894631756)) + s * w * r)

/-- Cosine of a single with `|x| ≤ 5 π / 4`; beyond, and for a NaN, the result is a NaN. -/
def cosine (x : Float32) : Float32 :=
  let magnitude := x.abs
  if magnitude < .ofBits 0x39800000 then 1.0
  else if magnitude ≤ .ofBits 0x3f490fda then cosNearZero (widen x)
  else if magnitude ≤ .ofBits 0x4016cbe3 then sinNearZero (halfPi - widen magnitude)
  else if magnitude ≤ .ofBits 0x407b53d1 then -cosNearZero (widen magnitude - 2 * halfPi)
  else 0 / 0

end ControlVoltage.Single

import ControlVoltage.Single.Basic

/-!
# Powers of two

`exp2 x` is `2 ^ x` for a single `x` with `|x| ≤ 126`. The argument is split into a multiple of
`1 / 16` and a rest of at most `1 / 32`: sixteen stored powers serve the first, a polynomial in
double precision the second, and the product is rounded once.
-/

namespace ControlVoltage.Single

/-- `2 ^ (i / 16 - 1 / 2)` for `i < 16`, to the nearest double. -/
def sixteenthPowers : Vector Float 16 := #v[
  .ofBits 0x3fe6a09e667f3bcd, .ofBits 0x3fe7a11473eb0187, .ofBits 0x3fe8ace5422aa0db,
  .ofBits 0x3fe9c49182a3f090, .ofBits 0x3feae89f995ad3ad, .ofBits 0x3fec199bdd85529c,
  .ofBits 0x3fed5818dcfba487, .ofBits 0x3feea4afa2a490da, .ofBits 0x3ff0000000000000,
  .ofBits 0x3ff0b5586cf9890f, .ofBits 0x3ff172b83c7d517b, .ofBits 0x3ff2387a6e756238,
  .ofBits 0x3ff306fe0a31b715, .ofBits 0x3ff3dea64c123422, .ofBits 0x3ff4bfdad5362a27,
  .ofBits 0x3ff5ab07dd485429]

/-- `2 ^ x` for `|x| ≤ 126`; beyond, and for a NaN, the result is a NaN. -/
def exp2 (x : Float32) : Float32 :=
  if x.abs ≤ .ofBits 0x33000000 then 1 + x
  else if x.abs ≤ 126 then
    -- Adding 3 · 2 ^ 18 rounds to a multiple of 1 / 16, which the low bits then count.
    let shift : Float32 := 786432
    let shifted := x + shift
    let count := shifted.toBits + 8
    let z := widen (x - (shifted - shift))
    let exponent := (count / 16).toUInt64 + 0x3ff
    let power := sixteenthPowers.get ⟨count.toNat % 16, Nat.mod_lt _ (by decide)⟩
    let t := power * z
    let p1 := widen (.ofBits 0x3f317218)
    let p2 := widen (.ofBits 0x3e75fdf0)
    let p3 := widen (.ofBits 0x3d6359a4)
    let p4 := widen (.ofBits 0x3c1d964e)
    let r := power + t * (p1 + z * p2) + t * (z * z) * (p3 + z * p4)
    narrow (r * .ofBits (exponent <<< 52))
  else 0 / 0

end ControlVoltage.Single

import ControlVoltage.SetupError

/-!
# Tick rate

Time on the output side is counted in ticks. A positive duration lasts at least one tick, and one
too long for 32 bits lasts the largest count.
-/

namespace ControlVoltage

/-- How many ticks there are in a second; never zero. -/
structure Rate where
  hz : UInt32
  hz_ne_zero : hz ≠ 0
deriving DecidableEq

namespace Rate

/-- The rate in use when none is given. -/
def standard : Rate := ⟨1500, by decide⟩

def ofHz (hz : UInt32) : Except SetupError Rate :=
  if h : hz = 0 then .error .invalidRate else .ok ⟨hz, h⟩

/-- The length of one tick in whole nanoseconds. -/
def periodNanos (rate : Rate) : Nat :=
  1000000000 / rate.hz.toNat

/-- The largest count of ticks as a single; it rounds up to `2 ^ 32`. -/
def maxTicks : Float32 := (4294967295 : UInt32).toFloat32

/-- The ticks that `seconds` last, rounded to the nearest count. What is not above zero is
instantaneous, and so is a NaN. -/
def ticks (rate : Rate) (seconds : Float32) : UInt32 :=
  if seconds.isNaN || seconds ≤ 0 then 0
  else
    let count := Single.roundAway (seconds * rate.hz.toFloat32)
    if maxTicks ≤ count then 4294967295 else max count.toUInt32 1

/-- The seconds that `ticks` last. -/
def seconds (rate : Rate) (ticks : UInt32) : Float32 :=
  ticks.toFloat32 / rate.hz.toFloat32

end Rate

end ControlVoltage

import ControlVoltage.SetupError

/-!
# Output range

The voltages that the output stage can produce, and the nearest of them to any number.
-/

namespace ControlVoltage

/-- An interval of voltages with two finite ends, the lower one first. -/
structure Range where
  min : Float32
  max : Float32
  min_finite : min.isFinite = true
  max_finite : max.isFinite = true
  not_max_le_min : ¬ max ≤ min

namespace Range

/-- The range in use when none is given. -/
def standard : Range :=
  ⟨-6, 6, by decide +kernel, by decide +kernel, by decide +kernel⟩

def ofBounds (min max : Float32) : Except SetupError Range :=
  if h : min.isFinite = true ∧ max.isFinite = true ∧ ¬ max ≤ min then
    .ok ⟨min, max, h.1, h.2.1, h.2.2⟩
  else .error (.invalidRange min max)

/-- The voltage of the range nearest to `volts`; for a NaN, the one nearest to zero. -/
def clamp (range : Range) (volts : Float32) : Float32 :=
  Single.clamp range.min range.max (if volts.isNaN then 0 else volts)

def contains (range : Range) (volts : Float32) : Bool :=
  range.min ≤ volts ∧ volts ≤ range.max

end Range

end ControlVoltage

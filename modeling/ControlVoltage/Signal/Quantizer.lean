import ControlVoltage.SetupError

/-!
# Quantizers

A quantizer snaps a voltage to a scale: `degrees`, counted in steps of which `modulo` make an
octave, repeat every `scaling` volts. Each degree owns an equal share of the octave, and the shares
are moved down by half a step, so that a voltage snaps to the nearest step.
-/

namespace ControlVoltage

/-- The scale degrees of one octave. -/
structure Scale where
  degrees : Array Float32
  /-- Steps in an octave. -/
  modulo : Float32
  /-- Volts in an octave. -/
  scaling : Float32
  degrees_pos : 0 < degrees.size

namespace Scale

/-- The most degrees that a scale can have. -/
def maxDegrees : Nat := 24

/-- The steps of an octave when nothing else is said. -/
def standardModulo : Float32 := 12

/-- The volts of an octave when nothing else is said. -/
def standardScaling : Float32 := 1

/-- Whether no degree is below the one before it. -/
def nonDecreasing : List Float32 → Bool
  | x :: y :: rest => !(y < x) && nonDecreasing (y :: rest)
  | _ => true

/-- A scale with the given degrees, in a standard octave where nothing else is said. -/
def ofDegrees (degrees : Array Float32) (modulo scaling : Option Float32) :
    Except SetupError Scale :=
  if h : degrees.size = 0 then .error .emptyScale
  else if maxDegrees < degrees.size then .error (.scaleTooLong maxDegrees)
  else if !degrees.all Float32.isFinite || !nonDecreasing degrees.toList then
    .error .malformedScale
  else
    let modulo := modulo.getD standardModulo
    let scaling := scaling.getD standardScaling
    if !modulo.isFinite || modulo ≤ 0 then .error (.nonPositiveModulo modulo)
    else if !scaling.isFinite || scaling ≤ 0 then .error (.nonPositiveScaling scaling)
    else .ok ⟨degrees, modulo, scaling, Nat.pos_of_ne_zero h⟩

/-- Every semitone of an octave of one volt. -/
def chromatic : Scale :=
  ⟨#[0, 1, 2, 3, 4, 5, 6, 7, 8, 9, 10, 11], standardModulo, standardScaling, by decide⟩

/-- Half a step, by which the shares of the degrees are moved down. -/
def offset (scale : Scale) : Float32 := 0.5 * scale.scaling / scale.modulo

/-- The position among the degrees at a phase of the octave. -/
def degreeIndex (scale : Scale) (phase : Float32) : Nat :=
  min (Single.floor (phase * Single.ofNat scale.degrees.size)).toUInt32.toNat
    (scale.degrees.size - 1)

theorem degreeIndex_lt (scale : Scale) (phase : Float32) :
    scale.degreeIndex phase < scale.degrees.size := by
  have := scale.degrees_pos
  simp only [degreeIndex]
  omega

/-- The voltage of a degree in an octave. -/
def voltsAt (scale : Scale) (octave : Float32) (i : Nat) (h : i < scale.degrees.size) : Float32 :=
  scale.scaling * (octave + scale.degrees[i] / scale.modulo)

/-- The scale voltage that `volts` snaps to. -/
def snap (scale : Scale) (volts : Float32) : Float32 :=
  let normalized := (volts + scale.offset) / scale.scaling
  let octave := Single.floor normalized
  let phase := normalized - octave
  scale.voltsAt octave (scale.degreeIndex phase) (scale.degreeIndex_lt phase)

end Scale

/-- A channel's quantizer: none, or a scale to snap to. -/
inductive Quantizer where
  | off
  | on (scale : Scale)

namespace Quantizer

def chromatic : Quantizer := .on .chromatic

def isActive : Quantizer → Bool
  | .off => false
  | .on _ => true

def ofDegrees (degrees : Array Float32) (modulo scaling : Option Float32) :
    Except SetupError Quantizer :=
  (Scale.ofDegrees degrees modulo scaling).map .on

def quantize : Quantizer → Float32 → Float32
  | .off, volts => volts
  | .on scale, volts => scale.snap volts

/-! ## Settings in view

Without a scale there are no degrees, and the octave is a standard one that is not moved down. -/

def degrees : Quantizer → Array Float32
  | .off => #[]
  | .on scale => scale.degrees

def modulo : Quantizer → Float32
  | .off => Scale.standardModulo
  | .on scale => scale.modulo

def scaling : Quantizer → Float32
  | .off => Scale.standardScaling
  | .on scale => scale.scaling

def offset : Quantizer → Float32
  | .off => 0
  | .on scale => scale.offset

end Quantizer

end ControlVoltage

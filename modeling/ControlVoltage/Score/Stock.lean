import ControlVoltage.Score.Node
import ControlVoltage.Signal.Curve

/-!
# Stock scores

Ready-made scores: two envelopes, an oscillation, a gate and a single ramp.
-/

namespace ControlVoltage.Score

/-- A ramp with known voltage, duration and curve. -/
def rampTo (volts seconds : Float32) (curve : Curve) : Node :=
  .ramp (.lit volts) (.lit seconds) curve.name

/-- One ramp and nothing else. -/
def single (volts seconds : Float32) (curve : Curve) : List Node :=
  [rampTo volts seconds curve]

/-- An attack to `level` and a release to zero. -/
def ar (attack release level : Float32) (curve : Curve) : List Node :=
  [rampTo level attack curve, rampTo 0 release curve]

/-- An attack to `level` and a decay to `sustain * level`, held until released, and a release to
zero. -/
def adsr (attack decay sustain release level : Float32) : List Node :=
  [.held [rampTo level attack .log, rampTo (level * sustain) decay .exp],
    rampTo 0 release .exp]

/-- An endless swing between `level` and `-level`. -/
def lfo (period level : Float32) (curve : Curve) : List Node :=
  let half := period / 2
  [.loop [rampTo level half curve, rampTo (-level) half curve]]

/-- A gate of `width` seconds at `level`. -/
def pulse (width level : Float32) : List Node :=
  [rampTo level 0 .now, rampTo level width .now, rampTo 0 0 .now]

end ControlVoltage.Score

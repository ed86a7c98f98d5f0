import ControlVoltage.Signal.CurveTable

/-!
# Ramps

One channel's voltage and the segment that moves it. A segment is started with `toward`, cancelled
with `hold` and advanced one sample at a time with `step`; each carries a generation, a tag by
which its completion is told from that of any other.
-/

namespace ControlVoltage

namespace Ramp

/-- Where a ramp stands. -/
inductive Phase where
  /-- At rest. -/
  | idle
  /-- On the way to the target. -/
  | ramping
  /-- On the target since the last step. -/
  | arrived
deriving DecidableEq, Repr

/-- What one step did. -/
inductive Outcome where
  | holding
  | moving
  /-- The segment with this generation has just reached its target. -/
  | completed (generation : UInt32)
deriving DecidableEq, Repr

end Ramp

/-- One segment as it is handed to a ramp. -/
structure Segment where
  target : Float32
  ticks : UInt32
  curve : Curve
deriving DecidableEq

/-- A voltage and the segment that moves it. -/
structure Ramp where
  current : Float32
  start : Float32
  target : Float32
  total : UInt32
  remaining : UInt32
  curve : Curve
  phase : Ramp.Phase
  generation : UInt32
deriving DecidableEq

namespace Ramp

/-- At rest on `volts`. -/
def rest (volts : Float32) : Ramp :=
  { current := volts, start := volts, target := volts, total := 0, remaining := 0,
    curve := .linear, phase := .idle, generation := 0 }

/-- Starts a segment from the current voltage in place of the one in flight. A segment of no ticks
is on its target at once and never completes. -/
def toward (ramp : Ramp) (segment : Segment) : Ramp :=
  { current := if segment.ticks = 0 then segment.target else ramp.current
    start := ramp.current
    target := segment.target
    total := segment.ticks
    remaining := segment.ticks
    curve := segment.curve
    phase := if segment.ticks = 0 then .arrived else .ramping
    generation := ramp.generation + 1 }

/-- Cancels the segment in flight and stays on the current voltage. -/
def hold (ramp : Ramp) : Ramp :=
  { ramp with
    start := ramp.current
    target := ramp.current
    total := 0
    remaining := 0
    phase := .idle
    generation := ramp.generation + 1 }

/-- The voltage between start and target when `left` ticks remain. It is kept between the two. -/
def between (table : CurveTable) (ramp : Ramp) (left : UInt32) : Float32 :=
  let t := (ramp.total - left).toFloat32 / ramp.total.toFloat32
  let volts := ramp.start + (ramp.target - ramp.start) * table.eval ramp.curve t
  if ramp.start ≤ ramp.target then Single.clamp ramp.start ramp.target volts
  else Single.clamp ramp.target ramp.start volts

/-- Advances by one sample. -/
def step (table : CurveTable) (ramp : Ramp) : Outcome × Ramp :=
  match ramp.phase with
  | .idle => (.holding, ramp)
  | .arrived => (.holding, { ramp with phase := .idle })
  | .ramping =>
    let left := if ramp.remaining = 0 then 0 else ramp.remaining - 1
    if left = 0 then
      (.completed ramp.generation,
        { ramp with current := ramp.target, remaining := 0, phase := .arrived })
    else
      (.moving, { ramp with current := ramp.between table left, remaining := left })

end Ramp

end ControlVoltage

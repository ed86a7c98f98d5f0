import ControlVoltage.Engine.State
import ControlVoltage.Output.Sink

/-!
# Ticks

Once per tick, for each channel in panel order, the ramp moves on by one sample, the sample is
quantized and brought into range, and the result is written. A channel whose lock is held is
skipped: its last voltage is written again.
-/

namespace ControlVoltage

/-- Moves a voice on by one sample and gives the voltage to write. -/
def Voice.sample (v : Voice) (table : CurveTable) (range : Range) : Float32 × Voice :=
  let (outcome, ramp) := v.ramp.step table
  let completed :=
    match outcome with
    | .completed generation => generation
    | _ => v.completed
  let volts := range.clamp (v.quantizer.quantize ramp.current)
  (volts, { v with ramp, completed, written := volts })

namespace Engine

variable {σ : Type} [Sink σ]

/-- The part of a tick that concerns one channel. -/
def tickChannel (locks : Locks) (state : Engine × σ) (c : Channel) : Engine × σ :=
  let (e, out) := state
  let v := e.voice c
  if locks c then
    let e := { e with counts := { e.counts with skipped := e.counts.skipped + 1 } }
    (e.post (.channelSkipped c), Sink.write out c v.written)
  else
    let (volts, v) := v.sample e.table e.range
    (e.setVoice c v, Sink.write out c volts)

/-- One tick: every channel once, in panel order, and then the end of the tick. -/
def tick (e : Engine) (locks : Locks) (out : σ) : Engine × σ :=
  let (e, out) := Channel.all.foldl (tickChannel locks) (e, out)
  ({ e with counts := { e.counts with ticks := e.counts.ticks + 1 } }, Sink.endTick out)

end Engine

end ControlVoltage

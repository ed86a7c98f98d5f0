import ControlVoltage.Signal.PerChannel

/-!
# Sinks

Where the samples of a tick go. A tick writes each channel once, in panel order, and then ends.
-/

namespace ControlVoltage

/-- A destination for samples. -/
class Sink (σ : Type) where
  write : σ → Channel → Float32 → σ
  /-- Called when every channel has been written in a tick. -/
  endTick : σ → σ

/-- A frame takes the samples of the last tick. -/
instance : Sink Frame where
  write frame c volts := frame.set c volts
  endTick frame := frame

end ControlVoltage

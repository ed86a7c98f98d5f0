import ControlVoltage.Signal.PerChannel
import ControlVoltage.Signal.Rate
import ControlVoltage.Single.Places

/-!
# Traces

The comma-separated text of a run: a header, and a row per tick with the elapsed seconds and the
four voltages, each with six places.

* `Trace.text` : the text of a list of frames.
* `Recorder` : the same text written frame by frame, as the frames arrive.
-/

namespace ControlVoltage

namespace Trace

def header : String := "time,out1,out2,out3,out4\n"

/-- The row of a tick. -/
def row (rate : Rate) (tick : Nat) (frame : Frame) : String :=
  let fields := rate.seconds tick.toUInt32 :: frame.toList
  ",".intercalate (fields.map (Single.fixedText 6)) ++ "\n"

/-- Header and rows. -/
def text (rate : Rate) (frames : List Frame) : String :=
  String.join (header :: frames.mapIdx (row rate))

end Trace

/-- A trace that is written as its frames arrive. -/
structure Recorder where
  rate : Rate
  /-- The tick of the next frame. -/
  tick : UInt32
  written : String

namespace Recorder

def start (rate : Rate) : Recorder := ⟨rate, 0, Trace.header⟩

/-- Writes the row of one frame. The tick stays on the last count that fits. -/
def record (r : Recorder) (frame : Frame) : Recorder :=
  { r with
    tick := if r.tick = 4294967295 then r.tick else r.tick + 1
    written := r.written ++ Trace.row r.rate r.tick.toNat frame }

def recordAll (r : Recorder) (frames : List Frame) : Recorder := frames.foldl record r

end Recorder

end ControlVoltage

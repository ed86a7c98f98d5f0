import ControlVoltage.Output.Recording
import ControlVoltage.Output.Trace
import ControlVoltage.Session.Basic

/-!
# Rendering

Ticks run at once, without waiting for time to pass, into a sink, a recording or the text of a
trace. Rendering needs the real-time half to be here.
-/

namespace ControlVoltage.Session

/-- Runs a number of ticks into a sink. -/
def render {σ : Type} [Sink σ] (s : Session) (ticks : Nat) (out : σ) :
    Except SessionError (Session × σ) :=
  if s.realtime = .here then .ok (pulses ticks s out) else .error .running

/-- Runs a number of ticks into a recording that has room for all of them. -/
def renderFrames (s : Session) (ticks : Nat) : Except SessionError (Session × Recording) :=
  s.render ticks (.empty ticks)

/-- The ticks that a number of seconds lasts. -/
def ticks (s : Session) (seconds : Float32) : Nat := (s.engine.rate.ticks seconds).toNat

/-- Renders a number of seconds as the text of a trace. -/
def renderTrace (s : Session) (seconds : Float32) : Except SessionError (Session × String) := do
  let (s, recording) ← s.renderFrames (s.ticks seconds)
  return (s, Trace.text s.engine.rate recording.frames)

end ControlVoltage.Session

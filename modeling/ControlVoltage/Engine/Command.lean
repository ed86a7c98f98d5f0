import ControlVoltage.Engine.CommandError
import ControlVoltage.Signal.Quantizer

/-!
# Commands

What the engine can be told to do, as data, and what it answers. A handler answers an input event
with a script: commands of which each may depend on the results of those before it.
-/

namespace ControlVoltage

/-- The ways to trigger a channel. -/
inductive Action where
  /-- Leaves the held block that the channel is in. -/
  | release
  /-- Starts from the top. -/
  | restart
  /-- Ends the guard of the locked block that the channel is in. -/
  | unlock
deriving DecidableEq, Repr

namespace Action

def name : Action → String
  | .release => "Release"
  | .restart => "Restart"
  | .unlock => "Unlock"

/-- The action with a number. -/
def ofNumber : Nat → Except CommandError Action
  | 0 => .ok .release
  | 1 => .ok .restart
  | 2 => .ok .unlock
  | n => .error (.unknownAction n)

end Action

/-- Who runs the commands: the host, which may wait for a lock, or the real-time side, which may
not. -/
inductive Context where
  | cooperative
  | realtime
deriving DecidableEq, Repr

/-- A command to the engine. -/
inductive Command where
  | install (c : Channel) (score : List Score.Node)
  | clear (c : Channel)
  | trigger (c : Channel) (action : Action)
  /-- A trigger by the number of its action. -/
  | action (c : Channel) (number : Nat)
  | setVolts (c : Channel) (volts : Float32)
  | setSlew (c : Channel) (seconds : Float32) (curve : Curve)
  | slew (c : Channel)
  | setQuantizer (c : Channel) (quantizer : Quantizer)
  /-- Snaps to a scale with the given degrees. -/
  | setScale (c : Channel) (degrees : Array Float32) (modulo scaling : Option Float32)
  | quantizer (c : Channel)
  | getCell (c : Channel) (name : String)
  | setCell (c : Channel) (name : String) (value : Float32)
  | voltage (c : Channel)
  | written (c : Channel)
  | service
  | pollEvent
  | drainEvents
  | context
  | rate

/-- What a command answers. -/
inductive Answer where
  | nothing
  | number (x : Float32)
  | slew (seconds : Float32) (curve : Curve)
  | quantizer (q : Quantizer)
  | count (n : Nat)
  | event (c : Option Channel)
  | events (cs : List Channel)
  | context (context : Context)
  | rate (rate : Rate)

/-! ## Input events -/

/-- What happened at an input. -/
inductive EventKind where
  | rising
  | falling
  /-- A reading in volts. -/
  | level (volts : Float32)
deriving DecidableEq

/-- A change at an input; inputs are counted from zero. -/
structure InputEvent where
  input : Nat
  kind : EventKind
deriving DecidableEq

/-! ## Handlers -/

/-- What a handler does: commands, each chosen with the result of the one before it in view, and
the result of the handler in the end. -/
inductive Script where
  | finish (result : Except CommandError Unit)
  | perform (command : Command) (next : Except CommandError Answer → Script)

/-- The script that runs commands in order and ends with the first error. An entry may also be an
error that there was before any command. -/
def Script.inOrder : List (Except CommandError Command) → Script
  | [] => .finish (.ok ())
  | .error error :: _ => .finish (.error error)
  | .ok command :: rest =>
    .perform command fun
      | .ok _ => inOrder rest
      | .error error => .finish (.error error)

/-- What to do on an event. -/
abbrev Handler := InputEvent → Script

end ControlVoltage

import ControlVoltage.Player
import ControlVoltage.Signal.Channel

/-!
# Command errors

Why a command to the engine fails, and the wording of each failure.
-/

namespace ControlVoltage

/-- Why a command fails. -/
inductive CommandError where
  /-- A setting of the command is refused. -/
  | setup (error : SetupError)
  | invalidChannel (number : Nat)
  | invalidInput (number : Nat)
  | unknownAction (number : Nat)
  | noProgram (channel : Channel)
  | unknownCell (name : String)
  /-- A lock was held on the real-time side, and the command was given up. -/
  | contention
  | corrupt (fault : Corruption)
deriving DecidableEq

/-- The wording of a command error. -/
def CommandError.message : CommandError → String
  | .setup error => error.message
  | .invalidChannel n => s!"no output channel numbered {n}"
  | .invalidInput n => s!"no input numbered {n}"
  | .unknownAction n => s!"unknown action {n}"
  | .noProgram c => s!"no sequence installed on {c.label}"
  | .unknownCell name => s!"no dynamic named `{name}` on this channel"
  | .contention => "shared state busy, operation skipped"
  | .corrupt fault => s!"corrupt interpreter state: {fault.message}"

/-- The output with a panel number. -/
def Channel.ofNumber (n : Nat) : Except CommandError Channel :=
  match Channel.ofNumber? n with
  | some c => .ok c
  | none => .error (.invalidChannel n)

end ControlVoltage

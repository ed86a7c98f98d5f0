import ControlVoltage.Engine.CommandError
import ControlVoltage.Output.DeviceError

/-!
# Session errors

Why a session cannot be set up or cannot do what it is asked, and the wording of each reason.
-/

namespace ControlVoltage

/-- What is wrong with a boot configuration that can be read and whose parts are all right. -/
inductive BootFault where
  | channelTwice (c : Channel)
  | unknownScale (name : String)
  | undeclaredCell (c : Channel) (name : String)
  | cellsWithoutScore (c : Channel)
  | startWithoutScore (c : Channel)
  /-- Inputs are numbered from one in a boot configuration. -/
  | inputTwice (number : Nat)
  | clockNotPositive (number : Nat)
deriving DecidableEq, Repr

def BootFault.message : BootFault → String
  | .channelTwice c => s!"{c.label} configured twice"
  | .unknownScale name => s!"unknown scale `{name}`"
  | .undeclaredCell c name => s!"{c.label}: dynamic `{name}` is not declared by its sequence"
  | .cellsWithoutScore c => s!"{c.label}: dynamics given without a sequence"
  | .startWithoutScore c => s!"{c.label}: start without a sequence"
  | .inputTwice n => s!"input {n} configured twice"
  | .clockNotPositive n => s!"input {n}: clock period must be positive"

/-- Why a session fails. -/
inductive SessionError where
  /-- A file cannot be read or written. -/
  | file (path reason : String)
  /-- A boot configuration is no document, or not of the right form. -/
  | unreadable
  | boot (fault : BootFault)
  | setup (error : SetupError)
  | command (error : CommandError)
  | device (error : DeviceError)
  /-- The real-time half is away. -/
  | running
  /-- The real-time half was lost with its thread. -/
  | threadLost
deriving DecidableEq

def SessionError.message : SessionError → String
  | .file path reason => s!"failed to read {path}: {reason}"
  | .unreadable => "failed to parse boot config"
  | .boot fault => s!"invalid boot config: {fault.message}"
  | .setup error => error.message
  | .command error => error.message
  | .device error => error.message
  | .running => "real-time thread is running"
  | .threadLost => "real-time thread panicked"

end ControlVoltage

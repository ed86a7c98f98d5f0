/-!
# Device errors

Why an output device cannot be used, and the wording of each reason.
-/

namespace ControlVoltage

/-- Why an output device cannot be used. -/
inductive DeviceError where
  | init (reason : String)
  | stream (reason : String)
  | playback (reason : String)
  | absent
  | tooFewChannels (count : Nat)
deriving DecidableEq, Repr

def DeviceError.message : DeviceError → String
  | .init reason => s!"device init error: {reason}"
  | .stream reason => s!"stream create error: {reason}"
  | .playback reason => s!"playback error: {reason}"
  | .absent => "no output device available"
  | .tooFewChannels count => s!"device has {count} channel(s), at least one is required"

end ControlVoltage

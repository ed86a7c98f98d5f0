import ControlVoltage.Single.Shortest

/-!
# Setup errors

Why a sequence, a scale or an engine setting is refused before it is installed, and the wording of
each refusal. Numbers inside a message are written with the fewest digits.
-/

namespace ControlVoltage

/-- How a sequence can be nested wrongly. -/
inductive NestingFault where
  | loopWithoutStep
  | heldInHeld
  | lockInLock
  | timesZero
deriving DecidableEq, Repr

/-- The wording of a nesting fault. -/
def NestingFault.message : NestingFault → String
  | .loopWithoutStep => "loop body has no steps"
  | .heldInHeld => "held inside held"
  | .lockInLock => "lock inside lock"
  | .timesZero => "times count must be positive"

/-- Why a setting is refused. A refused setting leaves what is installed as it was. -/
inductive SetupError where
  | negativeDuration (seconds : Float32)
  | unknownCurve (tag : String)
  | unknownOperator (name : String)
  | arity (name : String) (expected got : Nat)
  | nonFinite
  | nesting (fault : NestingFault)
  | tooDeep (limit : Nat)
  | tooManyBlocks (limit : Nat)
  | mutateTarget
  | unknownCell (name : String)
  | tooManyCells (limit : Nat)
  | emptyScale
  | scaleTooLong (limit : Nat)
  | malformedScale
  | nonPositiveModulo (value : Float32)
  | nonPositiveScaling (value : Float32)
  | invalidRange (min max : Float32)
  | invalidRate
deriving DecidableEq

/-- The wording of a setup error. -/
def SetupError.message : SetupError → String
  | .negativeDuration s => s!"duration must not be negative (got {Single.text s})"
  | .unknownCurve tag => s!"unknown shape `{tag}`"
  | .unknownOperator name => s!"unknown operator `{name}`"
  | .arity name expected got => s!"operator `{name}` takes {expected} argument(s), got {got}"
  | .nonFinite => "value is not finite"
  | .nesting fault => s!"malformed sequence: {fault.message}"
  | .tooDeep limit => s!"sequence nests deeper than {limit} levels"
  | .tooManyBlocks limit => s!"sequence has more than {limit} blocks"
  | .mutateTarget => "`mutate` must target a dynamic"
  | .unknownCell name => s!"unknown dynamic `{name}`"
  | .tooManyCells limit => s!"more than {limit} dynamics declared"
  | .emptyScale => "scale table is empty"
  | .scaleTooLong limit => s!"scale table has more than {limit} degrees"
  | .malformedScale => "scale degrees must be finite and non-decreasing"
  | .nonPositiveModulo x => s!"scale modulo must be positive (got {Single.text x})"
  | .nonPositiveScaling x => s!"scale scaling must be positive (got {Single.text x})"
  | .invalidRange lo hi => s!"invalid output range {Single.text lo}..{Single.text hi}"
  | .invalidRate => "tick rate must be positive"

end ControlVoltage

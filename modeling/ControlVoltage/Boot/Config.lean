import ControlVoltage.Clock
import ControlVoltage.Engine.State
import ControlVoltage.Session.SessionError

/-!
# Boot configurations

* `Boot.Config` : a configuration as it is written down, with numbers and tags not yet checked.
* `Boot.Plan` : what it comes to, with every channel, curve, scale and program resolved.
* `Config.plan` : the check. Faults are looked for in document order, rate and range first, and
  the first one found is reported.
-/

namespace ControlVoltage.Boot

/-- A scale as it is written down. -/
inductive ScaleSetting where
  | named (name : String)
  | custom (degrees : Array Float32) (modulo scaling : Option Float32)

/-- The edges of an input that fire its triggers. -/
inductive Edge where
  | rising
  | falling
  | both
deriving DecidableEq, Repr

/-- One output, as it is written down. -/
structure ChannelConfig where
  /-- The panel number. -/
  index : Nat
  slew : Float32
  curve : String
  scale : Option ScaleSetting
  score : Option (List Score.Node)
  /-- Values for cells that the score declares, in order of their names. -/
  cells : List (String × Float32)
  volts : Option Float32
  start : Bool

/-- One trigger of an input: a panel number and the number of an action. -/
structure TriggerConfig where
  channel : Nat
  action : Nat
deriving DecidableEq, Repr

/-- One input, as it is written down. -/
structure InputConfig where
  /-- The number of the input, counted from one. -/
  index : Nat
  /-- The period of a clock that drives the input, in seconds. -/
  clock : Option Float32
  edge : Edge
  triggers : List TriggerConfig

/-- A configuration, as it is written down. -/
structure Config where
  hz : UInt32
  min : Float32
  max : Float32
  channels : List ChannelConfig
  inputs : List InputConfig

/-- The configuration when nothing is written down. -/
def Config.standard : Config :=
  { hz := Rate.standard.hz, min := Range.standard.min, max := Range.standard.max,
    channels := [], inputs := [] }

/-! ## Resolved configurations -/

/-- One output to set up. -/
structure ChannelPlan where
  channel : Channel
  slew : Float32
  curve : Curve
  quantizer : Option Quantizer
  program : Option Program
  cells : List (String × Float32)
  volts : Option Float32
  start : Bool

/-- One input to set up, counted from zero. -/
structure InputPlan where
  input : Nat
  clock : Option Float32
  edge : Edge
  triggers : List (Channel × Action)

/-- What a configuration comes to. -/
structure Plan where
  rate : Rate
  range : Range
  channels : List ChannelPlan
  inputs : List InputPlan

/-- Whether an event is one of these edges. -/
def Edge.fires : Edge → EventKind → Bool
  | .rising, .rising => true
  | .falling, .falling => true
  | .both, .rising => true
  | .both, .falling => true
  | _, _ => false

/-- The handler of an input: all triggers in order, when the event is one of its edges. -/
def InputPlan.handler (plan : InputPlan) : Handler := fun event =>
  if plan.edge.fires event.kind then
    .inOrder (plan.triggers.map fun (c, action) => .ok (.trigger c action))
  else .finish (.ok ())

/-! ## The check -/

/-- The quantizer of a scale setting. Names are compared without regard to ASCII case. -/
def ScaleSetting.resolve : ScaleSetting → Except SessionError Quantizer
  | .named name =>
    match name.toLower with
    | "chromatic" => .ok .chromatic
    | "none" => .ok .off
    | "off" => .ok .off
    | other => .error (.boot (.unknownScale other))
  | .custom degrees modulo scaling =>
    (Quantizer.ofDegrees degrees modulo scaling).mapError .setup

/-- A duration for moves to a set voltage. -/
def checkSlew (seconds : Float32) : Except SetupError Unit :=
  if !seconds.isFinite then .error .nonFinite
  else if seconds < 0 then .error (.negativeDuration seconds)
  else .ok ()

/-- Every cell that gets a value has to be declared by the program, and without a program there
must be none. -/
def checkCells (c : Channel) (program : Option Program) (cells : List (String × Float32)) :
    Except BootFault Unit :=
  match program with
  | none => if cells.isEmpty then .ok () else .error (.cellsWithoutScore c)
  | some program =>
    match cells.find? fun cell => (program.cells.find? cell.1).isNone with
    | none => .ok ()
    | some (name, _) => .error (.undeclaredCell c name)

/-- Checks one output; `seen` has the outputs before it. -/
def ChannelConfig.plan (config : ChannelConfig) (seen : List Channel) :
    Except SessionError ChannelPlan := do
  let channel ← (Channel.ofNumber config.index).mapError .command
  if seen.contains channel then throw (.boot (.channelTwice channel))
  (checkSlew config.slew).mapError .setup
  let curve ← (Curve.parse config.curve).mapError .setup
  let quantizer ← config.scale.mapM ScaleSetting.resolve
  let program ← config.score.mapM fun score => (Program.compile score).mapError .setup
  (checkCells channel program config.cells).mapError .boot
  if config.start && program.isNone then throw (.boot (.startWithoutScore channel))
  return { channel, slew := config.slew, curve, quantizer, program, cells := config.cells,
           volts := config.volts, start := config.start }

/-- The channel and the action of a trigger. -/
def TriggerConfig.resolve (config : TriggerConfig) : Except CommandError (Channel × Action) := do
  let c ← Channel.ofNumber config.channel
  let action ← Action.ofNumber config.action
  return (c, action)

/-- Checks one input; `seen` has the inputs before it. -/
def InputConfig.plan (config : InputConfig) (seen : List Nat) : Except SessionError InputPlan := do
  if config.index = 0 || 2 < config.index then
    throw (.command (.invalidInput config.index))
  if seen.contains config.index then throw (.boot (.inputTwice config.index))
  if config.clock.any fun period => !period.isFinite || period ≤ 0 then
    throw (.boot (.clockNotPositive config.index))
  let triggers ← (config.triggers.mapM TriggerConfig.resolve).mapError .command
  return { input := config.index - 1, clock := config.clock, edge := config.edge, triggers }

/-- Checks outputs in order. -/
def planChannels (seen : List Channel) : List ChannelConfig → Except SessionError (List ChannelPlan)
  | [] => .ok []
  | config :: rest => do
    let plan ← config.plan seen
    let plans ← planChannels (plan.channel :: seen) rest
    return plan :: plans

/-- Checks inputs in order. -/
def planInputs (seen : List Nat) : List InputConfig → Except SessionError (List InputPlan)
  | [] => .ok []
  | config :: rest => do
    let plan ← config.plan seen
    let plans ← planInputs (config.index :: seen) rest
    return plan :: plans

/-- Checks a configuration. -/
def Config.plan (config : Config) : Except SessionError Plan := do
  let rate ← (Rate.ofHz config.hz).mapError .setup
  let range ← (Range.ofBounds config.min config.max).mapError .setup
  let channels ← planChannels [] config.channels
  let inputs ← planInputs [] config.inputs
  return { rate, range, channels, inputs }

end ControlVoltage.Boot

import ControlVoltage.Boot.Config
import ControlVoltage.Engine.Input
import ControlVoltage.Engine.Tick

/-!
# Sessions

A session is an engine with the sources that feed its inputs. Its real-time half, which ticks, is
either here or away on a thread of its own.

* `Session.pulse` : one tick: the sources are polled in order, then every channel is written.
* `Session.service` : the host's share of the work between ticks.
* `Session.ofPlan` : the session that a checked boot configuration describes.
-/

namespace ControlVoltage

/-- How the thread of the real-time half is doing. -/
inductive Thread where
  | ticking
  /-- It ended because its device failed. -/
  | failed (error : DeviceError)
  /-- It broke down and took the real-time half with it. -/
  | crashed
deriving DecidableEq

/-- Where the real-time half is. -/
inductive Whereabouts where
  | here
  | away (thread : Thread)
  /-- It went down with its thread. -/
  | lost
deriving DecidableEq

/-- An engine, the sources of its inputs, and where its real-time half is. -/
structure Session where
  engine : Engine
  sources : List Source
  realtime : Whereabouts

namespace Session

/-- How many notices are kept for the host when nothing else is said. -/
def noticeCapacity : Nat := 256

/-- A session with nothing installed; there is room for one notice at least. -/
def fresh (rate : Rate) (range : Range) (noticeCapacity : Nat) (f : Transcendental := .standard) :
    Session :=
  ⟨.fresh rate range (max noticeCapacity 1) f, [], .here⟩

/-- Adds a source. Sources belong to the real-time half, so that it has to be here. -/
def addSource (s : Session) (source : Source) : Except SessionError Session :=
  if s.realtime = .here then .ok { s with sources := s.sources ++ [source] } else .error .running

/-- Adds a clock on an input. -/
def addClock (s : Session) (input : Nat) (period : Float32) : Except SessionError Session :=
  s.addSource (.clock (.ofSeconds input period s.engine.rate))

/-! ## Ticks -/

/-- Polls sources in order and delivers what they give. The host may hold channel locks, and while
it is busy with the engine every event is dropped. -/
def pollSources (locks : Locks) (busy : Bool) (e : Engine) : List Source → Engine × List Source
  | [] => (e, [])
  | source :: rest =>
    let (event, source) := source.poll
    let e :=
      match event with
      | none => e
      | some event => (e.deliver locks busy event).2.2
    let (e, rest) := pollSources locks busy e rest
    (e, source :: rest)

/-- Resumes what can go on and takes the notices; gives the number of channels resumed. -/
def service (s : Session) : Nat × Session :=
  let (n, e) := s.engine.service .free
  (n, { s with engine := e.drainNotices.2 })

variable {σ : Type} [Sink σ]

/-- One tick of the real-time half, whatever the host holds meanwhile. -/
def pulse (s : Session) (locks : Locks) (busy : Bool) (out : σ) : Session × σ :=
  let (e, sources) := pollSources locks busy s.engine s.sources
  let (e, out) := e.tick locks out
  ({ s with engine := e, sources }, out)

/-- Ticks with a service after each, and nothing held. -/
def pulses : (ticks : Nat) → Session → σ → Session × σ
  | 0, s, out => (s, out)
  | n + 1, s, out =>
    let (s, out) := s.pulse .free false out
    pulses n s.service.2 out

/-! ## Setting up -/

/-- What a command leaves behind, as long as it succeeds. -/
def settle : Except CommandError Unit × Engine → Except SessionError Engine
  | (.ok (), e) => .ok e
  | (.error error, _) => .error (.command error)

/-- Installs a planned program with the values of its cells, and starts it if it is to start. -/
def loadProgram (e : Engine) (plan : Boot.ChannelPlan) (program : Program) :
    Except SessionError Engine := do
  let e ← plan.cells.foldlM (fun e (name, x) => settle (e.setCell plan.channel name x))
    (e.install plan.channel program)
  if plan.start then settle (e.trigger .free plan.channel .restart) else .ok e

/-- Brings a channel to its plan. A set voltage comes before the program, which replaces it. -/
def setupChannel (e : Engine) (plan : Boot.ChannelPlan) : Except SessionError Engine := do
  let e ← settle (e.setSlew plan.channel plan.slew plan.curve)
  let e ←
    match plan.quantizer with
    | none => .ok e
    | some q => settle (e.setQuantizer .free plan.channel q)
  let e ←
    match plan.volts with
    | none => .ok e
    | some volts => settle (e.setVolts .free plan.channel volts)
  match plan.program with
  | none => .ok e
  | some program => loadProgram e plan program

/-- Brings an input to its plan: its handler, and the clock that drives it. -/
def setupInput (s : Session) (plan : Boot.InputPlan) : Except SessionError Session := do
  let e ← settle (s.engine.setHandler plan.input (some plan.handler))
  let s := { s with engine := e }
  match plan.clock with
  | none => .ok s
  | some period => s.addClock plan.input period

/-- The session that a plan describes: all outputs in order, then all inputs. -/
def ofPlan (plan : Boot.Plan) (f : Transcendental := .standard) : Except SessionError Session := do
  let s := fresh plan.rate plan.range noticeCapacity f
  let e ← plan.channels.foldlM setupChannel s.engine
  plan.inputs.foldlM setupInput { s with engine := e }

/-- The session that a configuration describes, if it passes the check. -/
def ofConfig (config : Boot.Config) (f : Transcendental := .standard) :
    Except SessionError Session := do
  ofPlan (← config.plan) f

end Session

end ControlVoltage

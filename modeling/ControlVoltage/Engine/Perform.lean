import ControlVoltage.Engine.State

/-!
# Performing commands

Each command as a function on the engine, and `perform`, which runs a command given as data. The
result comes with the engine after it, also when the command fails: what a command did before it
failed stays done.
-/

namespace ControlVoltage.Engine

/-! ## Programs -/

/-- Replaces a channel's program. The new one does not run until it is triggered, and a segment in
flight goes on to its target. -/
def install (e : Engine) (c : Channel) (program : Program) : Engine :=
  e.setVoice c { e.voice c with player := some (.load program) }

/-- Compiles a score and installs it. A refused score leaves the program in place. -/
def installScore (e : Engine) (c : Channel) (score : List Score.Node) :
    Except CommandError Unit × Engine :=
  match Program.compile score with
  | .error error => (.error (.setup error), e)
  | .ok program => (.ok (), e.install c program)

/-- Removes a channel's program and stays on the present voltage. -/
def clear (e : Engine) (locks : Locks) (c : Channel) : Except CommandError Unit × Engine :=
  match e.acquire? locks c with
  | none => (.error .contention, e)
  | some e =>
    let v := e.voice c
    (.ok (), e.setVoice c { v with ramp := v.ramp.hold, player := none })

/-- Remembers that a walk has ended. -/
def noteProgress (e : Engine) (c : Channel) : Player.Progress → Engine
  | .done => { e with events := e.events.pushEvicting c }
  | _ => e

/-- Walks a channel's player on from where `p` stands. -/
def advance (e : Engine) (c : Channel) (p : Player) (ramp : Ramp) :
    Except Corruption Player.Progress × Engine :=
  let (result, p, ramp) := p.advance e.rate e.range ramp
  (result, e.setVoice c { e.voice c with player := some p, ramp })

/-- What a trigger comes to before any lock is taken. -/
inductive Response where
  | unlock
  /-- The trigger has no effect. -/
  | ignore
  | walk
deriving DecidableEq

/-- A locked player only listens to an unlocking, and only a holding one to a release. -/
def respond (p : Player) : Action → Response
  | .unlock => .unlock
  | .restart => if p.locked then .ignore else .walk
  | .release => if p.locked || !p.holding then .ignore else .walk

/-- The player from which the walk goes on after a trigger. -/
def triggered (p : Player) : Action → Player
  | .restart => p.restart
  | _ => p.release

/-- Triggers a channel. -/
def trigger (e : Engine) (locks : Locks) (c : Channel) (action : Action) :
    Except CommandError Unit × Engine :=
  match (e.voice c).player with
  | none => (.error (.noProgram c), e)
  | some p =>
    match respond p action with
    | .unlock =>
      (.ok (), e.setVoice c { e.voice c with player := some { p with locked := false } })
    | .ignore => (.ok (), e)
    | .walk =>
      match e.acquire? locks c with
      | none => (.error .contention, e)
      | some e =>
        match e.advance c (triggered p action) (e.voice c).ramp.hold with
        | (.error fault, e) => (.error (.corrupt fault), e)
        | (.ok progress, e) => (.ok (), e.noteProgress c progress)

/-- Triggers a channel by the number of an action. -/
def action (e : Engine) (locks : Locks) (c : Channel) (number : Nat) :
    Except CommandError Unit × Engine :=
  match Action.ofNumber number with
  | .error error => (.error error, e)
  | .ok a => e.trigger locks c a

/-- Resumes one channel if the segment it waits for has reached its target, and says whether it
did. A walk that turns out corrupt loses its program. -/
def resume (e : Engine) (locks : Locks) (c : Channel) : Bool × Engine :=
  match (e.voice c).player with
  | none => (false, e)
  | some p =>
    if p.awaiting = some (e.voice c).completed then
      match e.acquire? locks c with
      | none => (false, e)
      | some e =>
        match e.advance c p (e.voice c).ramp with
        | (.error _, e) => (true, e.setVoice c { e.voice c with player := none })
        | (.ok progress, e) => (true, e.noteProgress c progress)
    else (false, e)

/-- Resumes every channel whose segment has reached its target, and counts them. -/
def service (e : Engine) (locks : Locks) : Nat × Engine :=
  Channel.all.foldl
    (fun (n, e) c =>
      let (resumed, e) := e.resume locks c
      (if resumed then n + 1 else n, e))
    (0, e)

/-- Takes the oldest ended program from the queue. -/
def pollEvent (e : Engine) : Option Channel × Engine :=
  match e.events.pop? with
  | none => (none, e)
  | some (c, events) => (some c, { e with events })

/-- Takes all ended programs from the queue. -/
def drainEvents (e : Engine) : List Channel × Engine :=
  (e.events.items, { e with events := e.events.clear })

/-! ## Direct voltages -/

/-- Sets how moves to a set voltage are made. -/
def setSlew (e : Engine) (c : Channel) (seconds : Float32) (curve : Curve) :
    Except CommandError Unit × Engine :=
  if !seconds.isFinite then (.error (.setup .nonFinite), e)
  else if seconds < 0 then (.error (.setup (.negativeDuration seconds)), e)
  else (.ok (), e.setVoice c { e.voice c with slew := seconds, slewCurve := curve })

/-- Moves to a voltage in the channel's slew time, in place of its program. -/
def setVolts (e : Engine) (locks : Locks) (c : Channel) (volts : Float32) :
    Except CommandError Unit × Engine :=
  match Program.single volts (e.voice c).slew (e.voice c).slewCurve with
  | .error error => (.error (.setup error), e)
  | .ok program => (e.install c program).trigger locks c .restart

/-- The present voltage, before it is quantized. -/
def voltage (e : Engine) (locks : Locks) (c : Channel) : Except CommandError Float32 × Engine :=
  match e.acquire? locks c with
  | none => (.error .contention, e)
  | some e => (.ok (e.voice c).ramp.current, e)

/-! ## Quantizers -/

def setQuantizer (e : Engine) (locks : Locks) (c : Channel) (quantizer : Quantizer) :
    Except CommandError Unit × Engine :=
  match e.acquire? locks c with
  | none => (.error .contention, e)
  | some e => (.ok (), e.setVoice c { e.voice c with quantizer })

/-- Snaps a channel to the scale with the given degrees. -/
def setScale (e : Engine) (locks : Locks) (c : Channel) (degrees : Array Float32)
    (modulo scaling : Option Float32) : Except CommandError Unit × Engine :=
  match Quantizer.ofDegrees degrees modulo scaling with
  | .error error => (.error (.setup error), e)
  | .ok quantizer => e.setQuantizer locks c quantizer

def quantizer (e : Engine) (locks : Locks) (c : Channel) :
    Except CommandError Quantizer × Engine :=
  match e.acquire? locks c with
  | none => (.error .contention, e)
  | some e => (.ok (e.voice c).quantizer, e)

/-! ## Cells -/

/-- The value of a cell of the channel's program. -/
def getCell (e : Engine) (c : Channel) (name : String) : Except CommandError Float32 :=
  match (e.voice c).player with
  | none => .error (.noProgram c)
  | some p =>
    match p.cells.valueOf? name with
    | none => .error (.unknownCell name)
    | some x => .ok x

/-- Sets a cell of the channel's program. -/
def setCell (e : Engine) (c : Channel) (name : String) (value : Float32) :
    Except CommandError Unit × Engine :=
  if !value.isFinite then (.error (.setup .nonFinite), e)
  else
    match (e.voice c).player with
    | none => (.error (.noProgram c), e)
    | some p =>
      match p.cells.setNamed? name value with
      | none => (.error (.unknownCell name), e)
      | some cells => (.ok (), e.setVoice c { e.voice c with player := some { p with cells } })

/-! ## Commands as data -/

/-- Runs a command. -/
def perform (e : Engine) (locks : Locks) : Command → Except CommandError Answer × Engine
  | .install c score => answer (e.installScore c score)
  | .clear c => answer (e.clear locks c)
  | .trigger c a => answer (e.trigger locks c a)
  | .action c n => answer (e.action locks c n)
  | .setVolts c x => answer (e.setVolts locks c x)
  | .setSlew c seconds curve => answer (e.setSlew c seconds curve)
  | .slew c => (.ok (.slew (e.voice c).slew (e.voice c).slewCurve), e)
  | .setQuantizer c q => answer (e.setQuantizer locks c q)
  | .setScale c degrees modulo scaling => answer (e.setScale locks c degrees modulo scaling)
  | .quantizer c => ((e.quantizer locks c).1.map .quantizer, (e.quantizer locks c).2)
  | .getCell c name => ((e.getCell c name).map .number, e)
  | .setCell c name x => answer (e.setCell c name x)
  | .voltage c => ((e.voltage locks c).1.map .number, (e.voltage locks c).2)
  | .written c => (.ok (.number (e.voice c).written), e)
  | .service => (.ok (.count (e.service locks).1), (e.service locks).2)
  | .pollEvent => (.ok (.event e.pollEvent.1), e.pollEvent.2)
  | .drainEvents => (.ok (.events e.drainEvents.1), e.drainEvents.2)
  | .context => (.ok (.context e.context), e)
  | .rate => (.ok (.rate e.rate), e)
where
  answer (r : Except CommandError Unit × Engine) : Except CommandError Answer × Engine :=
    (r.1.map fun _ => .nothing, r.2)

/-- Runs a script. The answers of the commands that succeeded come with its result. -/
def runScript (e : Engine) (locks : Locks) :
    Script → Except CommandError Unit × List Answer × Engine
  | .finish result => (result, [], e)
  | .perform command next =>
    let (outcome, e) := e.perform locks command
    let (result, answers, e) := e.runScript locks (next outcome)
    match outcome with
    | .ok answer => (result, answer :: answers, e)
    | .error _ => (result, answers, e)

end ControlVoltage.Engine

import ControlVoltage.CommandLine.Manual
import ControlVoltage.Single.Decimal

/-!
# Requests

What a command line asks for. Arguments are looked at in order: the first that is wrong makes the
whole line wrong, unless help has been asked for before it.
-/

namespace ControlVoltage.CommandLine

/-- Work on a boot configuration. -/
inductive Job where
  | check (config : String)
  | render (config : String) (seconds : Float32) (out : Option String)
  /-- Runs until the limit in seconds, or for ever. -/
  | run (config : String) (limit : Option Float32) (trace : Option String)

/-- A request. -/
inductive Request where
  | help (topic : Topic)
  | version
  | job (verbose json : Bool) (job : Job)

/-- What has been said so far. -/
structure Said where
  settings : List (String × String)
  operands : List String

namespace Said

def nothing : Said := ⟨[], []⟩

def has (said : Said) (s : Setting) : Bool := said.settings.any fun entry => entry.1 = s.name

def valueOf? (said : Said) (s : Setting) : Option String :=
  (said.settings.find? fun entry => entry.1 = s.name).map (·.2)

end Said

/-- Whether a text may be the value of a setting. -/
def checkValue (kind : ValueKind) (text : String) : Except UsageError Unit :=
  match kind with
  | .none => .ok ()
  | .number _ => if (readSingle? text).isSome then .ok () else .error (.notANumber text)
  | .path _ => if text.isEmpty then .error .emptyPath else .ok ()

/-- Why reading a command line ends before its last argument. -/
inductive Interruption where
  | wrong (error : UsageError)
  | help
  | version

/-- Adds one thing to what has been said. -/
def Said.add (said : Said) (operands : Nat) : Item → Except Interruption Said
  | .setting s value =>
    if s = helpSetting then .error .help
    else if s = versionSetting then .error .version
    else
      match checkValue s.value value with
      | .error error => .error (.wrong error)
      | .ok () =>
        if said.has s then .error (.wrong (.repeatedSetting s.name))
        else .ok { said with settings := said.settings ++ [(s.name, value)] }
  | .operand text =>
    if operands ≤ said.operands.length then .error (.wrong (.operandUnexpected text))
    else if text.isEmpty then .error (.wrong .emptyPath)
    else .ok { said with operands := said.operands ++ [text] }

/-- Reads the items of a command line; at most `operands` of them may be operands. -/
def listen (operands : Nat) (said : Said) : List (Except UsageError Item) →
    Except Interruption Said
  | [] => .ok said
  | .error error :: _ => .error (.wrong error)
  | .ok item :: rest =>
    match said.add operands item with
    | .error interruption => .error interruption
    | .ok said => listen operands said rest

/-- The job of a command with what has been said. -/
def Verb.job (v : Verb) (said : Said) : Except UsageError Job :=
  match said.operands with
  | [] => .error .operandMissing
  | config :: _ =>
    match v with
    | .check => .ok (.check config)
    | .render =>
      let seconds := (said.valueOf? lengthSetting).bind readSingle?
      .ok (.render config (seconds.getD defaultLength) (said.valueOf? outSetting))
    | .run =>
      let limit := (said.valueOf? limitSetting).bind readSingle?
      .ok (.run config limit (said.valueOf? traceSetting))

/-- The topic that the arguments of the help command name. -/
def helpTopic : List String → Except UsageError Topic
  | [] => .ok .program
  | [name] =>
    match Verb.ofName? name with
    | some v => .ok (.verb v)
    | none => if name = "help" then .ok .help else .error (.unknownCommand name)
  | name :: extra :: _ =>
    if (Verb.ofName? name).isSome || name = "help" then .error (.unknownCommand extra)
    else .error (.unknownCommand name)

/-- The request of a command and its arguments. -/
def requestOf (said : Said) (name : String) (args : List String) : Except UsageError Request :=
  match Verb.ofName? name with
  | some v =>
    match listen 1 .nothing (scan v.settings args) with
    | .error (.wrong error) => .error error
    | .error .help => .ok (.help (.verb v))
    | .error .version => .ok .version
    | .ok inner =>
      (v.job inner).map (.job (said.has verboseSetting) (said.has jsonSetting))
  | none =>
    if name = "help" then (helpTopic args).map .help else .error (.unknownCommand name)

/-- Reads a command line: settings, then the name of a command, then its arguments. -/
def Request.parse (args : List String) : Except UsageError Request :=
  let general := args.takeWhile looksLikeSetting
  match listen 0 .nothing (scan generalSettings general) with
  | .error (.wrong error) => .error error
  | .error .help => .ok (.help .program)
  | .error .version => .ok .version
  | .ok said =>
    match args.dropWhile looksLikeSetting with
    | [] => .error .noCommand
    | name :: rest =>
      if general.contains "--" then .error (.operandUnexpected name)
      else requestOf said name rest

end ControlVoltage.CommandLine

import ControlVoltage.CommandLine.Outcome

/-!
# The program

Reads the configuration that a command line names, does the job and exits. Rendering and checking
are those of the library; a live run ticks on its own task until its limit is reached.
-/

namespace ControlVoltage

open CommandLine

/-- Reports an error on the standard error, as plain text or as a line of JSON. -/
def report (json : Bool) (message : String) : IO Unit := do
  let stderr ← IO.getStderr
  if json then
    stderr.putStrLn ("\x7b\"level\":\"ERROR\",\"message\":" ++ message.quote ++ "\x7d")
  else stderr.putStrLn ("error: " ++ message)

/-- The wording of a failure to use a file. -/
def fileReason : IO.Error → String
  | .noFileOrDirectory .. => FileFault.notFound.message
  | error => toString error

/-- Turns a failure to use a file into an error of the session. -/
def onFile {α : Type} (path : String) (action : IO α) : ExceptT SessionError IO α := do
  match ← action.toBaseIO with
  | .ok a => return a
  | .error error => throw (.file path (fileReason error))

/-- The plan of the configuration in a file. -/
def openPlan (path : String) : ExceptT SessionError IO Boot.Plan := do
  let text ← onFile path (IO.FS.readFile path)
  (Boot.Config.ofText text).bind Boot.Config.plan

/-- Writes to a file, if there is one. -/
def writeTo (handle : Option IO.FS.Handle) (text : String) : IO Unit :=
  match handle with
  | none => pure ()
  | some handle => handle.putStr text

/-- Ticks with the clock until the limit in milliseconds, and records every tick. Each deadline is
set from the start, so that delays do not add up. -/
partial def runTicks (limit : Option Nat) (start : Nat) (trace : Option IO.FS.Handle) (tick : Nat)
    (s : Session) : IO Unit := do
  let elapsed := (← IO.monoMsNow) - start
  if limit.any fun limit => limit ≤ elapsed then return
  let (s, frame) := s.pulse .free false Frame.zero
  let s := s.service.2
  writeTo trace (Trace.row s.engine.rate tick frame)
  let due := (tick + 1) * s.engine.rate.periodNanos / 1000000
  let elapsed := (← IO.monoMsNow) - start
  IO.sleep (due - elapsed).toUInt32
  runTicks limit start trace (tick + 1) s

/-- The live run of a session. -/
def runLive (s : Session) (limit : Option Float32) (trace : Option String) :
    ExceptT SessionError IO Status := do
  let handle ←
    match trace with
    | none => pure none
    | some path => some <$> onFile path (IO.FS.Handle.mk path .write)
  writeTo handle Trace.header
  if limit.any fun seconds => endOfTime ≤ seconds then return .breakdown
  -- A rate of one thousand counts milliseconds.
  let milliseconds := limit.map fun seconds => (Rate.ticks ⟨1000, by decide⟩ seconds).toNat
  runTicks milliseconds (← IO.monoMsNow) handle 0 s
  return .success

/-- Does a job. -/
def Job.perform : Job → ExceptT SessionError IO Status
  | .check config => do
    let _ ← openPlan config
    IO.println s!"{config}: ok"
    return .success
  | .render config seconds out => do
    let plan ← openPlan config
    let s ← Session.ofPlan plan
    let (_, text) ← s.renderTrace seconds
    match out with
    | none => IO.print text
    | some path => onFile path (IO.FS.writeFile path text)
    return .success
  | .run config limit trace => do
    let plan ← openPlan config
    let s ← Session.ofPlan plan
    runLive s limit trace

/-- Answers a command line. -/
def answer (args : List String) : IO Status := do
  match Request.parse args with
  | .error error =>
    report false error.message
    return .misuse
  | .ok (.help topic) =>
    IO.print topic.text
    return .success
  | .ok .version =>
    IO.print versionText
    return .success
  | .ok (.job _ json job) =>
    match ← (Job.perform job).run with
    | .ok status => return status
    | .error error =>
      report json error.message
      return .failure

end ControlVoltage

def main (args : List String) : IO UInt32 := do
  return (← ControlVoltage.answer args).code.toUInt32

import ControlVoltage.Boot.Reading
import ControlVoltage.CommandLine.Disk
import ControlVoltage.CommandLine.Request
import ControlVoltage.Session.Render

/-!
# Outcomes

What a command line does to a disk, what it prints and how it exits.

A live run is described by its ideal, in which the two halves of the session keep up with each
other and with the clock. A run without a limit has no outcome.
-/

namespace ControlVoltage.CommandLine

/-- How the program exits. -/
inductive Status where
  | success
  | failure
  /-- The command line is wrong. -/
  | misuse
  /-- The end of the run lies beyond what the clock can count. -/
  | breakdown
deriving DecidableEq, Repr

def Status.code : Status → Nat
  | .success => 0
  | .failure => 1
  | .misuse => 2
  | .breakdown => 101

/-- The end of the program. -/
structure Outcome where
  status : Status
  output : String
  disk : Disk

/-! ## Jobs -/

/-- The configuration in a file. -/
def loadConfig (disk : Disk) (path : String) : Except SessionError Boot.Config :=
  match disk.read path with
  | .error fault => .error (.file path fault.message)
  | .ok text => Boot.Config.ofText text

/-- The checked configuration in a file. -/
def loadPlan (disk : Disk) (path : String) : Except SessionError Boot.Plan := do
  (← loadConfig disk path).plan

/-- The session that the configuration in a file describes. -/
def loadSession (disk : Disk) (path : String) : Except SessionError Session := do
  Session.ofPlan (← loadPlan disk path)

/-- The outcome of a job whose text goes to a path. After a breakdown nobody asks whether there was
space for the text. -/
def Outcome.saved (status : Status) (disk : Disk) (path text : String) :
    Except SessionError Outcome :=
  match disk.write path text with
  | .error fault =>
    if status = .breakdown ∧ fault = .noSpace then .ok ⟨status, "", disk⟩
    else .error (.file path fault.message)
  | .ok (printed, disk) => .ok ⟨status, printed, disk⟩

/-- The first length in seconds that the clock cannot count to. -/
def endOfTime : Float32 := 9223372036854775808

/-- The trace of an ideal live run. -/
def liveTrace (s : Session) (seconds : Float32) : String :=
  let (s, recording) := s.pulses (s.ticks seconds) (Recording.empty (s.ticks seconds))
  ((Recorder.start s.engine.rate).recordAll recording.frames).written

/-- The outcome of a live run with a limit. -/
def runOutcome (disk : Disk) (s : Session) (seconds : Float32) (trace : Option String) :
    Except SessionError Outcome :=
  let status : Status := if endOfTime ≤ seconds then .breakdown else .success
  match trace with
  | none => .ok ⟨status, "", disk⟩
  | some path =>
    let text := if endOfTime ≤ seconds then Trace.header else liveTrace s seconds
    Outcome.saved status disk path text

/-- The outcome of a job; a job without end has none. -/
def Job.outcome? (disk : Disk) : Job → Option (Except SessionError Outcome)
  | .check config => some do
    let _ ← loadPlan disk config
    return ⟨.success, s!"{config}: ok\n", disk⟩
  | .render config seconds out => some do
    let s ← loadSession disk config
    let (_, text) ← s.renderTrace seconds
    match out with
    | none => return ⟨.success, text, disk⟩
    | some path => Outcome.saved .success disk path text
  | .run config limit trace =>
    match loadSession disk config, limit with
    | .error error, _ => some (.error error)
    | .ok s, some seconds => some (runOutcome disk s seconds trace)
    | .ok _, none =>
      match trace.map fun path => Outcome.saved .success disk path Trace.header with
      | some (.error error) => some (.error error)
      | _ => none

/-- The outcome of a command line. -/
def outcome? (disk : Disk) (args : List String) : Option Outcome :=
  match Request.parse args with
  | .error _ => some ⟨.misuse, "", disk⟩
  | .ok (.help topic) => some ⟨.success, topic.text, disk⟩
  | .ok .version => some ⟨.success, versionText, disk⟩
  | .ok (.job _ _ job) =>
    (job.outcome? disk).map fun result =>
      match result with
      | .ok outcome => outcome
      | .error _ => ⟨.failure, "", disk⟩

end ControlVoltage.CommandLine

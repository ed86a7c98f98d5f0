import ControlVoltage.CommandLine.Setting

/-!
# The manual

The commands of the program with their settings, and the help texts that are made from them. A help
text lists commands, operands and settings in two columns.
-/

namespace ControlVoltage.CommandLine

/-- A command of the program. -/
inductive Verb where
  | check
  | render
  | run
deriving DecidableEq, Repr

namespace Verb

def all : List Verb := [.check, .render, .run]

def name : Verb → String
  | .check => "check"
  | .render => "render"
  | .run => "run"

def about : Verb → String
  | .check => "Parse and validate a boot config"
  | .render => "Render a boot config offline to CSV"
  | .run => "Run a boot config on the real-time thread"

def ofName? (name : String) : Option Verb := all.find? fun v => v.name = name

end Verb

/-! ## Settings -/

def helpSetting : Setting := ⟨some 'h', "help", .none, "Print help"⟩

def versionSetting : Setting := ⟨some 'V', "version", .none, "Print version"⟩

def verboseSetting : Setting := ⟨some 'v', "verbose", .none, "Enable debug logging"⟩

def jsonSetting : Setting := ⟨none, "json", .none, "Log as JSON lines"⟩

def outSetting : Setting :=
  ⟨some 'o', "out", .path "OUT", "Output file; stdout when omitted"⟩

def traceSetting : Setting :=
  ⟨none, "csv", .path "CSV", "Record every tick to this CSV file"⟩

/-- How long a rendering is when nothing is said. -/
def defaultLength : Float32 := 1

def lengthSetting : Setting := ⟨some 's', "seconds", .number "SECONDS", "[default: 1]"⟩

def limitSetting : Setting :=
  ⟨some 's', "seconds", .number "SECONDS",
    "Stop after this many seconds; run until killed when omitted"⟩

/-- The settings that stand before the command. -/
def generalSettings : List Setting :=
  [verboseSetting, jsonSetting, helpSetting, versionSetting]

/-- The settings of a command. -/
def Verb.settings : Verb → List Setting
  | .check => [helpSetting]
  | .render => [lengthSetting, outSetting, helpSetting]
  | .run => [limitSetting, traceSetting, helpSetting]

/-! ## Help texts -/

/-- A setting as help texts show it. -/
def Setting.synopsis (s : Setting) : String :=
  let letter :=
    match s.letter with
    | some c => s!"-{c}, "
    | none => "    "
  let value :=
    match s.value with
    | .none => ""
    | .number placeholder => s!" <{placeholder}>"
    | .path placeholder => s!" <{placeholder}>"
  s!"{letter}--{s.name}{value}"

/-- Rows in two columns, the second one two blanks after the longest entry of the first. -/
def columns (rows : List (String × String)) : String :=
  let width := rows.foldl (fun n row => max n row.1.length) 0
  String.join (rows.map fun (left, right) =>
    "  " ++ left ++ "".pushn ' ' (width - left.length + 2) ++ right ++ "\n")

def settingRows (settings : List Setting) : List (String × String) :=
  settings.map fun s => (s.synopsis, s.about)

def programName : String := "cv-cli"

def versionText : String := s!"{programName} 0.1.0\n"

def helpAbout : String := "Print this message or the help of the given subcommand(s)"

def commandRows : List (String × String) :=
  Verb.all.map (fun v => (v.name, v.about)) ++ [("help", helpAbout)]

/-- What help is about. -/
inductive Topic where
  | program
  | verb (v : Verb)
  /-- Help itself. -/
  | help
deriving DecidableEq, Repr

/-- The help text of a topic. -/
def Topic.text : Topic → String
  | .program =>
    "Control-voltage sequencer engine\n\n" ++ s!"Usage: {programName} [OPTIONS] <COMMAND>\n\n" ++
      "Commands:\n" ++ columns commandRows ++ "\nOptions:\n" ++
      columns (settingRows generalSettings)
  | .verb v =>
    let options := if v.settings = [helpSetting] then "" else " [OPTIONS]"
    s!"{v.about}\n\nUsage: {programName} {v.name}{options} <CONFIG>\n\n" ++
      "Arguments:\n" ++ columns [("<CONFIG>", "")] ++ "\nOptions:\n" ++
      columns (settingRows v.settings)
  | .help =>
    s!"{helpAbout}\n\nUsage: {programName} help [COMMAND]...\n\n" ++
      "Arguments:\n" ++ columns [("[COMMAND]...", "Print help for the subcommand(s)")]

end ControlVoltage.CommandLine

/-!
# Settings on a command line

A setting has a long name, perhaps a letter, and perhaps a value. `scan` splits the arguments of a
command into settings and operands:

* `--name`, `--name value`, `--name=value`;
* `-l`, `-l value`, `-lvalue`, `-l=value`, and letters without a value in one cluster;
* after `--` everything is an operand.

A value in an argument of its own must not look like a setting. The result is in order, and ends
with the first argument that is wrong.
-/

namespace ControlVoltage.CommandLine

/-- What the value of a setting is. -/
inductive ValueKind where
  | none
  | number (placeholder : String)
  | path (placeholder : String)
deriving DecidableEq, Repr

/-- A setting that a command knows. -/
structure Setting where
  letter : Option Char
  name : String
  value : ValueKind
  about : String
deriving DecidableEq, Repr

namespace Setting

def takesValue (s : Setting) : Bool := s.value ≠ .none

def named? (settings : List Setting) (name : String) : Option Setting :=
  settings.find? fun s => s.name = name

def lettered? (settings : List Setting) (letter : Char) : Option Setting :=
  settings.find? fun s => s.letter = some letter

end Setting

/-- What is wrong with a command line. -/
inductive UsageError where
  | noCommand
  | unknownCommand (name : String)
  | unknownSetting (text : String)
  | valueMissing (name : String)
  | valueUnexpected (name : String)
  | repeatedSetting (name : String)
  | notANumber (text : String)
  | emptyPath
  | operandMissing
  | operandUnexpected (text : String)
deriving DecidableEq, Repr

def UsageError.message : UsageError → String
  | .noCommand => "a command is required"
  | .unknownCommand name => s!"unrecognized command '{name}'"
  | .unknownSetting text => s!"unexpected argument '{text}'"
  | .valueMissing name => s!"a value is required for '--{name}'"
  | .valueUnexpected name => s!"'--{name}' takes no value"
  | .repeatedSetting name => s!"'--{name}' cannot be used more than once"
  | .notANumber text => s!"invalid number '{text}'"
  | .emptyPath => "a path must not be empty"
  | .operandMissing => "a configuration is required"
  | .operandUnexpected text => s!"unexpected argument '{text}'"

/-- One thing that a command line says. -/
inductive Item where
  | setting (s : Setting) (value : String)
  | operand (text : String)
deriving DecidableEq, Repr

/-- Whether an argument is a setting and not an operand. A dash alone is an operand. -/
def looksLikeSetting (arg : String) : Bool :=
  match arg.toList with
  | '-' :: _ :: _ => true
  | _ => false

/-! ## Long names -/

/-- A long name and the value attached to it with an equals sign. -/
def splitLong (text : List Char) : String × Option String :=
  let name := String.ofList (text.takeWhile (· ≠ '='))
  match text.dropWhile (· ≠ '=') with
  | [] => (name, none)
  | _ :: value => (name, some (String.ofList value))

/-! ## Clusters of letters -/

/-- What is left to do after a cluster of letters. -/
inductive ClusterEnd where
  | complete
  /-- The last setting has its value in the next argument. -/
  | awaiting (s : Setting)
  | wrong (error : UsageError)

/-- The value attached to a letter, without the equals sign it may start with. -/
def attached : List Char → String
  | '=' :: cs => String.ofList cs
  | cs => String.ofList cs

/-- The settings of a cluster. The first letter that takes a value takes the rest of the
cluster. -/
def scanCluster (settings : List Setting) : List Char → List Item × ClusterEnd
  | [] => ([], .complete)
  | c :: cs =>
    match Setting.lettered? settings c with
    | none => ([], .wrong (.unknownSetting s!"-{c}"))
    | some s =>
      if s.takesValue then
        if cs.isEmpty then ([], .awaiting s) else ([.setting s (attached cs)], .complete)
      else
        let (items, rest) := scanCluster settings cs
        (.setting s "" :: items, rest)

/-! ## Whole command lines -/

/-- The settings and operands of a command line, up to the first that is wrong. -/
def scan (settings : List Setting) : List String → List (Except UsageError Item)
  | [] => []
  | arg :: rest =>
    match arg.toList with
    | ['-', '-'] => rest.map fun text => .ok (.operand text)
    | '-' :: '-' :: text =>
      let (name, value) := splitLong text
      match Setting.named? settings name with
      | none => [.error (.unknownSetting arg)]
      | some s =>
        match s.takesValue, value with
        | true, some value => .ok (.setting s value) :: scan settings rest
        | false, some _ => [.error (.valueUnexpected name)]
        | false, none => .ok (.setting s "") :: scan settings rest
        | true, none =>
          match rest with
          | [] => [.error (.valueMissing name)]
          | value :: rest =>
            if looksLikeSetting value then [.error (.valueMissing name)]
            else .ok (.setting s value) :: scan settings rest
    | '-' :: c :: cs =>
      let (items, last) := scanCluster settings (c :: cs)
      let items := items.map Except.ok
      match last with
      | .complete => items ++ scan settings rest
      | .wrong error => items ++ [.error error]
      | .awaiting s =>
        match rest with
        | [] => items ++ [.error (.valueMissing s.name)]
        | value :: rest =>
          if looksLikeSetting value then items ++ [.error (.valueMissing s.name)]
          else items ++ .ok (.setting s value) :: scan settings rest
    | _ => .ok (.operand arg) :: scan settings rest

end ControlVoltage.CommandLine

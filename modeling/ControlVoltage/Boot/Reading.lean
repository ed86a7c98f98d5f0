import ControlVoltage.Boot.Config
import ControlVoltage.Toml.Document

/-!
# Reading boot configurations

From the values of a document to a `Boot.Config`.

* A whole number may stand where a number with a fraction is expected, but not the other way
  round, and it has to fit its field.
* A record is a table of named fields, or an array of the fields in order. Unknown names are
  refused in a record, but not in a computed value or in a scale.
* A node is a table with one field, which names its kind.
* A value is a number, else a reference with `var`, else an operation with `op` and `args`.
* An unreadable number is refused wherever it is looked at: in a field, and anywhere in a computed
  value or a scale, which are looked at as a whole before their kind is known.
-/

namespace ControlVoltage.Boot

open Toml (field?)

/-- What a document holds, as opposed to a value of a score. -/
abbrev Item := Toml.Value

/-! ## Plain fields -/

def readNumber? : Item → Option Float32
  | .integer n => some (Single.ofInt n)
  | .float x => some (Single.narrow x)
  | _ => none

/-- A whole number below `bound`. -/
def readNat? (bound : Nat) : Item → Option Nat
  | .integer n => if 0 ≤ n ∧ n < bound then some n.toNat else none
  | _ => none

def readString? : Item → Option String
  | .string s => some s
  | _ => none

def readBool? : Item → Option Bool
  | .boolean b => some b
  | _ => none

/-- Every item of an array. -/
def readList? {α : Type} (read : Item → Option α) : Item → Option (List α)
  | .array items => items.mapM read
  | _ => none

/-! ## Records -/

/-- The fields of a record with these names. -/
def record? (names : List String) : Item → Option (List (String × Item))
  | .table fields => if fields.all fun field => names.contains field.1 then some fields else none
  | .array items => some (names.zip items)
  | _ => none

/-- A field that has to be there. -/
def required? {α : Type} (fields : List (String × Item)) (name : String) (read : Item → Option α) :
    Option α :=
  (field? name fields).bind read

/-- A field with a value to take when it is absent. -/
def withDefault? {α : Type} (fields : List (String × Item)) (name : String) (default : α)
    (read : Item → Option α) : Option α :=
  match field? name fields with
  | none => some default
  | some item => read item

/-- A field that may be absent. -/
def optional? {α : Type} (fields : List (String × Item)) (name : String) (read : Item → Option α) :
    Option (Option α) :=
  withDefault? fields name none fun item => (read item).map some

/-! ## Scores -/

/-- A reference to a cell. -/
def readVar? (fields : List (String × Item)) : Option Score.Value := do
  let name ← required? fields "var" readString?
  let default ← optional? fields "default" readNumber?
  some (.var name default)

/-- A value; its depth is fuel enough. -/
def readValueFrom? : (fuel : Nat) → Item → Option Score.Value
  | 0, _ => none
  | fuel + 1, .table fields =>
    match readVar? fields with
    | some v => some v
    | none => do
      let name ← required? fields "op" readString?
      let args ← required? fields "args" (readList? (readValueFrom? fuel))
      some (.op name args)
  | _ + 1, item => (readNumber? item).map .lit

/-- A value without unreadable numbers. -/
def readValue? (item : Item) : Option Score.Value :=
  if item.hasUnreadable then none else readValueFrom? item.depth item

/-- A node; its depth is fuel enough. -/
def readNodeFrom? : (fuel : Nat) → Item → Option Score.Node
  | 0, _ => none
  | fuel + 1, .table [(kind, item)] =>
    let body := readList? (readNodeFrom? fuel)
    match kind with
    | "to" => do
      let fields ← record? ["volts", "time", "shape"] item
      let volts ← required? fields "volts" readValue?
      let time ← withDefault? fields "time" (.lit 0) readValue?
      let tag ← withDefault? fields "shape" Curve.linear.name readString?
      some (.ramp volts time tag)
    | "seq" => (body item).map .seq
    | "loop" => (body item).map .loop
    | "held" => (body item).map .held
    | "lock" => (body item).map .lock
    | "times" => do
      let fields ← record? ["count", "body"] item
      let count ← required? fields "count" (readNat? UInt32.size)
      let body ← required? fields "body" body
      some (.times count body)
    | "if" => do
      let fields ← record? ["cond", "body"] item
      let condition ← required? fields "cond" readValue?
      let body ← required? fields "body" body
      some (.when condition body)
    | _ => none
  | _ + 1, _ => none

def readNode? (item : Item) : Option Score.Node := readNodeFrom? item.depth item

/-! ## The parts of a configuration -/

def readScale? : Item → Option ScaleSetting
  | .string name => some (.named name)
  | .table fields => do
    if Toml.anyFieldUnreadable fields then none
    let degrees ← required? fields "degrees" (readList? readNumber?)
    let modulo ← optional? fields "modulo" readNumber?
    let scaling ← optional? fields "scaling" readNumber?
    some (.custom degrees.toArray modulo scaling)
  | _ => none

/-- Puts a named number among others in order of their names. -/
def insertByName (cell : String × Float32) : List (String × Float32) → List (String × Float32)
  | [] => [cell]
  | other :: rest =>
    if cell.1 < other.1 then cell :: other :: rest else other :: insertByName cell rest

def sortByName (cells : List (String × Float32)) : List (String × Float32) :=
  cells.foldl (fun sorted cell => insertByName cell sorted) []

/-- Values for named cells, in order of their names. -/
def readCells? : Item → Option (List (String × Float32))
  | .table fields => do
    let cells ← fields.mapM fun (name, item) => (readNumber? item).map fun x => (name, x)
    some (sortByName cells)
  | _ => none

def readChannel? (item : Item) : Option ChannelConfig := do
  let fields ←
    record? ["index", "slew", "slew_shape", "scale", "sequence", "dynamics", "volts", "start"] item
  let index ← required? fields "index" (readNat? UInt8.size)
  let slew ← withDefault? fields "slew" 0 readNumber?
  let curve ← withDefault? fields "slew_shape" Curve.linear.name readString?
  let scale ← optional? fields "scale" readScale?
  let score ← optional? fields "sequence" (readList? readNode?)
  let cells ← withDefault? fields "dynamics" [] readCells?
  let volts ← optional? fields "volts" readNumber?
  let start ← withDefault? fields "start" false readBool?
  some { index, slew, curve, scale, score, cells, volts, start }

def edgeNamed? : String → Option Edge
  | "rising" => some .rising
  | "falling" => some .falling
  | "both" => some .both
  | _ => none

/-- An edge: its name alone, or as the only key of a table with an empty value. -/
def readEdge? : Item → Option Edge
  | .string name => edgeNamed? name
  | .table [(name, .table [])] => edgeNamed? name
  | .table [(name, .array [])] => edgeNamed? name
  | _ => none

def readTrigger? (item : Item) : Option TriggerConfig := do
  let fields ← record? ["channel", "action"] item
  let channel ← required? fields "channel" (readNat? UInt8.size)
  let action ← required? fields "action" (readNat? UInt8.size)
  some { channel, action }

def readInput? (item : Item) : Option InputConfig := do
  let fields ← record? ["index", "clock", "edge", "triggers"] item
  let index ← required? fields "index" (readNat? UInt8.size)
  let clock ← optional? fields "clock" readNumber?
  let edge ← withDefault? fields "edge" .rising readEdge?
  let triggers ← withDefault? fields "triggers" [] (readList? readTrigger?)
  some { index, clock, edge, triggers }

def readRange? (item : Item) : Option (Float32 × Float32) := do
  let fields ← record? ["min", "max"] item
  let min ← required? fields "min" readNumber?
  let max ← required? fields "max" readNumber?
  some (min, max)

/-! ## The whole -/

/-- A configuration from the fields of a document. -/
def readConfig? (fields : List (String × Item)) : Option Config := do
  let fields ← record? ["tick_rate_hz", "range", "channel", "input"] (.table fields)
  let hz ← withDefault? fields "tick_rate_hz" Config.standard.hz.toNat (readNat? UInt32.size)
  let (min, max) ←
    withDefault? fields "range" (Config.standard.min, Config.standard.max) readRange?
  let channels ← withDefault? fields "channel" [] (readList? readChannel?)
  let inputs ← withDefault? fields "input" [] (readList? readInput?)
  some { hz := hz.toUInt32, min, max, channels, inputs }

/-- A configuration from the text of a document. -/
def Config.ofText (text : String) : Except SessionError Config :=
  match (Toml.parse? text).bind readConfig? with
  | some config => .ok config
  | none => .error .unreadable

end ControlVoltage.Boot

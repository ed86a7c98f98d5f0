/-!
# Document values

What a TOML document holds. A document as a whole is a table; keys keep the order in which they
were first written.
-/

namespace ControlVoltage.Toml

/-- A value of a document. -/
inductive Value where
  | string (s : String)
  | integer (n : Int)
  | float (x : Float)
  /-- What has the outline of a number, but is none that 64 bits or a finite float hold. -/
  | unreadable
  | boolean (b : Bool)
  /-- A date, a time or both, as it is written. -/
  | datetime (text : String)
  | array (items : List Value)
  | table (fields : List (String × Value))
deriving Inhabited

mutual

/-- How deep a value is nested; a plain value counts as one. -/
def Value.depth : Value → Nat
  | .array items => depthAll items + 1
  | .table fields => depthFields fields + 1
  | _ => 1

def depthAll : List Value → Nat
  | [] => 0
  | v :: rest => max v.depth (depthAll rest)

def depthFields : List (String × Value) → Nat
  | [] => 0
  | (_, v) :: rest => max v.depth (depthFields rest)

end

mutual

/-- Whether there is an unreadable number in a value. -/
def Value.hasUnreadable : Value → Bool
  | .unreadable => true
  | .array items => anyUnreadable items
  | .table fields => anyFieldUnreadable fields
  | _ => false

def anyUnreadable : List Value → Bool
  | [] => false
  | v :: rest => v.hasUnreadable || anyUnreadable rest

def anyFieldUnreadable : List (String × Value) → Bool
  | [] => false
  | (_, v) :: rest => v.hasUnreadable || anyFieldUnreadable rest

end

/-- The value of a key among the fields of a table. -/
def field? (key : String) (fields : List (String × Value)) : Option Value :=
  fields.lookup key

end ControlVoltage.Toml

/-!
# Scores

A score is a sequence as it is written down: a tree of ramps and control nodes, with values that
may be computed from named cells. Nothing in it has been checked yet.
-/

namespace ControlVoltage.Score

/-- A number, as it is written down. -/
inductive Value where
  | lit (number : Float32)
  /-- The value of a named cell. A default declares the cell. -/
  | var (name : String) (default : Option Float32)
  | op (name : String) (args : List Value)
deriving Inhabited

/-- One node of a score. -/
inductive Node where
  /-- Ramps to `volts` in `time` seconds along the curve with this tag. -/
  | ramp (volts time : Value) (tag : String)
  | seq (body : List Node)
  /-- Repeats its body for ever. -/
  | loop (body : List Node)
  /-- Runs its body and then waits until it is released. -/
  | held (body : List Node)
  /-- Ignores triggers, other than the one that unlocks, while its body runs. -/
  | lock (body : List Node)
  | times (count : Nat) (body : List Node)
  /-- Runs its body only if the condition is positive. -/
  | when (condition : Value) (body : List Node)
deriving Inhabited

end ControlVoltage.Score

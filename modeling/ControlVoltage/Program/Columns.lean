import ControlVoltage.Program.Cells

/-!
# Cells in columns

The cells of a program as they lie in memory: the names, the declared values and the values, each in a
column of its own. Every column has room for `maxCells`, and no type keeps the three in step.

* `declare` : adds to all three columns, and gives back the columns also where it refuses.
* `get`, `set`, `valueOf?`, `setNamed`, `reset` : as for cells, on the columns that they need.
-/

namespace ControlVoltage

/-- The names, the declared values and the values of cells, side by side. -/
structure Columns where
  names : List String
  initials : List Float32
  values : List Float32
deriving DecidableEq

namespace Columns

open Cells (maxCells)

def empty : Columns := ⟨[], [], []⟩

def size (s : Columns) : Nat := s.names.length

def find? (s : Columns) (name : String) : Option Nat := s.names.idxOf? name

/-- Puts one more at the end of a column. A full column breaks the program down. -/
def push? {α : Type} (column : List α) (x : α) : Option (List α) :=
  if column.length < maxCells then some (column ++ [x]) else none

/-- Declares a cell. Only the names are asked whether there is room. -/
def declare (s : Columns) (name : String) (initial : Float32) :
    Option (Except SetupError Nat × Columns) :=
  match s.find? name with
  | some i => some (.ok i, s)
  | none =>
    if !initial.isFinite then some (.error .nonFinite, s)
    else if s.names.length = maxCells then some (.error (.tooManyCells maxCells), s)
    else do
      let names ← push? s.names name
      let initials ← push? s.initials initial
      let values ← push? s.values initial
      return (.ok s.names.length, ⟨names, initials, values⟩)

/-- The value at a position; zero where there is no cell. -/
def get (s : Columns) (i : Nat) : Float32 := s.values[i]?.getD 0

/-- Sets the value at a position; nothing happens where there is no cell. -/
def set (s : Columns) (i : Nat) (value : Float32) : Columns :=
  { s with values := s.values.set i value }

def valueOf? (s : Columns) (name : String) : Option Float32 := (s.find? name).map s.get

/-- Sets the value of a named cell, and says whether there is one. -/
def setNamed (s : Columns) (name : String) (value : Float32) : Bool × Columns :=
  match s.find? name with
  | some i => (true, s.set i value)
  | none => (false, s)

/-- Gives every cell the value it was declared with. -/
def reset (s : Columns) : Columns := { s with values := s.initials }

def toList (s : Columns) : List (String × Float32) := s.names.zip s.values

end Columns

end ControlVoltage

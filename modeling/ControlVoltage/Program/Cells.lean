import ControlVoltage.SetupError

/-!
# Named cells

A program reads and writes a few named numbers. Their names are fixed when the program is built;
afterwards only the values change. A cell is known by its position, which no operation changes.

* `declare` : adds a cell, unless the name is there already.
* `get`, `set` : by position.
* `valueOf?`, `setNamed?` : by name.
* `reset` : back to the declared values.
-/

namespace ControlVoltage

/-- A named number with the value it was declared with. -/
structure Cell where
  name : String
  initial : Float32
  value : Float32
deriving DecidableEq

/-- The cells of one program, in order of declaration. -/
structure Cells where
  cells : List Cell
deriving DecidableEq

namespace Cells

/-- The most cells that a program can have. -/
def maxCells : Nat := 16

def empty : Cells := ⟨[]⟩

def size (s : Cells) : Nat := s.cells.length

def names (s : Cells) : List String := s.cells.map Cell.name

/-- The position of a name in a list of cells. -/
def position? (name : String) : List Cell → Option Nat
  | [] => none
  | c :: cs => if c.name = name then some 0 else (position? name cs).map (· + 1)

def find? (s : Cells) (name : String) : Option Nat := position? name s.cells

/-- Declares a cell and gives its position. A name that is there already keeps its cell as it is. -/
def declare (s : Cells) (name : String) (initial : Float32) : Except SetupError (Nat × Cells) :=
  match s.find? name with
  | some i => .ok (i, s)
  | none =>
    if !initial.isFinite then .error .nonFinite
    else if maxCells ≤ s.size then .error (.tooManyCells maxCells)
    else .ok (s.size, ⟨s.cells ++ [{ name, initial, value := initial }]⟩)

/-- The value at a position; zero where there is no cell. -/
def get (s : Cells) (i : Nat) : Float32 :=
  match s.cells[i]? with
  | some c => c.value
  | none => 0

/-- Sets the value at a position; nothing happens where there is no cell. -/
def set (s : Cells) (i : Nat) (value : Float32) : Cells :=
  ⟨s.cells.modify i fun c => { c with value }⟩

def valueOf? (s : Cells) (name : String) : Option Float32 := (s.find? name).map s.get

/-- Sets the value of a named cell, if there is one. -/
def setNamed? (s : Cells) (name : String) (value : Float32) : Option Cells :=
  (s.find? name).map fun i => s.set i value

/-- Gives every cell the value it was declared with. -/
def reset (s : Cells) : Cells := ⟨s.cells.map fun c => { c with value := c.initial }⟩

def toList (s : Cells) : List (String × Float32) := s.cells.map fun c => (c.name, c.value)

/-! ## Basic facts -/

@[simp] theorem size_set (s : Cells) (i : Nat) (value : Float32) :
    (s.set i value).size = s.size := by
  simp [set, size]

@[simp] theorem size_reset (s : Cells) : s.reset.size = s.size := by
  simp [reset, size]

@[simp] theorem names_reset (s : Cells) : s.reset.names = s.names := by
  simp [reset, names, Function.comp_def]

end Cells

end ControlVoltage

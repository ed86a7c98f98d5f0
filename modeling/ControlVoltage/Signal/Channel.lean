/-!
# Output channels

The four outputs are numbered from one on the panel and from zero as positions.
-/

namespace ControlVoltage

/-- One of the four outputs. -/
structure Channel where
  index : Fin 4
deriving DecidableEq, Repr

namespace Channel

/-- The output numbered one. -/
def first : Channel := ⟨0⟩

/-- All outputs in panel order. -/
def all : List Channel := [first, ⟨1⟩, ⟨2⟩, ⟨3⟩]

/-- The number on the panel. -/
def number (c : Channel) : Nat := c.index.val + 1

/-- The output at a position counted from zero. -/
def ofIndex? (i : Nat) : Option Channel :=
  if h : i < 4 then some ⟨i, h⟩ else none

/-- The output with a panel number. -/
def ofNumber? (n : Nat) : Option Channel :=
  if n = 0 then none else ofIndex? (n - 1)

/-- How messages name the output. -/
def label (c : Channel) : String := s!"output {c.number}"

theorem number_pos (c : Channel) : 0 < c.number := Nat.succ_pos _

theorem ofNumber?_number (c : Channel) : ofNumber? c.number = some c := by
  simp [ofNumber?, ofIndex?, number]

theorem mem_all (c : Channel) : c ∈ all := by
  obtain ⟨i⟩ := c
  revert i
  decide

end Channel

end ControlVoltage

import ControlVoltage.Program.Formula
import ControlVoltage.Signal.Curve

/-!
# Programs

A program is a score that has been checked and laid out flat: every control node becomes a block,
and a block is entered from the place where its node stood. Block 0 is the whole score. A player
needs only a small stack of positions to walk it.
-/

namespace ControlVoltage

/-- One ramp of a program. -/
structure Step where
  volts : Formula
  /-- Seconds; a duration that is not positive takes no time. -/
  time : Formula
  curve : Curve
deriving DecidableEq

/-- What happens when a block is entered and when its end is reached. -/
inductive BlockKind where
  | plain
  | loop
  | times (count : Nat)
  | held
  | locked
  | when (condition : Formula)
deriving DecidableEq

/-- One operation of a block. -/
inductive Op where
  | ramp (step : Step)
  /-- Enters the block with this position. -/
  | enter (id : Nat)
deriving DecidableEq

def Op.isRamp : Op → Bool
  | .ramp _ => true
  | .enter _ => false

structure Block where
  kind : BlockKind
  ops : Array Op
deriving DecidableEq

/-- A checked and laid out score, with its cells at their declared values. -/
structure Program where
  blocks : Array Block
  cells : Cells
deriving DecidableEq

namespace Program

/-- The deepest nesting of blocks, the whole score included. -/
def maxDepth : Nat := 8

/-- The most blocks of one program. -/
def maxBlocks : Nat := 65536

/-- The number of ramps in all blocks. -/
def stepCount (p : Program) : Nat :=
  p.blocks.foldl (fun n b => n + b.ops.countP Op.isRamp) 0

end Program

end ControlVoltage

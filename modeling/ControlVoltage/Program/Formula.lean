import ControlVoltage.Program.Cells

/-!
# Formulas

A formula is a checked value: a tree over literals and cells that is evaluated each time a ramp or
a condition needs it. Evaluation gives a number and the cells after it, since `mutate` writes.

Operands are evaluated left to right, except that a divisor comes first: when it is zero the result
is zero and the dividend is not evaluated at all.
-/

namespace ControlVoltage

/-- The operators with two operands. -/
inductive Operator where
  | add
  | sub
  | mul
  | div
  /-- The remainder of floored division. -/
  | mod
deriving DecidableEq, Repr

/-- A checked value. -/
inductive Formula where
  | lit (number : Float32)
  | cell (id : Nat)
  | neg (a : Formula)
  | binary (op : Operator) (a b : Formula)
  /-- Evaluates the operand and stores the result in a cell. -/
  | mutate (id : Nat) (a : Formula)
deriving DecidableEq, Inhabited

namespace Formula

/-- `n - d * ⌊n / d⌋`, in single precision. -/
def floorMod (n d : Float32) : Float32 := n - d * Single.floor (n / d)

/-- The value of a formula, and the cells after it. -/
def eval : Formula → Cells → Float32 × Cells
  | .lit x, s => (x, s)
  | .cell i, s => (s.get i, s)
  | .neg a, s =>
    let (x, s) := a.eval s
    (-x, s)
  | .binary .add a b, s =>
    let (x, s) := a.eval s
    let (y, s) := b.eval s
    (x + y, s)
  | .binary .sub a b, s =>
    let (x, s) := a.eval s
    let (y, s) := b.eval s
    (x - y, s)
  | .binary .mul a b, s =>
    let (x, s) := a.eval s
    let (y, s) := b.eval s
    (x * y, s)
  | .binary .div a b, s =>
    let (d, s) := b.eval s
    if d == 0 then (0, s)
    else
      let (n, s) := a.eval s
      (n / d, s)
  | .binary .mod a b, s =>
    let (d, s) := b.eval s
    if d == 0 then (0, s)
    else
      let (n, s) := a.eval s
      (floorMod n d, s)
  | .mutate i a, s =>
    let (x, s) := a.eval s
    (x, s.set i x)

/-- Whether a formula is nothing but a reference to a cell. -/
def isCell : Formula → Bool
  | .cell _ => true
  | _ => false

/-- The number of a formula that is nothing but a literal. -/
def literal? : Formula → Option Float32
  | .lit x => some x
  | _ => none

end Formula

end ControlVoltage

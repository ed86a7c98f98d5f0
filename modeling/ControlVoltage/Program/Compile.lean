import ControlVoltage.Program.Block
import ControlVoltage.Score.Stock

/-!
# From score to program

`Program.compile` checks a score and lays it out. It first declares the cells of the whole score,
so that a reference may come before the declaration, and then goes through the score in document
order; the first fault found there is the one reported.

* `Score.hasRamp` : whether there is a ramp at any depth.
* `Cells.declareAll` : the declarations of a score.
* `Score.Value.formula` : a value against the declared cells.
* `compileNode`, `compileBody` : the layout. Blocks are numbered in the order in which their nodes
  open.
-/

namespace ControlVoltage

namespace Score

mutual

/-- Whether a node is a ramp or has one below it. -/
def Node.hasRamp : Node → Bool
  | .ramp .. => true
  | .seq body => hasRamp body
  | .loop body => hasRamp body
  | .held body => hasRamp body
  | .lock body => hasRamp body
  | .times _ body => hasRamp body
  | .when _ body => hasRamp body

/-- Whether there is a ramp among the nodes or below them. -/
def hasRamp : List Node → Bool
  | [] => false
  | node :: rest => node.hasRamp || hasRamp rest

end

end Score

open Score (Node Value)

/-! ## Declarations -/

namespace Cells

mutual

/-- Declares the cells that a value gives a default for. -/
def declareValue (s : Cells) : Value → Except SetupError Cells
  | .lit _ => .ok s
  | .var name (some initial) => (s.declare name initial).map (·.2)
  | .var _ none => .ok s
  | .op _ args => declareValues s args

def declareValues (s : Cells) : List Value → Except SetupError Cells
  | [] => .ok s
  | v :: rest =>
    match declareValue s v with
    | .error e => .error e
    | .ok s => declareValues s rest

end

mutual

/-- Declares the cells of a node in document order: volts before time, and a condition before its
body. -/
def declareNode (s : Cells) : Node → Except SetupError Cells
  | .ramp volts time _ => declareValues s [volts, time]
  | .seq body => declareAll s body
  | .loop body => declareAll s body
  | .held body => declareAll s body
  | .lock body => declareAll s body
  | .times _ body => declareAll s body
  | .when condition body =>
    match declareValue s condition with
    | .error e => .error e
    | .ok s => declareAll s body

def declareAll (s : Cells) : List Node → Except SetupError Cells
  | [] => .ok s
  | node :: rest =>
    match declareNode s node with
    | .error e => .error e
    | .ok s => declareAll s rest

end

end Cells

/-! ## Values -/

/-- What an operator name stands for. -/
inductive OperatorName where
  | negate
  | binary (op : Operator)
  | mutate
deriving DecidableEq

namespace OperatorName

def ofName? : String → Option OperatorName
  | "neg" => some .negate
  | "add" => some (.binary .add)
  | "sub" => some (.binary .sub)
  | "mul" => some (.binary .mul)
  | "div" => some (.binary .div)
  | "mod" => some (.binary .mod)
  | "mutate" => some .mutate
  | _ => none

def arity : OperatorName → Nat
  | .negate => 1
  | .binary _ => 2
  | .mutate => 2

/-- Puts an operator on its operands. The first operand of `mutate` has to be a cell. -/
def apply : OperatorName → List Formula → Except SetupError Formula
  | .negate, [a] => .ok (.neg a)
  | .binary op, [a, b] => .ok (.binary op a b)
  | .mutate, [.cell id, b] => .ok (.mutate id b)
  | _, _ => .error .mutateTarget

end OperatorName

mutual

/-- Checks a value against the declared cells. -/
def Score.Value.formula (s : Cells) : Value → Except SetupError Formula
  | .lit x => if x.isFinite then .ok (.lit x) else .error .nonFinite
  | .var name _ =>
    match s.find? name with
    | some i => .ok (.cell i)
    | none => .error (.unknownCell name)
  | .op name args =>
    match OperatorName.ofName? name with
    | none => .error (.unknownOperator name)
    | some op =>
      if args.length ≠ op.arity then .error (.arity name op.arity args.length)
      else
        match Score.operands s (op = .mutate) args with
        | .error e => .error e
        | .ok operands => op.apply operands

/-- Checks the operands in order. When the first has to be a cell, one that is not ends the check
before the next is looked at. -/
def Score.operands (s : Cells) (targeted : Bool) : List Value → Except SetupError (List Formula)
  | [] => .ok []
  | v :: rest =>
    match Score.Value.formula s v with
    | .error e => .error e
    | .ok a =>
      if targeted && !a.isCell then .error .mutateTarget
      else
        match Score.operands s false rest with
        | .error e => .error e
        | .ok operands => .ok (a :: operands)

end

/-! ## Layout -/

/-- The kinds of block around a node that forbid one of the same kind inside. -/
structure Nesting where
  held : Bool
  locked : Bool

/-- Puts a block with number `next` at `depth` around the operations and blocks that `inner` lays
out. A block too deep or too many is refused before anything inside it is looked at. -/
def enclose (kind : BlockKind) (depth next : Nat)
    (inner : Unit → Except SetupError (Array Op × Array Block)) :
    Except SetupError (Op × Array Block) :=
  if Program.maxDepth < depth then .error (.tooDeep Program.maxDepth)
  else if Program.maxBlocks ≤ next then .error (.tooManyBlocks Program.maxBlocks)
  else
    match inner () with
    | .error e => .error e
    | .ok (ops, blocks) => .ok (.enter next, #[⟨kind, ops⟩] ++ blocks)

/-- The ramp with checked volts and time. A literal time must not be negative. -/
def compileRamp (volts time : Formula) (tag : String) : Except SetupError Op :=
  match time.literal? with
  | some seconds =>
    if seconds < 0 then .error (.negativeDuration seconds)
    else (Curve.parse tag).map fun curve => .ramp { volts, time, curve }
  | none => (Curve.parse tag).map fun curve => .ramp { volts, time, curve }

mutual

/-- Lays out one node of a body. `depth` and `next` are those of the first block it may open. The
result has the operation that stands for the node and the blocks it opens. -/
def compileNode (s : Cells) (depth : Nat) (nesting : Nesting) (next : Nat) :
    Node → Except SetupError (Op × Array Block)
  | .ramp volts time tag =>
    match volts.formula s with
    | .error e => .error e
    | .ok volts =>
      match time.formula s with
      | .error e => .error e
      | .ok time => (compileRamp volts time tag).map fun op => (op, #[])
  | .seq body =>
    enclose .plain depth next fun _ => compileBody s (depth + 1) nesting (next + 1) #[] #[] body
  | .loop body =>
    if !Score.hasRamp body then .error (.nesting .loopWithoutStep)
    else
      enclose .loop depth next fun _ => compileBody s (depth + 1) nesting (next + 1) #[] #[] body
  | .held body =>
    if nesting.held then .error (.nesting .heldInHeld)
    else
      enclose .held depth next fun _ =>
        compileBody s (depth + 1) { nesting with held := true } (next + 1) #[] #[] body
  | .lock body =>
    if nesting.locked then .error (.nesting .lockInLock)
    else
      enclose .locked depth next fun _ =>
        compileBody s (depth + 1) { nesting with locked := true } (next + 1) #[] #[] body
  | .times count body =>
    if count = 0 then .error (.nesting .timesZero)
    else
      enclose (.times count) depth next fun _ =>
        compileBody s (depth + 1) nesting (next + 1) #[] #[] body
  | .when condition body =>
    match condition.formula s with
    | .error e => .error e
    | .ok condition =>
      enclose (.when condition) depth next fun _ =>
        compileBody s (depth + 1) nesting (next + 1) #[] #[] body

/-- Lays out the nodes of a body one after the other, after what is already in `ops` and
`inner`. -/
def compileBody (s : Cells) (depth : Nat) (nesting : Nesting) (next : Nat) (ops : Array Op)
    (inner : Array Block) : List Node → Except SetupError (Array Op × Array Block)
  | [] => .ok (ops, inner)
  | node :: rest =>
    match compileNode s depth nesting next node with
    | .error e => .error e
    | .ok (op, blocks) =>
      compileBody s depth nesting (next + blocks.size) (ops.push op) (inner ++ blocks) rest

end

namespace Program

/-- Checks a score and lays it out. -/
def compile (score : List Node) : Except SetupError Program :=
  match Cells.empty.declareAll score with
  | .error e => .error e
  | .ok cells =>
    match enclose .plain 1 0 fun _ => compileBody cells 2 ⟨false, false⟩ 1 #[] #[] score with
    | .error e => .error e
    | .ok (_, blocks) => .ok { blocks, cells }

/-- The program of one ramp with known voltage, duration and curve. -/
def single (volts seconds : Float32) (curve : Curve) : Except SetupError Program :=
  compile (Score.single volts seconds curve)

end Program

end ControlVoltage

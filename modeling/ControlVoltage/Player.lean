import ControlVoltage.Program.Compile
import ControlVoltage.Signal.Ramp
import ControlVoltage.Signal.Range
import ControlVoltage.Signal.Rate

/-!
# Players

A player walks a program and hands its ramps on, one segment at a time. Its stack has a mark for
every block it is inside of, the innermost first.

* `Player.step` : one move of the walk; it does not touch the ramp.
* `Player.advance` : moves until a segment takes time, the walk parks in a held block, or it ends.
  A walk that makes too many moves without taking time is put off for one tick.
* `restart`, `release` : what a trigger does to the stack.
-/

namespace ControlVoltage

/-- A place inside a block. -/
structure Mark where
  block : Nat
  /-- The position of the next operation. -/
  next : Nat
  /-- The passes left to make, the present one included, in a block that is run a number of
  times. -/
  passes : Nat
deriving DecidableEq, Repr

/-- Ways in which a stack may fail to fit its program. -/
inductive Corruption where
  | strayMark
  | strayReference
  | stackTooDeep
deriving DecidableEq, Repr

def Corruption.message : Corruption → String
  | .strayMark => "frame points outside its sequence"
  | .strayReference => "block reference out of range"
  | .stackTooDeep => "nesting exceeds cursor depth"

/-- A program and how far it has been played. -/
structure Player where
  program : Program
  cells : Cells
  stack : List Mark
  /-- Inside a held block that has not been released. -/
  holding : Bool
  /-- Inside a locked block that has not been unlocked. -/
  locked : Bool
  /-- The generation of the segment whose completion the walk waits for. -/
  awaiting : Option UInt32

namespace Player

/-- How many moves a walk may make before it has to wait for a tick. -/
def moveBudget : Nat := 64

/-- A player that has not been started. -/
def load (program : Program) : Player :=
  { program, cells := program.cells, stack := [], holding := false, locked := false,
    awaiting := none }

/-- Back to the top of the program. The cells keep their values. -/
def restart (p : Player) : Player :=
  { p with stack := [⟨0, 0, 0⟩], holding := false, locked := false, awaiting := none }

def isHeldMark (p : Player) (mark : Mark) : Bool :=
  match p.program.blocks[mark.block]? with
  | some ⟨.held, _⟩ => true
  | _ => false

/-- The marks below the innermost one that satisfies `q`; all of them if none does. -/
def below (q : Mark → Bool) (stack : List Mark) : List Mark :=
  if stack.any q then (stack.dropWhile fun mark => !q mark).tail else stack

/-- Leaves the innermost held block, if the player is holding. -/
def release (p : Player) : Player :=
  if p.holding then { p with holding := false, stack := below p.isHeldMark p.stack } else p

/-! ## One move -/

/-- What one move of a walk comes to. -/
inductive Turn where
  /-- A segment to hand on. -/
  | ramp (segment : Segment) (next : Player)
  /-- Nothing but a change of place. -/
  | moved (next : Player)
  /-- Parked at the end of a held block. -/
  | parked
  /-- Off the end of the program. -/
  | ended
  | corrupt (fault : Corruption)

/-- Puts a mark for a block onto the stack. -/
def push (p : Player) (id passes : Nat) : Turn :=
  if Program.maxDepth ≤ p.stack.length then .corrupt .stackTooDeep
  else .moved { p with stack := ⟨id, 0, passes⟩ :: p.stack }

/-- Enters a block, unless it has a condition that is not met. -/
def enter (p : Player) (id : Nat) : Turn :=
  match p.program.blocks[id]? with
  | none => .corrupt .strayReference
  | some block =>
    match block.kind with
    | .plain => p.push id 0
    | .loop => p.push id 0
    | .times count => p.push id count
    | .held => { p with holding := true }.push id 0
    | .locked => { p with locked := true }.push id 0
    | .when condition =>
      let (x, cells) := condition.eval p.cells
      let p := { p with cells }
      if x ≤ 0 then .moved p else p.push id 0

/-- What happens at the end of a block; `rest` is the stack without the block's mark. -/
def finish (p : Player) (kind : BlockKind) (mark : Mark) (rest : List Mark) : Turn :=
  match kind with
  | .plain => .moved { p with stack := rest }
  | .loop => .moved { p with stack := { mark with next := 0 } :: rest }
  | .times _ =>
    if 1 < mark.passes then
      .moved { p with stack := { mark with next := 0, passes := mark.passes - 1 } :: rest }
    else .moved { p with stack := rest }
  | .held => if p.holding then .parked else .moved { p with stack := rest }
  | .locked => .moved { p with locked := false, stack := rest }
  | .when _ => .moved { p with stack := rest }

/-- The segment of a ramp: volts are evaluated before time. -/
def rampTurn (rate : Rate) (range : Range) (p : Player) (step : Step) : Turn :=
  let (volts, cells) := step.volts.eval p.cells
  let (time, cells) := step.time.eval cells
  .ramp ⟨range.clamp volts, rate.ticks time, step.curve⟩ { p with cells }

/-- One move of the walk. -/
def step (rate : Rate) (range : Range) (p : Player) : Turn :=
  match p.stack with
  | [] => .ended
  | mark :: rest =>
    match p.program.blocks[mark.block]? with
    | none => .corrupt .strayMark
    | some block =>
      let past := { p with stack := { mark with next := mark.next + 1 } :: rest }
      match block.ops[mark.next]? with
      | some (.ramp step) => past.rampTurn rate range step
      | some (.enter id) => past.enter id
      | none => p.finish block.kind mark rest

/-! ## The walk -/

/-- Why a walk came to rest. -/
inductive Progress where
  /-- A segment is in flight. -/
  | waiting
  /-- Parked at the end of a held block. -/
  | suspended
  /-- Off the end of the program. -/
  | done
deriving DecidableEq, Repr

/-- Waits for one tick where the ramp is heading. -/
def putOff (p : Player) (ramp : Ramp) : Player × Ramp :=
  let ramp := ramp.toward ⟨ramp.target, 1, .linear⟩
  ({ p with awaiting := some ramp.generation }, ramp)

/-- Makes up to `budget` moves. -/
def run (rate : Rate) (range : Range) :
    (budget : Nat) → Player → Ramp → Except Corruption Progress × Player × Ramp
  | 0, p, ramp => (.ok .waiting, p.putOff ramp)
  | budget + 1, p, ramp =>
    match p.step rate range with
    | .ramp segment p =>
      let ramp := ramp.toward segment
      if segment.ticks = 0 then run rate range budget p ramp
      else (.ok .waiting, { p with awaiting := some ramp.generation }, ramp)
    | .moved p => run rate range budget p ramp
    | .parked => (.ok .suspended, p, ramp)
    | .ended => (.ok .done, p, ramp)
    | .corrupt fault => (.error fault, p, ramp)

/-- Walks on until the walk comes to rest. -/
def advance (rate : Rate) (range : Range) (p : Player) (ramp : Ramp) :
    Except Corruption Progress × Player × Ramp :=
  run rate range moveBudget { p with awaiting := none } ramp

end Player

end ControlVoltage

import ControlVoltage.Player
import ControlVoltage.Proofs.Single.Compare

/-!
# Reading a score

What a score means, as a recursive interpreter of its tree. A reading has no blocks, no stack and
no budget of moves: it goes through the nodes as they are written down, looks cells and operators
up by their names, and lists the segments in the order in which they are handed over.

* `Value.read` : the number that a value comes to, and the cells after it.
* `Cue` : what a reading gets from outside: leave to make one operation, or a release. An operation
  is a ramp, the entry of a control node (a condition that is not met included), or the end of a
  pass through its body.
* `Node.read`, `readAll` : a node and a list of nodes, as far as the cues go.
* `Score.read` : the segments of a whole score.
-/

namespace ControlVoltage

/-! ## Values -/

/-- The number that a value comes to, and the cells after it. Operands are read left to right,
except that a divisor comes first and a dividend over zero is not read at all. -/
def Score.Value.read : Score.Value → Cells → Float32 × Cells
  | .lit x, s => (x, s)
  | .var name _, s => ((s.valueOf? name).getD 0, s)
  | .op name args, s =>
    match OperatorName.ofName? name, args with
    | some .negate, [a] =>
      let (x, s) := a.read s
      (-x, s)
    | some (.binary .add), [a, b] =>
      let (x, s) := a.read s
      let (y, s) := b.read s
      (x + y, s)
    | some (.binary .sub), [a, b] =>
      let (x, s) := a.read s
      let (y, s) := b.read s
      (x - y, s)
    | some (.binary .mul), [a, b] =>
      let (x, s) := a.read s
      let (y, s) := b.read s
      (x * y, s)
    | some (.binary .div), [a, b] =>
      let (d, s) := b.read s
      if d == 0 then (0, s)
      else
        let (n, s) := a.read s
        (n / d, s)
    | some (.binary .mod), [a, b] =>
      let (d, s) := b.read s
      if d == 0 then (0, s)
      else
        let (n, s) := a.read s
        (n - d * Single.floor (n / d), s)
    | some .mutate, [.var target _, a] =>
      let (x, s) := a.read s
      (x, (s.setNamed? target x).getD s)
    | _, _ => (0, s)

/-- Whether a condition is met: by a number above zero. A NaN is neither above zero nor not above
zero; it counts as met. -/
def Score.met (x : Float32) : Bool := 0 < x || x.isNaN

theorem Score.met_eq (x : Float32) : Score.met x = !decide (x ≤ 0) := by
  simp only [Score.met, Single.lt_iff_compare, Single.le_iff_compare, Single.isNaN_eq,
    Single.unpack_zero]
  cases x.toModel.unpack with
  | infinity s => cases s <;> rfl
  | notANumber => rfl
  | zero s => cases s <;> rfl
  | finite s m e h => cases s <;> rfl

/-! ## Cues -/

/-- What a reading gets from outside. -/
inductive Cue where
  /-- Leave to make one operation. -/
  | go
  | release
deriving DecidableEq, Repr

/-- A reading under way. -/
structure Reading where
  cells : Cells
  /-- What is still to come from outside. -/
  cues : List Cue
  /-- The segments handed over so far. -/
  segments : List Segment

namespace Reading

/-- How the reading of a part ended. -/
inductive Ending where
  | finished
  /-- A release was heard; it leads out of the held node around. -/
  | released
  /-- There are no more cues. -/
  | stopped
deriving DecidableEq, Repr

/-- Waits for leave to make an operation, unless a release is heard before. One that nobody listens
to is lost. -/
def heed (listening : Bool) : List Cue → Ending × List Cue
  | [] => (.stopped, [])
  | .go :: cues => (.finished, cues)
  | .release :: cues => if listening then (.released, cues) else heed listening cues

/-- The cues after the first release that is heard, at the end of a held body. Nothing else leads
on from there. -/
def afterRelease? (listening : Bool) : List Cue → Option (List Cue)
  | [] => none
  | .go :: cues => afterRelease? listening cues
  | .release :: cues => if listening then some cues else afterRelease? listening cues

/-- Waits for leave to make the next operation. A release is heard inside a held node, as long as
no locked one guards the place. -/
def next (around : Nesting) (r : Reading) : Ending × Reading :=
  let (ending, cues) := heed (around.held && !around.locked) r.cues
  (ending, { r with cues })

/-- Goes on with `f` where a part has been read to its end. -/
def andThen (x : Ending × Reading) (f : Reading → Ending × Reading) : Ending × Reading :=
  match x with
  | (.finished, r) => f r
  | stuck => stuck

/-- A number of passes, one after the other, and then `last`. -/
def passes (pass : Reading → Ending × Reading) (last : Ending) : Nat → Reading → Ending × Reading
  | 0, r => (last, r)
  | n + 1, r => andThen (pass r) (passes pass last n)

/-- What becomes of a held node: its body is left by a release, which may also come after its
end. -/
def leaveHeld (around : Nesting) : Ending × Reading → Ending × Reading
  | (.finished, r) =>
    match afterRelease? (!around.locked) r.cues with
    | some cues => (.finished, { r with cues })
    | none => (.stopped, { r with cues := [] })
  | (.released, r) => (.finished, r)
  | (.stopped, r) => (.stopped, r)

end Reading

/-! ## Nodes -/

namespace Score

open Reading (andThen passes leaveHeld)

variable (rate : Rate) (range : Range)

mutual

/-- Reads a node, with `around` saying which kinds of node it stands in. The end of a pass through
a body is an operation inside it. The passes of a loop are as many as there are cues, which is more
than there can be. -/
def Node.read (around : Nesting) : Node → Reading → Reading.Ending × Reading
  | .ramp volts time tag, r =>
    andThen (r.next around) fun r =>
      let (x, cells) := volts.read r.cells
      let (t, cells) := time.read cells
      match Curve.parse tag with
      | .ok curve =>
        (.finished,
          { r with cells, segments := r.segments ++ [⟨range.clamp x, rate.ticks t, curve⟩] })
      | .error _ => (.stopped, r)
  | .seq body, r =>
    andThen (r.next around) fun r => andThen (readAll around body r) (·.next around)
  | .loop body, r =>
    andThen (r.next around) fun r =>
      passes (fun r => andThen (readAll around body r) (·.next around)) .stopped r.cues.length r
  | .held body, r =>
    andThen (r.next around) fun r =>
      leaveHeld around (readAll { around with held := true } body r)
  | .lock body, r =>
    andThen (r.next around) fun r =>
      andThen (readAll { around with locked := true } body r) (·.next { around with locked := true })
  | .times count body, r =>
    andThen (r.next around)
      (passes (fun r => andThen (readAll around body r) (·.next around)) .finished count)
  | .when condition body, r =>
    andThen (r.next around) fun r =>
      let (x, cells) := condition.read r.cells
      let r := { r with cells }
      if met x then andThen (readAll around body r) (·.next around) else (.finished, r)

def readAll (around : Nesting) : List Node → Reading → Reading.Ending × Reading
  | [], r => (.finished, r)
  | node :: rest, r => andThen (node.read around r) (readAll around rest)

end

/-- The segments of a score, in the order in which they are handed over, as far as the cues go. -/
def read (score : List Node) (cells : Cells) (cues : List Cue) : List Segment :=
  (readAll rate range ⟨false, false⟩ score ⟨cells, cues, []⟩).2.segments

end Score

end ControlVoltage

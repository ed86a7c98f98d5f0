import ControlVoltage.SetupError
import ControlVoltage.Text.Blank

/-!
# Ramp curves

A curve takes the position in a segment, from 0 to 1, to the progress made, from 0 to 1.
`Curve.parse` reads its tag: blank ends and ASCII case do not count, and the usual short and long
forms are known.
-/

namespace ControlVoltage

/-- How a ramp gets from its start to its target. -/
inductive Curve where
  /-- A straight line. -/
  | linear
  /-- Half a cosine wave: slow at both ends. -/
  | sine
  /-- Fast at first, slowing down toward the target. -/
  | log
  /-- Slow at first, speeding up into the target. -/
  | exp
  /-- On the target from the first sample. -/
  | now
  /-- On the start until the last sample. -/
  | wait
deriving DecidableEq, Repr

namespace Curve

def all : List Curve := [.linear, .sine, .log, .exp, .now, .wait]

def name : Curve → String
  | .linear => "linear"
  | .sine => "sine"
  | .log => "log"
  | .exp => "exp"
  | .now => "now"
  | .wait => "wait"

/-- The curve that a tag in lower case and without blank ends stands for. -/
def ofTag? : String → Option Curve
  | "linear" | "lin" => some .linear
  | "sine" | "sin" => some .sine
  | "log" | "logarithmic" => some .log
  | "exp" | "expo" | "exponential" => some .exp
  | "now" => some .now
  | "wait" => some .wait
  | _ => none

/-- The form in which tags are compared. -/
def normalTag (tag : String) : String :=
  String.ofList ((trimBlank tag.toList).map Char.toLower)

def parse (tag : String) : Except SetupError Curve :=
  match ofTag? (normalTag tag) with
  | some curve => .ok curve
  | none => .error (.unknownCurve tag)

end Curve

end ControlVoltage

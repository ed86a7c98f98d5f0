import ControlVoltage.Signal.Curve
import ControlVoltage.Single.Cosine
import ControlVoltage.Single.PowerOfTwo

/-!
# Curve tables

The three curves that need a cosine or a power of two are sampled once at 257 points and read by
linear interpolation.

* `Transcendental` : the two functions that the tables are built from, as a parameter.
* `Samples.ofCurve` : the running maximum of the clamped samples, from exactly 0 to exactly 1. It
  never decreases, whatever the two functions return.
* `CurveTable.eval` : the progress at any position.
-/

namespace ControlVoltage

/-- The functions of the two transcendental families. -/
structure Transcendental where
  cosine : Float32 → Float32
  exp2 : Float32 → Float32

def Transcendental.standard : Transcendental := ⟨Single.cosine, Single.exp2⟩

namespace Curve

/-- How far the raw logarithmic and exponential curves miss 0 and 1: `2 ^ -10`. -/
def residue : Float32 := 1 / 1024

/-- The nearest single to `π`. -/
def pi : Float32 := .ofBits 0x40490fdb

/-- The curve itself at a position from 0 to 1, before sampling. -/
def exact (f : Transcendental) (curve : Curve) (t : Float32) : Float32 :=
  match curve with
  | .linear => t
  | .sine => 0.5 - 0.5 * f.cosine (pi * t)
  | .log => (1 - f.exp2 (-10 * t)) / (1 - residue)
  | .exp => (f.exp2 (10 * (t - 1)) - residue) / (1 - residue)
  | .now => if 0 < t then 1 else 0
  | .wait => if 1 ≤ t then 1 else 0

end Curve

/-! ## Samples -/

/-- The largest value so far, along a list. -/
def runningMax (peak : Float32) : List Float32 → List Float32
  | [] => []
  | x :: xs =>
    let peak := Single.larger peak x
    peak :: runningMax peak xs

@[simp] theorem length_runningMax (peak : Float32) (xs : List Float32) :
    (runningMax peak xs).length = xs.length := by
  induction xs generalizing peak with
  | nil => rfl
  | cons x xs ih => simp [runningMax, ih]

/-- A curve at the positions `0 / 256, 1 / 256, …, 256 / 256`. -/
structure Samples where
  points : Vector Float32 257

namespace Samples

/-- The curve at one of the sampled positions, clamped. -/
def clampedAt (f : Transcendental) (curve : Curve) (i : Nat) : Float32 :=
  Single.clamp 0 1 (curve.exact f (Single.ofNat i / 256))

/-- The clamped samples with their running maximum, and the two ends put in exactly. -/
def ofCurve (f : Transcendental) (curve : Curve) : Samples :=
  let peaks := (runningMax 0 ((List.range 257).map (clampedAt f curve))).toArray
  ⟨Vector.ofFn fun i =>
    if i.val = 0 then 0 else if i.val = 256 then 1 else peaks.getD i.val 1⟩

/-- The progress at a position from 0 to 1, on the line between the two samples around it. -/
def progress (samples : Samples) (t : Float32) : Float32 :=
  if 1 ≤ t then 1
  else
    let position := t * 256
    let index := min position.toUInt32.toNat 255
    have below : index < 256 := by omega
    let fraction := position - Single.ofNat index
    let a := samples.points.get ⟨index, by omega⟩
    let b := samples.points.get ⟨index + 1, by omega⟩
    Single.clamp a b (a + (b - a) * fraction)

end Samples

/-! ## The table -/

/-- The samples of the three transcendental curves. -/
structure CurveTable where
  sine : Samples
  log : Samples
  exp : Samples

namespace CurveTable

def build (f : Transcendental) : CurveTable :=
  ⟨.ofCurve f .sine, .ofCurve f .log, .ofCurve f .exp⟩

def standard : CurveTable := build .standard

/-- The progress of a curve at any position; a NaN counts as the start. -/
def eval (table : CurveTable) (curve : Curve) (t : Float32) : Float32 :=
  let t := if t.isNaN then 0 else Single.clamp 0 1 t
  match curve with
  | .sine => table.sine.progress t
  | .log => table.log.progress t
  | .exp => table.exp.progress t
  | .linear => t
  | .now => if 0 < t then 1 else 0
  | .wait => if 1 ≤ t then 1 else 0

end CurveTable

end ControlVoltage

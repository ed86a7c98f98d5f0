import ControlVoltage.Output.Sink

/-!
# Recordings

A recording keeps the samples of each channel up to a capacity. Samples beyond it are counted and
discarded.
-/

namespace ControlVoltage

/-- The samples of each channel. -/
structure Recording where
  channels : PerChannel (Array Float32)
  capacity : Nat
  /-- Samples that found their channel full. -/
  overflow : Nat

namespace Recording

def empty (capacity : Nat) : Recording := ⟨.replicate #[], capacity, 0⟩

def samples (r : Recording) (c : Channel) : Array Float32 := r.channels.get c

/-- The ticks that have a sample of every channel. -/
def size (r : Recording) : Nat :=
  Channel.all.foldl (fun n c => min n (r.samples c).size) (r.samples Channel.first).size

def isEmpty (r : Recording) : Bool := r.size = 0

/-- The frame of a tick, if it is complete. -/
def frame? (r : Recording) (tick : Nat) : Option Frame :=
  if tick < r.size then some (.ofFn fun c => (r.samples c).getD tick 0) else none

/-- The complete frames in order. -/
def frames (r : Recording) : List Frame := (List.range r.size).filterMap r.frame?

/-- Keeps a sample, or counts it when its channel is full. -/
def write (r : Recording) (c : Channel) (volts : Float32) : Recording :=
  if (r.samples c).size < r.capacity then
    { r with channels := r.channels.modify c fun samples => samples.push volts }
  else { r with overflow := r.overflow + 1 }

def clear (r : Recording) : Recording := empty r.capacity

instance : Sink Recording where
  write := write
  endTick r := r

end Recording

end ControlVoltage

import ControlVoltage.Fifo
import ControlVoltage.Output.Sink

/-!
# Frame rings

A ring hands whole frames to a reader. The end of a tick puts the frame that has been written into
the queue; when the queue is full the frame is dropped.
-/

namespace ControlVoltage

/-- A queue of frames with the frame being written. -/
structure Ring where
  queue : Fifo Frame
  /-- The last voltage written to each channel. -/
  pending : Frame
  /-- Frames that found the queue full. -/
  dropped : Nat

namespace Ring

/-- An empty ring; it has room for one frame at least. -/
def empty (capacity : Nat) : Ring := ⟨.empty (max capacity 1), .zero, 0⟩

def write (r : Ring) (c : Channel) (volts : Float32) : Ring :=
  { r with pending := r.pending.set c volts }

def endTick (r : Ring) : Ring :=
  match r.queue.push? r.pending with
  | some queue => { r with queue }
  | none => { r with dropped := r.dropped + 1 }

/-- Takes the oldest frame. -/
def pop? (r : Ring) : Option (Frame × Ring) :=
  r.queue.pop?.map fun (frame, queue) => (frame, { r with queue })

/-- Takes all frames. -/
def drain (r : Ring) : List Frame × Ring :=
  (r.queue.items, { r with queue := r.queue.clear })

instance : Sink Ring where
  write := write
  endTick := endTick

end Ring

end ControlVoltage

import ControlVoltage.Engine.Command

/-!
# Clocks and other input sources

A source is polled once per tick and may give an event. A clock counts ticks: it gives a rising
edge at the start of each period and a falling edge half way through.
-/

namespace ControlVoltage

/-- A square wave on an input, counted in ticks. -/
structure Clock where
  input : Nat
  period : UInt32
  counter : UInt32
deriving DecidableEq

namespace Clock

/-- A clock with the given period. A period is at least two ticks long, so that both edges have
their own tick. -/
def ofSeconds (input : Nat) (period : Float32) (rate : Rate) : Clock :=
  ⟨input, max (rate.ticks period) 2, 0⟩

def poll (clock : Clock) : Option InputEvent × Clock :=
  let next := { clock with counter := (clock.counter + 1) % clock.period }
  if clock.counter = 0 then (some ⟨clock.input, .rising⟩, next)
  else if clock.counter = clock.period / 2 then (some ⟨clock.input, .falling⟩, next)
  else (none, next)

end Clock

/-- Where input events come from. -/
inductive Source where
  | clock (c : Clock)
  /-- What each of the coming polls gives; nothing after the last. -/
  | script (polls : List (Option InputEvent))

namespace Source

def poll : Source → Option InputEvent × Source
  | .clock c =>
    let (event, next) := c.poll
    (event, .clock next)
  | .script [] => (none, .script [])
  | .script (event :: rest) => (event, .script rest)

end Source

end ControlVoltage

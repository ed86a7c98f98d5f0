import ControlVoltage.Output.Ring
import ControlVoltage.Session.Basic

/-!
# Running live

The real-time half can be sent to a thread of its own, where it ticks into a device while the host
services the engine. Until `stop` brings it back the session can neither render nor be started
again, and what became of the thread is reported then.

`live` is a whole run into a ring, with the two halves taking turns. How the turns fall does not
show in the samples other than by repetition: a segment that waits for the host keeps its voltage.
-/

namespace ControlVoltage.Session

/-- Sends the real-time half to a thread; `thread` is what becomes of it before its first tick. -/
def start (s : Session) (thread : Thread) : Except SessionError Session :=
  if s.realtime = .here then .ok { s with realtime := .away thread } else .error .running

/-- Whether there is a thread that has not come to an end. One that crashed never says so. -/
def isRunning (s : Session) : Bool :=
  match s.realtime with
  | .away .ticking => true
  | .away .crashed => true
  | _ => false

/-- Ends the thread and takes the real-time half back, if it did not crash. The last notices are
taken; the failure of the device, if it failed, is the result. -/
def stop (s : Session) : Except SessionError Unit × Session :=
  match s.realtime with
  | .here => (.ok (), s)
  | .lost => (.ok (), s)
  | .away .crashed => (.error .threadLost, { s with realtime := .lost })
  | .away .ticking => (.ok (), ({ s with realtime := .here }).service.2)
  | .away (.failed error) =>
    (.error (.device error), ({ s with realtime := .here }).service.2)

/-- What a live run has given so far: the frames and the channels whose programs have ended. -/
structure Take where
  frames : Array Frame
  ended : List Channel

/-- One turn of both halves: a tick into the ring, a service, and all events and frames taken. -/
def turn (s : Session) (ring : Ring) (take : Take) : Session × Ring × Take :=
  let (s, ring) := s.pulse .free false ring
  let (_, s) := s.service
  let (ended, e) := s.engine.drainEvents
  let (frames, ring) := ring.drain
  ({ s with engine := e }, ring, ⟨take.frames ++ frames.toArray, take.ended ++ ended⟩)

/-- A number of turns. -/
def turns : (count : Nat) → Session → Ring → Take → Session × Ring × Take
  | 0, s, ring, take => (s, ring, take)
  | n + 1, s, ring, take =>
    let (s, ring, take) := s.turn ring take
    turns n s ring take

/-- Turns until a number of programs have ended, and at most `limit` turns. -/
def turnsUntil (ended : Nat) :
    (limit : Nat) → Session → Ring → Take → Session × Ring × Take
  | 0, s, ring, take => (s, ring, take)
  | n + 1, s, ring, take =>
    if ended ≤ take.ended.length then (s, ring, take)
    else
      let (s, ring, take) := s.turn ring take
      turnsUntil ended n s ring take

/-- The turns made after the last awaited program has ended. -/
def coda : Nat := 4

/-- A live run until a number of programs have ended and a few ticks more. -/
def live (s : Session) (ended limit : Nat) : Except SessionError (Take × Session) := do
  let s ← s.start .ticking
  let (s, ring, take) := turnsUntil ended limit s (.empty 1) ⟨#[], []⟩
  let (s, _, take) := turns coda s ring take
  match s.stop with
  | (.ok (), s) => return (take, s)
  | (.error error, _) => throw error

/-- A list without the entries that have the same key as the one after them. -/
def collapse {α β : Type} [DecidableEq β] (key : α → β) : List α → List α
  | [] => []
  | x :: rest =>
    match collapse key rest with
    | [] => [x]
    | y :: ys => if key x = key y then y :: ys else x :: y :: ys

end ControlVoltage.Session

import ControlVoltage.Engine.Perform

/-!
# Input events

An event runs its input's handler on the real-time side. The real-time side never waits: while the
host is busy with the engine the event is dropped, and a channel whose lock is held refuses the
handler's command.
-/

namespace ControlVoltage

/-- What became of an event. -/
inductive Delivery where
  | delivered
  /-- The host was busy; the event is gone. -/
  | dropped
  /-- The input has no handler. -/
  | unhandled
  /-- The handler failed. -/
  | failed
deriving DecidableEq, Repr

namespace Engine

/-- Sets or removes the handler of an input. -/
def setHandler (e : Engine) (input : Nat) (handler : Option Handler) :
    Except CommandError Unit × Engine :=
  if h : input < 2 then (.ok (), { e with handlers := e.handlers.set input handler })
  else (.error (.invalidInput input), e)

/-- Runs the handler of an event in the real-time context, and says whether there is one. The
answers of the handler's commands come with it, and the context is what it was before. -/
def dispatch (e : Engine) (locks : Locks) (event : InputEvent) :
    Except CommandError Bool × List Answer × Engine :=
  match e.handlers[event.input]? with
  | none => (.error (.invalidInput event.input), [], e)
  | some none => (.ok false, [], e)
  | some (some handler) =>
    let (result, answers, after) :=
      runScript { e with context := .realtime } locks (handler event)
    (result.map fun _ => true, answers, { after with context := e.context })

/-- Delivers an event from the real-time side; `busy` says that the host holds the engine. -/
def deliver (e : Engine) (locks : Locks) (busy : Bool) (event : InputEvent) :
    Delivery × List Answer × Engine :=
  if busy then
    let e := { e with counts := { e.counts with dropped := e.counts.dropped + 1 } }
    (.dropped, [], e.post (.eventDropped event.input))
  else
    match e.dispatch locks event with
    | (.ok true, answers, e) => (.delivered, answers, e)
    | (.ok false, answers, e) => (.unhandled, answers, e)
    | (.error error, answers, e) =>
      (.failed, answers, e.post (.handlerFailed event.input error))

/-- Takes all notices. -/
def drainNotices (e : Engine) : List Notice × Engine :=
  (e.notices.items, { e with notices := e.notices.clear })

end Engine

end ControlVoltage

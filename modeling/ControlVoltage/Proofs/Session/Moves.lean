import ControlVoltage.Proofs.Engine.Moves
import ControlVoltage.Session.Live
import ControlVoltage.Session.Render

/-!
# Runs of a session

A tick of a session polls the sources once each, delivers what they offer in this order, and then
ticks the engine. So a session is an engine in a run of its own: what is true of every reachable
engine is true of every reachable session.

* `Engine.visits` : the commands of a script, each with the engine that it is run on.
* `Engine.deliveryMoves`, `Session.pulseMoves`, `Session.renderMoves` : what happens to the engine.
* `Session.Move`, `Session.Reachable` : what can happen to a session, and what it can lead to.
-/

namespace ControlVoltage

namespace Engine

/-! ## Scripts -/

/-- The commands of a script, each with the engine that it is run on. -/
def visits (locks : Locks) : Engine → Script → List (Engine × Command)
  | _, .finish _ => []
  | e, .perform command next =>
    (e, command) :: visits locks (e.perform locks command).2 (next (e.perform locks command).1)

def scriptMoves (locks : Locks) (e : Engine) (script : Script) : List Move :=
  (visits locks e script).map fun visit => .perform locks visit.2

theorem runScript_eq (e : Engine) (locks : Locks) (script : Script) :
    (e.runScript locks script).2.2 = e.run (scriptMoves locks e script) := by
  induction script generalizing e with
  | finish result => rfl
  | perform command next ih =>
    have rest := ih (e.perform locks command).1 (e.perform locks command).2
    have hmoves : scriptMoves locks e (.perform command next) =
        .perform locks command ::
          scriptMoves locks (e.perform locks command).2 (next (e.perform locks command).1) := rfl
    rw [hmoves, show e.run (.perform locks command :: _) = (e.perform locks command).2.run _ from rfl,
      ← rest, runScript]
    obtain ⟨⟨outcome, e'⟩, hperform⟩ : ∃ x, e.perform locks command = x := ⟨_, rfl⟩
    rw [hperform]
    cases outcome <;> rfl

theorem visits_keep {P : Engine → Prop} {locks : Locks}
    (keeps : ∀ e command, P e → P (e.perform locks command).2) {e : Engine} (h : P e)
    (script : Script) :
    (∀ visit ∈ visits locks e script, P visit.1) ∧ P (e.runScript locks script).2.2 := by
  rw [runScript_eq]
  induction script generalizing e with
  | finish result => exact ⟨by simp [visits], h⟩
  | perform command next ih =>
    obtain ⟨hvisits, hend⟩ := ih (e.perform locks command).1 (keeps e command h)
    exact ⟨List.forall_mem_cons.2 ⟨h, hvisits⟩, hend⟩

/-! ## Deliveries -/

/-- The commands that the handler of an event runs, each with the engine that it is run on. -/
def handled (e : Engine) (locks : Locks) (event : InputEvent) : List (Engine × Command) :=
  match e.handlers[event.input]? with
  | some (some handler) => visits locks { e with context := .realtime } (handler event)
  | _ => []

/-- What the handler of an event does, from the switch to the real-time side to the switch back. -/
def dispatchMoves (e : Engine) (locks : Locks) (event : InputEvent) : List Move :=
  match e.handlers[event.input]? with
  | some (some _) =>
    .switch .realtime :: (e.handled locks event).map (fun visit => .perform locks visit.2) ++
      [.switch e.context]
  | _ => []

theorem dispatch_eq (e : Engine) (locks : Locks) (event : InputEvent) :
    (e.dispatch locks event).2.2 = e.run (e.dispatchMoves locks event) := by
  unfold dispatch dispatchMoves handled
  cases e.handlers[event.input]? with
  | none => rfl
  | some slot =>
    cases slot with
    | none => rfl
    | some handler =>
      simp only
      rw [run_append, show run e (.switch .realtime :: _) = run { e with context := .realtime } _ from rfl,
        runScript_eq]
      rfl

def deliveryMoves (e : Engine) (locks : Locks) (busy : Bool) (event : InputEvent) : List Move :=
  if busy then [.drop event.input]
  else
    e.dispatchMoves locks event ++
      match (e.dispatch locks event).1 with
      | .error error => [.post (.handlerFailed event.input error)]
      | .ok _ => []

theorem deliver_eq (e : Engine) (locks : Locks) (busy : Bool) (event : InputEvent) :
    (e.deliver locks busy event).2.2 = e.run (e.deliveryMoves locks busy event) := by
  unfold deliver deliveryMoves
  cases busy with
  | true => rfl
  | false =>
    have hdispatch := e.dispatch_eq locks event
    obtain ⟨⟨result, answers, e'⟩, h⟩ : ∃ x, e.dispatch locks event = x := ⟨_, rfl⟩
    rw [h] at hdispatch
    simp only [Bool.false_eq_true, if_false, h]
    cases result with
    | error fault =>
      rw [run_append, ← hdispatch]
      rfl
    | ok there =>
      rw [List.append_nil, ← hdispatch]
      cases there <;> rfl

def deliverAll (locks : Locks) (busy : Bool) (e : Engine) (events : List InputEvent) : Engine :=
  events.foldl (fun e event => (e.deliver locks busy event).2.2) e

def deliveriesMoves (locks : Locks) (busy : Bool) : Engine → List InputEvent → List Move
  | _, [] => []
  | e, event :: events =>
    e.deliveryMoves locks busy event ++
      deliveriesMoves locks busy (e.deliver locks busy event).2.2 events

theorem deliverAll_eq (locks : Locks) (busy : Bool) (e : Engine) (events : List InputEvent) :
    deliverAll locks busy e events = e.run (deliveriesMoves locks busy e events) := by
  induction events generalizing e with
  | nil => rfl
  | cons event events ih =>
    rw [deliveriesMoves, run_append, ← deliver_eq, ← ih]
    rfl

end Engine

namespace Session

open Engine (deliverAll deliveriesMoves deliverAll_eq)

/-! ## Ticks -/

/-- The events that the sources have for the coming tick. -/
def offered (s : Session) : List InputEvent := s.sources.filterMap fun source => source.poll.1

def pulseMoves (s : Session) (locks : Locks) (busy : Bool) : List Engine.Move :=
  deliveriesMoves locks busy s.engine s.offered ++ [.tick locks]

theorem pollSources_eq (locks : Locks) (busy : Bool) (e : Engine) (sources : List Source) :
    pollSources locks busy e sources =
      (deliverAll locks busy e (sources.filterMap fun source => source.poll.1),
        sources.map fun source => source.poll.2) := by
  induction sources generalizing e with
  | nil => rfl
  | cons source rest ih =>
    obtain ⟨⟨event, next⟩, hpoll⟩ : ∃ x, source.poll = x := ⟨_, rfl⟩
    cases event with
    | none => simp only [pollSources, hpoll, ih, List.filterMap_cons, List.map_cons]
    | some event =>
      simp only [pollSources, hpoll, ih, List.filterMap_cons, List.map_cons]
      rfl

variable {σ : Type} [Sink σ]

theorem pulse_eq (s : Session) (locks : Locks) (busy : Bool) (out : σ) :
    s.pulse locks busy out =
      ({ s with
          engine := ((deliverAll locks busy s.engine s.offered).tick locks out).1
          sources := s.sources.map fun source => source.poll.2 },
        ((deliverAll locks busy s.engine s.offered).tick locks out).2) := by
  rw [pulse, pollSources_eq]
  rfl

theorem engine_pulse (s : Session) (locks : Locks) (busy : Bool) (out : σ) :
    (s.pulse locks busy out).1.engine = s.engine.run (s.pulseMoves locks busy) := by
  rw [pulse_eq, pulseMoves, Engine.run_append, ← deliverAll_eq]
  exact Engine.tick_sink _ locks out _

/-! ## Rounds -/

theorem perform_service (e : Engine) (locks : Locks) :
    (e.perform locks .service).2 = (e.service locks).2 := by
  rw [Engine.perform]

theorem service_eq (s : Session) :
    s.service = ((s.engine.service .free).1,
      { s with engine := (s.engine.service .free).2.drainNotices.2 }) := by
  obtain ⟨⟨n, e⟩, hservice⟩ : ∃ x, s.engine.service .free = x := ⟨_, rfl⟩
  simp only [service, hservice]

def serviceMoves : List Engine.Move := [.perform .free .service, .drainNotices]

theorem engine_service (s : Session) : s.service.2.engine = s.engine.run serviceMoves := by
  simp only [service_eq, serviceMoves, Engine.run, List.foldl_cons, List.foldl_nil, Engine.after,
    perform_service]

def round (s : Session) (out : σ) : Session × σ :=
  ((s.pulse .free false out).1.service.2, (s.pulse .free false out).2)

theorem pulses_succ (n : Nat) (s : Session) (out : σ) :
    pulses (n + 1) s out = pulses n (s.round out).1 (s.round out).2 := by
  obtain ⟨⟨s', out'⟩, hpulse⟩ : ∃ x, s.pulse .free false out = x := ⟨_, rfl⟩
  simp only [pulses, round, hpulse]

theorem round_sink {τ : Type} [Sink τ] (s : Session) (out : σ) (out' : τ) :
    (s.round out).1 = (s.round out').1 := by
  simp only [round, pulse_eq, Engine.tick_sink _ .free out out']

def rounds : Nat → Session → Session
  | 0, s => s
  | n + 1, s => rounds n (s.round s.engine.lastFrame).1

theorem pulses_fst (n : Nat) (s : Session) (out : σ) : (pulses n s out).1 = s.rounds n := by
  induction n generalizing s out with
  | zero => rfl
  | succ n ih =>
    rw [pulses_succ, ih, rounds, s.round_sink out s.engine.lastFrame]

def roundMoves (s : Session) : List Engine.Move := s.pulseMoves .free false ++ serviceMoves

/-- What a number of rounds means for the engine. -/
def renderMoves : Nat → Session → List Engine.Move
  | 0, _ => []
  | n + 1, s => s.roundMoves ++ renderMoves n (s.round s.engine.lastFrame).1

theorem engine_round (s : Session) (out : σ) :
    (s.round out).1.engine = s.engine.run s.roundMoves := by
  have hround : (s.round out).1 = (s.pulse .free false out).1.service.2 := by rw [round]
  rw [hround, engine_service, engine_pulse, roundMoves, Engine.run_append]

theorem engine_rounds (n : Nat) (s : Session) :
    (s.rounds n).engine = s.engine.run (s.renderMoves n) := by
  induction n generalizing s with
  | zero => rfl
  | succ n ih => rw [rounds, ih, renderMoves, Engine.run_append, engine_round]

theorem renderMoves_add (m k : Nat) (s : Session) :
    s.renderMoves (m + k) = s.renderMoves m ++ (s.rounds m).renderMoves k := by
  induction m generalizing s with
  | zero => simp [renderMoves, rounds]
  | succ m ih => rw [Nat.succ_add, renderMoves, ih, renderMoves, rounds, List.append_assoc]

theorem renderMoves_succ (n : Nat) (s : Session) :
    s.renderMoves (n + 1) = s.renderMoves n ++ (s.rounds n).roundMoves := by
  rw [renderMoves_add]
  exact congrArg (s.renderMoves n ++ ·) (List.append_nil _)

theorem rounds_succ (n : Nat) (s : Session) :
    s.rounds (n + 1) = ((s.rounds n).round (s.rounds n).engine.lastFrame).1 := by
  induction n generalizing s with
  | zero => rfl
  | succ n ih => rw [rounds, ih]; rfl

/-! ## What can happen to a session -/

/-- What can happen to a session. -/
inductive Move where
  /-- A tick, with these locks held by the host, and the engine itself too if it is busy. -/
  | pulse (locks : Locks) (busy : Bool)
  /-- The host runs a command. -/
  | perform (locks : Locks) (command : Command)
  | service
  | setHandler (input : Nat) (handler : Option Handler)
  | addSource (source : Source)
  | start (thread : Thread)
  | stop

def after (s : Session) : Move → Session
  | .pulse locks busy => (s.pulse locks busy s.engine.lastFrame).1
  | .perform locks command => { s with engine := (s.engine.perform locks command).2 }
  | .service => s.service.2
  | .setHandler input handler => { s with engine := (s.engine.setHandler input handler).2 }
  | .addSource source => (s.addSource source).toOption.getD s
  | .start thread => (s.start thread).toOption.getD s
  | .stop => s.stop.2

/-- What moves from a fresh session can lead to. -/
inductive Reachable : Session → Prop
  | fresh (rate : Rate) (range : Range) (capacity : Nat) (f : Transcendental) :
    Reachable (fresh rate range capacity f)
  | after {s : Session} (h : Reachable s) (move : Move) : Reachable (s.after move)

/-- Whatever happens to a session is a run of its engine. -/
theorem engine_after (s : Session) (move : Move) :
    ∃ moves, (s.after move).engine = s.engine.run moves := by
  cases move with
  | pulse locks busy => exact ⟨_, s.engine_pulse locks busy _⟩
  | perform locks command => exact ⟨[.perform locks command], rfl⟩
  | service => exact ⟨serviceMoves, s.engine_service⟩
  | setHandler input handler => exact ⟨[.setHandler input handler], rfl⟩
  | addSource source =>
    refine ⟨[], ?_⟩
    simp only [after, addSource]
    split <;> rfl
  | start thread =>
    refine ⟨[], ?_⟩
    simp only [after, start]
    split <;> rfl
  | stop =>
    simp only [after, stop]
    split
    · exact ⟨[], rfl⟩
    · exact ⟨[], rfl⟩
    · exact ⟨[], rfl⟩
    · exact ⟨serviceMoves, engine_service _⟩
    · exact ⟨serviceMoves, engine_service _⟩

theorem Reachable.engine {s : Session} (h : s.Reachable) : Engine.Reachable s.engine := by
  induction h with
  | fresh rate range capacity f => exact ⟨rate, range, max capacity 1, f, [], rfl⟩
  | @after s h move ih =>
    obtain ⟨moves, hmoves⟩ := s.engine_after move
    obtain ⟨rate, range, capacity, f, moves', hrun⟩ := ih
    exact ⟨rate, range, capacity, f, moves' ++ moves, by rw [hmoves, hrun, Engine.run_append]⟩

end Session

end ControlVoltage

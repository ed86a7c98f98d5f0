import ControlVoltage.Proofs.Engine.Failure
import ControlVoltage.Proofs.Session.Moves

/-!
# The triggers of an input

The handler of an input fires the triggers of its plan in order, and stops at the first that fails: for
want of a program on its channel, or of the channel's lock. Each channel is then where the triggers
before this one have left it. A trigger that is left out is lost, on whatever channel it is.

* `Engine.fireAll` : triggers in order, one after the other.
* `Engine.fired` : the triggers before the first that fails.
* `voice_fireAll_filter` : a channel depends on its own triggers only.
* `fires_until_failure` : what the event of an input does to each channel.
-/

namespace ControlVoltage.Engine

variable {e : Engine} {locks : Locks}

/-- The engine after triggers in order, also past one that fails. -/
def fireAll (locks : Locks) (e : Engine) (triggers : List (Channel × Action)) : Engine :=
  triggers.foldl (fun e t => (e.trigger locks t.1 t.2).2) e

/-- The triggers before the first that fails. -/
def fired (locks : Locks) : Engine → List (Channel × Action) → List (Channel × Action)
  | _, [] => []
  | e, t :: rest =>
    match e.trigger locks t.1 t.2 with
    | (.ok (), e) => t :: fired locks e rest
    | (.error _, _) => []

theorem fireAll_append (locks : Locks) (e : Engine) (triggers triggers' : List (Channel × Action)) :
    e.fireAll locks (triggers ++ triggers') = (e.fireAll locks triggers).fireAll locks triggers' :=
  List.foldl_append

theorem fired_isPrefix (locks : Locks) (e : Engine) (triggers : List (Channel × Action)) :
    e.fired locks triggers <+: triggers := by
  induction triggers generalizing e with
  | nil => exact List.prefix_refl []
  | cons t rest ih =>
    unfold fired
    split
    · exact (List.prefix_cons_inj t).2 (ih _)
    · exact List.nil_prefix

theorem Reachable.fireAll (h : Reachable e) (locks : Locks) (triggers : List (Channel × Action)) :
    Reachable (e.fireAll locks triggers) := by
  induction triggers generalizing e with
  | nil => exact h
  | cons t rest ih => exact ih (h.after (.perform locks (.trigger t.1 t.2)))

/-! ## Each channel for itself -/

def firingMoves (e : Engine) (locks : Locks) (triggers : List (Channel × Action)) (c : Channel) :
    List Voice.Move :=
  triggers.flatMap fun t => if t.1 = c then e.triggerMoves locks t.1 t.2 else []

theorem triggerMoves_congr {e' : Engine} (h : e'.context = e.context) (c : Channel)
    (action : Action) : e'.triggerMoves locks c action = e.triggerMoves locks c action := by
  simp [triggerMoves, grants, h]

theorem fireAll_doesAll (e : Engine) (locks : Locks) (triggers : List (Channel × Action)) :
    DoesAll e (e.firingMoves locks triggers) (e.fireAll locks triggers) := by
  induction triggers generalizing e with
  | nil => exact ⟨rfl, rfl, fun _ => rfl⟩
  | cons t rest ih =>
    have first := (trigger_does e locks t.1 t.2).all
    have others := ih (e.trigger locks t.1 t.2).2
    refine ⟨others.rig.trans first.rig, others.context.trans first.context, fun c => ?_⟩
    have same : (e.trigger locks t.1 t.2).2.firingMoves locks rest c = e.firingMoves locks rest c := by
      simp only [firingMoves, triggerMoves_congr first.context]
    show ((e.trigger locks t.1 t.2).2.fireAll locks rest).voice c = _
    rw [others.voice, first.voice, first.rig, same]
    exact List.foldl_append.symm

theorem voice_fireAll_filter (e : Engine) (locks : Locks) (triggers : List (Channel × Action))
    (c : Channel) :
    (e.fireAll locks (triggers.filter fun t => t.1 = c)).voice c =
      (e.fireAll locks triggers).voice c := by
  have same : e.firingMoves locks (triggers.filter fun t => t.1 = c) c =
      e.firingMoves locks triggers c := by
    induction triggers with
    | nil => rfl
    | cons t rest ih =>
      unfold firingMoves at ih ⊢
      by_cases hc : t.1 = c
      · rw [List.filter_cons_of_pos (by simpa using hc), List.flatMap_cons, List.flatMap_cons, ih]
      · rw [List.filter_cons_of_neg (by simpa using hc), List.flatMap_cons, if_neg hc, ih]
        rfl
  rw [(fireAll_doesAll e locks _).voice, (fireAll_doesAll e locks _).voice, same]

/-! ## The script -/

/-- A script of triggers: those before the first failure are fired, and it is the failure that the
script ends with. -/
theorem runScript_triggers (reachable : Reachable e) (locks : Locks)
    (triggers : List (Channel × Action)) :
    let script := Script.inOrder (triggers.map fun (c, action) => .ok (.trigger c action))
    let after := e.fireAll locks (e.fired locks triggers)
    (e.runScript locks script).2.2 = after ∧
      (triggers = e.fired locks triggers ∧ (e.runScript locks script).1 = .ok () ∨
        ∃ c action rest error, triggers = e.fired locks triggers ++ (c, action) :: rest ∧
          (e.runScript locks script).1 = .error error ∧
          after.trigger locks c action = (.error error, after)) := by
  induction triggers generalizing e with
  | nil => exact ⟨rfl, .inl ⟨rfl, rfl⟩⟩
  | cons t rest ih =>
    obtain ⟨c, action⟩ := t
    obtain ⟨⟨result, e'⟩, htrigger⟩ : ∃ x, e.trigger locks c action = x := ⟨_, rfl⟩
    cases result with
    | error error =>
      have hperform : e.perform locks (.trigger c action) = (.error error, e') := by
        simp only [perform, perform.answer, htrigger]
        rfl
      have hnone : e.fired locks ((c, action) :: rest) = [] := by simp only [fired, htrigger]
      -- A trigger that fails leaves the engine where the triggers before it have led.
      have hsame : e' = e := by
        have h := (trigger_error (reachable.sound c) (by rw [htrigger])).1
        rwa [htrigger] at h
      subst hsame
      rw [hnone]
      refine ⟨?_, .inr ⟨c, action, rest, error, rfl, ?_, htrigger⟩⟩
      · simp only [List.map_cons, Script.inOrder, runScript, hperform]
        rfl
      · simp only [List.map_cons, Script.inOrder, runScript, hperform]
    | ok done =>
      have hperform : e.perform locks (.trigger c action) = (.ok .nothing, e') := by
        simp only [perform, perform.answer, htrigger]
        rfl
      have hfired : e.fired locks ((c, action) :: rest) = (c, action) :: e'.fired locks rest := by
        simp only [fired, htrigger]
      have hafter : e.fireAll locks ((c, action) :: e'.fired locks rest) =
          e'.fireAll locks (e'.fired locks rest) := by
        simp only [fireAll, List.foldl_cons, htrigger]
      have reachable' : Reachable e' := by
        have h := reachable.after (.perform locks (.trigger c action))
        rwa [Engine.after, hperform] at h
      obtain ⟨hengine, hresult⟩ := ih reachable'
      rw [hfired, hafter]
      simp only [List.map_cons, Script.inOrder, runScript, hperform]
      refine ⟨hengine, ?_⟩
      rcases hresult with ⟨hall, hok⟩ | ⟨d, failing, others, error, hlist, herror, htrigger'⟩
      · exact .inl ⟨congrArg _ hall, hok⟩
      · exact .inr ⟨d, failing, others, error, congrArg _ hlist, herror, htrigger'⟩

/-! ## Events -/

theorem handlers_setupInput {s s' : Session} {plan : Boot.InputPlan}
    (h : s.setupInput plan = .ok s') :
    s'.engine.handlers[plan.input]? = some (some plan.handler) := by
  by_cases hinput : plan.input < 2
  · have hsettle : Session.settle (s.engine.setHandler plan.input (some plan.handler)) =
        .ok { s.engine with handlers := s.engine.handlers.set plan.input (some plan.handler) } := by
      simp only [setHandler, dif_pos hinput, Session.settle]
    have hengine : s'.engine =
        { s.engine with handlers := s.engine.handlers.set plan.input (some plan.handler) } := by
      unfold Session.setupInput at h
      rw [hsettle] at h
      cases hclock : plan.clock with
      | none =>
        simp only [bind, Except.bind, hclock] at h
        cases h
        rfl
      | some period =>
        simp only [bind, Except.bind, hclock, Session.addClock, Session.addSource] at h
        split at h
        · cases h
          rfl
        · cases h
    simp [hengine]
  · have hsettle : Session.settle (s.engine.setHandler plan.input (some plan.handler)) =
        .error (.command (.invalidInput plan.input)) := by
      simp only [setHandler, dif_neg hinput, Session.settle]
    unfold Session.setupInput at h
    rw [hsettle] at h
    cases h

/-- The event of an input, on one of the edges that it listens to. The triggers of its plan are fired in
order up to the first that fails, and it fails for want of a program on its channel or of the channel's
lock. Each channel is where its own triggers among those before this one have left it. That is where all
of its own triggers in the plan would have left it if and only if the ones left out would change nothing
on the channel any more. -/
theorem fires_until_failure (reachable : Reachable e) (locks : Locks) (event : InputEvent)
    (plan : Boot.InputPlan) (hplan : e.handlers[event.input]? = some (some plan.handler))
    (hedge : plan.edge.fires event.kind = true) :
    let e' := { e with context := .realtime }
    let fired := e'.fired locks plan.triggers
    let left := plan.triggers.drop fired.length
    let after := (e.dispatch locks event).2.2
    plan.triggers = fired ++ left ∧
      (∀ d, after.voice d = (e'.fireAll locks (fired.filter fun t => t.1 = d)).voice d) ∧
      (left = [] ∧ (e.dispatch locks event).1 = .ok true ∨
        ∃ c action rest error, left = (c, action) :: rest ∧
          (e.dispatch locks event).1 = .error error ∧
          ((after.voice c).player = none ∧ error = .noProgram c ∨
            locks c = true ∧ error = .contention)) ∧
      ∀ d, after.voice d = (e'.fireAll locks (plan.triggers.filter fun t => t.1 = d)).voice d ↔
        ((e'.fireAll locks fired).fireAll locks left).voice d = after.voice d := by
  intro e' fired left after
  have reachable' : Reachable e' := reachable.after (.switch .realtime)
  obtain ⟨hengine, hresult⟩ := runScript_triggers reachable' locks plan.triggers
  have hscript : plan.handler event =
      .inOrder (plan.triggers.map fun (c, action) => .ok (.trigger c action)) := by
    rw [Boot.InputPlan.handler, if_pos hedge]
  have hdispatch : e.dispatch locks event =
      ((e'.runScript locks (plan.handler event)).1.map fun _ => true,
        (e'.runScript locks (plan.handler event)).2.1,
        { (e'.runScript locks (plan.handler event)).2.2 with context := e.context }) := by
    simp only [dispatch, hplan]
    rfl
  rw [← hscript] at hengine hresult
  have hvoice : ∀ d, after.voice d = (e'.fireAll locks fired).voice d := by
    intro d
    show (e.dispatch locks event).2.2.voice d = _
    rw [hdispatch, ← hengine]
    rfl
  have happend : fired ++ left = plan.triggers :=
    List.prefix_iff_eq_append.1 (fired_isPrefix locks e' plan.triggers)
  refine ⟨happend.symm, fun d => ?_, ?_, fun d => ?_⟩
  · rw [hvoice, voice_fireAll_filter]
  · rcases hresult with ⟨hall, hok⟩ | ⟨c, action, rest, error, hlist, herror, htrigger⟩
    · have hnone : fired ++ left = fired ++ [] := by
        rw [List.append_nil, happend]
        exact hall
      exact .inl ⟨List.append_cancel_left hnone, by rw [hdispatch, hok]; rfl⟩
    · have hsome : left = (c, action) :: rest := List.append_cancel_left (happend.trans hlist)
      refine .inr ⟨c, action, rest, error, hsome, by rw [hdispatch, herror]; rfl, ?_⟩
      have sound := (reachable'.fireAll locks fired).sound c
      rcases (trigger_error sound (by rw [htrigger])).2 with ⟨hnone, herror⟩ | ⟨hgrants, herror⟩
      · exact .inl ⟨by rw [hvoice, hnone], herror⟩
      · have hcontext : (e'.fireAll locks fired).context = .realtime :=
          (fireAll_doesAll e' locks fired).context
        have hheld : locks c = true := by
          cases hfree : locks c with
          | true => rfl
          | false => simp [grants, hfree, access] at hgrants
        exact .inr ⟨hheld, herror⟩
  · rw [voice_fireAll_filter, ← happend, fireAll_append]
    exact eq_comm

/-- Only the second channel has a program. A restart of it that is listed before one of the first channel
is fired. -/
theorem fires_until_failure_second :
    let second : Channel := ⟨1⟩
    let plan : Boot.InputPlan := ⟨0, none, .rising, [(second, .restart), (.first, .restart)]⟩
    let e := (fresh .standard .standard 1).run
      [.perform .free (.install second [.ramp (.lit 1) (.lit 1) "linear"]),
        .setHandler 0 (some plan.handler)]
    let e' := { e with context := .realtime }
    e'.fired .free plan.triggers = [(second, .restart)] ∧
      (e.dispatch .free ⟨0, .rising⟩).2.2.voice second =
        (e'.fireAll .free [(second, .restart)]).voice second := by
  intro second plan e e'
  have hfired : e'.fired .free plan.triggers = [(second, .restart)] := by decide +kernel
  have reachable : Reachable e := ⟨.standard, .standard, 1, .standard, _, rfl⟩
  obtain ⟨-, hvoice, -⟩ := fires_until_failure reachable .free ⟨0, .rising⟩ plan rfl rfl
  refine ⟨hfired, ?_⟩
  have h := hvoice second
  rwa [show ({ e with context := .realtime } : Engine).fired .free plan.triggers = _ from hfired,
    List.filter_cons_of_pos (by decide), List.filter_nil] at h

/-- A restart of the second channel, listed after one of the first, is lost: where the first channel has
no program, and also where it has one and its lock is held. -/
theorem lost_restart :
    let second : Channel := ⟨1⟩
    let plan : Boot.InputPlan := ⟨0, none, .rising, [(.first, .restart), (second, .restart)]⟩
    let ramp : List Score.Node := [.ramp (.lit 1) (.lit 1) "linear"]
    let one := (fresh .standard .standard 1).run
      [.perform .free (.install second ramp), .setHandler 0 (some plan.handler)]
    let both := one.run [.perform .free (.install .first ramp)]
    let held : Locks := fun c => c = .first
    let own := plan.triggers.filter fun t => t.1 = second
    ((one.dispatch .free ⟨0, .rising⟩).2.2.voice second).isRunning = false ∧
      ((fireAll .free { one with context := .realtime } own).voice second).isRunning = true ∧
      ((both.dispatch held ⟨0, .rising⟩).2.2.voice second).isRunning = false ∧
      ((fireAll held { both with context := .realtime } own).voice second).isRunning = true := by
  exact ⟨by decide +kernel, by decide +kernel, by decide +kernel, by decide +kernel⟩

end ControlVoltage.Engine

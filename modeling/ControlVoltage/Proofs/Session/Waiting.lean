import ControlVoltage.Proofs.Session.Moves

/-!
# A tick does not wait

Only the host waits for a lock. On the real-time side a lock that is held is refused, so that nothing
in a tick waits, whatever the host holds and whatever the handlers do.

* `Engine.asksFor?` : the channel whose lock a command asks for.
* `Engine.perform_refused`, `Engine.perform_counts` : commands on the real-time side.
* `Engine.deliver_dropped` : what is left of an event that is dropped.
* `Session.Reachable.pulse_never_waits` : a tick of a reachable session.
-/

namespace ControlVoltage

namespace Engine

/-! ## Locks -/

/-- Whether a trigger sets a channel's program going. -/
def walks (e : Engine) (c : Channel) (action : Action) : Bool :=
  (e.voice c).player.any fun p => respond p action = .walk

/-- The channel whose lock a command asks for. A service asks for those of all channels that it can
resume, and passes over a channel whose lock it does not get. -/
def asksFor? (e : Engine) : Command → Option Channel
  | .clear c => some c
  | .trigger c action => if e.walks c action then some c else none
  | .action c number =>
    match Action.ofNumber number with
    | .ok action => if e.walks c action then some c else none
    | .error _ => none
  | .setVolts c volts =>
    match Program.single volts (e.voice c).slew (e.voice c).slewCurve with
    | .ok _ => some c
    | .error _ => none
  | .setQuantizer c _ => some c
  | .setScale c degrees modulo scaling =>
    match Quantizer.ofDegrees degrees modulo scaling with
    | .ok _ => some c
    | .error _ => none
  | .quantizer c => some c
  | .voltage c => some c
  | _ => none

variable {e : Engine} {locks : Locks} {c : Channel}

theorem acquire?_realtime (h : e.context = .realtime) (locks : Locks) (c : Channel) :
    e.acquire? locks c = if locks c then none else some e := by
  unfold acquire?
  rw [h]
  cases locks c <;> rfl

/-! ## Refusals -/

theorem trigger_refused (hcontext : e.context = .realtime) (hheld : locks c = true)
    {action : Action} (hwalks : e.walks c action = true) :
    (e.trigger locks c action).1 = .error .contention := by
  obtain ⟨p, hp, hresponse⟩ := (Option.any_eq_true _ _).1 hwalks
  simp only [trigger, hp, of_decide_eq_true hresponse, acquire?_realtime hcontext, hheld, if_true]

theorem setQuantizer_refused (hcontext : e.context = .realtime) (hheld : locks c = true)
    (q : Quantizer) : (e.setQuantizer locks c q).1 = .error .contention := by
  simp only [setQuantizer, acquire?_realtime hcontext, hheld, if_true]

theorem answer_of_error {r : Except CommandError Unit × Engine} {error : CommandError}
    (h : r.1 = .error error) : (perform.answer r).1 = .error error := by
  rw [perform.answer, h]
  rfl

theorem perform_refused (hcontext : e.context = .realtime) {command : Command}
    (hasks : e.asksFor? command = some c) (hheld : locks c = true) :
    (e.perform locks command).1 = .error .contention := by
  have hrefused : e.acquire? locks c = none := by rw [acquire?_realtime hcontext, if_pos hheld]
  cases command with
  | clear d =>
    cases hasks
    refine answer_of_error ?_
    simp only [clear, hrefused]
  | trigger d action =>
    obtain ⟨hwalks, hd⟩ := Option.ite_none_right_eq_some.1 hasks
    cases hd
    exact answer_of_error (trigger_refused hcontext hheld hwalks)
  | action d number =>
    refine answer_of_error ?_
    simp only [asksFor?] at hasks
    simp only [Engine.action]
    cases haction : Action.ofNumber number with
    | error fault => simp [haction] at hasks
    | ok action =>
      rw [haction] at hasks
      obtain ⟨hwalks, hd⟩ := Option.ite_none_right_eq_some.1 hasks
      cases hd
      exact trigger_refused hcontext hheld hwalks
  | setVolts d volts =>
    refine answer_of_error ?_
    simp only [asksFor?] at hasks
    simp only [setVolts]
    cases hsingle : Program.single volts (e.voice d).slew (e.voice d).slewCurve with
    | error fault => simp [hsingle] at hasks
    | ok program =>
      rw [hsingle] at hasks
      cases hasks
      refine trigger_refused (e := e.install c program) hcontext hheld ?_
      simp [walks, install, Player.load, respond]
  | setQuantizer d q =>
    cases hasks
    exact answer_of_error (setQuantizer_refused hcontext hheld q)
  | setScale d degrees modulo scaling =>
    refine answer_of_error ?_
    simp only [asksFor?] at hasks
    simp only [setScale]
    cases hquantizer : Quantizer.ofDegrees degrees modulo scaling with
    | error fault => simp [hquantizer] at hasks
    | ok q =>
      rw [hquantizer] at hasks
      cases hasks
      exact setQuantizer_refused hcontext hheld q
  | quantizer d =>
    cases hasks
    simp only [perform, quantizer, hrefused]
    rfl
  | voltage d =>
    cases hasks
    simp only [perform, voltage, hrefused]
    rfl
  | _ => cases hasks

theorem service_passes_over (hcontext : e.context = .realtime) (hheld : locks c = true) :
    (e.service locks).2.voice c = e.voice c := by
  have refused : e.grants locks c = false := by simp [grants, hcontext, hheld, access]
  rw [(service_doesAll e locks).voice c, refused]
  rfl

/-! ## Counts -/

theorem counts_noteProgress (e : Engine) (c : Channel) (progress : Player.Progress) :
    (e.noteProgress c progress).counts = e.counts := by
  cases progress <;> rfl

theorem trigger_counts (hcontext : e.context = .realtime) (locks : Locks) (c : Channel)
    (action : Action) : (e.trigger locks c action).2.counts = e.counts := by
  unfold trigger
  cases (e.voice c).player with
  | none => rfl
  | some p =>
    simp only
    cases respond p action with
    | unlock => rfl
    | ignore => rfl
    | walk =>
      simp only [acquire?_realtime hcontext]
      cases locks c with
      | true => rfl
      | false =>
        simp only [Bool.false_eq_true, if_false, advance_eq]
        obtain ⟨⟨result, v⟩, hwalk⟩ :
            ∃ x, (e.voice c).walk e.rig (triggered p action) (e.voice c).ramp.hold = x := ⟨_, rfl⟩
        rw [hwalk]
        cases result with
        | error fault => rfl
        | ok progress => exact counts_noteProgress _ _ _

theorem resume_counts (hcontext : e.context = .realtime) (locks : Locks) (c : Channel) :
    (e.resume locks c).2.counts = e.counts := by
  unfold resume
  cases (e.voice c).player with
  | none => rfl
  | some p =>
    simp only [acquire?_realtime hcontext]
    split
    · cases locks c with
      | true => rfl
      | false =>
        simp only [Bool.false_eq_true, if_false, advance_eq]
        obtain ⟨⟨result, v⟩, hwalk⟩ : ∃ x, (e.voice c).walk e.rig p (e.voice c).ramp = x := ⟨_, rfl⟩
        rw [hwalk]
        cases result with
        | error fault => rfl
        | ok progress => exact counts_noteProgress _ _ _
    · rfl

theorem service_counts (hcontext : e.context = .realtime) (locks : Locks) :
    (e.service locks).2.counts = e.counts := by
  unfold service
  refine (List.foldlRecOn
    (motive := fun s : Nat × Engine => s.2.context = .realtime ∧ s.2.counts = e.counts)
    Channel.all _ ⟨hcontext, rfl⟩ fun s h c _ => ?_).2
  obtain ⟨n, e'⟩ := s
  exact ⟨(resume_does e' locks c).context.trans h.1, (resume_counts h.1 locks c).trans h.2⟩

theorem setQuantizer_counts (hcontext : e.context = .realtime) (locks : Locks) (c : Channel)
    (q : Quantizer) : (e.setQuantizer locks c q).2.counts = e.counts := by
  simp only [setQuantizer, acquire?_realtime hcontext]
  cases locks c <;> rfl

theorem perform_counts (hcontext : e.context = .realtime) (locks : Locks) (command : Command) :
    (e.perform locks command).2.counts = e.counts := by
  cases command with
  | install c score =>
    simp only [perform, perform.answer, installScore]
    cases Program.compile score <;> rfl
  | clear c =>
    simp only [perform, perform.answer, clear, acquire?_realtime hcontext]
    cases locks c <;> rfl
  | trigger c action => exact trigger_counts hcontext locks c action
  | action c number =>
    simp only [perform, perform.answer, Engine.action]
    cases Action.ofNumber number with
    | error fault => rfl
    | ok action => exact trigger_counts hcontext locks c action
  | setVolts c volts =>
    simp only [perform, perform.answer, setVolts]
    cases Program.single volts (e.voice c).slew (e.voice c).slewCurve with
    | error fault => rfl
    | ok program => exact trigger_counts (e := e.install c program) hcontext locks c .restart
  | setSlew c seconds curve =>
    show (e.setSlew c seconds curve).2.counts = e.counts
    rcases e.setSlew_snd c seconds curve with hset | ⟨v, hset⟩
    · rw [hset]
    · rw [hset]
      rfl
  | setQuantizer c q => exact setQuantizer_counts hcontext locks c q
  | setScale c degrees modulo scaling =>
    simp only [perform, perform.answer, setScale]
    cases Quantizer.ofDegrees degrees modulo scaling with
    | error fault => rfl
    | ok q => exact setQuantizer_counts hcontext locks c q
  | quantizer c =>
    simp only [perform, quantizer, acquire?_realtime hcontext]
    cases locks c <;> rfl
  | setCell c name value =>
    show (e.setCell c name value).2.counts = e.counts
    rcases e.setCell_snd c name value with hset | ⟨v, hset⟩
    · rw [hset]
    · rw [hset]
      rfl
  | voltage c =>
    simp only [perform, voltage, acquire?_realtime hcontext]
    cases locks c <;> rfl
  | service => exact service_counts hcontext locks
  | pollEvent =>
    simp only [perform, pollEvent]
    split <;> rfl
  | _ => rfl

/-! ## Deliveries -/

theorem deliver_dropped (e : Engine) (locks : Locks) (event : InputEvent) :
    e.deliver locks true event =
      (.dropped, [], { e with
        counts := { e.counts with dropped := e.counts.dropped + 1 }
        notices := e.notices.offer (.eventDropped event.input) }) := rfl

theorem handled_realtime (e : Engine) (locks : Locks) (event : InputEvent) :
    ∀ visit ∈ e.handled locks event,
      visit.1.context = .realtime ∧ (visit.1.perform locks visit.2).2.counts = visit.1.counts := by
  intro visit hvisit
  have realtime : visit.1.context = .realtime := by
    unfold handled at hvisit
    split at hvisit
    · refine (visits_keep (P := fun e => e.context = .realtime) (fun e command h => ?_) rfl _).1
        visit hvisit
      exact (perform_doesAll e locks command).context.trans h
    · cases hvisit
  exact ⟨realtime, perform_counts realtime locks visit.2⟩

theorem dispatch_keeps (e : Engine) (locks : Locks) (event : InputEvent) :
    (e.dispatch locks event).2.2.counts = e.counts ∧
      (e.dispatch locks event).2.2.context = e.context := by
  unfold dispatch
  split
  · exact ⟨rfl, rfl⟩
  · exact ⟨rfl, rfl⟩
  · rename_i handler _
    refine ⟨?_, rfl⟩
    have kept := visits_keep
      (P := fun e' => e'.context = .realtime ∧ e'.counts = e.counts)
      (fun e' command h => ⟨(perform_doesAll e' locks command).context.trans h.1,
        (perform_counts h.1 locks command).trans h.2⟩)
      (e := { e with context := .realtime }) ⟨rfl, rfl⟩ (handler event)
    exact kept.2.2

/-- A delivery never waits, and the context after it is the one before it. -/
theorem deliver_keeps (e : Engine) (locks : Locks) (busy : Bool) (event : InputEvent) :
    (e.deliver locks busy event).2.2.counts.waits = e.counts.waits ∧
      (e.deliver locks busy event).2.2.context = e.context := by
  cases busy with
  | true => exact ⟨rfl, rfl⟩
  | false =>
    obtain ⟨hcounts, hcontext⟩ := e.dispatch_keeps locks event
    unfold deliver
    obtain ⟨⟨result, answers, e'⟩, hdispatch⟩ : ∃ x, e.dispatch locks event = x := ⟨_, rfl⟩
    rw [hdispatch] at hcounts hcontext
    simp only [Bool.false_eq_true, if_false, hdispatch]
    cases result with
    | error fault => exact ⟨congrArg Counts.waits hcounts, hcontext⟩
    | ok there => cases there <;> exact ⟨congrArg Counts.waits hcounts, hcontext⟩

theorem deliverAll_keeps (locks : Locks) (busy : Bool) (e : Engine) (events : List InputEvent) :
    (deliverAll locks busy e events).counts.waits = e.counts.waits ∧
      (deliverAll locks busy e events).context = e.context := by
  induction events generalizing e with
  | nil => exact ⟨rfl, rfl⟩
  | cons event events ih =>
    obtain ⟨hwaits, hcontext⟩ := ih (e.deliver locks busy event).2.2
    obtain ⟨hwaits', hcontext'⟩ := e.deliver_keeps locks busy event
    exact ⟨hwaits.trans hwaits', hcontext.trans hcontext'⟩

/-- What the delivery of an event on the real-time side comes to. -/
structure Delivers (e : Engine) (locks : Locks) (busy : Bool) (event : InputEvent) : Prop where
  /-- While the host is busy the event is counted and reported, and nothing else is done. -/
  dropped : busy = true → e.deliver locks busy event =
    (.dropped, [], { e with
      counts := { e.counts with dropped := e.counts.dropped + 1 }
      notices := e.notices.offer (.eventDropped event.input) })
  /-- Otherwise its handler is run between two changes of side. -/
  dispatched : busy = false →
    (e.deliver locks busy event).2.2 = e.run (e.deliveryMoves locks busy event)
  /-- A command that asks for a lock which is held is refused, and a service passes it over. -/
  commands : ∀ visit ∈ e.handled locks event, visit.1.context = .realtime ∧
    (∀ c, visit.1.asksFor? visit.2 = some c → locks c = true →
      (visit.1.perform locks visit.2).1 = .error .contention) ∧
    (∀ c, visit.2 = .service → locks c = true →
      (visit.1.perform locks visit.2).2.voice c = visit.1.voice c) ∧
    (visit.1.perform locks visit.2).2.counts.waits = visit.1.counts.waits
  waits : (e.deliver locks busy event).2.2.counts.waits = e.counts.waits
  context : (e.deliver locks busy event).2.2.context = e.context

theorem delivers (e : Engine) (locks : Locks) (busy : Bool) (event : InputEvent) :
    e.Delivers locks busy event := by
  obtain ⟨hwaits, hcontext⟩ := e.deliver_keeps locks busy event
  refine ⟨fun hbusy => ?_, fun _ => e.deliver_eq locks busy event, fun visit hvisit => ?_, hwaits,
    hcontext⟩
  · subst hbusy
    exact e.deliver_dropped locks event
  · obtain ⟨realtime, hcounts⟩ := e.handled_realtime locks event visit hvisit
    refine ⟨realtime, fun c => perform_refused realtime, fun c hservice hheld => ?_,
      congrArg Counts.waits hcounts⟩
    rw [hservice, Session.perform_service]
    exact service_passes_over realtime hheld

theorem deliverAll_dropped (locks : Locks) (e : Engine) (events : List InputEvent) :
    deliverAll locks true e events = { e with
      counts := { e.counts with dropped := e.counts.dropped + events.length }
      notices := events.foldl (fun q event => q.offer (.eventDropped event.input)) e.notices } := by
  induction events generalizing e with
  | nil => rfl
  | cons event events ih =>
    have first : deliverAll locks true e (event :: events) =
        deliverAll locks true (e.deliver locks true event).2.2 events := rfl
    rw [first, ih, deliver_dropped]
    simp only [List.length_cons, List.foldl_cons, Nat.add_assoc, Nat.add_comm 1]

variable {σ : Type} [Sink σ]

theorem tick_keeps (e : Engine) (locks : Locks) (out : σ) :
    (e.tick locks out).1.counts.waits = e.counts.waits ∧ (e.tick locks out).1.context = e.context := by
  refine ⟨?_, (tick_doesAll e locks out).context⟩
  refine List.foldlRecOn (motive := fun s : Engine × σ => s.1.counts.waits = e.counts.waits)
    (b := (e, out)) Channel.all (tickChannel locks) rfl fun s h c _ => Eq.trans ?_ h
  unfold tickChannel
  cases locks c <;> rfl

end Engine

namespace Session

open Engine (deliverAll deliverAll_keeps deliverAll_dropped tick_keeps)

variable {σ : Type} [Sink σ]

theorem pulse_keeps (s : Session) (locks : Locks) (busy : Bool) (out : σ) :
    (s.pulse locks busy out).1.engine.counts.waits = s.engine.counts.waits ∧
      (s.pulse locks busy out).1.engine.context = s.engine.context := by
  rw [pulse_eq]
  obtain ⟨hwaits, hcontext⟩ := deliverAll_keeps locks busy s.engine s.offered
  obtain ⟨hwaits', hcontext'⟩ := tick_keeps (deliverAll locks busy s.engine s.offered) locks out
  exact ⟨hwaits'.trans hwaits, hcontext'.trans hcontext⟩

theorem context_service (s : Session) : s.service.2.engine.context = s.engine.context := by
  have drains : ∀ e : Engine, e.drainNotices.2.context = e.context := fun _ => rfl
  rw [service_eq]
  exact (drains _).trans (Engine.service_doesAll s.engine .free).context

theorem Reachable.context {s : Session} (h : s.Reachable) : s.engine.context = .cooperative := by
  induction h with
  | fresh rate range capacity f => rfl
  | @after s h move ih =>
    cases move with
    | pulse locks busy => exact (s.pulse_keeps locks busy _).2.trans ih
    | perform locks command => exact (Engine.perform_doesAll s.engine locks command).context.trans ih
    | service => exact s.context_service.trans ih
    | setHandler input handler =>
      simp only [Session.after, Engine.setHandler]
      split <;> exact ih
    | addSource source =>
      simp only [Session.after, addSource]
      split <;> exact ih
    | start thread =>
      simp only [Session.after, start]
      split <;> exact ih
    | stop =>
      simp only [Session.after, stop]
      split
      · exact ih
      · exact ih
      · exact ih
      · exact (context_service _).trans ih
      · exact (context_service _).trans ih

/-- A tick of a reachable session never waits, whichever locks the host holds. It polls every source
once, whether the host is busy or not, and delivers what they offer:
* while the host is busy each event is dropped and counted, and nothing else is left of it;
* otherwise the commands of its handler are run on the real-time side, where a lock that is held is
  refused.

Between ticks the commands are the host's again, whatever the handlers came to. -/
theorem Reachable.pulse_never_waits {s : Session} (h : s.Reachable) (locks : Locks) (busy : Bool)
    (out : σ) :
    let e := deliverAll locks busy s.engine s.offered
    s.pulse locks busy out =
        ({ s with
            engine := (e.tick locks out).1
            sources := s.sources.map fun source => source.poll.2 },
          (e.tick locks out).2) ∧
      (∀ e event, Engine.Delivers e locks busy event) ∧
      (busy = true → e = { s.engine with
        counts := { s.engine.counts with dropped := s.engine.counts.dropped + s.offered.length }
        notices := s.offered.foldl (fun q event => q.offer (.eventDropped event.input))
          s.engine.notices }) ∧
      (s.pulse locks busy out).1.engine.counts.waits = s.engine.counts.waits ∧
      s.engine.context = .cooperative ∧ (s.pulse locks busy out).1.engine.context = .cooperative := by
  intro e
  obtain ⟨hwaits, hcontext⟩ := s.pulse_keeps locks busy out
  refine ⟨s.pulse_eq locks busy out, fun e event => e.delivers locks busy event, fun hbusy => ?_,
    hwaits, h.context, hcontext.trans h.context⟩
  subst hbusy
  exact deliverAll_dropped locks s.engine s.offered

/-- A handler that moves a channel whose lock the host holds. -/
theorem pulse_never_waits_held :
    let handler : Handler := fun _ => .inOrder [.ok (.setVolts .first 1)]
    let s := ((fresh .standard .standard 1).after (.setHandler 0 (some handler))).after
      (.addSource (.script [some ⟨0, .rising⟩]))
    s.Reachable ∧ s.offered = [⟨0, .rising⟩] ∧
      (s.pulse (· = .first) false Frame.zero).1.engine.counts.waits = 0 ∧
      (s.pulse (· = .first) false Frame.zero).1.engine.context = .cooperative := by
  intro handler s
  have hs : s.Reachable := ((Reachable.fresh _ _ _ _).after _).after _
  obtain ⟨-, -, -, hwaits, -, hcontext⟩ := hs.pulse_never_waits (· = .first) false Frame.zero
  exact ⟨hs, rfl, hwaits.trans rfl, hcontext⟩

end Session

end ControlVoltage

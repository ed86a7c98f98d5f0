import ControlVoltage.Proofs.Engine.Endings
import ControlVoltage.Proofs.Engine.Wakeup
import ControlVoltage.Proofs.Voice.Twins

/-!
# What a command answers and reports

What a command for a channel is answered depends on the voice of the channel and on whether its lock
is to be had, and on nothing else of the engine. What a move adds to the queue of events are the
channels whose walks come to their end in it.

* `Voice.answer` : what a trigger is answered.
* `Engine.subject?` : the channel that a command is for, also where it only reads.
* `Engine.perform_congr` : voices that differ in their numbers only are answered alike.
* `Engine.queued`, `Engine.ended` : the ends that a move reports, and the channels that come to them.
* `Engine.events_after` : the queue after a move.
* `Engine.service_count` : what a service is answered.
-/

namespace ControlVoltage

namespace Fifo

variable {α : Type}

theorem items_foldl_pushEvicting {q : Fifo α} {items : List α}
    (room : q.items.length + items.length ≤ q.capacity) :
    (items.foldl pushEvicting q).items = q.items ++ items := by
  induction items generalizing q with
  | nil => exact (List.append_nil _).symm
  | cons a items ih =>
    rw [List.length_cons] at room
    have hpush : q.pushEvicting a = { q with items := q.items ++ [a] } := by
      rw [pushEvicting, isFull, if_neg]
      simp only [decide_eq_true_eq]
      omega
    rw [List.foldl_cons, hpush, ih]
    · exact List.append_assoc _ _ _
    · rw [List.length_append, List.length_singleton]
      show q.items.length + 1 + items.length ≤ q.capacity
      omega

end Fifo

namespace Voice

variable {rig : Rig} {v w : Voice}

/-- What a trigger is answered, with the lock to be had or not. -/
def answer (rig : Rig) (c : Channel) (granted : Bool) (v : Voice) (action : Action) :
    Except CommandError Unit :=
  match v.player with
  | none => .error (.noProgram c)
  | some p =>
    match Engine.respond p action with
    | .walk =>
      if granted then
        match (v.walk rig (Engine.triggered p action) v.ramp.hold).1 with
        | .ok _ => .ok ()
        | .error fault => .error (.corrupt fault)
      else .error .contention
    | _ => .ok ()

theorem answer_plain (h : v.plain = w.plain) (c : Channel) (granted : Bool) (action : Action) :
    v.answer rig c granted action = w.answer rig c granted action := by
  obtain ⟨alike, hramp, hplayer⟩ := plain_eq_iff.1 h
  obtain ⟨hcurrent, -⟩ := Ramp.plain_eq_iff.1 hramp
  unfold answer
  rcases Player.of_map_plain hplayer with ⟨hv, hw⟩ | ⟨p, q, hv, hw, hpq⟩
  · rw [hv, hw]
  · have hresponse : Engine.respond p action = Engine.respond q action := by
      rw [← p.respond_plain, hpq, q.respond_plain]
    have htriggered : (Engine.triggered p action).plain = (Engine.triggered q action).plain := by
      rw [← p.triggered_plain, hpq, q.triggered_plain]
    obtain ⟨hresult, -⟩ : (v.walk rig (Engine.triggered p action) v.ramp.hold).1 =
        (w.walk rig (Engine.triggered q action) w.ramp.hold).1 ∧ _ :=
      alike.walk htriggered (Ramp.hold_plain hcurrent)
    simp only [hv, hw, hresponse, hresult]

theorem Restartable.answer (h : v.Restartable w) (c : Channel) :
    v.answer rig c true .restart = w.answer rig c true .restart := by
  obtain ⟨p, q, hp, hq, unlocked, unlocked', hresult, -⟩ := h.walk rig
  simp [Voice.answer, hp, hq, Engine.respond, unlocked, unlocked', Engine.triggered, hresult]

end Voice

namespace Engine

variable (e : Engine) (locks : Locks) (c : Channel)

/-! ## Triggers -/

theorem trigger_fst (action : Action) :
    (e.trigger locks c action).1 = (e.voice c).answer e.rig c (e.grants locks c) action := by
  unfold trigger Voice.answer
  cases hp : (e.voice c).player with
  | none => rfl
  | some p =>
    simp only
    cases respond p action with
    | unlock => rfl
    | ignore => rfl
    | walk =>
      simp only
      cases hgrants : e.grants locks c with
      | false => simp only [acquire?_of_not_grants hgrants, Bool.false_eq_true, if_false]
      | true =>
        obtain ⟨e₁, hacquire, hvoice, hnothing⟩ := acquire?_of_grants hgrants
        simp only [hacquire, advance_eq, hvoice, hnothing.rig, if_true]
        cases ((e.voice c).walk e.rig (triggered p action) (e.voice c).ramp.hold).1 <;> rfl

theorem endsIn_triggerMoves (v : Voice) (action : Action) :
    v.endsIn e.rig (e.triggerMoves locks c action) =
      (e.grants locks c && v.ends e.rig (.trigger action)) := by
  unfold triggerMoves
  by_cases unlock : action = .unlock
  · subst unlock
    have hnone : v.triggered? .unlock = none := by simp [Voice.triggered?, respond]
    simp [Voice.endsIn, Voice.ends, hnone]
  · cases e.grants locks c <;> simp [Voice.endsIn, unlock]

theorem trigger_events (action : Action) :
    (e.trigger locks c action).2.events =
      if (e.voice c).endsIn e.rig (e.triggerMoves locks c action) then e.events.pushEvicting c
      else e.events := by
  have quiet : (e.voice c).triggered? action = none →
      (e.voice c).endsIn e.rig (e.triggerMoves locks c action) = false := by
    intro hnone
    simp [endsIn_triggerMoves, Voice.ends, hnone]
  unfold trigger
  cases hp : (e.voice c).player with
  | none =>
    rw [quiet (by simp [Voice.triggered?, hp])]
    rfl
  | some p =>
    simp only
    cases hresponse : respond p action with
    | unlock =>
      rw [quiet (by simp [Voice.triggered?, hp, hresponse, Option.filter])]
      rfl
    | ignore =>
      rw [quiet (by simp [Voice.triggered?, hp, hresponse, Option.filter])]
      rfl
    | walk =>
      simp only
      rw [endsIn_triggerMoves]
      cases hgrants : e.grants locks c with
      | false =>
        rw [acquire?_of_not_grants hgrants]
        rfl
      | true =>
        obtain ⟨e₁, hacquire, hvoice, hnothing⟩ := acquire?_of_grants hgrants
        have hq : (e.voice c).triggered? action = some (triggered p action) := by
          simp [Voice.triggered?, hp, hresponse, Option.filter]
        have hends : (e.voice c).ends e.rig (.trigger action) = Voice.ends.comesToEnd
            ((e₁.voice c).walk e₁.rig (triggered p action) (e₁.voice c).ramp.hold).1 := by
          simp only [Voice.ends, hq, Option.any_some, hvoice, hnothing.rig]
        rw [hends, Bool.true_and, ← events_acquire? hacquire]
        simp only [hacquire, advance_eq]
        obtain ⟨⟨result, v⟩, hwalk⟩ : ∃ x,
            (e₁.voice c).walk e₁.rig (triggered p action) (e₁.voice c).ramp.hold = x := ⟨_, rfl⟩
        rw [hwalk]
        cases result with
        | error fault => rfl
        | ok progress => exact events_noteProgress (e₁.setVoice c v) c progress

/-! ## Locks -/

theorem acquire?_cases : e.grants locks c = false ∧ e.acquire? locks c = none ∨
    e.grants locks c = true ∧ ∃ e₁, e.acquire? locks c = some e₁ ∧ e₁.voice c = e.voice c := by
  cases hgrants : e.grants locks c with
  | false => exact .inl ⟨rfl, acquire?_of_not_grants hgrants⟩
  | true =>
    obtain ⟨e₁, hacquire, hvoice, -⟩ := acquire?_of_grants hgrants
    exact .inr ⟨rfl, e₁, hacquire, hvoice⟩

theorem clear_fst :
    (e.clear locks c).1 = if e.grants locks c then .ok () else .error .contention := by
  unfold clear
  rcases e.acquire?_cases locks c with ⟨hgrants, hacquire⟩ | ⟨hgrants, e₁, hacquire, -⟩ <;>
    simp [hgrants, hacquire]

theorem setQuantizer_fst (quantizer : Quantizer) :
    (e.setQuantizer locks c quantizer).1 =
      if e.grants locks c then .ok () else .error .contention := by
  unfold setQuantizer
  rcases e.acquire?_cases locks c with ⟨hgrants, hacquire⟩ | ⟨hgrants, e₁, hacquire, -⟩ <;>
    simp [hgrants, hacquire]

theorem setSlew_fst (seconds : Float32) (curve : Curve) :
    (e.setSlew c seconds curve).1 =
      if seconds.isFinite = false then .error (.setup .nonFinite)
      else if seconds < 0 then .error (.setup (.negativeDuration seconds)) else .ok () := by
  unfold setSlew
  cases seconds.isFinite with
  | false => rfl
  | true => by_cases negative : seconds < 0 <;> simp [negative]

theorem quantizer_fst :
    (e.quantizer locks c).1 =
      if e.grants locks c then .ok (e.voice c).quantizer else .error .contention := by
  unfold quantizer
  rcases e.acquire?_cases locks c with ⟨hgrants, hacquire⟩ | ⟨hgrants, e₁, hacquire, hvoice⟩
  · simp [hgrants, hacquire]
  · simp [hgrants, hacquire, hvoice]

theorem voltage_fst :
    (e.voltage locks c).1 =
      if e.grants locks c then .ok (e.voice c).ramp.current else .error .contention := by
  unfold voltage
  rcases e.acquire?_cases locks c with ⟨hgrants, hacquire⟩ | ⟨hgrants, e₁, hacquire, hvoice⟩
  · simp [hgrants, hacquire]
  · simp [hgrants, hacquire, hvoice]

/-! ## Answers -/

/-- The channel that a command is for, also where it only reads. -/
def subject? : Command → Option Channel
  | .slew c => some c
  | .quantizer c => some c
  | .getCell c _ => some c
  | .voltage c => some c
  | .written c => some c
  | command => channel? command

section congr

variable {e locks c} {e' : Engine} {locks' : Locks}

theorem setVolts_fst (volts : Float32) : (e.setVolts locks c volts).1 =
    match Program.single volts (e.voice c).slew (e.voice c).slewCurve with
    | .error error => .error (.setup error)
    | .ok program => ((e.voice c).after e.rig (.load program)).answer e.rig c (e.grants locks c) .restart := by
  unfold setVolts
  cases Program.single volts (e.voice c).slew (e.voice c).slewCurve with
  | error fault => rfl
  | ok program =>
    simp only
    rw [trigger_fst, install, voice_setVoice_self]
    rfl

/-- What a command for a channel is answered depends on the voice of the channel, but not on its
numbers, and on whether the lock is to be had. -/
theorem perform_congr (hrig : e'.rig = e.rig) (hgrants : e'.grants locks' c = e.grants locks c)
    (hplain : (e.voice c).plain = (e'.voice c).plain) {command : Command}
    (hsubject : subject? command = some c) :
    (e'.perform locks' command).1 = (e.perform locks command).1 := by
  obtain ⟨alike, hramp, hplayer⟩ := Voice.plain_eq_iff.1 hplain
  obtain ⟨hcurrent, -⟩ := Ramp.plain_eq_iff.1 hramp
  have triggers : ∀ action, (e'.trigger locks' c action).1 = (e.trigger locks c action).1 := by
    intro action
    rw [trigger_fst, trigger_fst, hrig, hgrants, Voice.answer_plain hplain]
  have quantizers : ∀ quantizer,
      (e'.setQuantizer locks' c quantizer).1 = (e.setQuantizer locks c quantizer).1 := by
    intro quantizer
    rw [setQuantizer_fst, setQuantizer_fst, hgrants]
  have done : ∀ {r r' : Except CommandError Unit × Engine}, r'.1 = r.1 →
      (perform.answer r').1 = (perform.answer r).1 := by
    intro r r' h
    simp only [perform.answer, h]
  cases command with
  | install d score =>
    cases hsubject
    refine done ?_
    unfold installScore
    cases Program.compile score <;> rfl
  | clear d =>
    cases hsubject
    exact done (by rw [clear_fst, clear_fst, hgrants])
  | trigger d action =>
    cases hsubject
    exact done (triggers action)
  | action d number =>
    cases hsubject
    refine done ?_
    unfold action
    cases Action.ofNumber number with
    | error fault => rfl
    | ok action => exact triggers action
  | setVolts d volts =>
    cases hsubject
    refine done ?_
    rw [setVolts_fst, setVolts_fst, hrig, hgrants, alike.slew, alike.slewCurve]
    cases Program.single volts (e'.voice c).slew (e'.voice c).slewCurve with
    | error fault => rfl
    | ok program => exact (Voice.answer_plain (Voice.after_plain hplain (by simp)).1 c _ _).symm
  | setSlew d seconds curve => exact done (by rw [setSlew_fst, setSlew_fst])
  | slew d =>
    cases hsubject
    simp only [perform, alike.slew, alike.slewCurve]
  | setQuantizer d quantizer =>
    cases hsubject
    exact done (quantizers quantizer)
  | setScale d degrees modulo scaling =>
    cases hsubject
    refine done ?_
    unfold setScale
    cases Quantizer.ofDegrees degrees modulo scaling with
    | error fault => rfl
    | ok quantizer => exact quantizers quantizer
  | quantizer d =>
    cases hsubject
    simp only [perform, quantizer_fst, hgrants, alike.quantizer]
  | getCell d name =>
    cases hsubject
    simp only [perform, getCell]
    rcases Player.of_map_plain hplayer with ⟨hv, hw⟩ | ⟨p, q, hv, hw, hpq⟩
    · rw [hv, hw]
    · have hcells : p.cells = q.cells := by rw [← p.cells_plain, hpq, q.cells_plain]
      simp only [hv, hw, hcells]
  | setCell d name value =>
    cases hsubject
    refine done ?_
    unfold setCell
    split
    · rfl
    · rcases Player.of_map_plain hplayer with ⟨hv, hw⟩ | ⟨p, q, hv, hw, hpq⟩
      · rw [hv, hw]
      · have hcells : p.cells = q.cells := by rw [← p.cells_plain, hpq, q.cells_plain]
        rw [hv, hw]
        simp only [hcells]
        cases q.cells.setNamed? name value <;> rfl
  | voltage d =>
    cases hsubject
    simp only [perform, voltage_fst, hgrants, hcurrent]
  | written d =>
    cases hsubject
    simp only [perform, alike.written]
  | _ => cases hsubject

end congr

/-! ## Reported ends -/

theorem tick_events {σ : Type} [Sink σ] (out : σ) : (e.tick locks out).1.events = e.events := by
  have folds : ∀ (cs : List Channel) (s : Engine × σ),
      (cs.foldl (tickChannel locks) s).1.events = s.1.events := by
    intro cs
    induction cs with
    | nil => exact fun _ => rfl
    | cons c cs ih =>
      intro s
      rw [List.foldl_cons, ih]
      unfold tickChannel
      cases locks c <;> rfl
  exact folds Channel.all (e, out)

theorem events_clear : (e.clear locks c).2.events = e.events := by
  unfold clear
  cases hacquire : e.acquire? locks c with
  | none => rfl
  | some e₁ =>
    have same : e₁.events = e.events := events_acquire? hacquire
    exact same

theorem events_setQuantizer (quantizer : Quantizer) :
    (e.setQuantizer locks c quantizer).2.events = e.events := by
  unfold setQuantizer
  cases hacquire : e.acquire? locks c with
  | none => rfl
  | some e₁ =>
    have same : e₁.events = e.events := events_acquire? hacquire
    exact same

theorem events_setSlew (seconds : Float32) (curve : Curve) :
    (e.setSlew c seconds curve).2.events = e.events := by
  rcases e.setSlew_snd c seconds curve with hset | ⟨v, hset⟩
  · rw [hset]
  · rw [hset]
    rfl

theorem events_setCell (name : String) (value : Float32) :
    (e.setCell c name value).2.events = e.events := by
  rcases e.setCell_snd c name value with hset | ⟨v, hset⟩
  · rw [hset]
  · rw [hset]
    rfl

theorem endsIn_quantizerMoves (v : Voice) (quantizer : Quantizer) :
    v.endsIn e.rig (e.quantizerMoves locks c quantizer) = false := by
  unfold quantizerMoves
  split <;> rfl

theorem setVolts_events (volts : Float32) : (e.setVolts locks c volts).2.events =
    if (e.voice c).endsIn e.rig (e.moves locks (.setVolts c volts)) then e.events.pushEvicting c
    else e.events := by
  cases hsingle : Program.single volts (e.voice c).slew (e.voice c).slewCurve with
  | error fault =>
    simp only [setVolts, moves, hsingle, loadMoves]
    rfl
  | ok program =>
    have hvoice : (e.install c program).voice c = (e.voice c).after e.rig (.load program) :=
      voice_setVoice_self _ _ _
    have htrigger := (e.install c program).trigger_events locks c .restart
    rw [hvoice] at htrigger
    simp only [setVolts, moves, hsingle, loadMoves]
    exact htrigger

theorem channel_events {command : Command} (h : channel? command = some c) :
    (e.perform locks command).2.events =
      if (e.voice c).endsIn e.rig (e.moves locks command) then e.events.pushEvicting c
      else e.events := by
  have quiet : ∀ {e' : Engine} {moves : List Voice.Move}, e'.events = e.events →
      (e.voice c).endsIn e.rig moves = false → e'.events =
        if (e.voice c).endsIn e.rig moves then e.events.pushEvicting c else e.events := by
    intro e' moves hevents hends
    rw [hevents, hends]
    rfl
  cases command with
  | install d score =>
    cases h
    refine quiet ?_ ?_
    · show (e.installScore c score).2.events = _
      unfold installScore
      split <;> rfl
    · simp only [moves, loadMoves]
      split <;> rfl
  | clear d =>
    cases h
    refine quiet (e.events_clear locks c) ?_
    simp only [moves]
    split <;> rfl
  | trigger d action => cases h; exact e.trigger_events locks c action
  | action d number =>
    cases h
    cases haction : Action.ofNumber number with
    | error fault =>
      refine quiet ?_ ?_
      · simp only [perform, perform.answer, Engine.action, haction]
      · simp only [moves, haction, Voice.endsIn]
    | ok action =>
      have htrigger := e.trigger_events locks c action
      simp only [perform, perform.answer, Engine.action, moves, haction]
      exact htrigger
  | setVolts d volts => cases h; exact e.setVolts_events locks c volts
  | setSlew d seconds curve =>
    cases h
    refine quiet (e.events_setSlew c seconds curve) ?_
    simp only [moves]
    split <;> rfl
  | setQuantizer d quantizer =>
    cases h
    exact quiet (e.events_setQuantizer locks c quantizer) (e.endsIn_quantizerMoves locks c _ quantizer)
  | setScale d degrees modulo scaling =>
    cases h
    refine quiet ?_ ?_
    · show (e.setScale locks c degrees modulo scaling).2.events = _
      unfold setScale
      split
      · rfl
      · exact e.events_setQuantizer locks c _
    · simp only [moves]
      split
      · exact e.endsIn_quantizerMoves locks c _ _
      · rfl
  | setCell d name value =>
    cases h
    refine quiet (e.events_setCell c name value) ?_
    simp only [moves]
    split <;> rfl
  | _ => cases h

/-- A move that takes events from the queue. -/
def Move.takes : Move → Bool
  | .perform _ .pollEvent => true
  | .perform _ .drainEvents => true
  | _ => false

/-- The channels whose walks come to their end in a move, in panel order. -/
def ended (move : Move) : List Channel :=
  Channel.all.filter fun c => (e.voice c).endsIn e.rig (e.shareOf c move)

theorem filter_all_eq (c : Channel) : Channel.all.filter (fun d => decide (c = d)) = [c] := by
  obtain ⟨i⟩ := c
  revert i
  decide

variable {e locks c} in
theorem ended_of_channel {command : Command} (h : channel? command = some c) :
    e.ended (.perform locks command) =
      if (e.voice c).endsIn e.rig (e.moves locks command) then [c] else [] := by
  have share : ∀ d, (e.voice d).endsIn e.rig (e.shareOf d (.perform locks command)) =
      (decide (c = d) && (e.voice c).endsIn e.rig (e.moves locks command)) := by
    intro d
    simp only [shareOf, share_of_channel h]
    by_cases hd : c = d
    · subst hd
      simp
    · simp [hd, Voice.endsIn]
  simp only [ended, share]
  cases (e.voice c).endsIn e.rig (e.moves locks command)
  · simp
  · simp [filter_all_eq]

theorem ended_service : e.ended (.perform locks .service) = e.endings locks := by
  refine List.filter_congr fun c _ => ?_
  simp only [shareOf, share]
  cases e.grants locks c <;> simp [Voice.endsIn]

theorem ended_of_shareless {move : Move} (h : ∀ c, e.shareOf c move = []) : e.ended move = [] := by
  simp [ended, h, Voice.endsIn]

theorem events_eq {move : Move} (h : move.takes = false) :
    (e.after move).events = (e.ended move).foldl Fifo.pushEvicting e.events := by
  have shareless : ∀ {move}, (e.after move).events = e.events → (∀ c, e.shareOf c move = []) →
      (e.after move).events = (e.ended move).foldl Fifo.pushEvicting e.events := by
    intro move hevents hshare
    rw [hevents, e.ended_of_shareless hshare]
    rfl
  cases move with
  | tick locks =>
    have hended : e.ended (.tick locks) = [] := by
      refine List.filter_eq_nil_iff.2 fun c _ => ?_
      simp only [shareOf, tickMoves]
      split <;> simp [Voice.endsIn, Voice.ends]
    rw [hended]
    exact e.tick_events locks e.lastFrame
  | perform locks command =>
    cases hchannel : channel? command with
    | some c =>
      rw [ended_of_channel hchannel, after, e.channel_events locks c hchannel]
      split <;> rfl
    | none =>
      have quiet : ∀ c, (e.acquire? locks c = none ∨ ∃ e₁, e.acquire? locks c = some e₁ ∧
          e₁.events = e.events) := by
        intro c
        cases hacquire : e.acquire? locks c with
        | none => exact .inl rfl
        | some e₁ => exact .inr ⟨e₁, rfl, events_acquire? hacquire⟩
      cases command with
      | service =>
        rw [ended_service]
        exact e.service_events locks
      | quantizer c =>
        refine shareless ?_ fun _ => rfl
        rcases quiet c with hacquire | ⟨e₁, hacquire, hevents⟩
        · simp only [after, perform, quantizer, hacquire]
        · simpa only [after, perform, quantizer, hacquire] using hevents
      | voltage c =>
        refine shareless ?_ fun _ => rfl
        rcases quiet c with hacquire | ⟨e₁, hacquire, hevents⟩
        · simp only [after, perform, voltage, hacquire]
        · simpa only [after, perform, voltage, hacquire] using hevents
      | pollEvent => cases h
      | drainEvents => cases h
      | slew c => exact shareless rfl fun _ => rfl
      | getCell c name => exact shareless rfl fun _ => rfl
      | written c => exact shareless rfl fun _ => rfl
      | context => exact shareless rfl fun _ => rfl
      | rate => exact shareless rfl fun _ => rfl
      | _ => cases hchannel
  | setHandler input handler =>
    refine shareless ?_ fun _ => rfl
    simp only [after, setHandler]
    split <;> rfl
  | _ => exact shareless rfl fun _ => rfl

/-- The ends that a move reports, in order: what it adds to an empty queue. -/
def queued (move : Move) : List Channel :=
  ({ e with events := .empty eventCapacity }.after move).events.items

theorem queued_eq (move : Move) : e.queued move = e.ended move := by
  cases h : move.takes with
  | true =>
    -- Nothing is taken from an empty queue, and nothing is added by who takes.
    have taken : e.queued move = [] ∧ ∀ c, e.shareOf c move = [] := by
      cases move with
      | perform locks command =>
        cases command with
        | pollEvent => exact ⟨rfl, fun _ => rfl⟩
        | drainEvents => exact ⟨rfl, fun _ => rfl⟩
        | _ => cases h
      | _ => cases h
    rw [taken.1, e.ended_of_shareless taken.2]
  | false =>
    have hevents := events_eq { e with events := .empty eventCapacity } h
    have few : (e.ended move).length ≤ eventCapacity :=
      (List.length_filter_le _ _).trans (by decide)
    have hsame : ({ e with events := .empty eventCapacity } : Engine).ended move = e.ended move := rfl
    rw [hsame] at hevents
    rw [queued, hevents, Fifo.items_foldl_pushEvicting]
    · rfl
    · show 0 + (e.ended move).length ≤ eventCapacity
      omega

/-- What a move reports is all that it adds to the queue. -/
theorem events_after {move : Move} (h : move.takes = false) :
    (e.after move).events = (e.queued move).foldl Fifo.pushEvicting e.events := by
  rw [e.events_eq h, e.queued_eq]

theorem count_queued (move : Move) : (e.queued move).count c =
    if (e.voice c).endsIn e.rig (e.shareOf c move) then 1 else 0 := by
  rw [queued_eq]
  split
  · rename_i hends
    exact List.count_eq_one_of_mem (List.Nodup.filter _ (by decide))
      (List.mem_filter.2 ⟨Channel.mem_all c, hends⟩)
  · rename_i hends
    exact List.count_eq_zero.2 fun hmem => hends (List.mem_filter.1 hmem).2

theorem service_count : (e.service locks).1 = Channel.all.countP fun c => (e.resume locks c).1 := by
  have same : ∀ {s : Engine} {c : Channel}, s.rig = e.rig → s.context = e.context →
      s.voice c = e.voice c → (s.resume locks c).1 = (e.resume locks c).1 := by
    intro s c _ hcontext hvoice
    have hgrants : s.grants locks c = e.grants locks c := by simp only [grants, hcontext]
    rw [Bool.eq_iff_iff, resume_iff, resume_iff, hgrants, hvoice]
  have folds : ∀ (cs : List Channel) (s : Nat × Engine), cs.Nodup → s.2.rig = e.rig →
      s.2.context = e.context → (∀ c ∈ cs, s.2.voice c = e.voice c) →
      (cs.foldl (fun (s : Nat × Engine) c => (if (s.2.resume locks c).1 then s.1 + 1 else s.1,
          (s.2.resume locks c).2)) s).1 = s.1 + cs.countP fun c => (e.resume locks c).1 := by
    intro cs
    induction cs with
    | nil => exact fun _ _ _ _ _ => rfl
    | cons c cs ih =>
      intro s hnodup hrig hcontext hvoice
      obtain ⟨hc, hnodup⟩ := List.nodup_cons.1 hnodup
      have does := resume_does s.2 locks c
      rw [List.foldl_cons, ih _ hnodup (does.rig.trans hrig) (does.context.trans hcontext),
        List.countP_cons, same hrig hcontext (hvoice c List.mem_cons_self)]
      · split <;> omega
      · intro d hd
        have hne : c ≠ d := fun same => hc (same ▸ hd)
        exact (does.other d hne).trans (hvoice d (List.mem_cons_of_mem c hd))
  have counted := folds Channel.all (0, e) (by decide) rfl rfl fun _ _ => rfl
  rw [Nat.zero_add] at counted
  exact counted

end Engine

end ControlVoltage

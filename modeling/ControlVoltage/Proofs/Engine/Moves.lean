import ControlVoltage.Engine.Input
import ControlVoltage.Proofs.Voice.Moves

/-!
# Runs of the engine

* `Engine.Move`, `Engine.run` : everything that can happen to an engine, in any order.
* `Engine.share` : what a command means for one channel, as moves of its voice.
* `Engine.log` : the deeds of a channel in a run.
* `voice_run` : a channel of the engine after a run is its voice after its share of the run.
* `Engine.Reachable` : what a run from a fresh engine can lead to.
-/

namespace ControlVoltage

namespace Engine

/-- Whether whoever runs the commands gets a channel's lock. -/
def grants (e : Engine) (locks : Locks) (c : Channel) : Bool := access e.context (locks c) ≠ .refused

/-! ## Shares -/

/-- The channel that a command is for. -/
def channel? : Command → Option Channel
  | .install c _ => some c
  | .clear c => some c
  | .trigger c _ => some c
  | .action c _ => some c
  | .setVolts c _ => some c
  | .setSlew c _ _ => some c
  | .setQuantizer c _ => some c
  | .setScale c _ _ _ => some c
  | .setCell c _ _ => some c
  | _ => none

/-- A trigger that needs a lock which is not to be had does nothing. -/
def triggerMoves (e : Engine) (locks : Locks) (c : Channel) (action : Action) : List Voice.Move :=
  if action = .unlock ∨ e.grants locks c then [.trigger action] else []

def quantizerMoves (e : Engine) (locks : Locks) (c : Channel) (quantizer : Quantizer) :
    List Voice.Move :=
  if e.grants locks c then [.setQuantizer quantizer] else []

/-- A program that could be made is loaded, and then something else may follow. -/
def loadMoves (result : Except SetupError Program) (rest : List Voice.Move) : List Voice.Move :=
  match result with
  | .ok program => .load program :: rest
  | .error _ => []

/-- What a command does to the voice of its channel. -/
def moves (e : Engine) (locks : Locks) : Command → List Voice.Move
  | .install _ score => loadMoves (Program.compile score) []
  | .clear c => if e.grants locks c then [.clear] else []
  | .trigger c action => e.triggerMoves locks c action
  | .action c number =>
    match Action.ofNumber number with
    | .ok action => e.triggerMoves locks c action
    | .error _ => []
  | .setVolts c volts =>
    loadMoves (Program.single volts (e.voice c).slew (e.voice c).slewCurve)
      (e.triggerMoves locks c .restart)
  | .setSlew _ seconds curve =>
    if seconds.isFinite ∧ ¬ seconds < 0 then [.setSlew seconds curve] else []
  | .setQuantizer c quantizer => e.quantizerMoves locks c quantizer
  | .setScale c degrees modulo scaling =>
    match Quantizer.ofDegrees degrees modulo scaling with
    | .ok quantizer => e.quantizerMoves locks c quantizer
    | .error _ => []
  | .setCell _ name value => if value.isFinite then [.setCell name value] else []
  | _ => []

def share (e : Engine) (locks : Locks) (c : Channel) (command : Command) : List Voice.Move :=
  match command with
  | .service => if e.grants locks c then [.resume] else []
  | command => if channel? command = some c then e.moves locks command else []

/-! ## What an operation on one channel does -/

theorem mem_share {e : Engine} {locks : Locks} {c : Channel} {command : Command} {m : Voice.Move}
    (h : m ∈ e.share locks c command) : m = .resume ∨ m ∈ e.moves locks command := by
  cases command <;> simp only [share] at h <;> split at h <;> simp_all

/-- From `e` to `e'` the channel `c` made these moves, and nothing else happened to any voice. -/
structure Does (e : Engine) (c : Channel) (moves : List Voice.Move) (e' : Engine) : Prop where
  rig : e'.rig = e.rig
  context : e'.context = e.context
  self : e'.voice c = (e.voice c).run e.rig moves
  other : ∀ d, c ≠ d → e'.voice d = e.voice d

section does

variable {e e' e'' : Engine} {c : Channel} {moves moves' : List Voice.Move}

theorem Does.refl (e : Engine) (c : Channel) : Does e c [] e := ⟨rfl, rfl, rfl, fun _ _ => rfl⟩

theorem Does.trans (h : Does e c moves e') (h' : Does e' c moves' e'') :
    Does e c (moves ++ moves') e'' where
  rig := h'.rig.trans h.rig
  context := h'.context.trans h.context
  self := by
    rw [h'.self, h.self, h.rig, Voice.run, Voice.run, Voice.run, List.foldl_append]
  other d hd := (h'.other d hd).trans (h.other d hd)

theorem does_setVoice {v : Voice} (h : v = (e.voice c).run e.rig moves) :
    Does e c moves (e.setVoice c v) :=
  ⟨rfl, rfl, by rw [voice_setVoice_self, h], fun _ hd => voice_setVoice_ne e hd v⟩

theorem Does.note (h : Does e c moves e') (d : Channel) (progress : Player.Progress) :
    Does e c moves (e'.noteProgress d progress) := by
  cases progress <;> exact ⟨h.rig, h.context, h.self, h.other⟩

theorem acquire?_of_grants {locks : Locks} (h : e.grants locks c = true) :
    ∃ e', e.acquire? locks c = some e' ∧ e'.voice c = e.voice c ∧ Does e c [] e' := by
  simp only [grants, decide_eq_true_eq] at h
  simp only [acquire?]
  cases ha : access e.context (locks c) with
  | granted => exact ⟨e, rfl, rfl, Does.refl e c⟩
  | refused => exact absurd ha h
  | afterWait => exact ⟨_, rfl, rfl, rfl, rfl, rfl, fun _ _ => rfl⟩

theorem acquire?_of_not_grants {locks : Locks} (h : e.grants locks c = false) :
    e.acquire? locks c = none := by
  simp only [grants, decide_eq_false_iff_not, ne_eq, Decidable.not_not] at h
  simp only [acquire?, h]

theorem install_does (e : Engine) (c : Channel) (program : Program) :
    Does e c [.load program] (e.install c program) :=
  does_setVoice rfl

theorem clear_does (e : Engine) (locks : Locks) (c : Channel) :
    Does e c (if e.grants locks c then [.clear] else []) (e.clear locks c).2 := by
  cases hgrants : e.grants locks c with
  | false =>
    simp only [clear, acquire?_of_not_grants hgrants]
    exact Does.refl e c
  | true =>
    obtain ⟨e₁, hacquire, -, hnothing⟩ := acquire?_of_grants hgrants
    simp only [clear, hacquire]
    exact hnothing.trans (does_setVoice rfl)

theorem setQuantizer_does (e : Engine) (locks : Locks) (c : Channel) (quantizer : Quantizer) :
    Does e c (e.quantizerMoves locks c quantizer) (e.setQuantizer locks c quantizer).2 := by
  unfold setQuantizer quantizerMoves
  cases hgrants : e.grants locks c with
  | false =>
    simp only [acquire?_of_not_grants hgrants]
    exact Does.refl e c
  | true =>
    obtain ⟨e₁, hacquire, -, hnothing⟩ := acquire?_of_grants hgrants
    simp only [hacquire]
    exact hnothing.trans (does_setVoice rfl)

theorem advance_eq (e : Engine) (c : Channel) (p : Player) (ramp : Ramp) :
    e.advance c p ramp =
      (((e.voice c).walk e.rig p ramp).1, e.setVoice c ((e.voice c).walk e.rig p ramp).2) := by
  have hrig : p.advance e.rig.rate e.rig.range ramp = p.advance e.rate e.range ramp := rfl
  unfold advance Voice.walk
  rw [hrig]

theorem respond_unlock_iff {p : Player} {action : Action} :
    respond p action = .unlock ↔ action = .unlock := by
  cases action with
  | unlock => simp [respond]
  | restart => simp only [respond]; split <;> simp
  | release => simp only [respond]; split <;> simp

theorem trigger_does (e : Engine) (locks : Locks) (c : Channel) (action : Action) :
    Does e c (e.triggerMoves locks c action) (e.trigger locks c action).2 := by
  have quiet : (e.voice c).after e.rig (.trigger action) = e.voice c →
      Does e c (e.triggerMoves locks c action) e := by
    intro still
    unfold triggerMoves
    split
    · exact ⟨rfl, rfl, still.symm, fun _ _ => rfl⟩
    · exact Does.refl e c
  unfold trigger
  cases hp : (e.voice c).player with
  | none =>
    refine quiet ?_
    cases action <;> simp [Voice.after, Voice.triggered?, Voice.unlock_of_none, hp]
  | some p =>
    simp only
    cases hresponse : respond p action with
    | unlock =>
      obtain rfl := respond_unlock_iff.1 hresponse
      simp only [triggerMoves, true_or, if_true]
      refine does_setVoice ?_
      simp [Voice.run, Voice.after, Voice.triggered?, Voice.unlock, hp, respond, Option.filter]
    | ignore =>
      have haction : action ≠ .unlock := fun h => by cases hresponse.symm.trans (respond_unlock_iff.2 h)
      refine quiet ?_
      simp [Voice.after, Voice.triggered?, hp, hresponse, haction, Option.filter]
    | walk =>
      have haction : action ≠ .unlock := fun h => by cases hresponse.symm.trans (respond_unlock_iff.2 h)
      simp only [triggerMoves, haction, false_or]
      cases hgrants : e.grants locks c with
      | false =>
        simp only [acquire?_of_not_grants hgrants]
        exact Does.refl e c
      | true =>
        obtain ⟨e₁, hacquire, hvoice, hnothing⟩ := acquire?_of_grants hgrants
        simp only [hacquire, advance_eq]
        obtain ⟨⟨result, v⟩, hwalk⟩ :
            ∃ x, (e₁.voice c).walk e₁.rig (triggered p action) (e₁.voice c).ramp.hold = x :=
          ⟨_, rfl⟩
        have walks : Does e₁ c [.trigger action] (e₁.setVoice c v) := by
          refine does_setVoice ?_
          have hq : (e₁.voice c).triggered? action = some (triggered p action) := by
            simp [Voice.triggered?, hvoice, hp, hresponse, Option.filter]
          simp [Voice.run, Voice.after, hq, hwalk]
        have whole : Does e c [.trigger action] (e₁.setVoice c v) := hnothing.trans walks
        cases result with
        | error fault => simpa [hwalk] using whole
        | ok progress => simpa [hwalk] using whole.note c progress

theorem resume_does (e : Engine) (locks : Locks) (c : Channel) :
    Does e c (if e.grants locks c then [.resume] else []) (e.resume locks c).2 := by
  have quiet : (e.voice c).ready? = none →
      Does e c (if e.grants locks c then [.resume] else []) e := by
    intro hready
    have still : (e.voice c).after e.rig .resume = e.voice c := by simp [Voice.after, hready]
    split
    · exact ⟨rfl, rfl, still.symm, fun _ _ => rfl⟩
    · exact Does.refl e c
  unfold resume
  cases hp : (e.voice c).player with
  | none => exact quiet (by simp [Voice.ready?, hp])
  | some p =>
    simp only
    by_cases awaited : p.awaiting = some (e.voice c).completed
    · rw [if_pos awaited]
      cases hgrants : e.grants locks c with
      | false =>
        simp only [acquire?_of_not_grants hgrants]
        exact Does.refl e c
      | true =>
        obtain ⟨e₁, hacquire, hvoice, hnothing⟩ := acquire?_of_grants hgrants
        have hready : (e₁.voice c).ready? = some p := by
          simp [Voice.ready?, hvoice, hp, awaited, Option.filter]
        simp only [hacquire, advance_eq]
        obtain ⟨⟨result, v⟩, hwalk⟩ :
            ∃ x, (e₁.voice c).walk e₁.rig p (e₁.voice c).ramp = x := ⟨_, rfl⟩
        cases result with
        | error fault =>
          have walks : Does e₁ c [.resume]
              ((e₁.setVoice c v).setVoice c { (e₁.setVoice c v).voice c with player := none }) := by
            refine ⟨rfl, rfl, ?_, fun d hd => ?_⟩
            · rw [voice_setVoice_self, voice_setVoice_self]
              simp [Voice.run, Voice.after, hready, hwalk]
            · rw [voice_setVoice_ne _ hd, voice_setVoice_ne _ hd]
          simpa [hwalk] using hnothing.trans walks
        | ok progress =>
          have whole : Does e c [.resume] (e₁.setVoice c v) :=
            hnothing.trans (does_setVoice (by simp [Voice.run, Voice.after, hready, hwalk]))
          simpa [hwalk] using whole.note c progress
    · rw [if_neg awaited]
      exact quiet (by simp [Voice.ready?, hp, awaited, Option.filter])

/-! ## Commands -/

theorem setSlew_cases (e : Engine) (c : Channel) (seconds : Float32) (curve : Curve) :
    seconds.isFinite = false ∧ e.setSlew c seconds curve = (.error (.setup .nonFinite), e) ∨
      seconds < 0 ∧ e.setSlew c seconds curve =
        (.error (.setup (.negativeDuration seconds)), e) ∨
      (seconds.isFinite = true ∧ ¬ seconds < 0) ∧ e.setSlew c seconds curve =
        (.ok (), e.setVoice c { e.voice c with slew := seconds, slewCurve := curve }) := by
  unfold setSlew
  cases hfinite : seconds.isFinite with
  | false => exact .inl ⟨rfl, rfl⟩
  | true =>
    by_cases negative : seconds < 0
    · exact .inr (.inl ⟨negative, by simp [negative]⟩)
    · exact .inr (.inr ⟨⟨rfl, negative⟩, by simp [negative]⟩)

theorem setSlew_snd (e : Engine) (c : Channel) (seconds : Float32) (curve : Curve) :
    (e.setSlew c seconds curve).2 = e ∨ ∃ v, (e.setSlew c seconds curve).2 = e.setVoice c v := by
  rcases e.setSlew_cases c seconds curve with ⟨-, hset⟩ | ⟨-, hset⟩ | ⟨-, hset⟩
  · exact .inl (by rw [hset])
  · exact .inl (by rw [hset])
  · exact .inr ⟨_, by rw [hset]⟩

theorem setSlew_does (e : Engine) (c : Channel) (seconds : Float32) (curve : Curve) :
    Does e c (if seconds.isFinite ∧ ¬ seconds < 0 then [.setSlew seconds curve] else [])
      (e.setSlew c seconds curve).2 := by
  rcases e.setSlew_cases c seconds curve with
    ⟨infinite, hset⟩ | ⟨negative, hset⟩ | ⟨fine, hset⟩
  · simpa [hset, infinite] using Does.refl e c
  · simpa [hset, negative] using Does.refl e c
  · rw [hset, if_pos fine]
    exact does_setVoice rfl

theorem setCell_cases (e : Engine) (c : Channel) (name : String) (value : Float32) :
    value.isFinite = false ∧ e.setCell c name value = (.error (.setup .nonFinite), e) ∨
      value.isFinite = true ∧
        ((e.voice c).player = none ∧ e.setCell c name value = (.error (.noProgram c), e) ∨
          ∃ p, (e.voice c).player = some p ∧
            (p.cells.setNamed? name value = none ∧
                e.setCell c name value = (.error (.unknownCell name), e) ∨
              ∃ cells, p.cells.setNamed? name value = some cells ∧ e.setCell c name value =
                (.ok (), e.setVoice c { e.voice c with player := some { p with cells } }))) := by
  unfold setCell
  cases value.isFinite with
  | false => exact .inl ⟨rfl, rfl⟩
  | true =>
    refine .inr ⟨rfl, ?_⟩
    cases hp : (e.voice c).player with
    | none => exact .inl ⟨rfl, by simp⟩
    | some p =>
      refine .inr ⟨p, rfl, ?_⟩
      cases hcells : p.cells.setNamed? name value with
      | none => exact .inl ⟨rfl, by simp [hcells]⟩
      | some cells => exact .inr ⟨cells, rfl, by simp [hcells]⟩

theorem setCell_snd (e : Engine) (c : Channel) (name : String) (value : Float32) :
    (e.setCell c name value).2 = e ∨ ∃ v, (e.setCell c name value).2 = e.setVoice c v := by
  rcases e.setCell_cases c name value with
    ⟨-, hset⟩ | ⟨-, ⟨-, hset⟩ | ⟨p, -, ⟨-, hset⟩ | ⟨cells, -, hset⟩⟩⟩
  · exact .inl (by rw [hset])
  · exact .inl (by rw [hset])
  · exact .inl (by rw [hset])
  · exact .inr ⟨_, by rw [hset]⟩

theorem setCell_does (e : Engine) (c : Channel) (name : String) (value : Float32) :
    Does e c (if value.isFinite then [.setCell name value] else []) (e.setCell c name value).2 := by
  have stays : ∀ x, (e.voice c).player = x → { e.voice c with player := x } = e.voice c := by
    rintro _ rfl
    rfl
  have quiet : (e.voice c).after e.rig (.setCell name value) = e.voice c →
      Does e c [.setCell name value] e := fun still => ⟨rfl, rfl, still.symm, fun _ _ => rfl⟩
  rcases e.setCell_cases c name value with ⟨infinite, hset⟩ | ⟨finite, hset⟩
  · simpa [hset, infinite] using Does.refl e c
  rw [if_pos finite]
  rcases hset with ⟨hp, hset⟩ | ⟨p, hp, ⟨unknown, hset⟩ | ⟨cells, hcells, hset⟩⟩
  · rw [hset]
    exact quiet (stays _ (by simp [hp]))
  · rw [hset]
    exact quiet (stays _ (by simp [hp, unknown]))
  · rw [hset]
    exact does_setVoice (by simp [Voice.run, Voice.after, hp, hcells])

theorem setVolts_does (e : Engine) (locks : Locks) (c : Channel) (volts : Float32) :
    Does e c
      (loadMoves (Program.single volts (e.voice c).slew (e.voice c).slewCurve)
        (e.triggerMoves locks c .restart))
      (e.setVolts locks c volts).2 := by
  unfold setVolts
  cases Program.single volts (e.voice c).slew (e.voice c).slewCurve with
  | error fault => exact Does.refl e c
  | ok program =>
    have loads := install_does e c program
    have same : (e.install c program).triggerMoves locks c .restart =
        e.triggerMoves locks c .restart := rfl
    have restarts := trigger_does (e.install c program) locks c .restart
    rw [same] at restarts
    exact loads.trans restarts

theorem perform_does (e : Engine) (locks : Locks) {c : Channel} {command : Command}
    (h : channel? command = some c) :
    Does e c (e.moves locks command) (e.perform locks command).2 := by
  cases command with
  | install d score =>
    cases h
    simp only [moves, perform, perform.answer, installScore]
    cases Program.compile score with
    | error fault => exact Does.refl e c
    | ok program => exact install_does e c program
  | clear d => cases h; exact clear_does e locks c
  | trigger d action => cases h; exact trigger_does e locks c action
  | action d number =>
    cases h
    simp only [moves, perform, perform.answer, Engine.action]
    cases Action.ofNumber number with
    | error fault => exact Does.refl e c
    | ok action => exact trigger_does e locks c action
  | setVolts d volts => cases h; exact setVolts_does e locks c volts
  | setSlew d seconds curve => cases h; exact setSlew_does e c seconds curve
  | setQuantizer d quantizer => cases h; exact setQuantizer_does e locks c quantizer
  | setScale d degrees modulo scaling =>
    cases h
    simp only [moves, perform, perform.answer, setScale]
    cases Quantizer.ofDegrees degrees modulo scaling with
    | error fault => exact Does.refl e c
    | ok quantizer => exact setQuantizer_does e locks c quantizer
  | setCell d name value => cases h; exact setCell_does e c name value
  | _ => cases h

end does

/-! ## All channels -/

/-- From `e` to `e'` every channel made its moves. -/
structure DoesAll (e : Engine) (moves : Channel → List Voice.Move) (e' : Engine) : Prop where
  rig : e'.rig = e.rig
  context : e'.context = e.context
  voice : ∀ c, e'.voice c = (e.voice c).run e.rig (moves c)

theorem Does.all {e e' : Engine} {c : Channel} {moves : List Voice.Move} (h : Does e c moves e') :
    DoesAll e (fun d => if c = d then moves else []) e' := by
  refine ⟨h.rig, h.context, fun d => ?_⟩
  by_cases hd : c = d
  · subst hd
    rw [if_pos rfl, h.self]
  · rw [if_neg hd, h.other d hd]
    rfl

theorem doesAll_foldl {σ : Type} (engine : σ → Engine) (f : σ → Channel → σ)
    (moves : Channel → List Voice.Move) (e : Engine)
    (step : ∀ s c, (engine s).rig = e.rig → (engine s).context = e.context →
      Does (engine s) c (moves c) (engine (f s c)))
    (s : σ) (hs : engine s = e) : DoesAll e moves (engine (Channel.all.foldl f s)) := by
  have partly : ∀ (cs : List Channel) (s : σ), cs.Nodup → (engine s).rig = e.rig →
      (engine s).context = e.context →
      (engine (cs.foldl f s)).rig = e.rig ∧ (engine (cs.foldl f s)).context = e.context ∧
        ∀ c, (engine (cs.foldl f s)).voice c =
          ((engine s).voice c).run e.rig (if c ∈ cs then moves c else []) := by
    intro cs
    induction cs with
    | nil => exact fun s _ hrig hcontext => ⟨hrig, hcontext, fun _ => rfl⟩
    | cons d cs ih =>
      intro s hnodup hrig hcontext
      obtain ⟨hd, hnodup⟩ := List.nodup_cons.1 hnodup
      have hstep := step s d hrig hcontext
      obtain ⟨hrig', hcontext', hvoice⟩ :=
        ih (f s d) hnodup (hstep.rig.trans hrig) (hstep.context.trans hcontext)
      refine ⟨hrig', hcontext', fun c => ?_⟩
      rw [List.foldl_cons, hvoice c]
      by_cases hc : d = c
      · subst hc
        rw [if_neg hd, if_pos (List.mem_cons_self), hstep.self, hrig]
        rfl
      · have hmem : c ∈ d :: cs ↔ c ∈ cs := by simp [Ne.symm hc]
        rw [hstep.other c hc]
        simp only [hmem]
  obtain ⟨hrig, hcontext, hvoice⟩ := partly Channel.all s (by decide) (by rw [hs]) (by rw [hs])
  refine ⟨hrig, hcontext, fun c => ?_⟩
  rw [hvoice c, if_pos (Channel.mem_all c), hs]

theorem service_doesAll (e : Engine) (locks : Locks) :
    DoesAll e (fun c => if e.grants locks c then [.resume] else []) (e.service locks).2 := by
  refine doesAll_foldl (σ := Nat × Engine) Prod.snd _ _ e (fun s c hrig hcontext => ?_) (0, e) rfl
  have same : s.2.grants locks c = e.grants locks c := by simp only [grants, hcontext]
  rw [← same]
  exact resume_does s.2 locks c

def tickMoves (locks : Locks) (c : Channel) : List Voice.Move := if locks c then [] else [.sample]

theorem tickChannel_does {σ : Type} [Sink σ] (locks : Locks) (s : Engine × σ) (c : Channel) :
    Does s.1 c (tickMoves locks c) (tickChannel locks s c).1 := by
  unfold tickChannel tickMoves
  cases locks c with
  | true => exact ⟨rfl, rfl, rfl, fun _ _ => rfl⟩
  | false => exact does_setVoice rfl

theorem tick_doesAll {σ : Type} [Sink σ] (e : Engine) (locks : Locks) (out : σ) :
    DoesAll e (tickMoves locks) (e.tick locks out).1 := by
  have folded := doesAll_foldl (σ := Engine × σ) Prod.fst (tickChannel locks) (tickMoves locks) e
    (fun s c _ _ => tickChannel_does locks s c) (e, out) rfl
  exact ⟨folded.rig, folded.context, folded.voice⟩

theorem share_of_channel {e : Engine} {locks : Locks} {command : Command} {d : Channel}
    (h : channel? command = some d) (c : Channel) :
    e.share locks c command = if d = c then e.moves locks command else [] := by
  cases command <;> first | cases h; simp [share, channel?] | cases h

/-- Every command does to each channel its share. -/
theorem perform_doesAll (e : Engine) (locks : Locks) (command : Command) :
    DoesAll e (fun c => e.share locks c command) (e.perform locks command).2 := by
  cases hchannel : channel? command with
  | some d =>
    have does := (perform_does e locks hchannel).all
    refine ⟨does.rig, does.context, fun c => ?_⟩
    rw [share_of_channel hchannel]
    exact does.voice c
  | none =>
    have reads : ∀ c, DoesAll e (fun _ => []) ((e.acquire? locks c).getD e) := by
      intro c
      cases hgrants : e.grants locks c with
      | false => simpa [acquire?_of_not_grants hgrants] using ⟨rfl, rfl, fun _ => rfl⟩
      | true =>
        obtain ⟨e₁, hacquire, -, hnothing⟩ := acquire?_of_grants hgrants
        have same := hnothing.all
        simp only [ite_self] at same
        simpa [hacquire] using same
    cases command with
    | service => exact service_doesAll e locks
    | quantizer c =>
      refine (?_ : DoesAll e (fun _ => []) _)
      have := reads c
      simp only [perform, quantizer]
      cases hacquire : e.acquire? locks c <;> simpa [hacquire] using this
    | voltage c =>
      refine (?_ : DoesAll e (fun _ => []) _)
      have := reads c
      simp only [perform, voltage]
      cases hacquire : e.acquire? locks c <;> simpa [hacquire] using this
    | pollEvent =>
      refine (?_ : DoesAll e (fun _ => []) _)
      simp only [perform, pollEvent]
      split <;> exact ⟨rfl, rfl, fun _ => rfl⟩
    | drainEvents => exact ⟨rfl, rfl, fun _ => rfl⟩
    | slew c => exact ⟨rfl, rfl, fun _ => rfl⟩
    | getCell c name => exact ⟨rfl, rfl, fun _ => rfl⟩
    | written c => exact ⟨rfl, rfl, fun _ => rfl⟩
    | context => exact ⟨rfl, rfl, fun _ => rfl⟩
    | rate => exact ⟨rfl, rfl, fun _ => rfl⟩
    | _ => cases hchannel

/-! ## Runs -/

/-- What can happen to an engine. -/
inductive Move where
  | tick (locks : Locks)
  | perform (locks : Locks) (command : Command)
  /-- From here on commands come from this side. -/
  | switch (context : Context)
  | setHandler (input : Nat) (handler : Option Handler)
  /-- An input event is dropped. -/
  | drop (input : Nat)
  | post (notice : Notice)
  | drainNotices

def after (e : Engine) : Move → Engine
  | .tick locks => (e.tick locks e.lastFrame).1
  | .perform locks command => (e.perform locks command).2
  | .switch context => { e with context }
  | .setHandler input handler => (e.setHandler input handler).2
  | .drop input =>
    { e with counts := { e.counts with dropped := e.counts.dropped + 1 } }.post (.eventDropped input)
  | .post notice => e.post notice
  | .drainNotices => e.drainNotices.2

def run (e : Engine) (moves : List Move) : Engine := moves.foldl after e

/-- What a move means for a channel. -/
def shareOf (e : Engine) (c : Channel) : Move → List Voice.Move
  | .tick locks => tickMoves locks c
  | .perform locks command => e.share locks c command
  | _ => []

def sharesOf (c : Channel) : Engine → List Move → List Voice.Move
  | _, [] => []
  | e, move :: moves => e.shareOf c move ++ sharesOf c (e.after move) moves

theorem after_voice (e : Engine) (move : Move) :
    (e.after move).rig = e.rig ∧
      ∀ c, (e.after move).voice c = (e.voice c).run e.rig (e.shareOf c move) := by
  cases move with
  | tick locks =>
    have does := tick_doesAll e locks e.lastFrame
    exact ⟨does.rig, does.voice⟩
  | perform locks command =>
    have does := perform_doesAll e locks command
    exact ⟨does.rig, does.voice⟩
  | setHandler input handler =>
    simp only [after, setHandler]
    split <;> exact ⟨rfl, fun _ => rfl⟩
  | _ => exact ⟨rfl, fun _ => rfl⟩

/-- A channel after a run is its voice after its share of the run. -/
theorem voice_run (e : Engine) (c : Channel) (moves : List Move) :
    (e.run moves).rig = e.rig ∧
      (e.run moves).voice c = (e.voice c).run e.rig (sharesOf c e moves) := by
  induction moves generalizing e with
  | nil => exact ⟨rfl, rfl⟩
  | cons move moves ih =>
    obtain ⟨hrig, hvoice⟩ := after_voice e move
    obtain ⟨hrig', hvoice'⟩ := ih (e.after move)
    refine ⟨hrig'.trans hrig, ?_⟩
    show ((e.after move).run moves).voice c = _
    rw [hvoice', hvoice, hrig, sharesOf, Voice.run, Voice.run, Voice.run, List.foldl_append]

/-- The deeds of a channel in a run. -/
def log (e : Engine) (c : Channel) (moves : List Move) : List Deed :=
  Voice.log e.rig (e.voice c) (sharesOf c e moves)

theorem sharesOf_append (c : Channel) (e : Engine) (moves moves' : List Move) :
    sharesOf c e (moves ++ moves') = sharesOf c e moves ++ sharesOf c (e.run moves) moves' := by
  induction moves generalizing e with
  | nil => rfl
  | cons move moves ih =>
    rw [List.cons_append, sharesOf, sharesOf, ih, List.append_assoc]
    rfl

theorem log_append (e : Engine) (c : Channel) (moves moves' : List Move) :
    e.log c (moves ++ moves') = e.log c moves ++ (e.run moves).log c moves' := by
  obtain ⟨hrig, hvoice⟩ := voice_run e c moves
  rw [log, log, log, sharesOf_append, Voice.log_append, hrig, hvoice]

/-- What a run from a fresh engine can lead to. -/
def Reachable (e : Engine) : Prop :=
  ∃ rate range capacity f moves, e = (fresh rate range capacity f).run moves

theorem Reachable.after {e : Engine} (h : Reachable e) (move : Move) : Reachable (e.after move) := by
  obtain ⟨rate, range, capacity, f, moves, rfl⟩ := h
  refine ⟨rate, range, capacity, f, moves ++ [move], ?_⟩
  rw [run, run, List.foldl_append]
  rfl

theorem Reachable.perform {e : Engine} (h : Reachable e) (locks : Locks) (command : Command) :
    Reachable (e.perform locks command).2 :=
  h.after (.perform locks command)

theorem Reachable.install {e : Engine} {c : Channel} (h : Reachable e) {score : List Score.Node}
    {program : Program} (hcompile : Program.compile score = .ok program) :
    Reachable (e.install c program) := by
  have := h.perform .free (.install c score)
  simpa [Engine.perform, Engine.perform.answer, installScore, hcompile] using this

/-! ## What else is a run -/

theorem run_append (e : Engine) (moves moves' : List Move) :
    e.run (moves ++ moves') = (e.run moves).run moves' :=
  List.foldl_append

theorem tick_sink {σ τ : Type} [Sink σ] [Sink τ] (e : Engine) (locks : Locks) (out : σ) (out' : τ) :
    (e.tick locks out).1 = (e.tick locks out').1 := by
  have folds : ∀ (cs : List Channel) (s : Engine × σ) (t : Engine × τ), s.1 = t.1 →
      (cs.foldl (tickChannel locks) s).1 = (cs.foldl (tickChannel locks) t).1 := by
    intro cs
    induction cs with
    | nil => exact fun s t h => h
    | cons c cs ih =>
      rintro ⟨e, s⟩ ⟨_, t⟩ rfl
      refine ih _ _ ?_
      simp only [tickChannel]
      split <;> rfl
  simp only [tick, folds Channel.all (e, out) (e, out') rfl]

theorem voice_fresh (rate : Rate) (range : Range) (capacity : Nat) (f : Transcendental) (c : Channel) :
    (fresh rate range capacity f).voice c = .rest (range.clamp 0) := by
  simp [Engine.voice, fresh]

end Engine

end ControlVoltage

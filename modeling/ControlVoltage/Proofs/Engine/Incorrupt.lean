import ControlVoltage.Proofs.Engine.Answers
import ControlVoltage.Proofs.Engine.Failure
import ControlVoltage.Proofs.Player.Fits

/-!
# No walk turns out corrupt

A player that starts with a compiled program keeps a stack that fits it, whatever happens to its
channel. So the three ways in which a walk may find its stack corrupt never come up: no command fails
for it, and no service takes a program away.

* `Voice.Incorrupt` : what every move keeps.
* `Engine.perform_ne_corrupt`, `Engine.service_program` : what it means for commands.
* `Engine.never_corrupt` : any run.
-/

namespace ControlVoltage

namespace Voice

/-- If there is a player, its stack fits its program. -/
def Incorrupt (v : Voice) : Prop := ∀ p, v.player = some p → p.Incorrupt

variable {rig : Rig} {v : Voice}

theorem Incorrupt.triggered (h : v.Incorrupt) {action : Action} {q : Player}
    (hq : v.triggered? action = some q) : q.Incorrupt :=
  triggered_keeps (fun _ hp => hp.restart) (fun _ hp => hp.release) h hq

theorem Incorrupt.after (h : v.Incorrupt) {move : Move} (checked : move.Checked) :
    (v.after rig move).Incorrupt := by
  intro q hq
  cases player_after hq with
  | loaded program hmove hloaded =>
    subst hmove hloaded
    obtain ⟨score, hcompile⟩ := checked
    exact (Player.unstarted_load hcompile).incorrupt
  | walked p ramp hp hwalked =>
    have hincorrupt : p.Incorrupt := by
      rcases hp with hready | ⟨action, htriggered⟩
      · exact h p (player_of_ready hready).1
      · exact h.triggered htriggered
    obtain ⟨progress, q', ramp', hadvance, -, hq'⟩ := hincorrupt.advance rig.rate rig.range ramp
    rw [hwalked, hadvance]
    exact hq'
  | stood p hp hprogram hcells hstack => exact (h p hp).congr hprogram hcells hstack

theorem Incorrupt.answer_ne_corrupt (h : v.Incorrupt) (c : Channel) (granted : Bool)
    (action : Action) (fault : Corruption) :
    v.answer rig c granted action ≠ .error (.corrupt fault) := by
  unfold answer
  cases hp : v.player with
  | none => simp
  | some p =>
    cases hresponse : Engine.respond p action with
    | unlock => simp [hresponse]
    | ignore => simp [hresponse]
    | walk =>
      have hq : v.triggered? action = some (Engine.triggered p action) := by
        simp [triggered?, hp, hresponse, Option.filter]
      obtain ⟨progress, q, ramp, hadvance, -⟩ :=
        (h.triggered hq).advance rig.rate rig.range v.ramp.hold
      simp only [hresponse, walk, hadvance]
      cases granted <;> simp

theorem Incorrupt.program_resume (h : v.Incorrupt) :
    (v.after rig .resume).player.map Player.program = v.player.map Player.program := by
  cases hready : v.ready? with
  | none => rw [after_resume_of_not_ready hready]
  | some p =>
    obtain ⟨hp, -⟩ := player_of_ready hready
    obtain ⟨progress, q, ramp, hadvance, hprogram, -⟩ := (h p hp).advance rig.rate rig.range v.ramp
    simp [Voice.after, hready, walk, hadvance, hp, hprogram]

end Voice

namespace Engine

variable {e : Engine} {c : Channel}

theorem perform_ne_corrupt (h : (e.voice c).Incorrupt) (locks : Locks) {command : Command}
    (hchannel : channel? command = some c) (fault : Corruption) :
    (e.perform locks command).1 ≠ .error (.corrupt fault) := by
  have answers : ∀ {r : Except CommandError Unit × Engine}, r.1 ≠ .error (.corrupt fault) →
      (perform.answer r).1 ≠ .error (.corrupt fault) := fun h herror => h (answer_error herror)
  have triggers : ∀ action, (e.trigger locks c action).1 ≠ .error (.corrupt fault) := by
    intro action
    rw [trigger_fst]
    exact h.answer_ne_corrupt c _ action fault
  have quantizers : ∀ quantizer, (e.setQuantizer locks c quantizer).1 ≠ .error (.corrupt fault) := by
    intro quantizer
    rw [setQuantizer_fst]
    split <;> simp
  cases command with
  | install d score =>
    refine answers ?_
    unfold installScore
    split <;> simp
  | clear d =>
    cases hchannel
    refine answers ?_
    rw [clear_fst]
    split <;> simp
  | trigger d action =>
    cases hchannel
    exact answers (triggers action)
  | action d number =>
    cases hchannel
    refine answers ?_
    unfold Engine.action
    cases haction : Action.ofNumber number with
    | error error =>
      unfold Action.ofNumber at haction
      split at haction <;> cases haction
      simp
    | ok action => exact triggers action
  | setVolts d volts =>
    cases hchannel
    refine answers ?_
    rw [setVolts_fst]
    cases hsingle : Program.single volts (e.voice c).slew (e.voice c).slewCurve with
    | error error => simp
    | ok program =>
      have loaded : ((e.voice c).after e.rig (.load program)).Incorrupt := h.after ⟨_, hsingle⟩
      exact loaded.answer_ne_corrupt c _ .restart fault
  | setSlew d seconds curve =>
    refine answers ?_
    rcases e.setSlew_cases d seconds curve with
      ⟨infinite, hset⟩ | ⟨negative, hset⟩ | ⟨fine, hset⟩
    · simp [hset]
    · simp [hset]
    · simp [hset]
  | setQuantizer d quantizer =>
    cases hchannel
    exact answers (quantizers quantizer)
  | setScale d degrees modulo scaling =>
    cases hchannel
    refine answers ?_
    unfold setScale
    split
    · simp
    · exact quantizers _
  | setCell d name value =>
    refine answers ?_
    rcases e.setCell_cases d name value with
      ⟨infinite, hset⟩ | ⟨-, ⟨unprogrammed, hset⟩ | ⟨p, -, ⟨unknown, hset⟩ | ⟨cells, known, hset⟩⟩⟩
    · simp [hset]
    · simp [hset]
    · simp [hset]
    · simp [hset]
  | _ => cases hchannel

theorem service_program (h : (e.voice c).Incorrupt) (locks : Locks) :
    ((e.perform locks .service).2.voice c).player.map Player.program =
      (e.voice c).player.map Player.program := by
  have hvoice := (after_voice e (.perform locks .service)).2 c
  rw [show (e.perform locks .service).2 = e.after (.perform locks .service) from rfl, hvoice]
  simp only [shareOf, share]
  split
  · exact h.program_resume
  · rfl

/-- Corruption is unreachable. From any state of the engine in which the channel has no program, or a
compiled one that has not been started, with anything in its cells, and after any run, whatever
program there is by then:
* every block that it enters is there;
* whether its walk goes on, starts again or leaves a held block, and however long it would go on, its
  stack fits: every mark is in a block that is there, the lowest in the root, each one above in a
  block that was entered by the operation just before the place of the mark below, and there are no
  more marks than there is room for; no move finds it corrupt;
* such a walk, with its budget of moves, comes to rest;
* no command for the channel fails for corruption;
* no service takes the program away. -/
theorem never_corrupt (e : Engine) (c : Channel)
    (start : ∀ p, (e.voice c).player = some p → p.Unstarted) (moves : List Move) :
    let e' := e.run moves
    (∀ p, (e'.voice c).player = some p → p.program.Closed ∧
        ∀ p' ∈ [p, p.restart, p.release],
          (∀ q, p'.Meets e'.rate e'.range q →
            q.Fits ∧ ∀ fault, q.step e'.rate e'.range ≠ .corrupt fault) ∧
          ∀ ramp, ∃ progress, (p'.advance e'.rate e'.range ramp).1 = .ok progress) ∧
      (∀ locks command, channel? command = some c →
        ∀ fault, (e'.perform locks command).1 ≠ .error (.corrupt fault)) ∧
      ∀ locks, ((e'.perform locks .service).2.voice c).player.map Player.program =
        (e'.voice c).player.map Player.program := by
  intro e'
  have incorrupt : (e'.voice c).Incorrupt := by
    have start' : (e.voice c).Incorrupt := fun p hp => (start p hp).incorrupt
    have keeps : ∀ (rig : Rig) (v : Voice) (move : Voice.Move), move.Checked →
        v.Incorrupt → (v.after rig move).Incorrupt := fun _ _ _ checked h => h.after checked
    exact voice_keeps keeps start' moves
  refine ⟨fun p hp => ⟨?_, ?_⟩, fun locks command => perform_ne_corrupt incorrupt locks,
    service_program incorrupt⟩
  · obtain ⟨score, hcompile⟩ := (incorrupt p hp).sound.compiled
    exact Program.closed_of_compile hcompile
  · intro p' hp'
    have hp'' : p'.Incorrupt := by
      have h := incorrupt p hp
      simp only [List.mem_cons, List.not_mem_nil, or_false] at hp'
      rcases hp' with rfl | rfl | rfl
      · exact h
      · exact h.restart
      · exact h.release
    refine ⟨fun q meets => ⟨(hp''.meets meets).fits, (hp''.meets meets).step_ne_corrupt⟩,
      fun ramp => ?_⟩
    obtain ⟨progress, q, ramp', hadvance, -⟩ := hp''.advance e'.rate e'.range ramp
    exact ⟨progress, by rw [hadvance]⟩

/-- Seven blocks around a ramp, one of them run twice and one held: the stack is as high as it can
be, and it fits. -/
theorem never_corrupt_deepest :
    let score : List Score.Node := [.seq [.loop [.times 2 [.held [.seq [.seq [.seq
      [.ramp (.lit 1) (.lit 1) "linear"]]]]]]]]
    let e := (fresh .standard .standard 1).run [.perform .free (.install .first score),
      .perform .free (.trigger .first .restart), .tick .free]
    ∃ p, (e.voice .first).player = some p ∧
      p.stack.map Mark.block = [7, 6, 5, 4, 3, 2, 1, 0] ∧ p.stack.length = Program.maxDepth ∧
      p.Fits ∧ ∀ fault, (e.perform .free (.trigger .first .release)).1 ≠ .error (.corrupt fault) := by
  intro score e
  have hblocks : (e.voice .first).player.map (fun p => p.stack.map Mark.block) =
      some [7, 6, 5, 4, 3, 2, 1, 0] := by decide +kernel
  obtain ⟨p, hp, hstack⟩ := Option.map_eq_some_iff.1 hblocks
  obtain ⟨plays, answers, -⟩ := never_corrupt (fresh .standard .standard 1) .first
    (fun p hp => by rw [voice_fresh] at hp; cases hp) [.perform .free (.install .first score),
      .perform .free (.trigger .first .restart), .tick .free]
  have fits : p.Fits := (((plays p hp).2 p (by simp)).1 p .refl).1
  refine ⟨p, hp, hstack, ?_, fits, answers .free _ rfl⟩
  rw [← List.length_map Mark.block, hstack]
  rfl

end Engine

end ControlVoltage

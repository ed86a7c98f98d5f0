import ControlVoltage.Proofs.Engine.Sound

/-!
# Commands that fail

A command that fails leaves a reachable engine as it was, with one exception: on the real-time side
a move to a voltage installs its program before it asks for the lock of the channel, and leaves the
program there when the lock is held.

* `Engine.leftBehind?` : the exception.
* `Engine.perform_error` : the engine after a command that failed.
* `Engine.failed_or_left_behind` : which failures leave the engine as it was, and what the others
  leave.
-/

namespace ControlVoltage.Engine

/-- The channel and the program that a command leaves behind when it does not get a lock. -/
def leftBehind? (e : Engine) (locks : Locks) : Command → Option (Channel × Program)
  | .setVolts c volts =>
    match Program.single volts (e.voice c).slew (e.voice c).slewCurve with
    | .ok program => if e.grants locks c then none else some (c, program)
    | .error _ => none
  | _ => none

variable {e : Engine} {locks : Locks} {error : CommandError}

theorem trigger_error {c : Channel} {action : Action} (sound : (e.voice c).Sound)
    (h : (e.trigger locks c action).1 = .error error) :
    (e.trigger locks c action).2 = e ∧
      ((e.voice c).player = none ∧ error = .noProgram c ∨
        e.grants locks c = false ∧ error = .contention) := by
  unfold trigger at h ⊢
  cases hp : (e.voice c).player with
  | none =>
    simp only [hp] at h ⊢
    cases h
    simp
  | some p =>
    simp only [hp] at h ⊢
    cases hresponse : respond p action with
    | unlock => simp [hresponse] at h
    | ignore => simp [hresponse] at h
    | walk =>
      simp only [hresponse] at h ⊢
      cases hgrants : e.grants locks c with
      | false =>
        simp only [acquire?_of_not_grants hgrants] at h ⊢
        cases h
        simp
      | true =>
        -- A walk of a sound player comes to rest, so that there is nothing to fail.
        obtain ⟨e₁, hacquire, hvoice, -⟩ := acquire?_of_grants hgrants
        have hq : (e.voice c).triggered? action = some (triggered p action) := by
          simp [Voice.triggered?, hp, hresponse, Option.filter]
        obtain ⟨progress, q, hwalk, -⟩ :=
          Voice.walk_of_sound e₁.rig (e₁.voice c) (sound.triggered hq) (e₁.voice c).ramp.hold
        simp only [hacquire, advance_eq, hwalk] at h
        cases h

theorem trigger_restart_ok {c : Channel} (h : Reachable e) (granted : e.grants locks c = true)
    (hplayer : (e.voice c).player ≠ none) : (e.trigger locks c .restart).1 = .ok () := by
  cases hresult : (e.trigger locks c .restart).1 with
  | ok u => rfl
  | error fault =>
    rcases (trigger_error (h.sound c) hresult).2 with ⟨hnone, -⟩ | ⟨hrefused, -⟩
    · exact absurd hnone hplayer
    · exact absurd hrefused (by simp [granted])

theorem action_error {c : Channel} {number : Nat} (sound : (e.voice c).Sound)
    (h : (e.action locks c number).1 = .error error) : (e.action locks c number).2 = e := by
  unfold Engine.action at h ⊢
  cases haction : Action.ofNumber number with
  | error fault => rfl
  | ok action =>
    simp only [haction] at h ⊢
    exact (trigger_error sound h).1

theorem clear_error {c : Channel} (h : (e.clear locks c).1 = .error error) :
    (e.clear locks c).2 = e := by
  unfold clear at h ⊢
  cases hacquire : e.acquire? locks c with
  | none => rfl
  | some e₁ =>
    simp only [hacquire] at h
    cases h

theorem setQuantizer_error {c : Channel} {quantizer : Quantizer}
    (h : (e.setQuantizer locks c quantizer).1 = .error error) :
    (e.setQuantizer locks c quantizer).2 = e := by
  unfold setQuantizer at h ⊢
  cases hacquire : e.acquire? locks c with
  | none => rfl
  | some e₁ =>
    simp only [hacquire] at h
    cases h

/-- A move to a voltage fails for a voltage that is not finite, and then nothing is done, or for want
of the lock, and then its program is there already. -/
theorem setVolts_error {c : Channel} {volts : Float32} (sound : (e.voice c).Sound)
    (h : (e.setVolts locks c volts).1 = .error error) :
    (e.setVolts locks c volts).2 =
      match e.leftBehind? locks (.setVolts c volts) with
      | some (c, program) => e.install c program
      | none => e := by
  unfold setVolts at h ⊢
  simp only [leftBehind?]
  cases hsingle : Program.single volts (e.voice c).slew (e.voice c).slewCurve with
  | error fault => rfl
  | ok program =>
    simp only [hsingle] at h ⊢
    have hinstall : (e.install c program).voice c =
        { e.voice c with player := some (.load program) } := voice_setVoice_self _ _ _
    have sound' : ((e.install c program).voice c).Sound := by
      rw [hinstall]
      exact ⟨sound.slew, fun p hp => by cases hp; exact Player.sound_load hsingle⟩
    obtain ⟨hafter, hreason⟩ := trigger_error sound' h
    have hrefused : e.grants locks c = false := by
      rcases hreason with ⟨hnone, -⟩ | ⟨hgrants, -⟩
      · rw [hinstall] at hnone
        cases hnone
      · exact hgrants
    simp [hafter, hrefused]

theorem answer_error {r : Except CommandError Unit × Engine}
    (h : (perform.answer r).1 = .error error) : r.1 = .error error := by
  obtain ⟨result, e'⟩ := r
  cases result with
  | error fault =>
    cases h
    rfl
  | ok value => cases h

theorem perform_error (reachable : Reachable e) {command : Command}
    (h : (e.perform locks command).1 = .error error) :
    (e.perform locks command).2 =
      match e.leftBehind? locks command with
      | some (c, program) => e.install c program
      | none => e := by
  have sound := reachable.sound
  cases command with
  | install c score =>
    have h' : (e.installScore c score).1 = .error error := answer_error h
    show (e.installScore c score).2 = e
    unfold installScore at h' ⊢
    cases hcompile : Program.compile score with
    | error fault => rfl
    | ok program =>
      rw [hcompile] at h'
      cases h'
  | clear c => exact clear_error (answer_error h)
  | trigger c action => exact (trigger_error (sound c) (answer_error h)).1
  | action c number => exact action_error (sound c) (answer_error h)
  | setVolts c volts => exact setVolts_error (sound c) (answer_error h)
  | setSlew c seconds curve =>
    have h' : (e.setSlew c seconds curve).1 = .error error := answer_error h
    show (e.setSlew c seconds curve).2 = e
    rcases e.setSlew_cases c seconds curve with ⟨-, hset⟩ | ⟨-, hset⟩ | ⟨-, hset⟩
    · rw [hset]
    · rw [hset]
    · rw [hset] at h'
      cases h'
  | setQuantizer c quantizer => exact setQuantizer_error (answer_error h)
  | setScale c degrees modulo scaling =>
    have h' : (e.setScale locks c degrees modulo scaling).1 = .error error := answer_error h
    show (e.setScale locks c degrees modulo scaling).2 = e
    unfold setScale at h' ⊢
    cases hquantizer : Quantizer.ofDegrees degrees modulo scaling with
    | error fault => rfl
    | ok quantizer =>
      simp only [hquantizer] at h' ⊢
      exact setQuantizer_error h'
  | setCell c name value =>
    have h' : (e.setCell c name value).1 = .error error := answer_error h
    show (e.setCell c name value).2 = e
    rcases e.setCell_cases c name value with
      ⟨-, hset⟩ | ⟨-, ⟨-, hset⟩ | ⟨p, -, ⟨-, hset⟩ | ⟨cells, -, hset⟩⟩⟩
    · rw [hset]
    · rw [hset]
    · rw [hset]
    · rw [hset] at h'
      cases h'
  | quantizer c =>
    show (e.quantizer locks c).2 = e
    simp only [perform, quantizer] at h ⊢
    cases hacquire : e.acquire? locks c with
    | none => rfl
    | some e₁ =>
      rw [hacquire] at h
      cases h
  | voltage c =>
    show (e.voltage locks c).2 = e
    simp only [perform, voltage] at h ⊢
    cases hacquire : e.acquire? locks c with
    | none => rfl
    | some e₁ =>
      rw [hacquire] at h
      cases h
  | getCell c name => rfl
  | _ => cases h

theorem leftBehind?_contention {command : Command} {c : Channel} {program : Program}
    (h : e.leftBehind? locks command = some (c, program)) :
    (e.perform locks command).1 = .error .contention := by
  cases command with
  | setVolts d volts =>
    simp only [leftBehind?] at h
    cases hsingle : Program.single volts (e.voice d).slew (e.voice d).slewCurve with
    | error fault =>
      rw [hsingle] at h
      cases h
    | ok program' =>
      simp only [hsingle] at h
      split at h
      · cases h
      · rename_i hgrants
        have hrefused : (e.install d program').grants locks d = false :=
          Bool.eq_false_iff.2 hgrants
        have hplayer : ((e.install d program').voice d).player = some (.load program') := by
          rw [install, voice_setVoice_self]
        have hresponse : respond (.load program') .restart = .walk := rfl
        simp only [perform, perform.answer, setVolts, hsingle, trigger, hplayer, hresponse,
          acquire?_of_not_grants hrefused]
        rfl
  | _ => cases h

/-- A command that fails leaves a reachable engine as it was, unless it is a move to a voltage that
does not get the lock. Such a move fails too, and leaves its program behind in place of the one that
was there. -/
theorem failed_or_left_behind (reachable : Reachable e) (locks : Locks) (command : Command) :
    (∀ error, (e.perform locks command).1 = .error error → e.leftBehind? locks command = none →
        (e.perform locks command).2 = e) ∧
      ∀ c program, e.leftBehind? locks command = some (c, program) →
        (e.perform locks command).1 = .error .contention ∧
          (e.perform locks command).2 = e.install c program := by
  refine ⟨fun error h hnone => ?_, fun c program h => ?_⟩
  · rw [perform_error reachable h, hnone]
  · have hcontention := leftBehind?_contention h
    exact ⟨hcontention, by rw [perform_error reachable hcontention, h]⟩

/-- A channel cannot be cleared from the real-time side while its lock is held. -/
theorem failed_or_left_behind_clear :
    let e := (fresh .standard .standard 1).run [.switch .realtime]
    (e.perform (fun _ => true) (.clear .first)).1 = .error .contention ∧
      (e.perform (fun _ => true) (.clear .first)).2 = e :=
  ⟨rfl, (failed_or_left_behind ⟨.standard, .standard, 1, .standard, _, rfl⟩ _ _).1 .contention rfl rfl⟩

/-- A move to two volts that does not get the lock stops the program that is running. -/
theorem refused_volts_stop_program :
    let e := (fresh .standard .standard 1).run
      [.perform .free (.install .first [.loop [.ramp (.lit 1) (.lit 1) "linear"]]),
        .perform .free (.trigger .first .restart), .switch .realtime]
    Reachable e ∧ (e.perform (fun _ => true) (.setVolts .first 2)).1 = .error .contention ∧
      (e.voice .first).isRunning = true ∧
      ((e.perform (fun _ => true) (.setVolts .first 2)).2.voice .first).isRunning = false := by
  exact ⟨⟨.standard, .standard, 1, .standard, _, rfl⟩, rfl, by decide +kernel, by decide +kernel⟩

end ControlVoltage.Engine

import ControlVoltage.Proofs.Engine.Moves
import ControlVoltage.Proofs.Voice.Sound

/-!
# Sound engines

The engine only loads compiled programs, only keeps slews that are finite and not negative, and only
sets cells to finite values. So whatever checked moves keep of a voice, every run keeps, and the voices
of a reachable engine are sound.

* `Engine.sharesOf_checked` : all that a run does to a channel has been checked.
* `Engine.voice_keeps`, `Engine.Reachable.voice` : what follows for a run, and for a reachable engine.
* `Engine.Reachable.sound` : reachable engines.
-/

namespace ControlVoltage

namespace Engine

/-! ## Checks -/

theorem loadMoves_checked {result : Except SetupError Program} {rest : List Voice.Move}
    (compiled : ∀ program, result = .ok program → ∃ score, Program.compile score = .ok program)
    (hrest : ∀ m ∈ rest, m.Checked) : ∀ m ∈ loadMoves result rest, m.Checked := by
  intro m hm
  cases result with
  | error fault => cases hm
  | ok program =>
    rcases List.mem_cons.1 hm with rfl | hm
    · exact compiled program rfl
    · exact hrest m hm

theorem triggerMoves_checked (e : Engine) (locks : Locks) (c : Channel) (action : Action) :
    ∀ m ∈ e.triggerMoves locks c action, m.Checked := by
  intro m hm
  unfold triggerMoves at hm
  split at hm
  · rw [List.mem_singleton.1 hm]
    trivial
  · cases hm

theorem moves_checked (e : Engine) (locks : Locks) (command : Command) :
    ∀ m ∈ e.moves locks command, m.Checked := by
  have quantizer : ∀ c q, ∀ m ∈ e.quantizerMoves locks c q, m.Checked := by
    intro c q m hm
    unfold quantizerMoves at hm
    split at hm
    · rw [List.mem_singleton.1 hm]
      trivial
    · cases hm
  intro m hm
  cases command with
  | install c score =>
    exact loadMoves_checked (fun program h => ⟨score, h⟩) (fun m hm => by cases hm) m hm
  | setVolts c volts =>
    exact loadMoves_checked (fun program h => ⟨_, h⟩) (e.triggerMoves_checked locks c .restart) m hm
  | clear c =>
    simp only [moves] at hm
    split at hm
    · rw [List.mem_singleton.1 hm]
      trivial
    · cases hm
  | trigger c action => exact e.triggerMoves_checked locks c action m hm
  | action c number =>
    simp only [moves] at hm
    split at hm
    · exact e.triggerMoves_checked locks c _ m hm
    · cases hm
  | setSlew c seconds curve =>
    simp only [moves] at hm
    split at hm
    · rename_i usable
      rw [List.mem_singleton.1 hm]
      exact usable
    · cases hm
  | setQuantizer c q => exact quantizer c q m hm
  | setScale c degrees modulo scaling =>
    simp only [moves] at hm
    split at hm
    · exact quantizer c _ m hm
    · cases hm
  | setCell c name value =>
    simp only [moves] at hm
    split at hm
    · rename_i finite
      rw [List.mem_singleton.1 hm]
      exact finite
    · cases hm
  | _ => cases hm

theorem shareOf_checked (e : Engine) (c : Channel) (move : Move) :
    ∀ m ∈ e.shareOf c move, m.Checked := by
  intro m hm
  cases move with
  | tick locks =>
    simp only [shareOf, tickMoves] at hm
    split at hm
    · cases hm
    · rw [List.mem_singleton.1 hm]
      trivial
  | perform locks command =>
    rcases mem_share hm with rfl | hm
    · trivial
    · exact e.moves_checked locks command m hm
  | _ => cases hm

theorem sharesOf_checked (e : Engine) (c : Channel) (moves : List Move) :
    ∀ m ∈ sharesOf c e moves, m.Checked := by
  induction moves generalizing e with
  | nil => exact fun m hm => by cases hm
  | cons move moves ih =>
    intro m hm
    rcases List.mem_append.1 hm with hm | hm
    · exact e.shareOf_checked c move m hm
    · exact ih (e.after move) m hm

/-! ## Reachable engines -/

/-- What every checked move of a voice keeps, every run keeps. -/
theorem voice_keeps {P : Rig → Voice → Prop}
    (keeps : ∀ rig v move, move.Checked → P rig v → P rig (v.after rig move)) {e : Engine}
    {c : Channel} (start : P e.rig (e.voice c)) (moves : List Move) :
    P (e.run moves).rig ((e.run moves).voice c) := by
  have checked := sharesOf_checked e c moves
  obtain ⟨hrig, hvoice⟩ := voice_run e c moves
  rw [hrig, hvoice]
  generalize sharesOf c e moves = moves at checked
  generalize e.voice c = v at start
  induction moves generalizing v with
  | nil => exact start
  | cons move moves ih =>
    obtain ⟨hmove, htail⟩ := List.forall_mem_cons.1 checked
    exact ih htail _ (keeps _ v move hmove start)

theorem Reachable.voice {P : Rig → Voice → Prop}
    (rest : ∀ rate range f, P ⟨rate, range, .build f⟩ (.rest (range.clamp 0)))
    (keeps : ∀ rig v move, move.Checked → P rig v → P rig (v.after rig move)) {e : Engine}
    (h : Reachable e) (c : Channel) : P e.rig (e.voice c) := by
  obtain ⟨rate, range, capacity, f, moves, rfl⟩ := h
  refine voice_keeps keeps ?_ moves
  rw [voice_fresh]
  exact rest rate range f

theorem Reachable.sound {e : Engine} (h : Reachable e) (c : Channel) : (e.voice c).Sound :=
  h.voice (P := fun _ v => v.Sound) (fun _ _ _ => Voice.sound_rest _)
    (fun _ _ _ checked sound => Voice.Sound.after sound checked) c

end Engine

end ControlVoltage

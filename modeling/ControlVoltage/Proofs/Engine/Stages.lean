import ControlVoltage.Proofs.Engine.Answers
import ControlVoltage.Proofs.Engine.Guards
import ControlVoltage.Proofs.Voice.Stages

/-!
# Stages of a program

Whoever commands a channel can tell from outside how far its program is: it has not been started, it is
under way since a restart, or its end has been reported. The player tells it as well, but not by its
marks alone: without a mark it can still be overdue.

* `Engine.stage` : the stage of a channel in a run, by the restarts and the reported ends.
* `Engine.tracks_run` : the stage tells whether the player is on its way.
* `Engine.underway_iff_running_or_overdue` : what the marks alone say of the stage.
-/

namespace ControlVoltage

namespace Engine

variable (e : Engine) (c : Channel)

/-! ## Stages of a channel -/

/-- The stage of a channel after a move: an end that is reported finishes the program, and a restart
that is accepted sets it under way. -/
def stageAfter (stage : Voice.Stage) (move : Move) : Voice.Stage :=
  if c ∈ e.queued move then .finished
  else if (e.voice c).restartsIn e.rig (e.shareOf c move) then .underway
  else if (e.shareOf c move).any Voice.Move.replaces then .unstarted
  else stage

def stage (c : Channel) : Engine → Voice.Stage → List Move → Voice.Stage
  | _, stage, [] => stage
  | e, stage, move :: moves => Engine.stage c (e.after move) (e.stageAfter c stage move) moves

theorem mem_queued_iff (move : Move) :
    c ∈ e.queued move ↔ (e.voice c).endsIn e.rig (e.shareOf c move) = true := by
  rw [queued_eq, ended, List.mem_filter]
  exact and_iff_right (Channel.mem_all c)

theorem stageAfter_eq (stage : Voice.Stage) (move : Move) :
    e.stageAfter c stage move = (e.voice c).stageAfter e.rig stage (e.shareOf c move) := by
  simp only [stageAfter, Voice.stageAfter, mem_queued_iff]

/-- One move at most, or a program that is loaded and started at once. -/
def Brief (moves : List Voice.Move) : Prop :=
  moves.length ≤ 1 ∨ ∃ program action, moves = [.load program, .trigger action]

theorem length_triggerMoves_le (locks : Locks) (action : Action) :
    (e.triggerMoves locks c action).length ≤ 1 := by
  unfold triggerMoves
  split <;> simp

theorem length_quantizerMoves_le (locks : Locks) (quantizer : Quantizer) :
    (e.quantizerMoves locks c quantizer).length ≤ 1 := by
  unfold quantizerMoves
  split <;> simp

theorem brief_moves (locks : Locks) (command : Command) : Brief (e.moves locks command) := by
  cases command with
  | install d score =>
    simp only [moves]
    cases Program.compile score <;> exact .inl (by simp [loadMoves])
  | clear d =>
    simp only [moves]
    split <;> exact .inl (by simp)
  | trigger d action => exact .inl (e.length_triggerMoves_le d locks action)
  | action d number =>
    simp only [moves]
    cases Action.ofNumber number with
    | error fault => exact .inl (by simp)
    | ok action => exact .inl (e.length_triggerMoves_le d locks action)
  | setVolts d volts =>
    simp only [moves]
    cases Program.single volts (e.voice d).slew (e.voice d).slewCurve with
    | error fault => exact .inl (by simp [loadMoves])
    | ok program =>
      simp only [loadMoves, triggerMoves]
      split
      · exact .inr ⟨program, .restart, rfl⟩
      · exact .inl (by simp)
  | setSlew d seconds curve =>
    simp only [moves]
    split <;> exact .inl (by simp)
  | setQuantizer d quantizer => exact .inl (e.length_quantizerMoves_le d locks quantizer)
  | setScale d degrees modulo scaling =>
    simp only [moves]
    cases Quantizer.ofDegrees degrees modulo scaling with
    | error fault => exact .inl (by simp)
    | ok quantizer => exact .inl (e.length_quantizerMoves_le d locks quantizer)
  | setCell d name value =>
    simp only [moves]
    split <;> exact .inl (by simp)
  | _ => exact .inl (by simp [moves])

theorem brief_shareOf (move : Move) : Brief (e.shareOf c move) := by
  have nothing : Brief [] := .inl (by simp)
  cases move with
  | tick locks =>
    simp only [shareOf, tickMoves]
    split <;> exact .inl (by simp)
  | perform locks command =>
    simp only [shareOf]
    cases command <;> simp only [share] <;> split <;>
      first
      | exact nothing
      | exact e.brief_moves locks _
      | exact .inl (by simp)
  | _ => exact nothing

theorem tracks_after {stage : Voice.Stage} (guarded : (e.voice c).Guarded)
    (tracks : Voice.Tracks stage (e.voice c)) (move : Move) :
    Voice.Tracks (e.stageAfter c stage move) ((e.after move).voice c) := by
  obtain ⟨-, hvoice⟩ := e.after_voice move
  have checked := e.shareOf_checked c move
  rw [hvoice, stageAfter_eq]
  rcases e.brief_shareOf c move with hshort | ⟨program, action, hshare⟩
  · generalize e.shareOf c move = moves at hshort
    match moves, hshort with
    | [], _ => exact tracks
    | [m], _ => exact guarded.tracks tracks m
  · rw [hshare] at checked ⊢
    rw [Voice.stageAfter_load]
    have hload : ((e.voice c).after e.rig (.load program)).Guarded :=
      guarded.after (checked _ List.mem_cons_self)
    exact hload.tracks (guarded.tracks tracks _) _

/-- The stage of a channel tells whether its player is on its way, throughout a run. -/
theorem tracks_run {stage : Voice.Stage} (moves : List Move) (h : Reachable e)
    (tracks : Voice.Tracks stage (e.voice c)) :
    Voice.Tracks (Engine.stage c e stage moves) ((e.run moves).voice c) := by
  induction moves generalizing e stage with
  | nil => exact tracks
  | cons move moves ih => exact ih _ (h.after move) (e.tracks_after c (h.guarded c) tracks move)

/-- What the marks of a player say of its stage. In every run from a fresh engine:
* a program has been started, and its end has not been reported since, exactly if its player is running
  or overdue, and it is never both;
* a player becomes overdue exactly in a walk that does not come to the end, but would with one move more
  than it may make;
* an overdue player reports the end with the first service that finds its segment landed and the lock
  to be had. -/
theorem underway_iff_running_or_overdue (rate : Rate) (range : Range) (capacity : Nat)
    (f : Transcendental) (c : Channel) (moves : List Move) :
    let e := (fresh rate range capacity f).run moves
    let v := e.voice c
    (Engine.stage c (fresh rate range capacity f) .unstarted moves = .underway ↔
        v.isRunning = true ∨ v.isOverdue = true) ∧
      ¬ (v.isRunning = true ∧ v.isOverdue = true) ∧
      (∀ p ramp, (v.walk e.rig p ramp).2.isOverdue = true ↔
        (Player.run rate range Player.moveBudget (p.await none) ramp).1 ≠ .ok .done ∧
          (Player.run rate range (Player.moveBudget + 1) (p.await none) ramp).1 = .ok .done) ∧
      (∀ locks, v.isOverdue = true → v.ready?.isSome = true → e.grants locks c = true →
        c ∈ e.queued (.perform locks .service)) := by
  intro e v
  have hrig : e.rig = ⟨rate, range, .build f⟩ := (voice_run _ c moves).1
  have hfresh : Voice.Tracks .unstarted ((fresh rate range capacity f).voice c) := by
    rw [voice_fresh]
    simp [Voice.Tracks, Voice.isUnderway, Voice.rest]
  have htracks :=
    tracks_run (fresh rate range capacity f) c moves ⟨rate, range, capacity, f, [], rfl⟩ hfresh
  rw [Voice.Tracks, Voice.isUnderway_eq, Bool.or_eq_true] at htracks
  refine ⟨htracks, ?_, fun p ramp => ?_, fun locks hoverdue hready granted => ?_⟩
  · rintro ⟨hrunning, hoverdue⟩
    rw [Voice.not_overdue_of_running hrunning] at hoverdue
    cases hoverdue
  · rw [hrig]
    exact Voice.isOverdue_walk _ v p ramp
  · obtain ⟨p, hp⟩ := Option.isSome_iff_exists.1 hready
    have hends : (e.voice c).ends e.rig .resume = true := Voice.ends_of_overdue hoverdue hp
    have hshare : e.shareOf c (.perform locks .service) = [.resume] := by
      simp only [shareOf, share, granted, if_true]
    rw [mem_queued_iff, hshare, Voice.endsIn, hends, Bool.true_or]

/-- 63 ramps that take no time, one after the other: after the last one the walk has one move left,
with which it leaves the outermost block. After a tick the end is reported. -/
theorem overdue_reports_next :
    let moves : List Move := [.perform .free (.install .first
        (List.replicate 63 (.ramp (.lit 1) (.lit 0) "linear"))),
      .perform .free (.trigger .first .restart), .tick .free]
    let e := (fresh .standard .standard 1).run moves
    (e.voice .first).isOverdue = true ∧ .first ∈ e.queued (.perform .free .service) := by
  intro moves e
  have hoverdue : (e.voice .first).isOverdue = true := by decide +kernel
  obtain ⟨-, -, -, reports⟩ :=
    underway_iff_running_or_overdue .standard .standard 1 .standard .first moves
  exact ⟨hoverdue, reports .free hoverdue (by decide +kernel) (by decide)⟩

/-- The same before the tick: the program is under way and has not reported its end, and yet it is not
running. -/
theorem overdue_without_marks :
    let moves : List Move := [.perform .free (.install .first
        (List.replicate 63 (.ramp (.lit 1) (.lit 0) "linear"))),
      .perform .free (.trigger .first .restart)]
    let e := (fresh .standard .standard 1).run moves
    Engine.stage .first (fresh .standard .standard 1) .unstarted moves = .underway ∧
      (e.voice .first).isRunning = false ∧ e.events.items = [] := by
  decide +kernel

end Engine

end ControlVoltage

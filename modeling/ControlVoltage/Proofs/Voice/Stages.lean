import ControlVoltage.Proofs.Player.Ending
import ControlVoltage.Proofs.Voice.Guards
import ControlVoltage.Proofs.Voice.Twins

/-!
# Stages of a voice

How far the program of a voice is can be told from outside, by the restarts and by the ends that it came
to, and from inside, by the marks of the player and by the segment that it waits for. A walk that uses up
its moves with the one that leaves the outermost block has no mark left, and is put off for a tick before
it can come to its end.

* `Voice.Stage`, `Voice.stageAfter` : the stage, as told from outside.
* `Voice.isUnderway` : the player has a mark, or waits for a segment.
* `Voice.isOverdue` : the player has no mark and waits all the same; `Player.overdue_iff`, which walks
  lead to it.
* `Voice.Guarded.tracks` : the invariant, over one move of a voice.
-/

namespace ControlVoltage

namespace Player

variable {rate : Rate} {range : Range}

/-- Off the end of the program, but waiting for a segment before it says so. -/
def isOverdue (p : Player) : Bool := p.stack.isEmpty && p.awaiting.isSome

theorem run_one_eq_done_iff (p : Player) (ramp : Ramp) :
    (run rate range 1 p ramp).1 = .ok .done ↔ p.stack = [] := by
  rw [← @step_eq_ended_iff rate range, run]
  cases p.step rate range with
  | ramp segment q =>
    simp only [run]
    split <;> simp
  | _ => simp [run]

/-- A walk leaves a player that is overdue if it does not come to the end, but would with one move
more. -/
theorem overdue_iff (budget : Nat) (p : Player) (ramp : Ramp) (h : p.awaiting = none) :
    (run rate range budget p ramp).2.1.isOverdue = true ↔
      (run rate range budget p ramp).1 ≠ .ok .done ∧
        (run rate range (budget + 1) p ramp).1 = .ok .done := by
  induction budget generalizing p ramp with
  | zero =>
    rw [run_one_eq_done_iff]
    simp [run, putOff, isOverdue]
  | succ budget ih =>
    have quiet : p.isOverdue = false := by simp [isOverdue, h]
    have effect : p.Effect (p.step rate range) := p.step_effect
    rw [run_succ budget, run_succ (budget + 1)]
    generalize p.step rate range = turn at effect
    cases effect with
    | ramp segment cells hstack =>
      simp only
      split
      · exact ih _ _ h
      · simp [isOverdue]
    | skipped cells hstack => exact ih _ _ h
    | entered cells id passes hstack => exact ih _ _ h
    | again passes hstack => exact ih _ _ h
    | left hstack => exact ih _ _ h
    | parked => simp [quiet]
    | ended hstack => simp [quiet]
    | corrupt fault => simp [quiet]

theorem Guarded.stack_ne_nil {p : Player} (h : p.Guarded) (holding : p.holding = true) :
    p.stack ≠ [] := by
  obtain ⟨mark, hmark, -⟩ := h.agrees.holding.1 holding
  exact List.ne_nil_of_mem hmark

end Player

namespace Voice

variable {rig : Rig} {v : Voice}

/-! ## Stages of a voice -/

/-- How far a program is, as told from outside. -/
inductive Stage where
  /-- It has not been started since it was loaded, or there is none. -/
  | unstarted
  /-- It has been started, and its end has not been reported since. -/
  | underway
  /-- Its end has been reported, and it has not been started since. -/
  | finished
deriving DecidableEq, Repr

/-- The program is replaced or removed. -/
def Move.replaces : Move → Bool
  | .load _ => true
  | .clear => true
  | _ => false

/-- The move is a restart that is accepted: there is a program, and it is not locked. -/
def restarts (v : Voice) : Move → Bool
  | .trigger .restart => v.player.any fun p => !p.locked
  | _ => false

theorem restarts_eq (v : Voice) :
    v.restarts (.trigger .restart) = (v.triggered? .restart).isSome := by
  simp only [restarts, triggered?, Engine.respond]
  cases v.player with
  | none => rfl
  | some p => cases hlocked : p.locked <;> simp [Option.filter, hlocked]

def restartsIn (rig : Rig) : Voice → List Move → Bool
  | _, [] => false
  | v, move :: moves => v.restarts move || restartsIn rig (v.after rig move) moves

def stageAfter (rig : Rig) (v : Voice) (stage : Stage) (moves : List Move) : Stage :=
  if v.endsIn rig moves then .finished
  else if v.restartsIn rig moves then .underway
  else if moves.any Move.replaces then .unstarted
  else stage

/-- Started, and not at its end: the player has a mark, or waits for a segment. -/
def isUnderway (v : Voice) : Bool := v.player.any fun p => !p.stack.isEmpty || p.awaiting.isSome

/-- Off the end of the program, but waiting for a segment before it says so. -/
def isOverdue (v : Voice) : Bool := v.player.any Player.isOverdue

theorem isUnderway_eq (v : Voice) : v.isUnderway = (v.isRunning || v.isOverdue) := by
  unfold isUnderway isRunning isOverdue
  cases v.player with
  | none => rfl
  | some p =>
    simp only [Option.any_some, Player.isOverdue]
    cases p.stack.isEmpty <;> simp

theorem not_overdue_of_running (h : v.isRunning = true) : v.isOverdue = false := by
  unfold isRunning at h
  unfold isOverdue
  cases hp : v.player with
  | none => rfl
  | some p => simp_all [Player.isOverdue]

def Tracks (stage : Stage) (v : Voice) : Prop := stage = .underway ↔ v.isUnderway = true

theorem stageAfter_singleton (rig : Rig) (v : Voice) (stage : Stage) (move : Move) :
    v.stageAfter rig stage [move] =
      if v.ends rig move then .finished
      else if v.restarts move then .underway
      else if move.replaces then .unstarted
      else stage := by
  simp [stageAfter, endsIn, restartsIn]

theorem isUnderway_walk {p : Player} (sound : p.Sound) (ramp : Ramp) :
    (v.walk rig p ramp).2.isUnderway = !ends.comesToEnd (v.walk rig p ramp).1 := by
  obtain ⟨progress, q, hwalk, -, hrests⟩ := walk_of_sound rig v sound ramp
  rw [hwalk]
  cases progress with
  | waiting =>
    obtain ⟨hawaiting, -⟩ := hrests
    simp [isUnderway, hawaiting, ends.comesToEnd]
  | suspended =>
    obtain ⟨-, -, mark, rest, ops, hstack, -⟩ := hrests
    simp [isUnderway, hstack, ends.comesToEnd]
  | done =>
    obtain ⟨hawaiting, hstack⟩ := hrests
    simp [isUnderway, hawaiting, hstack, ends.comesToEnd]

theorem Sound.after_resume (h : v.Sound) {p : Player} (hready : v.ready? = some p) :
    v.after rig .resume = (v.walk rig p v.ramp).2 := by
  obtain ⟨progress, q, hwalk, -⟩ := walk_of_sound rig v (h.ready hready) v.ramp
  simp only [Voice.after, hready, hwalk]

theorem Guarded.underway_of_triggered (h : v.Guarded) {action : Action} {q : Player}
    (hq : v.triggered? action = some q) (hrestart : action ≠ .restart) : v.isUnderway = true := by
  obtain ⟨p, hp, hwalk, -⟩ := of_triggered hq
  cases action with
  | restart => exact absurd rfl hrestart
  | release =>
    have holding : p.holding = true := by
      cases holding : p.holding with
      | true => rfl
      | false => simp [Engine.respond, holding] at hwalk
    simp [isUnderway, hp, (h.player p hp).stack_ne_nil holding]
  | unlock => cases hwalk

theorem Guarded.tracks (h : v.Guarded) {stage : Stage} (tracks : Tracks stage v) (move : Move) :
    Tracks (v.stageAfter rig stage [move]) (v.after rig move) := by
  have keeps : ∀ {w : Voice}, w.isUnderway = v.isUnderway → Tracks stage w := by
    intro w hsame
    rw [Tracks, hsame]
    exact tracks
  rw [stageAfter_singleton]
  cases move with
  | sample => exact keeps rfl
  | setSlew seconds curve => exact keeps rfl
  | setQuantizer quantizer => exact keeps rfl
  | setCell name value =>
    refine keeps ?_
    cases hp : v.player with
    | none => simp [isUnderway, Voice.after, hp]
    | some p => simp [isUnderway, Voice.after, hp]
  | load program => simp [Tracks, ends, restarts, Move.replaces, isUnderway, Voice.after, Player.load]
  | clear => simp [Tracks, ends, restarts, Move.replaces, isUnderway, Voice.after]
  | resume =>
    cases hready : v.ready? with
    | none =>
      rw [after_resume_of_not_ready hready]
      simpa [ends, restarts, Move.replaces, hready] using tracks
    | some p =>
      -- It waited for a segment, and so it was on its way.
      obtain ⟨hp, hawaiting⟩ := player_of_ready hready
      have hstage : stage = .underway := tracks.2 (by simp [isUnderway, hp, hawaiting])
      rw [Tracks, h.sound.after_resume hready, isUnderway_walk (h.sound.ready hready)]
      simp only [ends, hready, Option.any_some, hstage]
      cases ends.comesToEnd (v.walk rig p v.ramp).1 <;> simp [restarts, Move.replaces]
  | trigger action =>
    cases hq : v.triggered? action with
    | none =>
      have hrestarts : v.restarts (.trigger action) = false := by
        cases action with
        | restart => rw [restarts_eq, hq]; rfl
        | _ => rfl
      have hends : v.ends rig (.trigger action) = false := by simp [ends, hq]
      rw [hends, hrestarts]
      refine keeps ?_
      simp only [Voice.after, hq]
      split
      · cases hp : v.player <;> simp [isUnderway, unlock, hp]
      · rfl
    | some q =>
      have hafter : v.after rig (.trigger action) = (v.walk rig q v.ramp.hold).2 := by
        simp only [Voice.after, hq]
      have hstage : v.restarts (.trigger action) = true ∨ stage = .underway := by
        by_cases hrestart : action = .restart
        · subst hrestart
          exact .inl (by rw [restarts_eq, hq]; rfl)
        · exact .inr (tracks.2 (h.underway_of_triggered hq hrestart))
      rw [Tracks, hafter, isUnderway_walk (h.sound.triggered hq)]
      simp only [ends, hq, Option.any_some]
      cases ends.comesToEnd (v.walk rig q v.ramp.hold).1
      · rcases hstage with hrestarts | rfl
        · simp [hrestarts]
        · simp [Move.replaces]
      · simp

theorem isOverdue_walk (rig : Rig) (v : Voice) (p : Player) (ramp : Ramp) :
    (v.walk rig p ramp).2.isOverdue = true ↔
      (Player.run rig.rate rig.range Player.moveBudget (p.await none) ramp).1 ≠ .ok .done ∧
        (Player.run rig.rate rig.range (Player.moveBudget + 1) (p.await none) ramp).1 = .ok .done :=
  Player.overdue_iff Player.moveBudget (p.await none) ramp rfl

theorem ends_of_overdue (h : v.isOverdue = true) {p : Player} (hready : v.ready? = some p) :
    v.ends rig .resume = true := by
  obtain ⟨hp, -⟩ := player_of_ready hready
  have hstack : p.stack = [] := by
    simp only [isOverdue, hp, Option.any_some, Player.isOverdue, Bool.and_eq_true] at h
    exact List.isEmpty_iff.1 h.1
  have hended : (p.await none).step rig.rate rig.range = .ended :=
    (Player.step_eq_ended_iff _).2 hstack
  have hwalk : (v.walk rig p v.ramp).1 = .ok .done := by
    show (Player.run rig.rate rig.range Player.moveBudget (p.await none) v.ramp).1 = .ok .done
    rw [Player.moveBudget, Player.run, hended]
  simp [ends, hready, hwalk, ends.comesToEnd]

theorem stageAfter_load (rig : Rig) (v : Voice) (stage : Stage) (program : Program)
    (action : Action) :
    v.stageAfter rig stage [.load program, .trigger action] =
      (v.after rig (.load program)).stageAfter rig (v.stageAfter rig stage [.load program])
        [.trigger action] := by
  rw [stageAfter_singleton, stageAfter_singleton]
  simp [stageAfter, endsIn, restartsIn, ends, restarts, Move.replaces]

end Voice

end ControlVoltage

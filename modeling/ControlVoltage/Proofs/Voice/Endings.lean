import ControlVoltage.Proofs.Voice.Stages

/-!
# The ends that walks come to

A walk that is started runs off the end of its program once at most, however often it waits on the way;
and if it is started again, replaced or cleared before, it never does.

* `Voice.RunsOff` : the walk of a move runs off the end; `ends_iff`, those are the ends.
* `Voice.endCount` : how many ends moves lead to.
* `Voice.completions` : how many of the accepted restarts get through to the end.
* `endCount_eq` : each end is that of one restart.
* `Voice.Stuck` : in a held block or in a loop; `endCount_of_stuck`, no end from there.
-/

namespace ControlVoltage

namespace Voice

variable {rig : Rig} {v : Voice} {move : Move} {moves : List Move}

/-! ## Off the end -/

/-- The player that a move sets going. -/
def walker? (v : Voice) : Move → Option Player
  | .resume => v.ready?
  | .trigger action => v.triggered? action
  | _ => none

def RunsOff (rig : Rig) (v : Voice) (move : Move) : Prop :=
  ∃ p, v.walker? move = some p ∧ (p.await none).RunsOff rig.rate rig.range Player.moveBudget

theorem comesToEnd_iff (result : Except Corruption Player.Progress) :
    ends.comesToEnd result = true ↔ result = .ok .done := by
  cases result with
  | error fault => simp [ends.comesToEnd]
  | ok progress => cases progress <;> simp [ends.comesToEnd]

theorem comesToEnd_walk_iff (p : Player) (ramp : Ramp) :
    ends.comesToEnd (v.walk rig p ramp).1 = true ↔
      (p.await none).RunsOff rig.rate rig.range Player.moveBudget := by
  rw [comesToEnd_iff, ← Player.run_eq_done_iff Player.moveBudget (p.await none) ramp]
  rfl

theorem ends_iff (rig : Rig) (v : Voice) (move : Move) :
    v.ends rig move = true ↔ v.RunsOff rig move := by
  have walks : ∀ (walker : Option Player) (ramp : Ramp),
      (walker.any fun p => ends.comesToEnd (v.walk rig p ramp).1) = true ↔
        ∃ p, walker = some p ∧ (p.await none).RunsOff rig.rate rig.range Player.moveBudget := by
    intro walker ramp
    rw [Option.any_eq_true]
    exact exists_congr fun p => and_congr_right fun _ => comesToEnd_walk_iff p ramp
  cases move with
  | resume => exact walks v.ready? v.ramp
  | trigger action => exact walks (v.triggered? action) v.ramp.hold
  | _ => simp [ends, RunsOff, walker?]

theorem endsIn_iff (rig : Rig) (v : Voice) (moves : List Move) :
    v.endsIn rig moves = true ↔
      ∃ before move rest, moves = before ++ move :: rest ∧ (v.run rig before).RunsOff rig move := by
  induction moves generalizing v with
  | nil => simp [endsIn]
  | cons move moves ih =>
    rw [endsIn, Bool.or_eq_true, ih, ends_iff]
    constructor
    · rintro (hnow | ⟨before, move', rest, rfl, hlater⟩)
      · exact ⟨[], move, moves, rfl, hnow⟩
      · exact ⟨move :: before, move', rest, rfl, hlater⟩
    · rintro ⟨before, move', rest, hsplit, hends⟩
      cases before with
      | nil =>
        cases hsplit
        exact .inl hends
      | cons first before =>
        cases hsplit
        exact .inr ⟨before, move', rest, rfl, hends⟩

/-! ## Counts -/

/-- How many ends moves lead to. -/
def endCount (rig : Rig) : Voice → List Move → Nat
  | _, [] => 0
  | v, move :: moves => (v.ends rig move).toNat + endCount rig (v.after rig move) moves

theorem endCount_append (rig : Rig) (v : Voice) (moves moves' : List Move) :
    v.endCount rig (moves ++ moves') =
      v.endCount rig moves + (v.run rig moves).endCount rig moves' := by
  induction moves generalizing v with
  | nil => exact (Nat.zero_add _).symm
  | cons move moves ih =>
    rw [List.cons_append, endCount, endCount, ih, Nat.add_assoc]
    rfl

/-- Whether the walk that is on its way runs off the end before it is started again, replaced or
cleared. -/
def getsThrough (rig : Rig) : Voice → List Move → Bool
  | _, [] => false
  | v, move :: moves =>
    !(v.restarts move || move.replaces) &&
      (v.ends rig move || getsThrough rig (v.after rig move) moves)

def completions (rig : Rig) : Voice → List Move → Nat
  | _, [] => 0
  | v, move :: moves =>
    (v.restarts move && (v.ends rig move || getsThrough rig (v.after rig move) moves)).toNat +
      completions rig (v.after rig move) moves

theorem completions_of_not_restarts (h : v.restartsIn rig moves = false) :
    v.completions rig moves = 0 := by
  induction moves generalizing v with
  | nil => rfl
  | cons move moves ih =>
    rw [restartsIn, Bool.or_eq_false_iff] at h
    rw [completions, h.1, ih h.2]
    rfl

theorem Guarded.isUnderway_after (h : v.Guarded) (rig : Rig) (move : Move) :
    (v.after rig move).isUnderway =
      (!v.ends rig move && (v.restarts move || (!move.replaces && v.isUnderway))) := by
  have tracks : Tracks (if v.isUnderway then .underway else .finished) v := by
    unfold Tracks
    cases v.isUnderway <;> simp
  have htracks : Tracks (v.stageAfter rig _ [move]) (v.after rig move) := h.tracks tracks move
  rw [stageAfter_singleton, Tracks] at htracks
  rw [Bool.eq_iff_iff, ← htracks]
  cases v.ends rig move <;> cases v.restarts move <;> cases move.replaces <;>
    cases v.isUnderway <;> simp

theorem Guarded.underway_of_ends (h : v.Guarded) (hends : v.ends rig move = true)
    (hrestarts : v.restarts move = false) : v.isUnderway = true ∧ move.replaces = false := by
  obtain ⟨p, hwalker, -⟩ := (ends_iff rig v move).1 hends
  cases move with
  | resume =>
    obtain ⟨hp, hawaiting⟩ := player_of_ready hwalker
    exact ⟨by simp [isUnderway, hp, hawaiting], rfl⟩
  | trigger action =>
    have hother : action ≠ .restart := by
      rintro rfl
      rw [restarts_eq, show v.triggered? .restart = some p from hwalker] at hrestarts
      cases hrestarts
    exact ⟨h.underway_of_triggered hwalker hother, rfl⟩
  | _ => cases hwalker

/-- Each end is that of the last accepted restart before it, and no restart has two: the ends are as many
as the restarts that get through, and one more if the walk on its way does. -/
theorem Guarded.endCount_eq (h : v.Guarded) (checked : ∀ m ∈ moves, m.Checked) :
    v.endCount rig moves =
      v.completions rig moves + (v.isUnderway && v.getsThrough rig moves).toNat := by
  induction moves generalizing v with
  | nil => simp [endCount, completions, getsThrough]
  | cons move moves ih =>
    obtain ⟨hchecked, hrest⟩ := List.forall_mem_cons.1 checked
    have hunderway := h.isUnderway_after rig move
    have hends : v.ends rig move = true → v.restarts move = false → _ := h.underway_of_ends
    rw [endCount, completions, getsThrough, ih (h.after hchecked) hrest, hunderway]
    generalize (v.after rig move).completions rig moves = n
    generalize (v.after rig move).getsThrough rig moves = through
    cases hend : v.ends rig move <;> cases hrestart : v.restarts move <;> rw [hend, hrestart] at hends
    · cases move.replaces <;> cases v.isUnderway <;> cases through <;> simp
    · cases through <;> simp [Nat.add_comm]
    · obtain ⟨hunderway, hkeeps⟩ := hends rfl rfl
      simp [hunderway, hkeeps, Nat.add_comm]
    · simp [Nat.add_comm]

/-! ## No way to the end -/

end Voice

namespace Player

/-- In a loop, or parked in a held block. -/
def isStuck (p : Player) : Bool := p.inLoop || (p.holding && p.awaiting.isNone)

end Player

namespace Voice

variable {rig : Rig} {v : Voice} {move : Move} {moves : List Move}

/-- The player, if there is one, is in a loop or parked in a held block. -/
def Stuck (v : Voice) : Prop := ∀ p, v.player = some p → p.isStuck = true

theorem Stuck.ready (h : v.Stuck) {p : Player} (hready : v.ready? = some p) : p.inLoop = true := by
  obtain ⟨hp, hawaiting⟩ := player_of_ready hready
  have hstuck := h p hp
  simpa [Player.isStuck, hawaiting] using hstuck

theorem Stuck.walk (rig : Rig) (v : Voice) {p : Player} (ramp : Ramp) (h : p.inLoop = true) :
    (v.walk rig p ramp).2.Stuck ∧ ends.comesToEnd (v.walk rig p ramp).1 = false := by
  obtain ⟨hloop, hnot⟩ := Player.inLoop_run rig.rate rig.range Player.moveBudget (p := p.await none)
    ramp h
  constructor
  · intro q hq
    cases hq
    exact Bool.or_eq_true_iff.2 (.inl hloop)
  · rw [← Bool.not_eq_true, comesToEnd_iff]
    exact hnot

theorem Stuck.after (h : v.Stuck) (rig : Rig) (sound : v.Sound) (kept : v.frees move = false) :
    (v.after rig move).Stuck ∧ v.ends rig move = false := by
  cases move with
  | resume =>
    cases hready : v.ready? with
    | none =>
      rw [after_resume_of_not_ready hready]
      exact ⟨h, by simp [ends, hready]⟩
    | some p =>
      rw [sound.after_resume hready]
      simpa [ends, hready] using Stuck.walk rig v v.ramp (h.ready hready)
  | trigger action =>
    have hq : v.triggered? action = none := by simpa [frees] using kept
    refine ⟨fun q hq' => ?_, by simp [ends, hq]⟩
    simp only [Voice.after, hq] at hq'
    split at hq'
    · obtain ⟨p, hp, rfl⟩ := Option.map_eq_some_iff.1 hq'
      exact h p hp
    · exact h q hq'
  | setCell name value =>
    refine ⟨fun q hq => ?_, rfl⟩
    obtain ⟨p, hp, rfl⟩ := Option.map_eq_some_iff.1 hq
    exact h p hp
  | load program => cases kept
  | clear => cases kept
  | _ => exact ⟨h, rfl⟩

theorem endCount_of_stuck (h : v.Stuck) (sound : v.Sound) (checked : ∀ m ∈ moves, m.Checked)
    (kept : v.undisturbed rig moves = true) : v.endCount rig moves = 0 := by
  induction moves generalizing v with
  | nil => rfl
  | cons move moves ih =>
    obtain ⟨hchecked, hrest⟩ := List.forall_mem_cons.1 checked
    rw [undisturbed, Bool.and_eq_true, Bool.not_eq_true'] at kept
    obtain ⟨hstuck, hends⟩ := h.after rig sound kept.1
    rw [endCount, hends, ih hstuck (sound.after hchecked) hrest kept.2]
    rfl

end Voice

end ControlVoltage

import ControlVoltage.Engine.Perform
import ControlVoltage.Engine.Tick
import ControlVoltage.Proofs.Player.Deeds
import ControlVoltage.Proofs.Program.Formula

/-!
# Moves of a voice

Whatever the engine does to one of its channels is a list of these moves, each a function on the
voice alone. What all channels have in common is the `Rig`.

* `Voice.after` : a voice after a move.
* `Voice.deeds` : the deeds of the walk that a move makes, if it makes one.
* `Voice.run`, `Voice.log` : the voice after moves, and all their deeds.
* `Voice.after_cases`, `Voice.player_after` : what a move changes.
-/

namespace ControlVoltage

/-- What the voices of an engine have in common. -/
structure Rig where
  rate : Rate
  range : Range
  table : CurveTable

def Engine.rig (e : Engine) : Rig := ⟨e.rate, e.range, e.table⟩

def Player.walkDeeds (rig : Rig) (p : Player) : List Deed :=
  Player.deeds rig.rate rig.range Player.moveBudget (p.await none)

theorem Player.advance_ramp (rig : Rig) (p : Player) (ramp : Ramp) :
    (p.advance rig.rate rig.range ramp).2.2 = (p.walkDeeds rig).foldl Deed.obey ramp :=
  Player.run_ramp _ _ _

namespace Voice

/-- What can happen to a voice. -/
inductive Move where
  /-- A sample is written. -/
  | sample
  /-- The walk goes on, if the segment that it waits for has reached its target. -/
  | resume
  | load (program : Program)
  | clear
  | trigger (action : Action)
  | setSlew (seconds : Float32) (curve : Curve)
  | setQuantizer (quantizer : Quantizer)
  | setCell (name : String) (value : Float32)

/-- The player whose segment has reached its target. -/
def ready? (v : Voice) : Option Player := v.player.filter fun p => p.awaiting = some v.completed

/-- The player that a trigger sets going, before it takes its first step. -/
def triggered? (v : Voice) (action : Action) : Option Player :=
  (v.player.filter fun p => Engine.respond p action = .walk).map (Engine.triggered · action)

theorem player_of_ready {v : Voice} {p : Player} (h : v.ready? = some p) :
    v.player = some p ∧ p.awaiting = some v.completed := by
  obtain ⟨hp, hawaiting⟩ := Option.filter_eq_some_iff.1 h
  exact ⟨hp, by simpa using hawaiting⟩

theorem of_triggered {v : Voice} {q : Player} {action : Action}
    (h : v.triggered? action = some q) :
    ∃ p, v.player = some p ∧ Engine.respond p action = .walk ∧ q = Engine.triggered p action := by
  obtain ⟨p, hfilter, rfl⟩ := Option.map_eq_some_iff.1 h
  obtain ⟨hp, hwalk⟩ := Option.filter_eq_some_iff.1 hfilter
  exact ⟨p, hp, by simpa using hwalk, rfl⟩

theorem triggered_keeps {P : Player → Prop} (restart : ∀ p, P p → P p.restart)
    (release : ∀ p, P p → P p.release) {v : Voice} (h : ∀ p, v.player = some p → P p)
    {q : Player} {action : Action} (hq : v.triggered? action = some q) : P q := by
  obtain ⟨p, hp, -, rfl⟩ := of_triggered hq
  cases action with
  | restart => exact restart p (h p hp)
  | release => exact release p (h p hp)
  | unlock => exact release p (h p hp)

/-- Walks on from `p`, with the ramp at `ramp`. -/
def walk (rig : Rig) (v : Voice) (p : Player) (ramp : Ramp) :
    Except Corruption Player.Progress × Voice :=
  let (result, p, ramp) := p.advance rig.rate rig.range ramp
  (result, { v with player := some p, ramp })

def unlock (v : Voice) : Voice :=
  { v with player := v.player.map fun p => { p with locked := false } }

theorem unlock_of_none {v : Voice} (h : v.player = none) : v.unlock = v := by
  cases v
  cases h
  rfl

def after (rig : Rig) (v : Voice) : Move → Voice
  | .sample => (v.sample rig.table rig.range).2
  | .resume =>
    match v.ready? with
    | none => v
    | some p =>
      match v.walk rig p v.ramp with
      | (.error _, v) => { v with player := none }
      | (.ok _, v) => v
  | .load program => { v with player := some (.load program) }
  | .clear => { v with ramp := v.ramp.hold, player := none }
  | .trigger action =>
    match v.triggered? action with
    | some p => (v.walk rig p v.ramp.hold).2
    | none => if action = .unlock then v.unlock else v
  | .setSlew seconds curve => { v with slew := seconds, slewCurve := curve }
  | .setQuantizer quantizer => { v with quantizer }
  | .setCell name value =>
    { v with
      player := v.player.map fun p => { p with cells := (p.cells.setNamed? name value).getD p.cells } }

def deeds (rig : Rig) (v : Voice) : Move → List Deed
  | .resume =>
    match v.ready? with
    | none => []
    | some p => p.walkDeeds rig
  | .clear => [.hold]
  | .trigger action =>
    match v.triggered? action with
    | none => []
    | some p => .hold :: lead action ++ p.walkDeeds rig
  | _ => []
where
  lead : Action → List Deed
    | .release => [.release]
    | _ => []

def run (rig : Rig) (v : Voice) (moves : List Move) : Voice := moves.foldl (after rig) v

def log (rig : Rig) : Voice → List Move → List Deed
  | _, [] => []
  | v, move :: moves => v.deeds rig move ++ log rig (v.after rig move) moves

theorem log_append (rig : Rig) (v : Voice) (moves moves' : List Move) :
    log rig v (moves ++ moves') = log rig v moves ++ log rig (v.run rig moves) moves' := by
  induction moves generalizing v with
  | nil => rfl
  | cons move moves ih =>
    rw [List.cons_append, log, log, ih, List.append_assoc]
    rfl

theorem walk_ramp (rig : Rig) (v : Voice) (p : Player) (ramp : Ramp) :
    (v.walk rig p ramp).2.ramp = (p.walkDeeds rig).foldl Deed.obey ramp :=
  Player.advance_ramp rig p ramp

theorem walk_player (rig : Rig) (v : Voice) (p : Player) (ramp : Ramp) :
    (v.walk rig p ramp).2.player = some (p.advance rig.rate rig.range ramp).2.1 := rfl

theorem after_resume (rig : Rig) {v : Voice} {p : Player} (hready : v.ready? = some p) :
    v.after rig .resume = (v.walk rig p v.ramp).2 ∨
      v.after rig .resume = { (v.walk rig p v.ramp).2 with player := none } := by
  simp only [after, hready]
  obtain ⟨⟨result, v'⟩, hwalk⟩ : ∃ x, v.walk rig p v.ramp = x := ⟨_, rfl⟩
  rw [hwalk]
  cases result with
  | error fault => exact .inr rfl
  | ok progress => exact .inl rfl

theorem after_resume_of_not_ready {rig : Rig} {v : Voice} (h : v.ready? = none) :
    v.after rig .resume = v := by
  simp only [after, h]

theorem after_cases (rig : Rig) (v : Voice) (move : Move) :
    move = .sample ∨ (∃ seconds curve, move = .setSlew seconds curve) ∨
      (∃ quantizer, move = .setQuantizer quantizer) ∨
      ∃ player ramp, v.after rig move = { v with player, ramp } := by
  cases move with
  | sample => exact .inl rfl
  | setSlew seconds curve => exact .inr (.inl ⟨seconds, curve, rfl⟩)
  | setQuantizer quantizer => exact .inr (.inr (.inl ⟨quantizer, rfl⟩))
  | resume =>
    refine .inr (.inr (.inr ?_))
    cases hready : v.ready? with
    | none => exact ⟨_, _, after_resume_of_not_ready hready⟩
    | some p =>
      rcases after_resume rig hready with hafter | hafter
      · exact ⟨_, _, hafter⟩
      · exact ⟨_, _, hafter⟩
  | trigger action =>
    refine .inr (.inr (.inr ?_))
    simp only [after]
    cases v.triggered? action with
    | none =>
      simp only
      split
      · exact ⟨_, _, rfl⟩
      · exact ⟨_, _, rfl⟩
    | some p => exact ⟨_, _, rfl⟩
  | load program => exact .inr (.inr (.inr ⟨_, _, rfl⟩))
  | clear => exact .inr (.inr (.inr ⟨_, _, rfl⟩))
  | setCell name value => exact .inr (.inr (.inr ⟨_, _, rfl⟩))

/-- Where the player `q` after a move comes from. -/
inductive Succession (rig : Rig) (v : Voice) (move : Move) (q : Player) : Prop
  | loaded (program : Program) (hmove : move = .load program) (hq : q = .load program)
  /-- It has walked on from `p`. -/
  | walked (p : Player) (ramp : Ramp)
      (hp : v.ready? = some p ∨ ∃ action, v.triggered? action = some p)
      (hq : q = (p.advance rig.rate rig.range ramp).2.1)
  /-- It stands where `p` stood. -/
  | stood (p : Player) (hp : v.player = some p) (hprogram : q.program = p.program)
      (hcells : q.cells.names = p.cells.names) (hstack : q.stack = p.stack)
      (hholding : q.holding = p.holding) (hlocked : q.locked = true → p.locked = true)
      (hawaiting : q.awaiting = p.awaiting)

theorem player_after {rig : Rig} {v : Voice} {move : Move} {q : Player}
    (hq : (v.after rig move).player = some q) : v.Succession rig move q := by
  have stood : v.player = some q → v.Succession rig move q :=
    fun hq => .stood q hq rfl rfl rfl rfl id rfl
  cases move with
  | sample => exact stood hq
  | resume =>
    cases hready : v.ready? with
    | none =>
      rw [after_resume_of_not_ready hready] at hq
      exact stood hq
    | some p =>
      rcases after_resume rig hready with hafter | hafter
      · rw [hafter, walk_player] at hq
        exact .walked p v.ramp (.inl hready) (Option.some.inj hq.symm)
      · rw [hafter] at hq
        cases hq
  | load program => exact .loaded program rfl (Option.some.inj hq.symm)
  | clear => cases hq
  | trigger action =>
    simp only [after] at hq
    cases htriggered : v.triggered? action with
    | none =>
      simp only [htriggered] at hq
      split at hq
      · obtain ⟨p, hp, rfl⟩ := Option.map_eq_some_iff.1 hq
        exact .stood p hp rfl rfl rfl rfl (fun h => by cases h) rfl
      · exact stood hq
    | some p =>
      simp only [htriggered] at hq
      exact .walked p v.ramp.hold (.inr ⟨action, htriggered⟩) (Option.some.inj hq.symm)
  | setSlew seconds curve => exact stood hq
  | setQuantizer quantizer => exact stood hq
  | setCell name value =>
    obtain ⟨p, hp, rfl⟩ := Option.map_eq_some_iff.1 hq
    refine .stood p hp rfl ?_ rfl rfl id rfl
    exact p.cells.names_setNamed? name value

/-- Apart from a sample, a move does its deeds to the ramp and nothing else. -/
theorem ramp_after (rig : Rig) (v : Voice) (move : Move) (h : move ≠ .sample) :
    (v.after rig move).ramp = (v.deeds rig move).foldl Deed.obey v.ramp := by
  cases move with
  | sample => exact absurd rfl h
  | resume =>
    simp only [deeds]
    cases hready : v.ready? with
    | none => rw [after_resume_of_not_ready hready, List.foldl_nil]
    | some p =>
      rcases after_resume rig hready with hafter | hafter
      · rw [hafter, walk_ramp]
      · rw [hafter]
        exact walk_ramp rig v p v.ramp
  | trigger action =>
    simp only [after, deeds]
    cases v.triggered? action with
    | none => by_cases unlock : action = .unlock <;> simp [unlock, Voice.unlock]
    | some p =>
      rw [walk_ramp]
      cases action <;> rfl
  | _ => rfl

end Voice

end ControlVoltage

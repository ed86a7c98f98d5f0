import ControlVoltage.Proofs.Player.Trail
import ControlVoltage.Proofs.Voice.Moves

/-!
# Sound voices

A voice into which only compiled programs are loaded, with a slew that is finite and not negative, and
with finite values set in its cells, never has a walk that turns out corrupt.

* `Voice.Move.Checked` : what is made sure of before a move.
* `Voice.Sound` : what checked moves keep.
* `Voice.walk_of_sound` : what a walk comes to.
-/

namespace ControlVoltage

namespace Voice

/-- What the engine has made sure of. -/
def Move.Checked : Move → Prop
  | .load program => ∃ score, Program.compile score = .ok program
  | .setSlew seconds _ => seconds.isFinite = true ∧ ¬ seconds < 0
  | .setCell _ value => value.isFinite = true
  | _ => True

/-- A slew that can be used, and a sound player if there is one. -/
structure Sound (v : Voice) : Prop where
  slew : v.slew.isFinite = true ∧ ¬ v.slew < 0
  player : ∀ p, v.player = some p → p.Sound

variable {rig : Rig} {v : Voice}

theorem sound_rest (volts : Float32) : (rest volts).Sound := by
  have usable : (0 : Float32).isFinite = true ∧ ¬ (0 : Float32) < 0 := by decide +kernel
  exact ⟨usable, fun _ h => by cases h⟩

theorem Sound.ready (h : v.Sound) {p : Player} (hp : v.ready? = some p) : p.Sound :=
  h.player p (player_of_ready hp).1

theorem Sound.triggered (h : v.Sound) {q : Player} {action : Action}
    (hq : v.triggered? action = some q) : q.Sound :=
  triggered_keeps (fun _ hp => hp.restart) (fun _ hp => hp.release) h.player hq

theorem walk_of_sound (rig : Rig) (v : Voice) {p : Player} (h : p.Sound) (ramp : Ramp) :
    ∃ progress q, v.walk rig p ramp =
        (.ok progress, { v with player := some q, ramp := (p.walkDeeds rig).foldl Deed.obey ramp }) ∧
      q.Sound ∧ q.Rests ((p.walkDeeds rig).foldl Deed.obey ramp) progress := by
  obtain ⟨progress, q, ramp', hadvance, hq, hrests⟩ :
      ∃ progress q ramp', p.advance rig.rate rig.range ramp = (.ok progress, q, ramp') ∧
        q.Sound ∧ q.Rests ramp' progress := h.advance ramp
  have hramp : ramp' = (p.walkDeeds rig).foldl Deed.obey ramp := by
    rw [← Player.advance_ramp, hadvance]
  subst hramp
  exact ⟨progress, q, by rw [walk, hadvance], hq, hrests⟩

/-- What a move leaves of the player, apart from one that only changes its cells or its guard:
none, one that is new, or one whose walk has come to rest. -/
inductive Leaves (v : Voice) : Voice → Prop
  | nobody {v' : Voice} (hplayer : v'.player = none) : Leaves v v'
  | loaded {v' : Voice} (program : Program) (hramp : v'.ramp = v.ramp)
      (hplayer : v'.player = some (.load program)) : Leaves v v'
  | walked {v' : Voice} (q : Player) (progress : Player.Progress)
      (hplayer : v'.player = some q) (hrests : q.Rests v'.ramp progress) : Leaves v v'
  | same {v' : Voice} (hramp : v'.ramp = v.ramp)
      (hplayer : ∀ q, v'.player = some q → ∃ p, v.player = some p ∧ q.program = p.program ∧
        q.stack = p.stack ∧ q.holding = p.holding ∧ q.awaiting = p.awaiting) : Leaves v v'

theorem leaves_self (v : Voice) : v.Leaves v :=
  .same rfl fun q hq => ⟨q, hq, rfl, rfl, rfl, rfl⟩

theorem Sound.leaves (h : v.Sound) {move : Move} (hmove : move ≠ .sample) :
    v.Leaves (v.after rig move) := by
  cases move with
  | sample => exact absurd rfl hmove
  | resume =>
    simp only [Voice.after]
    cases hready : v.ready? with
    | none => exact leaves_self v
    | some p =>
      obtain ⟨progress, q, hwalk, -, hrests⟩ := walk_of_sound rig v (h.ready hready) v.ramp
      simp only [hwalk]
      exact .walked _ progress rfl hrests
  | load program => exact .loaded program rfl rfl
  | clear => exact .nobody rfl
  | trigger action =>
    simp only [Voice.after]
    cases hq : v.triggered? action with
    | none =>
      simp only
      split
      · refine .same rfl fun q hq => ?_
        obtain ⟨p, hp, rfl⟩ := Option.map_eq_some_iff.1 hq
        exact ⟨p, hp, rfl, rfl, rfl, rfl⟩
      · exact leaves_self v
    | some q =>
      obtain ⟨progress, q', hwalk, -, hrests⟩ := walk_of_sound rig v (h.triggered hq) v.ramp.hold
      simp only [hwalk]
      exact .walked _ progress rfl hrests
  | setSlew seconds curve => exact .same rfl fun q hq => ⟨q, hq, rfl, rfl, rfl, rfl⟩
  | setQuantizer quantizer => exact .same rfl fun q hq => ⟨q, hq, rfl, rfl, rfl, rfl⟩
  | setCell name value =>
    refine .same rfl fun q hq => ?_
    obtain ⟨p, hp, rfl⟩ := Option.map_eq_some_iff.1 hq
    exact ⟨p, hp, rfl, rfl, rfl, rfl⟩

theorem slew_after {move : Move} (h : ∀ seconds curve, move ≠ .setSlew seconds curve) :
    (v.after rig move).slew = v.slew := by
  rcases after_cases rig v move with rfl | ⟨seconds, curve, rfl⟩ | ⟨q, rfl⟩ | ⟨player, ramp, hafter⟩
  · rfl
  · exact absurd rfl (h seconds curve)
  · rfl
  · rw [hafter]

theorem Sound.after (h : v.Sound) {move : Move} (checked : move.Checked) :
    (v.after rig move).Sound := by
  constructor
  · cases move with
    | setSlew seconds curve => exact checked
    | _ => rw [slew_after (by simp)]; exact h.slew
  · intro q hq
    cases player_after hq with
    | loaded program hmove hloaded =>
      subst hmove hloaded
      obtain ⟨score, hcompile⟩ := checked
      exact Player.sound_load hcompile
    | walked p ramp hp hwalked =>
      have hsound : p.Sound := by
        rcases hp with hready | ⟨action, htriggered⟩
        · exact h.ready hready
        · exact h.triggered htriggered
      obtain ⟨progress, q', ramp', hadvance, hq', -⟩ := hsound.advance ramp
      rw [hwalked, hadvance]
      exact hq'
    | stood p hp hprogram hcells hstack =>
      have hsound := h.player p hp
      refine ⟨?_, ?_, ?_⟩
      · rw [hprogram]
        exact hsound.compiled
      · rw [hprogram, hcells]
        exact hsound.names
      · rw [hprogram, hstack]
        exact hsound.trail

end Voice

end ControlVoltage

import ControlVoltage.Proofs.Engine.Sound
import ControlVoltage.Proofs.Player.Writes

/-!
# What the cells of a channel hold

The declared values are finite, and the engine sets cells to finite values only. A formula stores
what it comes to, finite or not. So a cell that is not finite tells that the last to write there was
a formula.

* `Voice.writes`, `Engine.writes` : all that was written since the program was installed.
* `Voice.Recorded.after` : every move keeps the record.
* `Engine.cell_holds_last_write` : any run.
* `Engine.cell_overflows` : a cell that is squared until it is infinite.
-/

namespace ControlVoltage

namespace Voice

/-- The writes to the cells of the channel's program after a move; `ws` are those before it. -/
def writesAfter (rig : Rig) (v : Voice) (ws : List Write) : Move → List Write
  | .load _ => []
  | .resume =>
    match v.ready? with
    | none => ws
    | some p => ws ++ p.walkWrites rig.rate rig.range
  | .trigger action =>
    match v.triggered? action with
    | none => ws
    | some p => ws ++ p.walkWrites rig.rate rig.range
  | .setCell name value =>
    match v.player.bind fun p => p.cells.find? name with
    | none => ws
    | some i => ws ++ [⟨i, value, .host⟩]
  | _ => ws

def writes (rig : Rig) : Voice → List Write → List Move → List Write
  | _, ws, [] => ws
  | v, ws, move :: moves => writes rig (v.after rig move) (v.writesAfter rig ws move) moves

/-- If there is a player, its cells have their declared values, but for these writes. -/
def Recorded (ws : List Write) (v : Voice) : Prop := ∀ p, v.player = some p → p.Recorded ws

variable {rig : Rig} {v : Voice} {ws : List Write}

theorem Recorded.triggered (h : v.Recorded ws) {action : Action} {q : Player}
    (hq : v.triggered? action = some q) : q.Recorded ws :=
  triggered_keeps (fun _ hp => hp.restart) (fun _ hp => hp.release) h hq

theorem Recorded.after (h : v.Recorded ws) {move : Move} (checked : move.Checked) :
    (v.after rig move).Recorded (v.writesAfter rig ws move) := by
  have walked : ∀ {p : Player}, p.Recorded ws → ∀ ramp,
      (v.walk rig p ramp).2.Recorded (ws ++ p.walkWrites rig.rate rig.range) := by
    intro p hp ramp q hq
    rw [walk_player] at hq
    cases hq
    exact hp.advance rig.rate rig.range ramp
  cases move with
  | sample => exact h
  | setSlew seconds curve => exact h
  | setQuantizer quantizer => exact h
  | clear => exact fun q hq => by cases hq
  | load program =>
    intro q hq
    cases hq
    obtain ⟨score, hcompile⟩ := checked
    exact .load hcompile
  | resume =>
    simp only [writesAfter]
    cases hready : v.ready? with
    | none =>
      rw [after_resume_of_not_ready hready]
      exact h
    | some p =>
      rcases after_resume rig hready with hafter | hafter
      · rw [hafter]
        exact walked (h p (player_of_ready hready).1) v.ramp
      · rw [hafter]
        exact fun q hq => by cases hq
  | trigger action =>
    simp only [Voice.after, writesAfter]
    cases htriggered : v.triggered? action with
    | some p => exact walked (h.triggered htriggered) v.ramp.hold
    | none =>
      simp only
      split
      · intro q hq
        obtain ⟨p, hp, rfl⟩ := Option.map_eq_some_iff.1 hq
        exact (h p hp).congr rfl rfl
      · exact h
  | setCell name value =>
    intro q hq
    obtain ⟨p, hp, rfl⟩ := Option.map_eq_some_iff.1 hq
    simp only [writesAfter, hp, Option.bind_some, Cells.setNamed?]
    cases p.cells.find? name with
    | none => exact h p hp
    | some i => exact (h p hp).set i checked

/-- All that was written since the program was installed explains the cells. -/
theorem Recorded.run (h : v.Recorded ws) {moves : List Move} (checked : ∀ m ∈ moves, m.Checked) :
    (v.run rig moves).Recorded (writes rig v ws moves) := by
  induction moves generalizing v ws with
  | nil => exact h
  | cons move moves ih =>
    obtain ⟨hmove, htail⟩ := List.forall_mem_cons.1 checked
    exact ih (h.after hmove) htail

end Voice

namespace Engine

/-- What a run writes to the cells of a channel, since its program was installed. -/
def writes (e : Engine) (c : Channel) (moves : List Move) : List Write :=
  Voice.writes e.rig (e.voice c) [] (sharesOf c e moves)

theorem getCell_eq_ok_iff {e : Engine} {c : Channel} {name : String} {x : Float32} :
    e.getCell c name = .ok x ↔ ∃ p i, (e.voice c).player = some p ∧ p.cells.find? name = some i ∧
      p.cells.get i = x := by
  unfold getCell Cells.valueOf?
  cases (e.voice c).player with
  | none => simp
  | some p => cases hfind : p.cells.find? name <;> simp [hfind]

/-- What the cells of a channel hold after any run. A cell holds what was written to it last since
the program was installed, or its declared value if that is nothing. It is not finite exactly when
that last write was by a formula, of a value that is not finite; the program then mutates this cell.
What the host is told of a cell is not finite under the same condition. -/
theorem cell_holds_last_write (rate : Rate) (range : Range) (capacity : Nat) (f : Transcendental)
    (moves : List Move) (c : Channel) {p : Player}
    (hp : (((fresh rate range capacity f).run moves).voice c).player = some p) :
    let ws := (fresh rate range capacity f).writes c moves
    (∀ i < p.cells.size,
      p.cells.get i = ((Write.last? i ws).map Write.value).getD (p.program.cells.get i) ∧
      ((p.cells.get i).isFinite = false ↔ ∃ w ∈ Write.last? i ws,
        w.source = .formula ∧ w.value.isFinite = false ∧ p.program.Mutates i)) ∧
    ∀ name x, ((fresh rate range capacity f).run moves).getCell c name = .ok x →
      ∃ i, p.cells.find? name = some i ∧
        (x.isFinite = false ↔ ∃ w ∈ Write.last? i ws,
          w.source = .formula ∧ w.value.isFinite = false ∧ p.program.Mutates i) := by
  intro ws
  have recorded : p.Recorded ws := by
    have start : ((fresh rate range capacity f).voice c).Recorded [] := by
      intro q hq
      rw [voice_fresh] at hq
      cases hq
    have hrun : (((fresh rate range capacity f).voice c).run (fresh rate range capacity f).rig
        (sharesOf c (fresh rate range capacity f) moves)).Recorded ws :=
      start.run (sharesOf_checked _ c moves)
    rw [← (voice_run _ c moves).2] at hrun
    exact hrun p hp
  refine ⟨fun i hi => recorded.get hi, fun name x hx => ?_⟩
  obtain ⟨q, i, hq, hfind, rfl⟩ := getCell_eq_ok_iff.1 hx
  obtain rfl : p = q := Option.some.inj (hp.symm.trans hq)
  exact ⟨i, hfind, (recorded.get (Cells.lt_of_find? hfind)).2⟩

/-- A cell that starts from `10 ^ 30` and is squared by a ramp. -/
def squaring : List Score.Node :=
  [.ramp (.op "mutate" [.var "x" (some 1e30), .op "mul" [.var "x" none, .var "x" none]]) (.lit 0)
    "linear"]

/-- Squared once, the cell is infinite. Then the host sets it, and it is finite again. -/
theorem cell_holds_last_write_set :
    let moves : List Move := [.perform .free (.install .first squaring),
      .perform .free (.trigger .first .restart), .perform .free (.setCell .first "x" 1)]
    ∃ p, (((fresh .standard .standard 1).run moves).voice .first).player = some p ∧
      p.cells.get 0 = 1 ∧
      (Write.last? 0 ((fresh .standard .standard 1).writes .first (moves.take 2))).any
        (fun w => w.source = .formula ∧ w.value.isFinite = false) = true ∧
      ¬ ∃ w ∈ Write.last? 0 ((fresh .standard .standard 1).writes .first moves),
        w.source = .formula ∧ w.value.isFinite = false ∧ p.program.Mutates 0 := by
  intro moves
  have hcells : (((fresh .standard .standard 1).run moves).voice .first).player.map
      (fun p => (p.cells.size, p.cells.get 0)) = some (1, 1) := by decide +kernel
  obtain ⟨p, hp, hcell⟩ := Option.map_eq_some_iff.1 hcells
  obtain ⟨hsize, hget⟩ := Prod.mk.inj hcell
  refine ⟨p, hp, hget, by decide +kernel, fun spoiled => ?_⟩
  obtain ⟨holds, -⟩ := cell_holds_last_write .standard .standard 1 .standard moves .first hp
  have infinite := (holds 0 (by omega)).2.2 spoiled
  rw [hget] at infinite
  revert infinite
  decide +kernel

/-- The host is told that the cell is infinite. -/
theorem cell_overflows :
    let e := (fresh .standard .standard 1).run [.perform .free (.install .first squaring),
      .perform .free (.trigger .first .restart)]
    Reachable e ∧ ∃ x, e.getCell .first "x" = .ok x ∧ x.isFinite = false := by
  intro e
  have hcell : (e.getCell .first "x").toOption.map Float32.isFinite = some false := by decide +kernel
  refine ⟨⟨.standard, .standard, 1, .standard, _, rfl⟩, ?_⟩
  cases hx : e.getCell .first "x" with
  | error fault =>
    rw [hx] at hcell
    cases hcell
  | ok x =>
    rw [hx] at hcell
    exact ⟨x, rfl, Option.some.inj hcell⟩

end Engine

end ControlVoltage

import ControlVoltage.Proofs.Engine.Incorrupt
import ControlVoltage.Proofs.Score.Reading

/-!
# Blocks with a condition

Such a block is passed by when its condition comes to a number at or below zero, and entered
otherwise. For a number this is to say that it is entered above zero. But a condition can also come
to NaN, which is neither above zero nor at or below it, and then the block is entered.

* `Player.AtCondition` : a walk that is about to enter such a block.
* `Player.Incorrupt.step_condition` : what the next move does then.
* `Engine.body_entered_iff` : any run.
* `Engine.body_entered_on_nan` : a condition that is infinity less infinity.
-/

namespace ControlVoltage

theorem Single.not_le_zero_iff (x : Float32) : ¬ x ≤ 0 ↔ 0 < x ∨ x.isNaN = true := by
  have hmet := Score.met_eq x
  rw [Score.met, Bool.eq_iff_iff] at hmet
  simpa using hmet.symm

namespace Player

/-- The next operation enters block `id`, which has this condition. -/
structure AtCondition (p : Player) (id : Nat) (condition : Formula) : Prop where
  next : ∃ mark rest block, p.stack = mark :: rest ∧ p.program.blocks[mark.block]? = some block ∧
    block.ops[mark.next]? = some (.enter id)
  target : ∃ body, p.program.blocks[id]? = some ⟨.when condition, body⟩

/-- The player past its operation; the condition has been evaluated, and that is all. -/
def passedBy (p : Player) (condition : Formula) : Player :=
  { p with cells := (condition.eval p.cells).2, stack := p.stack.modifyHead past }

/-- The player at the first operation of block `id`, with the condition evaluated. -/
def inBody (p : Player) (condition : Formula) (id : Nat) : Player :=
  { p.passedBy condition with stack := ⟨id, 0, 0⟩ :: (p.passedBy condition).stack }

variable {rate : Rate} {range : Range} {p : Player} {id : Nat} {condition : Formula}

theorem inBody_ne_passedBy (p : Player) (condition : Formula) (id : Nat) :
    p.inBody condition id ≠ p.passedBy condition := by
  intro same
  have hlength := congrArg (fun q : Player => q.stack.length) same
  simp [inBody] at hlength

theorem AtCondition.step_eq (h : p.AtCondition id condition) :
    p.step rate range =
      if (condition.eval p.cells).1 ≤ 0 then .moved (p.passedBy condition)
      else (p.passedBy condition).push id 0 := by
  obtain ⟨⟨mark, rest, block, hstack, hblock, hop⟩, body, hbody⟩ := h
  simp only [step, hstack, hblock, hop, enter, hbody, passedBy, List.modifyHead_cons]
  rfl

/-- The block is entered unless its condition is at or below zero. There is always room for it on the
stack. -/
theorem Incorrupt.step_condition (h : p.Incorrupt) (at_ : p.AtCondition id condition) :
    p.step rate range =
      .moved (if 0 < (condition.eval p.cells).1 ∨ (condition.eval p.cells).1.isNaN = true
        then p.inBody condition id else p.passedBy condition) := by
  -- A block that does not fit on the stack would be found corrupt, and nothing is.
  have room : p.step rate range ≠ .corrupt .stackTooDeep := h.step_ne_corrupt .stackTooDeep
  rw [at_.step_eq] at room ⊢
  simp only [← Single.not_le_zero_iff]
  by_cases below : (condition.eval p.cells).1 ≤ 0
  · simp only [below, not_true, if_true, if_false]
  · simp only [below, not_false_iff, if_true, if_false] at room ⊢
    unfold push at room ⊢
    split at room
    · exact absurd rfl room
    · rename_i shallow
      rw [if_neg shallow]
      rfl

end Player

namespace Engine

theorem incorrupt_run {e : Engine} {c : Channel} (h : (e.voice c).Incorrupt) (moves : List Move) :
    ((e.run moves).voice c).Incorrupt :=
  voice_keeps (P := fun _ v => v.Incorrupt) (fun _ _ _ checked h => h.after checked) h moves

/-- When the body of a block with a condition is run. From any state of the engine in which the
channel has no program, or a compiled one that has not been started, with anything in its cells, and
after any run: wherever a walk comes by the entry of such a block, whether it goes on, starts again or
leaves a held block,
* the block is entered if and only if its condition comes to a number above zero or to NaN;
* otherwise the walk is past the block, and nothing has changed but the cells that the condition
  stores to;
* either way the walk goes on from there at once, and the ramp has not been touched. -/
theorem body_entered_iff (e : Engine) (c : Channel)
    (start : ∀ p, (e.voice c).player = some p → p.Unstarted) (moves : List Move) {p : Player}
    (hp : ((e.run moves).voice c).player = some p) :
    let e' := e.run moves
    ∀ p' ∈ [p, p.restart, p.release], ∀ q, (p'.await none).Meets e'.rate e'.range q →
      ∀ id condition, q.AtCondition id condition →
        let x := (condition.eval q.cells).1
        (q.step e'.rate e'.range = .moved (q.inBody condition id) ↔ 0 < x ∨ x.isNaN = true) ∧
        (q.step e'.rate e'.range = .moved (q.passedBy condition) ↔ ¬ (0 < x ∨ x.isNaN = true)) ∧
        ∀ budget ramp, q.run e'.rate e'.range (budget + 1) ramp =
          (if 0 < x ∨ x.isNaN = true then q.inBody condition id
            else q.passedBy condition).run e'.rate e'.range budget ramp := by
  intro e' p' hp' q meets id condition at_ x
  have hincorrupt : p.Incorrupt := incorrupt_run (fun p hp => (start p hp).incorrupt) moves p hp
  have hp'' : p'.Incorrupt := by
    simp only [List.mem_cons, List.not_mem_nil, or_false] at hp'
    rcases hp' with rfl | rfl | rfl
    · exact hincorrupt
    · exact hincorrupt.restart
    · exact hincorrupt.release
  have waiting : (p'.await none).Incorrupt := hp''.congr rfl rfl rfl
  have hstep : q.step e'.rate e'.range = _ := (waiting.meets meets).step_condition at_
  have differ : q.inBody condition id ≠ q.passedBy condition :=
    Player.inBody_ne_passedBy q condition id
  refine ⟨?_, ?_, fun budget ramp => by rw [Player.run, hstep]⟩
  · rw [hstep, Player.Turn.moved.injEq, differ.ite_eq_left_iff]
  · rw [hstep, Player.Turn.moved.injEq, differ.ite_eq_right_iff]

/-- A ramp to five volts that takes no time, in a block with a condition. -/
def gated (condition : Score.Value) : List Score.Node :=
  [.when condition [.ramp (.lit 5) (.lit 0) "linear"]]

def gatedBlocks (condition : Formula) : Array Block :=
  #[⟨.plain, #[.enter 1]⟩, ⟨.when condition, #[.ramp ⟨.lit 5, .lit 0, .linear⟩]⟩]

theorem atCondition_gated {p : Player} {condition : Formula}
    (h : p.program.blocks = gatedBlocks condition) : p.restart.AtCondition 1 condition := by
  have hblocks : p.restart.program.blocks = gatedBlocks condition := h
  refine ⟨⟨⟨0, 0, 0⟩, [], ⟨.plain, #[.enter 1]⟩, rfl, ?_, rfl⟩,
    #[.ramp ⟨.lit 5, .lit 0, .linear⟩], ?_⟩
  · rw [hblocks]
    rfl
  · rw [hblocks]
    rfl

/-- A cell is the condition, and the host has set it to zero: the block is passed by. -/
theorem body_entered_iff_closed :
    let e := (fresh .standard .standard 1).run [.perform .free (.install .first
      (gated (.var "gate" (some 1)))), .perform .free (.setCell .first "gate" 0)]
    ∃ p, (e.voice .first).player = some p ∧
      p.restart.step e.rate e.range = .moved (p.restart.passedBy (.cell 0)) := by
  intro e
  have hplayer : (e.voice .first).player.map (fun p => (p.program.blocks, p.cells)) =
      some (gatedBlocks (.cell 0), ⟨[⟨"gate", 1, 0⟩]⟩) := by decide +kernel
  obtain ⟨p, hp, hstate⟩ := Option.map_eq_some_iff.1 hplayer
  obtain ⟨hblocks, hcells⟩ := Prod.mk.inj hstate
  have hx : ((Formula.cell 0).eval p.restart.cells).1 = 0 := by
    show p.cells.get 0 = 0
    rw [hcells]
    rfl
  have start : ∀ p, ((fresh .standard .standard 1).voice .first).player = some p →
      p.Unstarted := by
    intro p hp
    rw [voice_fresh] at hp
    cases hp
  obtain ⟨-, passed, -⟩ := body_entered_iff (fresh .standard .standard 1) .first start _ hp p.restart
    (by simp) p.restart .refl 1 (.cell 0) (atCondition_gated hblocks)
  refine ⟨p, hp, passed.2 ?_⟩
  rw [hx]
  decide +kernel

/-- Infinity less infinity: the block is entered, and the voltage is five at once. -/
theorem body_entered_on_nan :
    let huge : Score.Value := .op "mul" [.lit 1e30, .lit 1e30]
    let e := (fresh .standard .standard 1).run [.perform .free (.install .first
      (gated (.op "sub" [huge, huge]))), .perform .free (.trigger .first .restart)]
    (e.voice .first).ramp.current = 5 ∧
      ∃ p condition, (e.voice .first).player = some p ∧ p.restart.AtCondition 1 condition ∧
        ¬ 0 < (condition.eval p.restart.cells).1 ∧
        p.restart.step e.rate e.range = .moved (p.restart.inBody condition 1) := by
  intro huge e
  let product : Formula := .binary .mul (.lit 1e30) (.lit 1e30)
  let condition : Formula := .binary .sub product product
  have hplayer : (e.voice .first).player.map (fun p => p.program.blocks) =
      some (gatedBlocks condition) := by decide +kernel
  obtain ⟨p, hp, hblocks⟩ := Option.map_eq_some_iff.1 hplayer
  have start : ((fresh .standard .standard 1).voice .first).Incorrupt := by
    intro p hp
    rw [voice_fresh] at hp
    cases hp
  have hincorrupt : p.restart.Incorrupt := (incorrupt_run start _ p hp).restart
  have hnan : (condition.eval p.restart.cells).1.isNaN = true := by
    show ((1e30 : Float32) * 1e30 - 1e30 * 1e30).isNaN = true
    decide +kernel
  refine ⟨by decide +kernel, p, condition, hp, atCondition_gated hblocks, ?_, ?_⟩
  · show ¬ (0 : Float32) < 1e30 * 1e30 - 1e30 * 1e30
    decide +kernel
  · rw [hincorrupt.step_condition (atCondition_gated hblocks), if_pos (Or.inr hnan)]

end Engine

end ControlVoltage

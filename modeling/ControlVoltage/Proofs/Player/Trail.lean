import ControlVoltage.Proofs.Player.Deeds
import ControlVoltage.Proofs.Program.Formula
import ControlVoltage.Proofs.Program.Layout

/-!
# Sound players

The stack of a player of a compiled program always fits the program, so that no walk turns out
corrupt, and a walk that does not wait for a segment has either parked or ended.

* `Program.Trail` : each mark is in a block that stands for nodes of the score.
* `Player.Sound` : what is kept of a player, whatever happens to it.
* `run_rests` : how a walk of a sound player comes to rest.
-/

namespace ControlVoltage

open Program (Stands StandAll)

/-- Every mark is at a place in a block that is as deep as the mark is high in the stack. -/
def Program.Trail (program : Program) : List Mark → Prop
  | [] => True
  | mark :: rest =>
    (∃ kind ops nodes around, program.blocks[mark.block]? = some ⟨kind, ops⟩ ∧
      program.StandAll (rest.length + 2) around nodes ops.toList ∧ mark.next ≤ ops.size) ∧
      program.Trail rest

theorem Program.StandAll.mem {program : Program} {depth : Nat} {around : Nesting}
    {nodes : List Score.Node} {ops : List Op} (h : program.StandAll depth around nodes ops)
    {i : Nat} {op : Op} (hop : ops[i]? = some op) : ∃ node, program.Stands depth around node op := by
  induction nodes generalizing ops i with
  | nil =>
    obtain rfl : ops = [] := h
    cases hop
  | cons node nodes ih =>
    obtain ⟨first, rest, rfl, hfirst, hrest⟩ := h
    cases i with
    | zero =>
      cases hop
      exact ⟨node, hfirst⟩
    | succ i => exact ih hrest hop

theorem Program.Stands.enter {program : Program} {depth : Nat} {around : Nesting}
    {node : Score.Node} {id : Nat} (h : program.Stands depth around node (.enter id)) :
    ∃ kind ops nodes inner, depth ≤ Program.maxDepth ∧
      program.blocks[id]? = some ⟨kind, ops⟩ ∧
      program.StandAll (depth + 1) inner nodes ops.toList := by
  have opens : ∀ {kind : BlockKind} {inner : Nesting} {nodes : List Score.Node},
      program.Opens depth kind (.enter id) (program.StandAll (depth + 1) inner nodes) →
      ∃ kind ops nodes inner, depth ≤ Program.maxDepth ∧
        program.blocks[id]? = some ⟨kind, ops⟩ ∧
        program.StandAll (depth + 1) inner nodes ops.toList := by
    rintro kind inner nodes ⟨id', ops, hid, hdepth, hblock, hinside⟩
    cases hid
    exact ⟨kind, ops, nodes, inner, hdepth, hblock, hinside⟩
  cases node with
  | ramp volts time tag =>
    obtain ⟨v, t, curve, -, -, -, hop⟩ := h
    cases hop
  | seq body => exact opens h
  | loop body => exact opens h
  | held body => exact opens h.2
  | lock body => exact opens h.2
  | times count body => exact opens h.2
  | when condition body =>
    obtain ⟨c, -, h⟩ := h
    exact opens h

namespace Player

/-- The player's program is a compiled one, and its cells and its stack fit the program. -/
structure Sound (p : Player) : Prop where
  compiled : ∃ score, Program.compile score = .ok p.program
  names : p.cells.names = p.program.cells.names
  trail : p.program.Trail p.stack

/-- At the end of a held block that has not been released. -/
def Parked (p : Player) : Prop :=
  p.holding = true ∧ ∃ mark rest ops, p.stack = mark :: rest ∧
    p.program.blocks[mark.block]? = some ⟨.held, ops⟩ ∧ mark.next = ops.size

/-- What a move of a sound player can come to. -/
def Leads (p : Player) : Turn → Prop
  | .ramp _ q => q.Sound ∧ q.awaiting = p.awaiting
  | .moved q => q.Sound ∧ q.awaiting = p.awaiting
  | .parked => p.Parked
  | .ended => p.stack = []
  | .corrupt _ => False

variable {rate : Rate} {range : Range}

theorem Sound.push {p : Player} (h : p.Sound) (id passes : Nat)
    (opens : ∃ kind ops nodes inner, p.stack.length + 1 ≤ Program.maxDepth ∧
      p.program.blocks[id]? = some ⟨kind, ops⟩ ∧
      p.program.StandAll (p.stack.length + 2) inner nodes ops.toList) :
    ∃ q, p.push id passes = .moved q ∧ q.Sound ∧ q.awaiting = p.awaiting := by
  obtain ⟨kind, ops, nodes, inner, hdepth, hblock, hinside⟩ := opens
  have shallow : ¬ Program.maxDepth ≤ p.stack.length := by omega
  rw [Player.push, if_neg shallow]
  refine ⟨_, rfl, ⟨h.compiled, h.names, ?_, h.trail⟩, rfl⟩
  exact ⟨kind, ops, nodes, inner, hblock, hinside, Nat.zero_le _⟩

theorem Sound.enter {p : Player} (h : p.Sound) {id : Nat}
    (opens : ∃ kind ops nodes inner, p.stack.length + 1 ≤ Program.maxDepth ∧
      p.program.blocks[id]? = some ⟨kind, ops⟩ ∧
      p.program.StandAll (p.stack.length + 2) inner nodes ops.toList) :
    ∃ q, p.enter id = .moved q ∧ q.Sound ∧ q.awaiting = p.awaiting := by
  obtain ⟨kind, ops, hblock⟩ : ∃ kind ops, p.program.blocks[id]? = some ⟨kind, ops⟩ := by
    obtain ⟨kind, ops, -, -, -, hblock, -⟩ := opens
    exact ⟨kind, ops, hblock⟩
  rw [Player.enter, hblock]
  cases kind with
  | plain => exact h.push id 0 opens
  | loop => exact h.push id 0 opens
  | times count => exact h.push id count opens
  | held =>
    have hheld : Sound { p with holding := true } := ⟨h.compiled, h.names, h.trail⟩
    exact hheld.push id 0 opens
  | locked =>
    have hlocked : Sound { p with locked := true } := ⟨h.compiled, h.names, h.trail⟩
    exact hlocked.push id 0 opens
  | when condition =>
    have hcells : Sound { p with cells := (condition.eval p.cells).2 } :=
      ⟨h.compiled, (Formula.names_eval _ _).trans h.names, h.trail⟩
    simp only
    by_cases below : (condition.eval p.cells).1 ≤ 0
    · rw [if_pos below]
      exact ⟨_, rfl, hcells, rfl⟩
    · rw [if_neg below]
      exact hcells.push id 0 opens

theorem Sound.finish {p : Player} (h : p.Sound) {mark : Mark} {rest : List Mark} {kind : BlockKind}
    {ops : Array Op} (hstack : p.stack = mark :: rest)
    (hblock : p.program.blocks[mark.block]? = some ⟨kind, ops⟩) (hend : mark.next = ops.size) :
    p.Leads (p.finish kind mark rest) := by
  have htrail := h.trail
  rw [hstack] at htrail
  obtain ⟨hmark, hrest⟩ := htrail
  have again : ∀ passes, p.program.Trail (⟨mark.block, 0, passes⟩ :: rest) := by
    obtain ⟨kind', ops', nodes, around, hblock', hinside, -⟩ := hmark
    exact fun passes => ⟨⟨kind', ops', nodes, around, hblock', hinside, Nat.zero_le _⟩, hrest⟩
  cases kind with
  | plain => exact ⟨⟨h.compiled, h.names, hrest⟩, rfl⟩
  | loop => exact ⟨⟨h.compiled, h.names, again mark.passes⟩, rfl⟩
  | times count =>
    simp only [Player.finish]
    split
    · exact ⟨⟨h.compiled, h.names, again _⟩, rfl⟩
    · exact ⟨⟨h.compiled, h.names, hrest⟩, rfl⟩
  | held =>
    simp only [Player.finish]
    split
    · rename_i holding
      exact ⟨holding, mark, rest, ops, hstack, hblock, hend⟩
    · exact ⟨⟨h.compiled, h.names, hrest⟩, rfl⟩
  | locked => exact ⟨⟨h.compiled, h.names, hrest⟩, rfl⟩
  | when condition => exact ⟨⟨h.compiled, h.names, hrest⟩, rfl⟩

theorem Sound.step {p : Player} (h : p.Sound) : p.Leads (p.step rate range) := by
  unfold Player.step
  cases hstack : p.stack with
  | nil => exact hstack
  | cons mark rest =>
    have htrail := h.trail
    rw [hstack] at htrail
    obtain ⟨⟨kind, ops, nodes, around, hblock, hinside, hle⟩, hrest⟩ := htrail
    simp only [hblock]
    cases hop : ops[mark.next]? with
    | none =>
      have hend : mark.next = ops.size := by
        have := Array.getElem?_eq_none_iff.1 hop
        omega
      exact h.finish hstack hblock hend
    | some op =>
      obtain ⟨hlt, -⟩ := Array.getElem?_eq_some_iff.1 hop
      have hpast : Sound { p with stack := { mark with next := mark.next + 1 } :: rest } :=
        ⟨h.compiled, h.names, ⟨⟨kind, ops, nodes, around, hblock, hinside, hlt⟩, hrest⟩⟩
      cases op with
      | ramp step =>
        refine ⟨⟨h.compiled, ?_, hpast.trail⟩, rfl⟩
        simp only [Formula.names_eval]
        exact h.names
      | enter id =>
        obtain ⟨node, hnode⟩ := hinside.mem (by simpa using hop)
        obtain ⟨q, hq, hsound, hawaiting⟩ := hpast.enter hnode.enter
        simp only [hq]
        exact ⟨hsound, hawaiting⟩

/-- How a walk came to rest, in a player and the ramp that it moves. -/
def Rests (p : Player) (ramp : Ramp) : Progress → Prop
  | .waiting => p.awaiting = some ramp.generation ∧ ramp.phase = .ramping
  | .suspended => p.awaiting = none ∧ p.Parked
  | .done => p.awaiting = none ∧ p.stack = []

/-- A walk of a sound player comes to rest. -/
theorem Sound.run {p : Player} (h : p.Sound) (hawaiting : p.awaiting = none) (budget : Nat)
    (ramp : Ramp) :
    ∃ progress q ramp', Player.run rate range budget p ramp = (.ok progress, q, ramp') ∧
      q.Sound ∧ q.Rests ramp' progress := by
  induction budget generalizing p ramp with
  | zero => exact ⟨.waiting, _, _, rfl, ⟨h.compiled, h.names, h.trail⟩, rfl, rfl⟩
  | succ budget ih =>
    rw [Player.run]
    have hstep : p.Leads (p.step rate range) := h.step
    cases hturn : p.step rate range with
    | ramp segment q =>
      rw [hturn] at hstep
      obtain ⟨hq, hwaits⟩ := hstep
      by_cases instant : segment.ticks = 0
      · simp only [instant, if_true]
        exact ih hq (hwaits.trans hawaiting) (ramp.toward segment)
      · simp only [instant, if_false]
        refine ⟨.waiting, _, _, rfl, ⟨hq.compiled, hq.names, hq.trail⟩, rfl, ?_⟩
        simp [Ramp.toward, instant]
    | moved q =>
      rw [hturn] at hstep
      exact ih hstep.1 (hstep.2.trans hawaiting) ramp
    | parked =>
      rw [hturn] at hstep
      exact ⟨.suspended, p, ramp, rfl, h, hawaiting, hstep⟩
    | ended =>
      rw [hturn] at hstep
      exact ⟨.done, p, ramp, rfl, h, hawaiting, hstep⟩
    | corrupt fault =>
      rw [hturn] at hstep
      exact hstep.elim

theorem Sound.advance {p : Player} (h : p.Sound) (ramp : Ramp) :
    ∃ progress q ramp', p.advance rate range ramp = (.ok progress, q, ramp') ∧
      q.Sound ∧ q.Rests ramp' progress := by
  have hawait : Sound (p.await none) := ⟨h.compiled, h.names, h.trail⟩
  exact hawait.run rfl moveBudget ramp

/-! ## Triggers -/

theorem sound_load {score : List Score.Node} {program : Program}
    (hcompile : Program.compile score = .ok program) : (load program).Sound :=
  ⟨⟨score, hcompile⟩, rfl, trivial⟩

theorem Sound.restart {p : Player} (h : p.Sound) : p.restart.Sound := by
  refine ⟨h.compiled, h.names, ?_, trivial⟩
  obtain ⟨score, hcompile⟩ := h.compiled
  obtain ⟨ops, hblock, hstands⟩ := Program.stands_of_compile hcompile
  exact ⟨.plain, ops, score, ⟨false, false⟩, hblock, hstands, Nat.zero_le _⟩

theorem trail_dropWhile {program : Program} (q : Mark → Bool) {stack : List Mark}
    (h : program.Trail stack) : program.Trail (stack.dropWhile q) := by
  induction stack with
  | nil => exact h
  | cons mark rest ih =>
    rw [List.dropWhile_cons]
    split
    · exact ih h.2
    · exact h

theorem trail_tail {program : Program} {stack : List Mark} (h : program.Trail stack) :
    program.Trail stack.tail := by
  cases stack with
  | nil => exact h
  | cons mark rest => exact h.2

theorem trail_below {program : Program} (q : Mark → Bool) {stack : List Mark}
    (h : program.Trail stack) : program.Trail (below q stack) := by
  unfold below
  split
  · exact trail_tail (trail_dropWhile _ h)
  · exact h

theorem Sound.release {p : Player} (h : p.Sound) : p.release.Sound := by
  unfold Player.release
  split
  · exact ⟨h.compiled, h.names, trail_below _ h.trail⟩
  · exact h

end Player

end ControlVoltage

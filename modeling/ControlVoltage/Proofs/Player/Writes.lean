import ControlVoltage.Proofs.Player.Guards
import ControlVoltage.Proofs.Program.Writes

/-!
# Writes of a walk

A walk changes the cells of its player by what the formulas store that it evaluates, and by nothing else.
So the cells of a player are explained by a list of writes since its program was loaded.

* `Player.due`, `Player.writes` : the formulas that a move evaluates, and what a walk stores.
* `Player.Recorded` : a player whose cells are explained by a list of writes.
-/

namespace ControlVoltage

/-! ## Walks -/

namespace Player

variable {rate : Rate} {range : Range} {p q : Player}

/-- The formulas that the next move evaluates, in order. -/
def due (p : Player) : List Formula :=
  match p.stack with
  | [] => []
  | mark :: _ =>
    match p.program.blocks[mark.block]? with
    | none => []
    | some block =>
      match block.ops[mark.next]? with
      | some op => p.program.needs op
      | none => []

theorem due_subset (p : Player) : p.due ⊆ p.program.formulas := by
  unfold due
  split
  · exact List.nil_subset _
  · split
    · exact List.nil_subset _
    · rename_i hblock
      split
      · rename_i hop
        exact Program.needs_subset (Array.mem_of_getElem? hblock) (Array.mem_of_getElem? hop)
      · exact List.nil_subset _

theorem push_next {id passes : Nat} (hq : (p.push id passes).next? = some q) :
    q.program = p.program ∧ q.cells = p.cells := by
  unfold push at hq
  split at hq
  · cases hq
  · cases hq
    exact ⟨rfl, rfl⟩

theorem enter_next {id : Nat} (hq : (p.enter id).next? = some q) :
    q.program = p.program ∧
      q.cells = p.cells.writeAll (Formula.writesAll (p.program.needs (.enter id)) p.cells) := by
  unfold enter at hq
  rw [Program.needs]
  cases hblock : p.program.blocks[id]? with
  | none =>
    rw [hblock] at hq
    cases hq
  | some block =>
    obtain ⟨kind, ops⟩ := block
    simp only [hblock] at hq ⊢
    cases kind with
    | when condition =>
      have hcells : (condition.eval p.cells).2 =
          p.cells.writeAll (Formula.writesAll [condition] p.cells) := by
        rw [Formula.writesAll, Formula.writesAll, List.append_nil, Formula.eval_cells]
      show q.program = p.program ∧ q.cells = p.cells.writeAll (Formula.writesAll [condition] p.cells)
      rw [← hcells]
      simp only at hq
      split at hq
      · cases hq
        exact ⟨rfl, rfl⟩
      · exact push_next hq
    | plain => exact push_next hq
    | loop => exact push_next hq
    | times count => exact push_next hq
    | held => exact push_next (p := { p with holding := true }) hq
    | locked => exact push_next (p := { p with locked := true }) hq

theorem finish_next {kind : BlockKind} {mark : Mark} {rest : List Mark}
    (hq : (p.finish kind mark rest).next? = some q) :
    q.program = p.program ∧ q.cells = p.cells := by
  cases kind with
  | times count =>
    rw [finish] at hq
    split at hq <;> cases hq <;> exact ⟨rfl, rfl⟩
  | held =>
    rw [finish] at hq
    split at hq <;> cases hq
    exact ⟨rfl, rfl⟩
  | plain | loop | locked | when condition =>
    cases hq
    exact ⟨rfl, rfl⟩

theorem step_next (hq : (p.step rate range).next? = some q) :
    q.program = p.program ∧ q.cells = p.cells.writeAll (Formula.writesAll p.due p.cells) := by
  unfold step at hq
  unfold due
  cases hstack : p.stack with
  | nil =>
    rw [hstack] at hq
    cases hq
  | cons mark rest =>
    simp only [hstack] at hq ⊢
    cases hblock : p.program.blocks[mark.block]? with
    | none =>
      simp only [hblock] at hq
      cases hq
    | some block =>
      simp only [hblock] at hq ⊢
      cases hop : block.ops[mark.next]? with
      | none =>
        simp only [hop] at hq
        exact finish_next hq
      | some op =>
        simp only [hop] at hq ⊢
        cases op with
        | enter id =>
          exact enter_next (p := { p with stack := { mark with next := mark.next + 1 } :: rest }) hq
        | ramp step =>
          cases hq
          refine ⟨rfl, ?_⟩
          show (step.time.eval (step.volts.eval p.cells).2).2 =
            p.cells.writeAll (step.volts.writes p.cells ++
              (step.time.writes (step.volts.eval p.cells).2 ++ []))
          rw [List.append_nil, Cells.writeAll_append, ← Formula.eval_cells, Formula.eval_cells]

/-- What a walk of up to `budget` moves stores. -/
def writes (rate : Rate) (range : Range) : (budget : Nat) → Player → List Write
  | 0, _ => []
  | budget + 1, p =>
    match p.step rate range with
    | .ramp segment q =>
      Formula.writesAll p.due p.cells ++ if segment.ticks = 0 then writes rate range budget q else []
    | .moved q => Formula.writesAll p.due p.cells ++ writes rate range budget q
    | _ => []

/-- A walk changes the cells by what it stores. -/
theorem run_writes (budget : Nat) (p : Player) (ramp : Ramp) :
    (run rate range budget p ramp).2.1.program = p.program ∧
      (run rate range budget p ramp).2.1.cells = p.cells.writeAll (writes rate range budget p) := by
  induction budget generalizing p ramp with
  | zero => exact ⟨rfl, rfl⟩
  | succ budget ih =>
    have goesOn : ∀ q ramp', (p.step rate range).next? = some q →
        (run rate range budget q ramp').2.1.program = p.program ∧
          (run rate range budget q ramp').2.1.cells =
            p.cells.writeAll (Formula.writesAll p.due p.cells ++ writes rate range budget q) := by
      intro q ramp' hq
      obtain ⟨hprogram, hcells⟩ := step_next hq
      obtain ⟨hprogram', hcells'⟩ := ih q ramp'
      exact ⟨hprogram'.trans hprogram, by rw [hcells', hcells, Cells.writeAll_append]⟩
    rw [Player.run, writes]
    cases hstep : p.step rate range with
    | ramp segment q =>
      have hq : (p.step rate range).next? = some q := by rw [hstep]; rfl
      by_cases instant : segment.ticks = 0
      · simp only [instant, if_true]
        exact goesOn q _ hq
      · simp only [instant, if_false, List.append_nil]
        exact step_next hq
    | moved q => exact goesOn q ramp (by rw [hstep]; rfl)
    | parked | ended | corrupt fault => exact ⟨rfl, rfl⟩

theorem mem_writes {budget : Nat} {w : Write} (h : w ∈ writes rate range budget p) :
    w.source = .formula ∧ p.program.Mutates w.cell := by
  induction budget generalizing p with
  | zero => cases h
  | succ budget ih =>
    have now : w ∈ Formula.writesAll p.due p.cells →
        w.source = .formula ∧ p.program.Mutates w.cell := by
      intro h
      obtain ⟨hsource, f, hf, hcell⟩ := Formula.mem_writesAll h
      exact ⟨hsource, f, p.due_subset hf, hcell⟩
    have later : ∀ {q}, (p.step rate range).next? = some q → w ∈ writes rate range budget q →
        w.source = .formula ∧ p.program.Mutates w.cell := by
      intro q hq h
      rw [← (step_next hq).1]
      exact ih h
    rw [writes] at h
    cases hstep : p.step rate range with
    | ramp segment q =>
      rw [hstep] at h
      rcases List.mem_append.1 h with h | h
      · exact now h
      · split at h
        · exact later (by rw [hstep]; rfl) h
        · cases h
    | moved q =>
      rw [hstep] at h
      rcases List.mem_append.1 h with h | h
      · exact now h
      · exact later (by rw [hstep]; rfl) h
    | parked | ended | corrupt fault =>
      rw [hstep] at h
      cases h

/-! ## Players with a record -/

def walkWrites (rate : Rate) (range : Range) (p : Player) : List Write :=
  writes rate range moveBudget (p.await none)

/-- The player's cells have their declared values, but for these writes. -/
structure Recorded (ws : List Write) (p : Player) : Prop where
  compiled : ∃ score, Program.compile score = .ok p.program
  cells : p.cells = p.program.cells.writeAll ws
  /-- The host writes finite values only. -/
  host : ∀ w ∈ ws, w.source = .host → w.value.isFinite = true
  /-- A formula writes where some `mutate` of the program says. -/
  formula : ∀ w ∈ ws, w.source = .formula → p.program.Mutates w.cell

namespace Recorded

variable {ws : List Write}

theorem load {score : List Score.Node} {program : Program}
    (h : Program.compile score = .ok program) : (load program).Recorded [] :=
  ⟨⟨score, h⟩, rfl, by simp, by simp⟩

theorem congr (h : p.Recorded ws) (hprogram : q.program = p.program) (hcells : q.cells = p.cells) :
    q.Recorded ws := by
  obtain ⟨compiled, cells, host, formula⟩ := h
  rw [← hprogram] at compiled cells formula
  exact ⟨compiled, hcells.trans cells, host, formula⟩

theorem advance (h : p.Recorded ws) (rate : Rate) (range : Range) (ramp : Ramp) :
    (p.advance rate range ramp).2.1.Recorded (ws ++ p.walkWrites rate range) := by
  obtain ⟨hprogram, hcells⟩ : (p.advance rate range ramp).2.1.program = p.program ∧
      (p.advance rate range ramp).2.1.cells = p.cells.writeAll (p.walkWrites rate range) :=
    run_writes moveBudget (p.await none) ramp
  constructor
  · rw [hprogram]
    exact h.compiled
  · rw [hcells, hprogram, Cells.writeAll_append, ← h.cells]
  · intro w hw hsource
    rcases List.mem_append.1 hw with hw | hw
    · exact h.host w hw hsource
    · cases hsource.symm.trans (mem_writes hw).1
  · intro w hw hsource
    rw [hprogram]
    rcases List.mem_append.1 hw with hw | hw
    · exact h.formula w hw hsource
    · exact (mem_writes hw).2

theorem set (h : p.Recorded ws) (i : Nat) {value : Float32} (finite : value.isFinite = true) :
    Recorded (ws ++ [⟨i, value, .host⟩]) { p with cells := p.cells.set i value } := by
  constructor
  · exact h.compiled
  · rw [Cells.writeAll_concat, ← h.cells]
  · intro w hw hsource
    rcases List.mem_append.1 hw with hw | hw
    · exact h.host w hw hsource
    · rw [List.mem_singleton.1 hw]
      exact finite
  · intro w hw hsource
    rcases List.mem_append.1 hw with hw | hw
    · exact h.formula w hw hsource
    · rw [List.mem_singleton.1 hw] at hsource
      cases hsource

theorem restart (h : p.Recorded ws) : p.restart.Recorded ws := h.congr rfl rfl

theorem release (h : p.Recorded ws) : p.release.Recorded ws := by
  unfold Player.release
  split
  · exact h.congr rfl rfl
  · exact h

theorem get (h : p.Recorded ws) {i : Nat} (hi : i < p.cells.size) :
    p.cells.get i = ((Write.last? i ws).map Write.value).getD (p.program.cells.get i) ∧
      ((p.cells.get i).isFinite = false ↔ ∃ w ∈ Write.last? i ws,
        w.source = .formula ∧ w.value.isFinite = false ∧ p.program.Mutates i) := by
  obtain ⟨score, hcompile⟩ := h.compiled
  have hget : p.cells.get i =
      ((Write.last? i ws).map Write.value).getD (p.program.cells.get i) := by
    rw [h.cells, Cells.size_writeAll] at hi
    conv => lhs; rw [h.cells, Cells.get_writeAll hi]
  refine ⟨hget, ?_⟩
  rw [hget]
  cases hlast : Write.last? i ws with
  | none =>
    have declared := Program.finite_of_compile hcompile i
    simp [declared]
  | some w =>
    obtain ⟨hw, hcell⟩ := Write.mem_of_last? hlast
    cases hsource : w.source with
    | host =>
      have finite := h.host w hw hsource
      simp [finite, hsource]
    | formula =>
      have mutates : p.program.Mutates i := hcell ▸ h.formula w hw hsource
      simp [hsource, mutates]

end Recorded

end Player

end ControlVoltage

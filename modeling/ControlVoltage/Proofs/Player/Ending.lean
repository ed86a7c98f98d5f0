import ControlVoltage.Proofs.Player.Guards

/-!
# Running off the end of a program

A walk runs off the end when it makes a move with no mark left. Up to then it makes moves that take no
time, one after the other.

* `Player.next?` : the player after a move that takes no time.
* `Player.RunsOff` : within its moves, the walk gets to where no mark is left, with a move to spare.
* `run_eq_done_iff` : such a walk comes to its end, and no other does.
* `Player.inLoop` : inside a block that is repeated without an end; `inLoop_run`, a walk stays in it.
-/

namespace ControlVoltage.Player

variable {rate : Rate} {range : Range} {p q : Player}

/-! ## Moves that take no time -/

theorem run_succ (budget : Nat) (p : Player) (ramp : Ramp) :
    run rate range (budget + 1) p ramp =
      match p.step rate range with
      | .ramp segment p =>
        let ramp := ramp.toward segment
        if segment.ticks = 0 then run rate range budget p ramp
        else (.ok .waiting, { p with awaiting := some ramp.generation }, ramp)
      | .moved p => run rate range budget p ramp
      | .parked => (.ok .suspended, p, ramp)
      | .ended => (.ok .done, p, ramp)
      | .corrupt fault => (.error fault, p, ramp) := rfl

theorem step_eq_ended_iff (p : Player) : p.step rate range = .ended ↔ p.stack = [] := by
  constructor
  · intro hended
    have effect : p.Effect (p.step rate range) := p.step_effect
    rw [hended] at effect
    cases effect with
    | ended hstack => exact hstack
  · intro hstack
    simp [step, hstack]

/-- The player after a move that takes no time. -/
def next? (rate : Rate) (range : Range) (p : Player) : Option Player :=
  match p.step rate range with
  | .ramp segment q => if segment.ticks = 0 then some q else none
  | .moved q => some q
  | _ => none

def nextAfter (rate : Rate) (range : Range) : Nat → Player → Option Player
  | 0, p => some p
  | n + 1, p => (p.next? rate range).bind (nextAfter rate range n)

/-- Within so many moves, the walk makes one with no mark left. -/
def RunsOff (rate : Rate) (range : Range) (budget : Nat) (p : Player) : Prop :=
  ∃ n < budget, ∃ q, nextAfter rate range n p = some q ∧ q.stack = []

theorem runsOff_succ_of_next {budget : Nat} (hne : p.stack ≠ []) (h : p.next? rate range = some q) :
    p.RunsOff rate range (budget + 1) ↔ q.RunsOff rate range budget := by
  constructor
  · rintro ⟨n, hn, r, hr, hstack⟩
    cases n with
    | zero =>
      cases hr
      exact absurd hstack hne
    | succ n =>
      rw [nextAfter, h] at hr
      exact ⟨n, Nat.lt_of_succ_lt_succ hn, r, hr, hstack⟩
  · rintro ⟨n, hn, r, hr, hstack⟩
    refine ⟨n + 1, Nat.succ_lt_succ hn, r, ?_, hstack⟩
    rw [nextAfter, h]
    exact hr

theorem not_runsOff_of_next {budget : Nat} (hne : p.stack ≠ []) (h : p.next? rate range = none) :
    ¬ p.RunsOff rate range budget := by
  rintro ⟨n, -, r, hr, hstack⟩
  cases n with
  | zero =>
    cases hr
    exact hne hstack
  | succ n =>
    rw [nextAfter, h] at hr
    cases hr

/-- A walk comes to its end exactly if it runs off the end of its program. -/
theorem run_eq_done_iff (budget : Nat) (p : Player) (ramp : Ramp) :
    (run rate range budget p ramp).1 = .ok .done ↔ p.RunsOff rate range budget := by
  induction budget generalizing p ramp with
  | zero => exact ⟨fun h => by simp [run] at h, fun ⟨n, hn, _⟩ => absurd hn (Nat.not_lt_zero n)⟩
  | succ budget ih =>
    by_cases hstack : p.stack = []
    · have hended : p.step rate range = .ended := (step_eq_ended_iff p).2 hstack
      rw [run_succ, hended]
      exact ⟨fun _ => ⟨0, Nat.succ_pos _, p, rfl, hstack⟩, fun _ => rfl⟩
    · have hnot : p.step rate range ≠ .ended := mt (step_eq_ended_iff p).1 hstack
      rw [run_succ]
      cases hturn : p.step rate range with
      | ramp segment q =>
        simp only
        split
        · rename_i hticks
          have hnext : p.next? rate range = some q := by simp only [next?, hturn, if_pos hticks]
          rw [ih, runsOff_succ_of_next hstack hnext]
        · rename_i hticks
          have hnext : p.next? rate range = none := by simp only [next?, hturn, if_neg hticks]
          exact ⟨fun h => by simp at h, fun h => absurd h (not_runsOff_of_next hstack hnext)⟩
      | moved q =>
        have hnext : p.next? rate range = some q := by simp only [next?, hturn]
        simp only
        rw [ih, runsOff_succ_of_next hstack hnext]
      | ended => exact absurd hturn hnot
      | parked | corrupt fault =>
        have hnext : p.next? rate range = none := by simp only [next?, hturn]
        exact ⟨fun h => by simp at h, fun h => absurd h (not_runsOff_of_next hstack hnext)⟩

/-! ## Loops -/

/-- Inside a block that is repeated without an end. -/
def inLoop (p : Player) : Bool := p.stack.any (p.program.isAt .loop)

theorem stack_ne_nil_of_inLoop (h : p.inLoop = true) : p.stack ≠ [] := by
  intro hstack
  simp [inLoop, hstack] at h

theorem inLoop_push {id passes : Nat} (h : p.inLoop = true)
    (hq : (p.push id passes).next? = some q) : q.inLoop = true := by
  unfold push at hq
  split at hq
  · cases hq
  · cases hq
    obtain ⟨mark, hmark, hloop⟩ := List.any_eq_true.1 h
    exact List.any_eq_true.2 ⟨mark, List.mem_cons_of_mem _ hmark, hloop⟩

theorem inLoop_enter {id : Nat} (h : p.inLoop = true) (hq : (p.enter id).next? = some q) :
    q.inLoop = true := by
  have changed : ∀ cells holding locked passes,
      (({ p with cells, holding, locked } : Player).push id passes).next? = some q →
        q.inLoop = true :=
    fun cells holding locked _ => inLoop_push (p := { p with cells, holding, locked }) h
  unfold enter at hq
  split at hq
  · cases hq
  · split at hq
    · exact changed _ _ _ _ hq
    · exact changed _ _ _ _ hq
    · exact changed _ _ _ _ hq
    · exact changed _ _ _ _ hq
    · exact changed _ _ _ _ hq
    · simp only at hq
      split at hq
      · cases hq
        exact h
      · exact changed _ _ _ _ hq

theorem inLoop_finish {mark : Mark} {rest : List Mark} {kind : BlockKind} {ops : Array Op}
    (h : p.inLoop = true) (hstack : p.stack = mark :: rest)
    (hblock : p.program.blocks[mark.block]? = some ⟨kind, ops⟩)
    (hq : (p.finish kind mark rest).next? = some q) : q.inLoop = true := by
  have hmark : p.program.isAt .loop mark = decide (kind = .loop) := Program.isAt_of_block hblock .loop
  rw [inLoop, hstack, List.any_cons, hmark, Bool.or_eq_true, decide_eq_true_eq] at h
  -- A mark is only dropped with a block that is not repeated without an end.
  have dropped : kind ≠ .loop → rest.any (p.program.isAt .loop) = true := h.resolve_left
  have kept : ∀ mark' : Mark, mark'.block = mark.block →
      (mark' :: rest).any (p.program.isAt .loop) = true := by
    intro mark' hsame
    rw [List.any_cons, Program.isAt_congr hsame, hmark, Bool.or_eq_true, decide_eq_true_eq]
    exact h
  unfold finish at hq
  split at hq
  · cases hq
    exact dropped (by simp)
  · cases hq
    exact kept _ rfl
  · split at hq
    · cases hq
      exact kept _ rfl
    · cases hq
      exact dropped (by simp)
  · split at hq
    · cases hq
    · cases hq
      exact dropped (by simp)
  · cases hq
    exact dropped (by simp)
  · cases hq
    exact dropped (by simp)

theorem inLoop_step (h : p.inLoop = true) (hq : (p.step rate range).next? = some q) :
    q.inLoop = true := by
  obtain ⟨mark, rest, hstack⟩ := List.exists_cons_of_ne_nil (stack_ne_nil_of_inLoop h)
  have past : ∀ cells, ({ p with cells, stack := past mark :: rest } : Player).inLoop = true := by
    intro cells
    rw [inLoop, hstack] at h
    exact h
  simp only [step, hstack] at hq
  cases hblock : p.program.blocks[mark.block]? with
  | none =>
    rw [hblock] at hq
    cases hq
  | some block =>
    obtain ⟨kind, ops⟩ := block
    simp only [hblock] at hq
    cases hop : ops[mark.next]? with
    | none =>
      rw [hop] at hq
      exact inLoop_finish h hstack hblock hq
    | some op =>
      rw [hop] at hq
      cases op with
      | ramp step =>
        cases hq
        exact past _
      | enter id => exact inLoop_enter (past p.cells) hq

theorem inLoop_run (rate : Rate) (range : Range) (budget : Nat) (ramp : Ramp)
    (h : p.inLoop = true) :
    (run rate range budget p ramp).2.1.inLoop = true ∧
      (run rate range budget p ramp).1 ≠ .ok .done := by
  induction budget generalizing p ramp with
  | zero => exact ⟨h, by simp [run]⟩
  | succ budget ih =>
    rw [run_succ]
    have hnext : ∀ q, (p.step rate range).next? = some q → q.inLoop = true :=
      fun q hq => inLoop_step h hq
    have hnot : p.step rate range ≠ .ended := mt (step_eq_ended_iff p).1 (stack_ne_nil_of_inLoop h)
    cases hturn : p.step rate range with
    | ramp segment q =>
      rw [hturn] at hnext
      simp only
      split
      · exact ih _ (hnext q rfl)
      · exact ⟨hnext q rfl, by simp⟩
    | moved q =>
      rw [hturn] at hnext
      exact ih _ (hnext q rfl)
    | ended => exact absurd hturn hnot
    | parked => exact ⟨h, by simp⟩
    | corrupt fault => exact ⟨h, by simp⟩

end ControlVoltage.Player

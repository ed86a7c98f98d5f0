import ControlVoltage.Proofs.Player.Guards
import ControlVoltage.Proofs.Program.ReadBack
import Mathlib.Data.List.Chain

/-!
# Stacks that fit their program

The compiler counts how deep blocks are nested, and the stack of a player has room for as many marks.
That this is enough rests on what a stack looks like: a way from the root of the program to a block,
along the operations that were made last.

* `Program.Closed` : every block that an operation enters is there; `closed_of_compile`.
* `Program.Fits` : what a stack looks like.
* `Player.Fits.step` : one move keeps it.
* `Player.Meets` : what a walk can come by, however long it goes on.
* `Player.Incorrupt` : a stack that fits a compiled program; no walk from it ever fails.
* `Player.Unstarted` : where a player starts.
-/

namespace ControlVoltage

namespace Program

/-- Every block that an operation enters is there. -/
def Closed (program : Program) : Prop :=
  ∀ block ∈ program.blocks, ∀ id, .enter id ∈ block.ops → id < program.blocks.size

theorem closed_of_compile {score : List Score.Node} {program : Program}
    (h : compile score = .ok program) : program.Closed := by
  obtain ⟨-, ops, blocks, hblocks, laid⟩ := compile_eq_ok_iff.1 h
  have hsize : program.blocks.size = blocks.length + 1 := by simp [hblocks]
  intro block hblock id hid
  have target : id ∈ Op.targets ops ∨ id ∈ Block.targets blocks := by
    rw [hblocks, List.mem_toArray, List.mem_cons] at hblock
    rw [← Array.mem_toList_iff, ← Op.mem_targets] at hid
    rcases hblock with rfl | hblock
    · exact .inl hid
    · exact .inr (Block.mem_targets.2 ⟨block, hblock, hid⟩)
  have := laid.mem_targets_iff.1 target
  omega

/-- The operation just before the place of the mark `below` enters the block of `mark`. -/
def Entered (program : Program) (mark below : Mark) : Prop :=
  ∃ block n, program.blocks[below.block]? = some block ∧ below.next = n + 1 ∧
    block.ops[n]? = some (.enter mark.block)

/-- The stack is a way from the root of the program to a block. -/
structure Fits (program : Program) (stack : List Mark) : Prop where
  /-- Every block is there. -/
  blocks : ∀ mark ∈ stack, mark.block < program.blocks.size
  /-- The lowest mark is in the root. -/
  root : ∀ mark ∈ stack.getLast?, mark.block = 0
  /-- The block of a mark was entered by the operation just before the place of the one below. -/
  entered : stack.IsChain program.Entered
  /-- There is room for all marks. -/
  depth : stack.length ≤ maxDepth

variable {program : Program} {stack rest inner outer : List Mark} {mark : Mark}

theorem fits_nil : program.Fits [] :=
  ⟨by simp, by simp, .nil, Nat.zero_le _⟩

theorem Fits.top (h : program.Fits (mark :: rest)) {mark' : Mark} (same : mark'.block = mark.block) :
    program.Fits (mark' :: rest) := by
  obtain ⟨blocks, root, entered, depth⟩ := h
  refine ⟨?_, ?_, ?_, depth⟩
  · rw [List.forall_mem_cons, same]
    exact List.forall_mem_cons.1 blocks
  · cases rest with
    | nil => simpa [same] using root
    | cons below rest => simpa using root
  · cases rest with
    | nil => exact .singleton _
    | cons below rest =>
      rw [List.isChain_cons_cons] at entered ⊢
      obtain ⟨⟨block, n, hblock, hnext, hop⟩, hrest⟩ := entered
      exact ⟨⟨block, n, hblock, hnext, by rw [same]; exact hop⟩, hrest⟩

theorem Fits.of_append (h : program.Fits (inner ++ outer)) : program.Fits outer := by
  obtain ⟨blocks, root, entered, depth⟩ := h
  refine ⟨fun mark hmark => blocks mark (List.mem_append_right _ hmark), ?_,
    entered.right_of_append, ?_⟩
  · intro mark hmark
    refine root mark ?_
    rw [List.getLast?_append]
    simp_all
  · rw [List.length_append] at depth
    omega

theorem Fits.push {kind : BlockKind} {ops : Array Op} {id : Nat}
    (h : program.Fits (mark :: rest)) (hblock : program.blocks[mark.block]? = some ⟨kind, ops⟩)
    (hop : ops[mark.next]? = some (.enter id)) (hid : id < program.blocks.size)
    (hdepth : rest.length + 1 < maxDepth) (passes : Nat) :
    program.Fits (⟨id, 0, passes⟩ :: Player.past mark :: rest) := by
  obtain ⟨blocks, root, entered, -⟩ : program.Fits (Player.past mark :: rest) := h.top rfl
  refine ⟨List.forall_mem_cons.2 ⟨hid, blocks⟩, by simpa using root, ?_, ?_⟩
  · exact List.isChain_cons_cons.2 ⟨⟨⟨kind, ops⟩, mark.next, hblock, rfl, hop⟩, entered⟩
  · simp only [List.length_cons]
    omega

end Program

namespace Player

variable {rate : Rate} {range : Range} {p q : Player}

def Fits (p : Player) : Prop := p.program.Fits p.stack

theorem Fits.effect (h : p.Fits) {turn : Turn} (effect : p.Effect turn)
    (hq : turn.next? = some q) : q.program = p.program ∧ q.Fits := by
  have stack : ∀ {mark : Mark} {rest : List Mark}, p.stack = mark :: rest →
      p.program.Fits (mark :: rest) := fun hstack => hstack ▸ h
  cases effect with
  | ramp segment cells hstack =>
    cases hq
    exact ⟨rfl, (stack hstack).top rfl⟩
  | skipped cells hstack =>
    cases hq
    exact ⟨rfl, (stack hstack).top rfl⟩
  | entered cells id passes hstack hblock hop hbody hdepth =>
    cases hq
    obtain ⟨hid, -⟩ := Array.getElem?_eq_some_iff.1 hbody
    exact ⟨rfl, (stack hstack).push hblock hop hid hdepth passes⟩
  | again passes hstack =>
    cases hq
    exact ⟨rfl, (stack hstack).top rfl⟩
  | @left mark rest kind ops hstack =>
    cases hq
    have whole : p.program.Fits ([mark] ++ rest) := stack hstack
    exact ⟨rfl, whole.of_append⟩
  | parked | ended | corrupt => cases hq

theorem Fits.step (h : p.Fits) (hq : (p.step rate range).next? = some q) :
    q.program = p.program ∧ q.Fits :=
  h.effect p.step_effect hq

theorem Fits.advance (h : p.Fits) (ramp : Ramp) :
    (p.advance rate range ramp).2.1.program = p.program ∧ (p.advance rate range ramp).2.1.Fits := by
  have keeps : ∀ p' q' : Player, p'.program = p.program ∧ p'.Fits →
      (p'.step rate range).next? = some q' → q'.program = p.program ∧ q'.Fits := by
    rintro p' q' ⟨hprogram, hfits⟩ hq
    obtain ⟨hprogram', hfits'⟩ := hfits.step hq
    exact ⟨hprogram'.trans hprogram, hfits'⟩
  have start : (p.await none).program = p.program ∧ (p.await none).Fits := ⟨rfl, h⟩
  exact run_keeps keeps (fun _ _ h => h) start moveBudget ramp

/-! ## Triggers -/

theorem Sound.fits_restart (h : p.Sound) : p.restart.Fits := by
  obtain ⟨score, hcompile⟩ := h.compiled
  obtain ⟨ops, hblock, -⟩ := Program.stands_of_compile hcompile
  obtain ⟨hroot, -⟩ := Array.getElem?_eq_some_iff.1 hblock
  show p.program.Fits [⟨0, 0, 0⟩]
  exact ⟨by simpa using hroot, by simp, .singleton _, by decide⟩

theorem Fits.release (h : p.Fits) : p.release.Fits := by
  unfold Player.release
  split
  · show p.program.Fits (below p.isHeldMark p.stack)
    cases hany : p.stack.any p.isHeldMark with
    | false =>
      rw [below, hany]
      exact h
    | true =>
      obtain ⟨inner, mark, outer, hstack, -, -, hbelow⟩ := below_eq hany
      rw [hbelow]
      have whole : p.program.Fits ((inner ++ [mark]) ++ outer) := by
        rw [List.append_assoc, List.singleton_append, ← hstack]
        exact h
      exact whole.of_append
  · exact h

/-! ## Walks -/

theorem Sound.next (h : p.Sound) (hq : (p.step rate range).next? = some q) : q.Sound := by
  have leads : p.Leads (p.step rate range) := h.step
  cases hturn : p.step rate range with
  | ramp segment q' =>
    rw [hturn] at leads hq
    cases hq
    exact leads.1
  | moved q' =>
    rw [hturn] at leads hq
    cases hq
    exact leads.1
  | parked | ended | corrupt fault =>
    rw [hturn] at hq
    cases hq

/-- A walk from `p` can come by `q`. -/
def Meets (rate : Rate) (range : Range) : Player → Player → Prop :=
  Relation.ReflTransGen fun p q => (p.step rate range).next? = some q

/-- A player of a compiled program, with a stack that fits it. -/
structure Incorrupt (p : Player) : Prop where
  sound : p.Sound
  fits : p.Fits

namespace Incorrupt

theorem step_ne_corrupt (h : p.Incorrupt) (fault : Corruption) :
    p.step rate range ≠ .corrupt fault := by
  intro hturn
  have leads : p.Leads (p.step rate range) := h.sound.step
  rw [hturn] at leads
  exact leads

/-- However long a walk goes on, the stack fits. -/
theorem meets (h : p.Incorrupt) (hmeets : p.Meets rate range q) : q.Incorrupt := by
  induction hmeets with
  | refl => exact h
  | tail _ hstep ih => exact ⟨ih.sound.next hstep, (ih.fits.step hstep).2⟩

theorem advance (h : p.Incorrupt) (rate : Rate) (range : Range) (ramp : Ramp) :
    ∃ progress q ramp', p.advance rate range ramp = (.ok progress, q, ramp') ∧
      q.program = p.program ∧ q.Incorrupt := by
  obtain ⟨progress, q, ramp', hadvance, hq, -⟩ :
      ∃ progress q ramp', p.advance rate range ramp = (.ok progress, q, ramp') ∧ q.Sound ∧ _ :=
    h.sound.advance ramp
  obtain ⟨hprogram, hfits⟩ : (p.advance rate range ramp).2.1.program = p.program ∧ _ :=
    h.fits.advance ramp
  rw [hadvance] at hprogram hfits
  exact ⟨progress, q, ramp', hadvance, hprogram, hq, hfits⟩

theorem restart (h : p.Incorrupt) : p.restart.Incorrupt := ⟨h.sound.restart, h.sound.fits_restart⟩

theorem release (h : p.Incorrupt) : p.release.Incorrupt := ⟨h.sound.release, h.fits.release⟩

theorem congr (h : p.Incorrupt) (hprogram : q.program = p.program)
    (hcells : q.cells.names = p.cells.names) (hstack : q.stack = p.stack) : q.Incorrupt := by
  obtain ⟨⟨compiled, names, trail⟩, fits⟩ := h
  rw [Fits] at fits
  rw [← hprogram] at compiled names trail fits
  rw [← hcells] at names
  rw [← hstack] at trail fits
  exact ⟨⟨compiled, names, trail⟩, fits⟩

end Incorrupt

/-- A player of a compiled program that has not been started. Its cells may hold anything. -/
structure Unstarted (p : Player) : Prop where
  compiled : ∃ score, Program.compile score = .ok p.program
  names : p.cells.names = p.program.cells.names
  stack : p.stack = []

theorem unstarted_load {score : List Score.Node} {program : Program}
    (h : Program.compile score = .ok program) : (load program).Unstarted :=
  ⟨⟨score, h⟩, rfl, rfl⟩

theorem Unstarted.incorrupt (h : p.Unstarted) : p.Incorrupt := by
  refine ⟨⟨h.compiled, h.names, ?_⟩, ?_⟩
  · rw [h.stack]
    trivial
  · rw [Fits, h.stack]
    exact Program.fits_nil

end Player

end ControlVoltage

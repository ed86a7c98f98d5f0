import ControlVoltage.Proofs.Player.Trail
import Mathlib.Logic.Relation

/-!
# Holding and locked players

The flags of a player say what kinds of block its stack is inside of. A score has no held node in a
held one and no lock in a lock, so that the stack has at most one mark of either kind.

* `Player.Effect` : all that a move can do to the stack and to the flags.
* `Program.Path` : a stack whose marks are nested as the nodes of the score are.
* `Player.Guarded` : the flags agree with such a stack.
* `Player.handovers` : the segments of a walk, each with the stack that it comes from.
* `Player.Inside` : a player that is kept in a held block, and what it hands over from there.
-/

namespace ControlVoltage

open Program (Stands StandAll)

/-! ## Places -/

namespace Program

def isAt (program : Program) (kind : BlockKind) (mark : Mark) : Bool :=
  program.blocks[mark.block]?.any fun block => block.kind = kind

def around (program : Program) (stack : List Mark) : Nesting :=
  ⟨stack.any (program.isAt .held), stack.any (program.isAt .locked)⟩

/-- An operation of block `a` enters block `b`. -/
def Enters (program : Program) (a b : Nat) : Prop :=
  ∃ block, program.blocks[a]? = some block ∧ .enter b ∈ block.ops

/-- Block `b` is block `a` or lies in it, at any distance. -/
def Encloses (program : Program) : Nat → Nat → Prop := Relation.ReflTransGen program.Enters

def inside (around : Nesting) (kind : BlockKind) : Nesting :=
  ⟨kind = .held || around.held, kind = .locked || around.locked⟩

/-- A block of this kind may stand here: there is no held node in a held one and no lock in a
lock. -/
def Admits (around : Nesting) (kind : BlockKind) : Prop :=
  (kind = .held → around.held = false) ∧ (kind = .locked → around.locked = false)

/-- Each mark is in a block that is entered from the block of the mark below it, and stands where
the marks below it say. -/
def Path (program : Program) : List Mark → Prop
  | [] => True
  | mark :: rest =>
    (∃ kind ops nodes, program.blocks[mark.block]? = some ⟨kind, ops⟩ ∧
      Admits (program.around rest) kind ∧
      program.StandAll (rest.length + 2) (inside (program.around rest) kind) nodes ops.toList) ∧
      (∀ below ∈ rest.head?, program.Enters below.block mark.block) ∧ program.Path rest

variable {program : Program} {mark : Mark} {rest stack inner outer : List Mark} {kind : BlockKind}
  {ops : Array Op}

theorem isAt_of_block (h : program.blocks[mark.block]? = some ⟨kind, ops⟩) (kind' : BlockKind) :
    program.isAt kind' mark = decide (kind = kind') := by
  simp [isAt, h]

theorem isAt_congr {mark' : Mark} (h : mark'.block = mark.block) (kind : BlockKind) :
    program.isAt kind mark' = program.isAt kind mark := by
  simp only [isAt, h]

theorem around_cons (h : program.blocks[mark.block]? = some ⟨kind, ops⟩) (rest : List Mark) :
    program.around (mark :: rest) = inside (program.around rest) kind := by
  simp only [around, inside, List.any_cons, isAt_of_block h]

theorem around_top {mark' : Mark} (h : mark'.block = mark.block) (rest : List Mark) :
    program.around (mark' :: rest) = program.around (mark :: rest) := by
  simp only [around, List.any_cons, isAt_congr h]

theorem Stands.entered {depth : Nat} {around : Nesting} {node : Score.Node} {id : Nat}
    (h : program.Stands depth around node (.enter id)) :
    ∃ kind ops nodes, program.blocks[id]? = some ⟨kind, ops⟩ ∧ Admits around kind ∧
      program.StandAll (depth + 1) (inside around kind) nodes ops.toList := by
  have opens : ∀ {kind : BlockKind} {nodes : List Score.Node}, Admits around kind →
      program.Opens depth kind (.enter id)
        (program.StandAll (depth + 1) (inside around kind) nodes) →
      ∃ kind ops nodes, program.blocks[id]? = some ⟨kind, ops⟩ ∧ Admits around kind ∧
        program.StandAll (depth + 1) (inside around kind) nodes ops.toList := by
    rintro kind nodes admits ⟨id', ops, hid, -, hblock, hinside⟩
    cases hid
    exact ⟨kind, ops, nodes, hblock, admits, hinside⟩
  cases node with
  | ramp volts time tag =>
    obtain ⟨v, t, curve, -, -, -, hop⟩ := h
    cases hop
  | seq body => exact opens (by simp [Admits]) h
  | loop body => exact opens (by simp [Admits]) h
  | held body => exact opens (by simp [Admits, h.1]) h.2
  | lock body => exact opens (by simp [Admits, h.1]) h.2
  | times count body => exact opens (by simp [Admits]) h.2
  | when condition body =>
    obtain ⟨c, -, h⟩ := h
    exact opens (by simp [Admits]) h

/-! ## Paths -/

theorem Path.top {mark' : Mark} (h : program.Path (mark :: rest))
    (same : mark'.block = mark.block) : program.Path (mark' :: rest) := by
  obtain ⟨hmark, hlink, hrest⟩ := h
  rw [← same] at hmark hlink
  exact ⟨hmark, hlink, hrest⟩

theorem Path.push (h : program.Path (mark :: rest))
    (hblock : program.blocks[mark.block]? = some ⟨kind, ops⟩) {next : Mark}
    (hop : .enter next.block ∈ ops) : program.Path (next :: mark :: rest) := by
  obtain ⟨⟨kind', ops', nodes, hblock', -, stands⟩, -, -⟩ := id h
  cases hblock.symm.trans hblock'
  obtain ⟨i, hi, hget⟩ := Array.mem_iff_getElem.1 hop
  have hat : ops.toList[i]? = some (.enter next.block) := by simp [hi, hget]
  obtain ⟨node, hnode⟩ := stands.mem hat
  rw [← around_cons hblock] at hnode
  obtain ⟨inner, body, nodes', hinner, admits, hbody⟩ := hnode.entered
  refine ⟨⟨inner, body, nodes', hinner, admits, hbody⟩, fun below hbelow => ?_, h⟩
  cases hbelow
  exact ⟨_, hblock, hop⟩

theorem Path.of_append (h : program.Path (inner ++ outer)) : program.Path outer := by
  induction inner with
  | nil => exact h
  | cons mark inner ih => exact ih h.2.2

theorem Path.encloses {top : Mark} (h : program.Path (top :: (inner ++ mark :: outer))) :
    program.Encloses mark.block top.block := by
  induction inner generalizing top with
  | nil => exact .single (h.2.1 mark rfl)
  | cons next inner ih => exact (ih h.2.2).tail (h.2.1 next rfl)

theorem Path.countP_le {kind : BlockKind} (hkind : kind = .held ∨ kind = .locked)
    (h : program.Path stack) : stack.countP (program.isAt kind) ≤ 1 := by
  induction stack with
  | nil => exact Nat.zero_le 1
  | cons mark rest ih =>
    obtain ⟨⟨kind', ops, nodes, hblock, admits, -⟩, -, hrest⟩ := h
    rw [List.countP_cons, isAt_of_block hblock]
    by_cases same : kind' = kind
    · subst same
      -- What is around the block admits it, so there is none of its kind below.
      have none : rest.any (program.isAt kind') = false := by
        rcases hkind with rfl | rfl
        · exact admits.1 rfl
        · exact admits.2 rfl
      have hzero : rest.countP (program.isAt kind') = 0 := by
        rw [List.countP_eq_zero]
        simpa using none
      simp [hzero]
    · simpa [same] using ih hrest

end Program

namespace Player

/-! ## Moves -/

/-- All that a move can do to the stack and to the flags. -/
inductive Effect (p : Player) : Turn → Prop
  /-- Past a ramp, which is handed over. -/
  | ramp {mark : Mark} {rest : List Mark} {kind : BlockKind} {ops : Array Op} {step : Step}
      (segment : Segment) (cells : Cells) (hstack : p.stack = mark :: rest)
      (hblock : p.program.blocks[mark.block]? = some ⟨kind, ops⟩)
      (hop : ops[mark.next]? = some (.ramp step)) :
      Effect p (.ramp segment { p with cells, stack := past mark :: rest })
  /-- Past a block whose condition is not met. -/
  | skipped {mark : Mark} {rest : List Mark} (cells : Cells) (hstack : p.stack = mark :: rest) :
      Effect p (.moved { p with cells, stack := past mark :: rest })
  /-- Into a block, where the stack is not too high for another mark. -/
  | entered {mark : Mark} {rest : List Mark} {kind inner : BlockKind} {ops body : Array Op}
      (cells : Cells) (id passes : Nat) (hstack : p.stack = mark :: rest)
      (hblock : p.program.blocks[mark.block]? = some ⟨kind, ops⟩)
      (hop : ops[mark.next]? = some (.enter id))
      (hbody : p.program.blocks[id]? = some ⟨inner, body⟩)
      (hdepth : rest.length + 1 < Program.maxDepth) :
      Effect p (.moved { p with
        cells
        holding := inner = .held || p.holding
        locked := inner = .locked || p.locked
        stack := ⟨id, 0, passes⟩ :: past mark :: rest })
  /-- Back to the top of a block, for another pass. -/
  | again {mark : Mark} {rest : List Mark} {kind : BlockKind} {ops : Array Op} (passes : Nat)
      (hstack : p.stack = mark :: rest)
      (hblock : p.program.blocks[mark.block]? = some ⟨kind, ops⟩) (hkind : kind ≠ .held) :
      Effect p (.moved { p with stack := { mark with next := 0, passes } :: rest })
  | left {mark : Mark} {rest : List Mark} {kind : BlockKind} {ops : Array Op}
      (hstack : p.stack = mark :: rest)
      (hblock : p.program.blocks[mark.block]? = some ⟨kind, ops⟩)
      (hfree : kind = .held → p.holding = false) :
      Effect p (.moved { p with locked := p.locked && !decide (kind = .locked), stack := rest })
  | parked : Effect p .parked
  | ended (hstack : p.stack = []) : Effect p .ended
  | corrupt (fault : Corruption) : Effect p (.corrupt fault)

variable {rate : Rate} {range : Range}

theorem effect_enter {p : Player} {mark : Mark} {rest : List Mark} {kind : BlockKind}
    {ops : Array Op} (hstack : p.stack = mark :: rest)
    (hblock : p.program.blocks[mark.block]? = some ⟨kind, ops⟩) {id : Nat}
    (hop : ops[mark.next]? = some (.enter id)) :
    p.Effect ({ p with stack := past mark :: rest }.enter id) := by
  unfold enter
  cases hbody : p.program.blocks[id]? with
  | none => exact .corrupt _
  | some block =>
    obtain ⟨inner, body⟩ := block
    have pushes : ∀ (cells : Cells) (passes : Nat),
        p.Effect (Player.push { p with
          cells
          holding := inner = .held || p.holding
          locked := inner = .locked || p.locked
          stack := past mark :: rest } id passes) := by
      intro cells passes
      unfold push
      split
      · exact .corrupt _
      · rename_i shallow
        exact .entered cells id passes hstack hblock hop hbody (Nat.not_le.1 shallow)
    cases inner with
    | when condition =>
      simp only
      split
      · exact .skipped _ hstack
      · simpa using pushes (condition.eval p.cells).2 0
    | times count => simpa using pushes p.cells count
    | _ => simpa using pushes p.cells 0

theorem effect_finish {p : Player} {mark : Mark} {rest : List Mark} {kind : BlockKind}
    {ops : Array Op} (hstack : p.stack = mark :: rest)
    (hblock : p.program.blocks[mark.block]? = some ⟨kind, ops⟩) :
    p.Effect (p.finish kind mark rest) := by
  have leaves : (kind = .held → p.holding = false) →
      p.Effect (.moved { p with locked := p.locked && !decide (kind = .locked), stack := rest }) :=
    .left hstack hblock
  cases kind with
  | loop => exact .again mark.passes hstack hblock (by simp)
  | times count =>
    simp only [finish]
    split
    · exact .again _ hstack hblock (by simp)
    · simpa using leaves
  | held =>
    simp only [finish]
    split
    · exact .parked
    · rename_i free
      simpa using leaves fun _ => by simpa using free
  | plain => simpa [finish] using leaves
  | locked => simpa [finish] using leaves
  | when condition => simpa [finish] using leaves

/-- There is nothing else that a move can do. -/
theorem step_effect (p : Player) : p.Effect (p.step rate range) := by
  unfold step
  cases hstack : p.stack with
  | nil => exact .ended hstack
  | cons mark rest =>
    cases hblock : p.program.blocks[mark.block]? with
    | none =>
      simp only [hblock]
      exact .corrupt _
    | some block =>
      obtain ⟨kind, ops⟩ := block
      simp only [hblock]
      cases hop : ops[mark.next]? with
      | none => exact effect_finish hstack hblock
      | some op =>
        cases op with
        | ramp step => exact .ramp _ _ hstack hblock hop
        | enter id => exact effect_enter hstack hblock hop

/-! ## Flags -/

theorem isHeldMark_eq (p : Player) : p.isHeldMark = p.program.isAt .held := by
  funext mark
  unfold isHeldMark Program.isAt
  cases p.program.blocks[mark.block]? with
  | none => rfl
  | some block =>
    obtain ⟨kind, ops⟩ := block
    cases kind <;> simp

/-- The player holds exactly inside a held block, and is locked only inside a lock. -/
structure Guarded (p : Player) : Prop where
  path : p.program.Path p.stack
  holding : p.holding = (p.program.around p.stack).held
  locked : p.locked = true → (p.program.around p.stack).locked = true

theorem Guarded.congr {p q : Player} (h : p.Guarded) (hprogram : q.program = p.program)
    (hstack : q.stack = p.stack) (hholding : q.holding = p.holding)
    (hlocked : q.locked = true → p.locked = true) : q.Guarded := by
  refine ⟨?_, ?_, fun locked => ?_⟩
  · rw [hprogram, hstack]
    exact h.path
  · rw [hprogram, hstack, hholding]
    exact h.holding
  · rw [hprogram, hstack]
    exact h.locked (hlocked locked)

def Turn.next? : Turn → Option Player
  | .ramp _ q => some q
  | .moved q => some q
  | _ => none

theorem Guarded.effect {p : Player} (h : p.Guarded) {turn : Turn} (effect : p.Effect turn)
    {q : Player} (hq : turn.next? = some q) : q.Guarded := by
  have advances : ∀ {mark rest} (cells : Cells), p.stack = mark :: rest →
      Guarded { p with cells, stack := past mark :: rest } := by
    intro mark rest cells hstack
    have same : p.program.around (past mark :: rest) = p.program.around p.stack := by
      rw [hstack]
      exact Program.around_top rfl rest
    refine ⟨(hstack ▸ h.path).top rfl, ?_, ?_⟩
    · simp only [same]
      exact h.holding
    · simp only [same]
      exact h.locked
  cases effect with
  | ramp segment cells hstack hblock hop => cases hq; exact advances cells hstack
  | skipped cells hstack => cases hq; exact advances cells hstack
  | @entered mark rest kind inner ops body cells id passes hstack hblock hop hbody =>
    cases hq
    have past' : Guarded { p with stack := past mark :: rest } := advances p.cells hstack
    have around : p.program.around (⟨id, 0, passes⟩ :: past mark :: rest) =
        Program.inside (p.program.around (past mark :: rest)) inner := Program.around_cons hbody _
    refine ⟨past'.path.push hblock (Array.mem_of_getElem? hop), ?_, fun locked => ?_⟩
    · rw [around, past'.holding]
      rfl
    · rw [around]
      have hlocked := past'.locked
      simp only [Program.inside, Bool.or_eq_true, decide_eq_true_eq] at locked hlocked ⊢
      exact locked.imp_right hlocked
  | @again mark rest kind ops passes hstack hblock hkind =>
    cases hq
    have same : p.program.around ({ mark with next := 0, passes } :: rest) =
        p.program.around p.stack := by
      rw [hstack]
      exact Program.around_top rfl rest
    refine ⟨(hstack ▸ h.path).top rfl, ?_, ?_⟩
    · rw [same]
      exact h.holding
    · rw [same]
      exact h.locked
  | @left mark rest kind ops hstack hblock hfree =>
    cases hq
    have path := h.path
    have hholding := h.holding
    have hlocked := h.locked
    rw [hstack] at path hholding hlocked
    rw [Program.around_cons hblock] at hholding hlocked
    refine ⟨path.2.2, ?_, fun locked => ?_⟩
    · -- A held block is only left when the player does not hold, and inside of it the player does.
      by_cases held : kind = .held
      · rw [hfree held] at hholding
        simp [Program.inside, held] at hholding
      · simpa [Program.inside, held] using hholding
    · obtain ⟨was, unlocked⟩ : p.locked = true ∧ kind ≠ .locked := by simpa using locked
      simpa [Program.inside, unlocked] using hlocked was
  | parked | ended | corrupt => cases hq

theorem run_keeps {P : Player → Prop}
    (keeps : ∀ p q, P p → (p.step rate range).next? = some q → P q)
    (waits : ∀ p a, P p → P (p.await a)) {p : Player} (h : P p) (budget : Nat) (ramp : Ramp) :
    P (run rate range budget p ramp).2.1 := by
  induction budget generalizing p ramp with
  | zero => exact waits p _ h
  | succ budget ih =>
    rw [Player.run]
    cases hstep : p.step rate range with
    | ramp segment q =>
      have hq : P q := keeps p q h (by rw [hstep]; rfl)
      by_cases instant : segment.ticks = 0
      · simp only [instant, if_true]
        exact ih hq (ramp.toward segment)
      · simp only [instant, if_false]
        exact waits q _ hq
    | moved q => exact ih (keeps p q h (by rw [hstep]; rfl)) ramp
    | parked => exact h
    | ended => exact h
    | corrupt fault => exact h

theorem Guarded.run {p : Player} (h : p.Guarded) (budget : Nat) (ramp : Ramp) :
    (run rate range budget p ramp).2.1.Guarded :=
  run_keeps (fun p _ h hq => h.effect p.step_effect hq) (fun _ _ h => h.congr rfl rfl rfl id) h
    budget ramp

theorem Guarded.advance {p : Player} (h : p.Guarded) (ramp : Ramp) :
    (p.advance rate range ramp).2.1.Guarded :=
  Guarded.run (p := { p with awaiting := none }) (h.congr rfl rfl rfl id) moveBudget ramp

theorem guarded_load (program : Program) : (load program).Guarded :=
  ⟨trivial, rfl, fun h => by cases h⟩

theorem Sound.guarded_restart {p : Player} (h : p.Sound) : p.restart.Guarded := by
  obtain ⟨score, hcompile⟩ := h.compiled
  obtain ⟨ops, hblock, stands⟩ := Program.stands_of_compile hcompile
  have hroot : p.program.blocks[(⟨0, 0, 0⟩ : Mark).block]? = some ⟨.plain, ops⟩ := hblock
  have around : p.program.around [⟨0, 0, 0⟩] = ⟨false, false⟩ := Program.around_cons hroot []
  refine ⟨⟨⟨.plain, ops, score, hblock, by simp [Program.Admits], stands⟩, ?_, trivial⟩, ?_, ?_⟩
  · intro below hbelow
    cases hbelow
  · exact (congrArg Nesting.held around).symm
  · intro locked
    cases locked

theorem below_eq {q : Mark → Bool} {stack : List Mark} (h : stack.any q = true) :
    ∃ inner mark outer, stack = inner ++ mark :: outer ∧ q mark = true ∧
      (∀ m ∈ inner, q m = false) ∧ below q stack = outer := by
  induction stack with
  | nil => cases h
  | cons top rest ih =>
    cases htop : q top with
    | true => exact ⟨[], top, rest, rfl, htop, by simp, by simp [below, htop]⟩
    | false =>
      have hany : rest.any q = true := by simpa [htop] using h
      obtain ⟨inner, mark, outer, rfl, hmark, hinner, hbelow⟩ := ih hany
      refine ⟨top :: inner, mark, outer, rfl, hmark, by simpa [htop] using hinner, ?_⟩
      rw [below, if_pos hany] at hbelow
      simpa [below, htop, hmark] using hbelow

theorem Guarded.release_eq {p : Player} (h : p.Guarded) (holding : p.holding = true) :
    ∃ inner mark outer, p.stack = inner ++ mark :: outer ∧ p.isHeldMark mark = true ∧
      (∀ m ∈ inner, p.isHeldMark m = false) ∧ (∀ m ∈ outer, p.isHeldMark m = false) ∧
      p.release = { p with holding := false, stack := outer } := by
  have hany : p.stack.any p.isHeldMark = true := by
    rw [isHeldMark_eq, ← holding]
    exact h.holding.symm
  obtain ⟨inner, mark, outer, hstack, hmark, hinner, hbelow⟩ := below_eq hany
  refine ⟨inner, mark, outer, hstack, hmark, hinner, ?_, ?_⟩
  · have path := h.path
    rw [hstack] at path
    have hcount := path.of_append.countP_le (.inl rfl)
    rw [List.countP_cons, ← isHeldMark_eq, if_pos hmark] at hcount
    have hzero : outer.countP p.isHeldMark = 0 := by omega
    simpa using List.countP_eq_zero.1 hzero
  · rw [release, if_pos holding, hbelow]

theorem Guarded.release {p : Player} (h : p.Guarded) (unlocked : p.locked = false) :
    p.release.Guarded := by
  cases holding : p.holding with
  | false => simpa [Player.release, holding] using h
  | true =>
    obtain ⟨inner, mark, outer, hstack, -, -, houter, hrelease⟩ := h.release_eq holding
    rw [hrelease]
    refine ⟨?_, ?_, fun locked => ?_⟩
    · have path := h.path
      rw [hstack] at path
      exact path.of_append.2.2
    · rw [isHeldMark_eq] at houter
      symm
      simpa [Program.around] using houter
    · cases unlocked.symm.trans locked

end Player

/-! ## In a held block -/

/-- A segment of a ramp, and the stack with the ramp's operation on top. -/
structure Handover where
  stack : List Mark
  segment : Segment

/-- The segment is of a ramp that lies in the block; around the block are the marks `outer`. -/
structure Handover.From (program : Program) (block : Nat) (outer : List Mark) (h : Handover) :
    Prop where
  around : ∃ inner mark, h.stack = inner ++ mark :: outer ∧ mark.block = block
  ramp : ∃ top rest kind ops step, h.stack = top :: rest ∧ program.Encloses block top.block ∧
    program.blocks[top.block]? = some ⟨kind, ops⟩ ∧ ops[top.next]? = some (.ramp step)

namespace Player

/-- What a walk of up to `budget` moves hands over. -/
def handovers (rate : Rate) (range : Range) : (budget : Nat) → Player → List Handover
  | 0, _ => []
  | budget + 1, p =>
    match p.step rate range with
    | .ramp segment q =>
      ⟨p.stack, segment⟩ :: if segment.ticks = 0 then handovers rate range budget q else []
    | .moved q => handovers rate range budget q
    | _ => []

/-- In the held block, with the marks `outer` around it. -/
structure Inside (program : Program) (block : Nat) (outer : List Mark) (p : Player) : Prop where
  plays : p.program = program
  held : ∃ ops, program.blocks[block]? = some ⟨.held, ops⟩
  holding : p.holding = true
  stack : ∃ inner mark, p.stack = inner ++ mark :: outer ∧ mark.block = block

variable {rate : Rate} {range : Range} {program : Program} {block : Nat} {outer : List Mark}

theorem segments_handovers (budget : Nat) (p : Player) :
    (handovers rate range budget p).map Handover.segment =
      (deeds rate range budget p).filterMap Deed.segment? := by
  induction budget generalizing p with
  | zero => rfl
  | succ budget ih =>
    rw [handovers, deeds]
    cases p.step rate range with
    | ramp segment q =>
      by_cases instant : segment.ticks = 0
      · simpa [instant, Deed.segment?] using ih q
      · simp [instant, Deed.segment?]
    | moved q => exact ih q
    | _ => rfl

theorem Inside.congr {p q : Player} (h : p.Inside program block outer)
    (hprogram : q.program = p.program) (hstack : q.stack = p.stack)
    (hholding : q.holding = p.holding) : q.Inside program block outer := by
  obtain ⟨inner, mark, hinner, hmark⟩ := h.stack
  exact ⟨hprogram.trans h.plays, h.held, hholding.trans h.holding, inner, mark,
    hstack.trans hinner, hmark⟩

theorem Inside.top {p : Player} (h : p.Inside program block outer) {top : Mark} {rest : List Mark}
    (hstack : p.stack = top :: rest) :
    top.block = block ∧ rest = outer ∨
      ∃ inner mark, rest = inner ++ mark :: outer ∧ mark.block = block := by
  obtain ⟨inner, mark, hinner, hmark⟩ := h.stack
  rw [hstack] at hinner
  cases inner with
  | nil =>
    cases hinner
    exact .inl ⟨hmark, rfl⟩
  | cons top' inner =>
    cases hinner
    exact .inr ⟨inner, mark, rfl, hmark⟩

theorem Inside.effect {p : Player} (h : p.Inside program block outer) {turn : Turn}
    (effect : p.Effect turn) {q : Player} (hq : turn.next? = some q) :
    q.Inside program block outer := by
  obtain ⟨hprogram, held, holding, -⟩ := id h
  have keeps : ∀ (next : Mark) {top : Mark} {rest : List Mark}, p.stack = top :: rest →
      next.block = top.block → ∃ inner mark, next :: rest = inner ++ mark :: outer ∧
        mark.block = block := by
    intro next top rest hstack same
    rcases h.top hstack with ⟨htop, rfl⟩ | ⟨inner, mark, rfl, hmark⟩
    · exact ⟨[], next, rfl, same.trans htop⟩
    · exact ⟨next :: inner, mark, rfl, hmark⟩
  cases effect with
  | ramp segment cells hstack => cases hq; exact ⟨hprogram, held, holding, keeps _ hstack rfl⟩
  | skipped cells hstack => cases hq; exact ⟨hprogram, held, holding, keeps _ hstack rfl⟩
  | @entered mark rest kind inner ops body cells id passes hstack =>
    cases hq
    obtain ⟨above, held', habove, hheld'⟩ := keeps (past mark) hstack rfl
    exact ⟨hprogram, held, by simp [holding], ⟨id, 0, passes⟩ :: above, held', by rw [habove]; rfl,
      hheld'⟩
  | again passes hstack => cases hq; exact ⟨hprogram, held, holding, keeps _ hstack rfl⟩
  | @left mark rest kind ops hstack hblock hfree =>
    cases hq
    refine ⟨hprogram, held, holding, ?_⟩
    rcases h.top hstack with ⟨htop, rfl⟩ | inside
    · -- The end of the held block itself is only left by a player that does not hold.
      obtain ⟨ops', hheld⟩ := held
      rw [hprogram, htop, hheld] at hblock
      cases hblock
      cases (hfree rfl).symm.trans holding
    · exact inside
  | parked | ended | corrupt => cases hq

theorem Inside.handover {p : Player} (h : p.Inside program block outer) (guarded : p.Guarded)
    {segment : Segment} {q : Player} (effect : p.Effect (.ramp segment q)) :
    Handover.From program block outer ⟨p.stack, segment⟩ := by
  cases effect with
  | @ramp mark rest kind ops step _ cells hstack hblock hop =>
    rw [h.plays] at hblock
    refine ⟨h.stack, mark, rest, kind, ops, step, hstack, ?_, hblock, hop⟩
    rcases h.top hstack with ⟨htop, -⟩ | ⟨inner, held, rfl, hheld⟩
    · rw [htop]
      exact .refl
    · have path := guarded.path
      rw [hstack, h.plays] at path
      exact hheld ▸ path.encloses

theorem Inside.run {p : Player} (h : p.Inside program block outer) (guarded : p.Guarded)
    (budget : Nat) (ramp : Ramp) :
    (∀ handover ∈ handovers rate range budget p, handover.From program block outer) ∧
      (run rate range budget p ramp).2.1.Inside program block outer := by
  induction budget generalizing p ramp with
  | zero => exact ⟨by simp [handovers], h.congr rfl rfl rfl⟩
  | succ budget ih =>
    have effect : p.Effect (p.step rate range) := p.step_effect
    simp only [handovers, Player.run]
    cases hstep : p.step rate range with
    | ramp segment q =>
      rw [hstep] at effect
      have hq : q.Inside program block outer := h.effect effect rfl
      have first := h.handover guarded effect
      by_cases instant : segment.ticks = 0
      · obtain ⟨hrest, hrun⟩ := ih hq (guarded.effect effect rfl) (ramp.toward segment)
        simp only [instant, if_true]
        exact ⟨List.forall_mem_cons.2 ⟨first, hrest⟩, hrun⟩
      · simp only [instant, if_false]
        exact ⟨List.forall_mem_singleton.2 first, hq.congr rfl rfl rfl⟩
    | moved q =>
      rw [hstep] at effect
      exact ih (h.effect effect rfl) (guarded.effect effect rfl) ramp
    | parked | ended | corrupt _ => exact ⟨by simp, h⟩

end Player

end ControlVoltage

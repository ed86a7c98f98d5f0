import ControlVoltage.Program.Compile

/-!
# What a program stands for

`Program.Stands` says that an operation of a program stands for a node of a score: a ramp for a ramp
with the same volts, time and curve, and the entry of a block for a control node whose body the
operations of that block stand for. It also keeps what the check of the score found: how deep the
block lies, and which kinds of node are around it.

* `Program.Lays` : the program holds given blocks from a given number on.
* `Program.stands_of_compile` : the root block of a compiled program stands for the whole score.
* `Program.single_eq` : the program of a single ramp.
-/

namespace ControlVoltage

open Score (Node Value)

namespace Program

/-- The operation enters a block of this kind, at most `maxDepth` deep, and `inside` holds of the
operations of the block. -/
def Opens (p : Program) (depth : Nat) (kind : BlockKind) (op : Op) (inside : List Op → Prop) :
    Prop :=
  ∃ id ops, op = .enter id ∧ depth ≤ maxDepth ∧ p.blocks[id]? = some ⟨kind, ops⟩ ∧
    inside ops.toList

mutual

/-- The operation stands for the node. `depth` is that of the first block the node may open. -/
def Stands (p : Program) (depth : Nat) (around : Nesting) : Node → Op → Prop
  | .ramp volts time tag, op =>
    ∃ v t curve, volts.formula p.cells = .ok v ∧ time.formula p.cells = .ok t ∧
      Curve.parse tag = .ok curve ∧ op = .ramp ⟨v, t, curve⟩
  | .seq body, op => p.Opens depth .plain op (StandAll p (depth + 1) around body)
  | .loop body, op => p.Opens depth .loop op (StandAll p (depth + 1) around body)
  | .held body, op =>
    around.held = false ∧
      p.Opens depth .held op (StandAll p (depth + 1) { around with held := true } body)
  | .lock body, op =>
    around.locked = false ∧
      p.Opens depth .locked op (StandAll p (depth + 1) { around with locked := true } body)
  | .times count body, op =>
    0 < count ∧ p.Opens depth (.times count) op (StandAll p (depth + 1) around body)
  | .when condition body, op =>
    ∃ c, condition.formula p.cells = .ok c ∧
      p.Opens depth (.when c) op (StandAll p (depth + 1) around body)

/-- The operations stand for the nodes, one for one. -/
def StandAll (p : Program) (depth : Nat) (around : Nesting) : List Node → List Op → Prop
  | [], ops => ops = []
  | node :: nodes, ops =>
    ∃ op rest, ops = op :: rest ∧ p.Stands depth around node op ∧
      StandAll p depth around nodes rest

end

/-! ## Blocks in place -/

/-- The program holds these blocks from number `next` on. -/
def Lays (p : Program) (next : Nat) (blocks : Array Block) : Prop :=
  ∀ i, i < blocks.size → p.blocks[next + i]? = blocks[i]?

theorem Lays.left {p : Program} {next : Nat} {xs ys : Array Block} (h : p.Lays next (xs ++ ys)) :
    p.Lays next xs := by
  intro i hi
  rw [h i (by simp; omega), Array.getElem?_append_left hi]

theorem Lays.right {p : Program} {next : Nat} {xs ys : Array Block} (h : p.Lays next (xs ++ ys)) :
    p.Lays (next + xs.size) ys := by
  intro i hi
  rw [Nat.add_assoc, h (xs.size + i) (by simp; omega), Array.getElem?_append_right (by omega)]
  simp

end Program

/-! ## Layout -/

theorem of_enclose {kind : BlockKind} {depth next : Nat}
    {inner : Unit → Except SetupError (Array Op × Array Block)} {op : Op} {blocks : Array Block}
    (h : enclose kind depth next inner = .ok (op, blocks)) :
    ∃ ops rest, op = .enter next ∧ depth ≤ Program.maxDepth ∧ next < Program.maxBlocks ∧
      inner () = .ok (ops, rest) ∧ blocks = #[⟨kind, ops⟩] ++ rest := by
  unfold enclose at h
  split at h
  · cases h
  · rename_i deep
    split at h
    · cases h
    · rename_i many
      split at h
      · cases h
      · rename_i ops rest hinner
        cases h
        exact ⟨ops, rest, rfl, by omega, by omega, hinner, rfl⟩

theorem opens_of_enclose {p : Program} {kind : BlockKind} {depth next : Nat}
    {inner : Unit → Except SetupError (Array Op × Array Block)} {op : Op} {blocks : Array Block}
    {inside : List Op → Prop} (h : enclose kind depth next inner = .ok (op, blocks))
    (lays : p.Lays next blocks)
    (stands : ∀ ops rest, inner () = .ok (ops, rest) → p.Lays (next + 1) rest →
      inside ops.toList) :
    p.Opens depth kind op inside := by
  obtain ⟨ops, rest, rfl, hdepth, _, hinner, rfl⟩ := of_enclose h
  refine ⟨next, ops, rfl, hdepth, ?_, stands ops rest hinner ?_⟩
  · have first := lays.left 0 (by simp)
    simpa using first
  · simpa using lays.right

open Program in
mutual

theorem compileNode_stands {p : Program} :
    ∀ (node : Node) (depth : Nat) (around : Nesting) (next : Nat) (op : Op) (blocks : Array Block),
      compileNode p.cells depth around next node = .ok (op, blocks) → p.Lays next blocks →
        p.Stands depth around node op
  | .ramp volts time tag => by
    intro depth around next op blocks h lays
    simp only [compileNode] at h
    split at h
    · cases h
    · rename_i v hv
      split at h
      · cases h
      · rename_i t ht
        have parsed : ∃ curve, Curve.parse tag = .ok curve ∧ op = .ramp ⟨v, t, curve⟩ := by
          unfold compileRamp at h
          cases hc : Curve.parse tag with
          | error e => grind [Except.map]
          | ok curve => grind [Except.map]
        obtain ⟨curve, hc, rfl⟩ := parsed
        exact ⟨v, t, curve, hv, ht, hc, rfl⟩
  | .seq body => by
    intro depth around next op blocks h lays
    simp only [compileNode] at h
    exact opens_of_enclose h lays fun ops bs hinner => compileBody_stands_nil body _ _ _ _ _ hinner
  | .loop body => by
    intro depth around next op blocks h lays
    simp only [compileNode] at h
    split at h
    · cases h
    · exact opens_of_enclose h lays fun ops bs hinner =>
        compileBody_stands_nil body _ _ _ _ _ hinner
  | .held body => by
    intro depth around next op blocks h lays
    simp only [compileNode] at h
    split at h
    · cases h
    · rename_i free
      exact ⟨by simpa using free, opens_of_enclose h lays fun ops bs hinner =>
        compileBody_stands_nil body _ _ _ _ _ hinner⟩
  | .lock body => by
    intro depth around next op blocks h lays
    simp only [compileNode] at h
    split at h
    · cases h
    · rename_i free
      exact ⟨by simpa using free, opens_of_enclose h lays fun ops bs hinner =>
        compileBody_stands_nil body _ _ _ _ _ hinner⟩
  | .times count body => by
    intro depth around next op blocks h lays
    simp only [compileNode] at h
    split at h
    · cases h
    · rename_i positive
      exact ⟨by omega, opens_of_enclose h lays fun ops bs hinner =>
        compileBody_stands_nil body _ _ _ _ _ hinner⟩
  | .when condition body => by
    intro depth around next op blocks h lays
    simp only [compileNode] at h
    split at h
    · cases h
    · rename_i c hc
      exact ⟨c, hc, opens_of_enclose h lays fun ops bs hinner =>
        compileBody_stands_nil body _ _ _ _ _ hinner⟩

theorem compileBody_stands_nil {p : Program} :
    ∀ (nodes : List Node) (depth : Nat) (around : Nesting) (next : Nat) (ops : Array Op)
      (blocks : Array Block),
      compileBody p.cells depth around next #[] #[] nodes = .ok (ops, blocks) →
        p.Lays next blocks → p.StandAll depth around nodes ops.toList
  | nodes => by
    intro depth around next ops blocks h lays
    obtain ⟨ops', blocks', rfl, rfl, stands⟩ := compileBody_stands nodes _ _ _ _ _ _ _ h
    simpa using stands (by simpa using lays)

theorem compileBody_stands {p : Program} :
    ∀ (nodes : List Node) (depth : Nat) (around : Nesting) (next : Nat) (ops : Array Op)
      (blocks : Array Block) (ops' : Array Op) (blocks' : Array Block),
      compileBody p.cells depth around next ops blocks nodes = .ok (ops', blocks') →
        ∃ newOps newBlocks, ops' = ops ++ newOps ∧ blocks' = blocks ++ newBlocks ∧
          (p.Lays next newBlocks → p.StandAll depth around nodes newOps.toList)
  | [] => by
    intro depth around next ops blocks ops' blocks' h
    simp only [compileBody] at h
    cases h
    exact ⟨#[], #[], by simp, by simp, fun _ => rfl⟩
  | node :: nodes => by
    intro depth around next ops blocks ops' blocks' h
    simp only [compileBody] at h
    split at h
    · cases h
    · rename_i op first hnode
      obtain ⟨newOps, newBlocks, rfl, rfl, stands⟩ :=
        compileBody_stands nodes _ _ _ _ _ _ _ h
      refine ⟨#[op] ++ newOps, first ++ newBlocks, by simp, by simp, fun lays => ?_⟩
      refine ⟨op, newOps.toList, by simp, ?_, stands lays.right⟩
      exact compileNode_stands node _ _ _ _ _ hnode lays.left

end

/-- The root block of a compiled program stands for the whole score. -/
theorem Program.stands_of_compile {score : List Node} {p : Program}
    (h : compile score = .ok p) :
    ∃ ops, p.blocks[0]? = some ⟨.plain, ops⟩ ∧
      p.StandAll 2 ⟨false, false⟩ score ops.toList := by
  unfold compile at h
  split at h
  · cases h
  · rename_i cells _
    split at h
    · cases h
    · rename_i op blocks henclose
      cases h
      obtain ⟨ops, rest, _, _, _, hinner, rfl⟩ := of_enclose henclose
      refine ⟨ops, by rw [Array.getElem?_append_left (by simp)]; rfl, ?_⟩
      refine compileBody_stands_nil (p := ⟨#[⟨.plain, ops⟩] ++ rest, cells⟩) score 2 ⟨false, false⟩ 1
        ops rest hinner ?_
      intro i hi
      simp [Array.getElem?_append_right, Nat.add_comm 1 i]

/-! ## A single ramp -/

theorem Program.single_eq {volts seconds : Float32} {curve : Curve}
    (hseconds : seconds.isFinite = true ∧ ¬ seconds < 0) :
    Program.single volts seconds curve =
      if volts.isFinite then
        .ok ⟨#[⟨.plain, #[.ramp ⟨.lit volts, .lit seconds, curve⟩]⟩], .empty⟩
      else .error .nonFinite := by
  have hcurve : Curve.parse curve.name = .ok curve := by cases curve <;> rfl
  cases hvolts : volts.isFinite <;>
    simp [Program.single, Score.single, Score.rampTo, Program.compile, Cells.declareAll,
      Cells.declareNode, Cells.declareValues, Cells.declareValue, enclose, compileBody, compileNode,
      compileRamp, Score.Value.formula, Formula.literal?, hvolts, hseconds, hcurve, Except.map,
      Program.maxDepth, Program.maxBlocks]

end ControlVoltage

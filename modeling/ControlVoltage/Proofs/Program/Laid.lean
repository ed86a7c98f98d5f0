import ControlVoltage.Proofs.Program.Layout
import ControlVoltage.Proofs.Score.Contents

/-!
# The layout as a relation

`Program.Laid` says what the nodes of a body are laid out as: the operations that stand for them and
the blocks that they open. It has one case for ramps and one for control nodes, whatever their kind,
and it holds of exactly what the compiler puts out.

* `Node.opens?`, `Node.inside` : what the kinds of control node differ in.
* `compileBody_eq_ok_iff`, `compile_eq_ok_iff` : the relation and the compiler.
-/

namespace ControlVoltage

open Score (Node Value)

/-- The kind of block that a control node opens, where nothing is wrong with the node itself. -/
def Score.Node.opens? (s : Cells) (around : Nesting) : Node → Option BlockKind
  | .ramp .. => none
  | .seq _ => some .plain
  | .loop body => if Score.hasRamp body then some .loop else none
  | .held _ => if around.held then none else some .held
  | .lock _ => if around.locked then none else some .locked
  | .times count _ => if count = 0 then none else some (.times count)
  | .when condition _ =>
    match condition.formula s with
    | .ok condition => some (.when condition)
    | .error _ => none

def Score.Node.inside (around : Nesting) : Node → Nesting
  | .held _ => { around with held := true }
  | .lock _ => { around with locked := true }
  | _ => around

namespace Program

/-- The nodes of a body are laid out as these operations and blocks. `depth` and `next` are those of
the first block that a node may open. -/
inductive Laid (s : Cells) : (depth : Nat) → (around : Nesting) → (next : Nat) → List Node →
    List Op → List Block → Prop
  | nil {depth : Nat} {around : Nesting} {next : Nat} : Laid s depth around next [] [] []
  | ramp {depth : Nat} {around : Nesting} {next : Nat} {volts time : Value} {tag : String}
      {nodes : List Node} {v t : Formula} {curve : Curve} {ops : List Op} {blocks : List Block}
      (hvolts : volts.formula s = .ok v) (htime : time.formula s = .ok t)
      (hlong : ∀ seconds, t = .lit seconds → ¬ seconds < 0) (hcurve : Curve.parse tag = .ok curve)
      (rest : Laid s depth around next nodes ops blocks) :
      Laid s depth around next (.ramp volts time tag :: nodes) (.ramp ⟨v, t, curve⟩ :: ops) blocks
  | control {depth : Nat} {around : Nesting} {next : Nat} {node : Node} {nodes : List Node}
      {kind : BlockKind} {inner ops : List Op} {innerBlocks blocks : List Block}
      (hcontrol : node.isControl = true) (hopens : node.opens? s around = some kind)
      (hdepth : depth ≤ maxDepth) (hnext : next < maxBlocks)
      (inside : Laid s (depth + 1) (node.inside around) (next + 1) node.body inner innerBlocks)
      (rest : Laid s depth around (next + (innerBlocks.length + 1)) nodes ops blocks) :
      Laid s depth around next (node :: nodes) (.enter next :: ops)
        (⟨kind, inner.toArray⟩ :: innerBlocks ++ blocks)

end Program

open Program (Laid)

variable {s : Cells} {depth next : Nat} {around : Nesting}

theorem Program.Laid.length_blocks {nodes : List Node} {ops : List Op} {blocks : List Block}
    (laid : Laid s depth around next nodes ops blocks) : blocks.length = Score.controls nodes := by
  induction laid with
  | nil => rfl
  | ramp hvolts htime hlong hcurve rest ih => simpa [Node.isControl, Node.body] using ih
  | control hcontrol hopens hdepth hnext inside rest ihinside ihrest =>
    simp only [List.cons_append, List.length_cons, List.length_append, Score.controls_cons, hcontrol,
      ihinside, ihrest]
    simp
    omega

/-! ## Nodes -/

theorem enclose_eq_ok_iff {kind : BlockKind}
    {inner : Unit → Except SetupError (Array Op × Array Block)} {op : Op} {blocks : Array Block} :
    enclose kind depth next inner = .ok (op, blocks) ↔
      ∃ ops rest, op = .enter next ∧ depth ≤ Program.maxDepth ∧ next < Program.maxBlocks ∧
        inner () = .ok (ops, rest) ∧ blocks = #[⟨kind, ops⟩] ++ rest := by
  refine ⟨of_enclose, ?_⟩
  rintro ⟨ops, rest, rfl, hdepth, hnext, hinner, rfl⟩
  rw [enclose, if_neg (Nat.not_lt.2 hdepth), if_neg (Nat.not_le.2 hnext), hinner]

theorem compileNode_control {node : Node} (h : node.isControl = true) {op : Op}
    {blocks : Array Block} :
    compileNode s depth around next node = .ok (op, blocks) ↔
      ∃ kind, node.opens? s around = some kind ∧
        enclose kind depth next (fun _ =>
          compileBody s (depth + 1) (node.inside around) (next + 1) #[] #[] node.body) =
            .ok (op, blocks) := by
  cases node with
  | ramp volts time tag => cases h
  | seq body => simp [compileNode, Node.opens?, Node.inside, Node.body]
  | loop body =>
    cases hramp : Score.hasRamp body <;>
      simp [compileNode, Node.opens?, Node.inside, Node.body, hramp]
  | held body =>
    cases hheld : around.held <;> simp [compileNode, Node.opens?, Node.inside, Node.body, hheld]
  | lock body =>
    cases hlocked : around.locked <;>
      simp [compileNode, Node.opens?, Node.inside, Node.body, hlocked]
  | times count body =>
    by_cases hcount : count = 0 <;>
      simp [compileNode, Node.opens?, Node.inside, Node.body, hcount]
  | when condition body =>
    cases hcondition : condition.formula s <;>
      simp [compileNode, Node.opens?, Node.inside, Node.body, hcondition]

theorem compileRamp_eq_ok_iff {v t : Formula} {tag : String} {op : Op} :
    compileRamp v t tag = .ok op ↔
      (∀ seconds, t = .lit seconds → ¬ seconds < 0) ∧
        ∃ curve, Curve.parse tag = .ok curve ∧ op = .ramp ⟨v, t, curve⟩ := by
  have parses : (Curve.parse tag).map (fun curve => Op.ramp ⟨v, t, curve⟩) = .ok op ↔
      ∃ curve, Curve.parse tag = .ok curve ∧ op = .ramp ⟨v, t, curve⟩ := by
    cases Curve.parse tag <;> simp [Except.map, eq_comm]
  unfold compileRamp
  cases t with
  | lit seconds =>
    by_cases negative : seconds < 0
    · simp [Formula.literal?, negative]
    · simpa [Formula.literal?, negative] using parses
  | _ => simpa [Formula.literal?] using parses

theorem compileNode_ramp {volts time : Value} {tag : String} {op : Op} {blocks : Array Block} :
    compileNode s depth around next (.ramp volts time tag) = .ok (op, blocks) ↔
      ∃ v t curve, volts.formula s = .ok v ∧ time.formula s = .ok t ∧
        (∀ seconds, t = .lit seconds → ¬ seconds < 0) ∧ Curve.parse tag = .ok curve ∧
        op = .ramp ⟨v, t, curve⟩ ∧ blocks = #[] := by
  have pairs : ∀ r : Except SetupError Op,
      (r.map fun op => (op, (#[] : Array Block))) = .ok (op, blocks) ↔ r = .ok op ∧ blocks = #[] := by
    intro r
    cases r <;> simp [Except.map, eq_comm]
  rw [compileNode]
  cases hvolts : volts.formula s with
  | error e => simp
  | ok v =>
    cases htime : time.formula s with
    | error e => simp
    | ok t =>
      simp only [pairs, compileRamp_eq_ok_iff]
      constructor
      · rintro ⟨⟨hlong, curve, hcurve, rfl⟩, rfl⟩
        exact ⟨v, t, curve, rfl, rfl, hlong, hcurve, rfl, rfl⟩
      · rintro ⟨v', t', curve, hv, ht, hlong, hcurve, rfl, rfl⟩
        cases hv
        cases ht
        exact ⟨⟨hlong, curve, hcurve, rfl⟩, rfl⟩

/-! ## Bodies -/

theorem compileBody_cons_eq_ok_iff {node : Node} {nodes : List Node} {ops ops' : Array Op}
    {blocks blocks' : Array Block} :
    compileBody s depth around next ops blocks (node :: nodes) = .ok (ops', blocks') ↔
      ∃ op opened, compileNode s depth around next node = .ok (op, opened) ∧
        compileBody s depth around (next + opened.size) (ops.push op) (blocks ++ opened) nodes =
          .ok (ops', blocks') := by
  rw [compileBody]
  cases compileNode s depth around next node with
  | error e => simp
  | ok r =>
    obtain ⟨op, opened⟩ := r
    constructor
    · exact fun h => ⟨op, opened, rfl, h⟩
    · rintro ⟨op', opened', hr, h⟩
      cases hr
      exact h

theorem compileBody_eq_ok_iff {nodes : List Node} {ops ops' : Array Op}
    {blocks blocks' : Array Block} :
    compileBody s depth around next ops blocks nodes = .ok (ops', blocks') ↔
      ∃ newOps newBlocks, ops' = ops ++ newOps.toArray ∧ blocks' = blocks ++ newBlocks.toArray ∧
        Laid s depth around next nodes newOps newBlocks := by
  induction nodes using Score.induction generalizing depth around next ops blocks ops' blocks' with
  | nil =>
    simp only [compileBody, Except.ok.injEq, Prod.mk.injEq]
    constructor
    · rintro ⟨rfl, rfl⟩
      exact ⟨[], [], by simp, by simp, .nil⟩
    · rintro ⟨newOps, newBlocks, rfl, rfl, laid⟩
      cases laid
      simp
  | ramp volts time tag rest ih =>
    rw [compileBody_cons_eq_ok_iff]
    simp only [compileNode_ramp]
    constructor
    · rintro ⟨op, opened, ⟨v, t, curve, hvolts, htime, hlong, hcurve, rfl, rfl⟩, hrest⟩
      obtain ⟨newOps, newBlocks, rfl, rfl, laid⟩ := ih.1 hrest
      refine ⟨_, _, ?_, ?_, .ramp hvolts htime hlong hcurve laid⟩
      · simp
      · simp
    · rintro ⟨newOps, newBlocks, rfl, rfl, laid⟩
      cases laid with
      | ramp hvolts htime hlong hcurve laid =>
        refine ⟨_, #[], ⟨_, _, _, hvolts, htime, hlong, hcurve, rfl, rfl⟩,
          ih.2 ⟨_, newBlocks, ?_, ?_, laid⟩⟩
        · simp
        · simp
      | control hcontrol => cases hcontrol
  | control node rest hcontrol ihbody ihrest =>
    rw [compileBody_cons_eq_ok_iff]
    simp only [compileNode_control hcontrol, enclose_eq_ok_iff]
    constructor
    · rintro ⟨op, opened, ⟨kind, hopens, inner, innerBlocks, rfl, hdepth, hnext, hinner, rfl⟩, hrest⟩
      obtain ⟨innerOps, innerList, rfl, rfl, inside⟩ := ihbody.1 hinner
      obtain ⟨newOps, newBlocks, rfl, rfl, laid⟩ := ihrest.1 hrest
      have laid' : Laid s depth around (next + (innerList.length + 1)) rest newOps newBlocks := by
        simpa [Nat.add_comm 1] using laid
      refine ⟨_, _, ?_, ?_, .control hcontrol hopens hdepth hnext inside laid'⟩
      · simp
      · simp
    · rintro ⟨newOps, newBlocks, rfl, rfl, laid⟩
      cases laid with
      | ramp => cases hcontrol
      | control _ hopens hdepth hnext inside laid =>
        rename_i kind inner restOps innerBlocks restBlocks _
        have hinner : compileBody s (depth + 1) (node.inside around) (next + 1) #[] #[] node.body =
            .ok (#[] ++ inner.toArray, #[] ++ innerBlocks.toArray) :=
          ihbody.2 ⟨inner, innerBlocks, rfl, rfl, inside⟩
        refine ⟨_, _, ⟨kind, hopens, _, _, rfl, hdepth, hnext, hinner, rfl⟩,
          ihrest.2 ⟨restOps, restBlocks, ?_, ?_, ?_⟩⟩
        · simp
        · simp
        · simpa [Nat.add_comm 1] using laid

/-- A compiled program has the declared cells, and after the root block what the nodes of the score
are laid out as. -/
theorem Program.compile_eq_ok_iff {score : List Node} {p : Program} :
    compile score = .ok p ↔
      Cells.empty.declareAll score = .ok p.cells ∧
        ∃ ops blocks, p.blocks = (⟨.plain, ops.toArray⟩ :: blocks).toArray ∧
          Laid p.cells 2 ⟨false, false⟩ 1 score ops blocks := by
  unfold compile
  cases hcells : Cells.empty.declareAll score with
  | error e => simp
  | ok cells =>
    simp only
    constructor
    · intro h
      split at h
      · cases h
      · rename_i op blocks henclose
        cases h
        obtain ⟨ops, rest, -, -, -, hinner, rfl⟩ := of_enclose henclose
        obtain ⟨newOps, newBlocks, rfl, rfl, laid⟩ := compileBody_eq_ok_iff.1 hinner
        exact ⟨rfl, newOps, newBlocks, by simp, laid⟩
    · rintro ⟨hsame, ops, blocks, hblocks, laid⟩
      obtain ⟨pblocks, pcells⟩ := p
      cases hsame
      have hinner : compileBody pcells 2 ⟨false, false⟩ 1 #[] #[] score =
          .ok (#[] ++ ops.toArray, #[] ++ blocks.toArray) :=
        compileBody_eq_ok_iff.2 ⟨ops, blocks, rfl, rfl, laid⟩
      have hroot : enclose .plain 1 0 (fun _ => compileBody pcells 2 ⟨false, false⟩ 1 #[] #[] score) =
          .ok (.enter 0, #[⟨.plain, #[] ++ ops.toArray⟩] ++ (#[] ++ blocks.toArray)) :=
        enclose_eq_ok_iff.2 ⟨_, _, rfl, by decide, by decide, hinner, rfl⟩
      rw [hroot]
      cases hblocks
      simp

end ControlVoltage

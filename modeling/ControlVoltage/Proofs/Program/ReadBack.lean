import ControlVoltage.Proofs.Program.Declarations
import ControlVoltage.Proofs.Program.Laid
import Mathlib.Data.List.Nodup

/-!
# From program to score

A compiled program is the score that it was compiled from, laid out flat: reading its blocks from
the root on, and going into a block where it is entered, gives the nodes of the score again. Each
block but the root is entered once, from an earlier one.

* `Formula.written?`, `Program.readBack?` : formulas and blocks written down as values and nodes.
* `Score.bare` : a score without what only the compiler needs.
* `Program.Flattens`, `flattens_of_compile` : what a program and its score have to do with each
  other.
-/

namespace ControlVoltage

open Score (Node Value)
open Program (Laid)

/-! ## Scores without declarations -/

namespace Score

mutual

/-- A value without the defaults in it. -/
def Value.bare : Value → Value
  | .lit x => .lit x
  | .var name _ => .var name none
  | .op name args => .op name (bareValues args)

def bareValues : List Value → List Value
  | [] => []
  | v :: rest => v.bare :: bareValues rest

end

mutual

/-- A node without the defaults in it and with the usual name for each curve. -/
def Node.bare : Node → Node
  | .ramp volts time tag =>
    .ramp volts.bare time.bare (((Curve.ofTag? (Curve.normalTag tag)).map Curve.name).getD tag)
  | .seq body => .seq (bare body)
  | .loop body => .loop (bare body)
  | .held body => .held (bare body)
  | .lock body => .lock (bare body)
  | .times count body => .times count (bare body)
  | .when condition body => .when condition.bare (bare body)

/-- A score without the defaults in it and with the usual name for each curve. -/
def bare : List Node → List Node
  | [] => []
  | node :: rest => node.bare :: bare rest

end

end Score

/-! ## Formulas written down -/

/-- A formula as a value, with the names of the cells that it refers to. -/
def Formula.written? (names : List String) : Formula → Option Value
  | .lit x => some (.lit x)
  | .cell id => (names[id]?).map fun name => .var name none
  | .neg a => (a.written? names).map fun a => .op "neg" [a]
  | .binary op a b =>
    (a.written? names).bind fun a => (b.written? names).map fun b => .op op.name [a, b]
  | .mutate id a =>
    (names[id]?).bind fun name =>
      (a.written? names).map fun a => .op "mutate" [.var name none, a]

theorem Formula.written?_eq_bare {s : Cells} :
    ∀ (v : Value) (f : Formula), v.formula s = .ok f → f.written? s.names = some v.bare
  | .lit x, f => by
    intro h
    simp only [Score.Value.formula] at h
    split at h <;> cases h
    rfl
  | .var name default, f => by
    intro h
    simp only [Score.Value.formula] at h
    split at h
    · rename_i i hi
      cases h
      simp [Formula.written?, Cells.getElem?_names_of_find? hi, Value.bare]
    · cases h
  | .op name args, f => by
    intro h
    rcases formula_op h with ⟨a, fa, hop, rfl, ha, rfl⟩ | ⟨op, a, b, fa, fb, hop, rfl, ha, hb, rfl⟩ |
      ⟨target, default, i, b, fb, hop, rfl, hi, hb, rfl⟩
    · simp [Formula.written?, Formula.written?_eq_bare a fa ha, Value.bare, Score.bareValues,
        OperatorName.ofName?_eq_some_iff.1 hop, OperatorName.name]
    · simp [Formula.written?, Formula.written?_eq_bare a fa ha, Formula.written?_eq_bare b fb hb,
        Value.bare, Score.bareValues, OperatorName.ofName?_eq_some_iff.1 hop, OperatorName.name]
    · simp [Formula.written?, Cells.getElem?_names_of_find? hi, Formula.written?_eq_bare b fb hb,
        Value.bare, Score.bareValues, OperatorName.ofName?_eq_some_iff.1 hop, OperatorName.name]

/-! ## Blocks written down -/

def Step.written? (names : List String) (step : Step) : Option Node :=
  (step.volts.written? names).bind fun volts =>
    (step.time.written? names).map fun time => .ramp volts time step.curve.name

/-- The control node that opens a block of this kind. -/
def BlockKind.written? (names : List String) (body : List Node) : BlockKind → Option Node
  | .plain => some (.seq body)
  | .loop => some (.loop body)
  | .times count => some (.times count body)
  | .held => some (.held body)
  | .locked => some (.lock body)
  | .when condition => (condition.written? names).map fun condition => .when condition body

/-- An operation as a node, where `enter` gives the node for the block with a number. -/
def Op.written? (names : List String) (enter : Nat → Option Node) : Op → Option Node
  | .ramp step => step.written? names
  | .enter id => enter id

/-- The nodes of a block, with the nodes of the blocks that it enters inside. Only blocks of the
program with a greater number are gone into. -/
def Program.readBack? (p : Program) (id : Nat) : Option (BlockKind × List Node) :=
  (p.blocks[id]?).bind fun block =>
    (block.ops.toList.mapM (Op.written? p.cells.names fun target =>
      if id < target ∧ target < p.blocks.size then
        (p.readBack? target).bind fun r => r.1.written? p.cells.names r.2
      else none)).map fun body => (block.kind, body)
termination_by p.blocks.size - id

/-- The node for a block that is entered from the block with number `id`. -/
def Program.entered? (p : Program) (id target : Nat) : Option Node :=
  if id < target ∧ target < p.blocks.size then
    (p.readBack? target).bind fun r => r.1.written? p.cells.names r.2
  else none

theorem Program.readBack?_of_getElem? {p : Program} {id : Nat} {block : Block}
    (h : p.blocks[id]? = some block) :
    p.readBack? id =
      (block.ops.toList.mapM (Op.written? p.cells.names (p.entered? id))).map
        fun body => (block.kind, body) := by
  rw [readBack?, h, Option.bind_some]
  rfl

/-! ## Numbers of blocks -/

def Op.target? : Op → Option Nat
  | .ramp _ => none
  | .enter id => some id

/-- The blocks that operations enter. -/
def Op.targets (ops : List Op) : List Nat := ops.filterMap Op.target?

def Block.allOps (blocks : List Block) : List Op := blocks.flatMap fun block => block.ops.toList

def Block.targets (blocks : List Block) : List Nat := Op.targets (Block.allOps blocks)

@[simp] theorem Op.targets_nil : Op.targets [] = [] := rfl

@[simp] theorem Op.targets_ramp (step : Step) (ops : List Op) :
    Op.targets (.ramp step :: ops) = Op.targets ops := rfl

@[simp] theorem Op.targets_enter (id : Nat) (ops : List Op) :
    Op.targets (.enter id :: ops) = id :: Op.targets ops := rfl

theorem Op.mem_targets {id : Nat} {ops : List Op} : id ∈ Op.targets ops ↔ .enter id ∈ ops := by
  have target : ∀ op : Op, op.target? = some id ↔ op = .enter id := by
    intro op
    cases op <;> simp [Op.target?]
  simp [Op.targets, target]

theorem Op.targets_append (ops ops' : List Op) :
    Op.targets (ops ++ ops') = Op.targets ops ++ Op.targets ops' :=
  List.filterMap_append

@[simp] theorem Block.allOps_nil : Block.allOps [] = [] := rfl

theorem Block.allOps_cons (block : Block) (blocks : List Block) :
    Block.allOps (block :: blocks) = block.ops.toList ++ Block.allOps blocks := rfl

theorem Block.allOps_append (xs ys : List Block) :
    Block.allOps (xs ++ ys) = Block.allOps xs ++ Block.allOps ys :=
  List.flatMap_append

theorem Block.mem_targets {id : Nat} {blocks : List Block} :
    id ∈ Block.targets blocks ↔ ∃ block ∈ blocks, id ∈ Op.targets block.ops.toList := by
  simp only [Block.targets, Block.allOps, Op.mem_targets, List.mem_flatMap]

@[simp] theorem Block.targets_nil : Block.targets [] = [] := rfl

@[simp] theorem Block.targets_cons (block : Block) (blocks : List Block) :
    Block.targets (block :: blocks) = Op.targets block.ops.toList ++ Block.targets blocks :=
  Op.targets_append _ _

@[simp] theorem Block.targets_append (xs ys : List Block) :
    Block.targets (xs ++ ys) = Block.targets xs ++ Block.targets ys := by
  rw [Block.targets, Block.allOps_append, Op.targets_append]
  rfl

theorem written?_of_opens? {s : Cells} {around : Nesting} {node : Node} {kind : BlockKind}
    (h : node.opens? s around = some kind) :
    kind.written? s.names (Score.bare node.body) = some node.bare := by
  cases node with
  | ramp volts time tag => cases h
  | seq body =>
    cases h
    simp [BlockKind.written?, Node.bare, Node.body]
  | loop body =>
    simp only [Node.opens?, Option.ite_none_right_eq_some, Option.some.injEq] at h
    obtain ⟨-, rfl⟩ := h
    simp [BlockKind.written?, Node.bare, Node.body]
  | held body =>
    simp only [Node.opens?, Option.ite_none_left_eq_some, Option.some.injEq] at h
    obtain ⟨-, rfl⟩ := h
    simp [BlockKind.written?, Node.bare, Node.body]
  | lock body =>
    simp only [Node.opens?, Option.ite_none_left_eq_some, Option.some.injEq] at h
    obtain ⟨-, rfl⟩ := h
    simp [BlockKind.written?, Node.bare, Node.body]
  | times count body =>
    simp only [Node.opens?, Option.ite_none_left_eq_some, Option.some.injEq] at h
    obtain ⟨-, rfl⟩ := h
    simp [BlockKind.written?, Node.bare, Node.body]
  | when condition body =>
    simp only [Node.opens?] at h
    split at h <;> cases h
    rename_i c hc
    simp [BlockKind.written?, Formula.written?_eq_bare condition c hc, Node.bare, Node.body]

theorem Curve.ofTag?_of_parse {tag : String} {curve : Curve} (h : Curve.parse tag = .ok curve) :
    Curve.ofTag? (Curve.normalTag tag) = some curve := by
  unfold Curve.parse at h
  split at h <;> cases h
  assumption

namespace Program.Laid

variable {s : Cells} {depth next : Nat} {around : Nesting} {nodes : List Node} {ops : List Op}
  {blocks : List Block}

theorem targets_perm (laid : Laid s depth around next nodes ops blocks) :
    (Op.targets ops ++ Block.targets blocks).Perm (List.range' next blocks.length) := by
  induction laid with
  | nil => simp
  | ramp hvolts htime hlong hcurve rest ih => simpa using ih
  | @control _ _ next _ _ _ inner ops innerBlocks blocks _ _ _ _ _ _ ihinside ihrest =>
    have numbers : List.range' next (innerBlocks.length + 1 + blocks.length) =
        next :: List.range' (next + 1) innerBlocks.length ++
          List.range' (next + (innerBlocks.length + 1)) blocks.length := by
      rw [← List.range'_append_1, List.range'_succ]
    simp only [List.cons_append, List.length_cons, List.length_append, Op.targets_enter,
      Block.targets_cons, Block.targets_append]
    rw [Nat.add_right_comm, numbers]
    refine List.Perm.cons next (List.Perm.trans ?_ (ihinside.append ihrest))
    rw [List.perm_iff_count]
    intro id
    simp only [List.count_append]
    omega

theorem mem_targets_iff (laid : Laid s depth around next nodes ops blocks) {id : Nat} :
    id ∈ Op.targets ops ∨ id ∈ Block.targets blocks ↔ next ≤ id ∧ id < next + blocks.length := by
  rw [← List.mem_append, laid.targets_perm.mem_iff, List.mem_range'_1]

theorem later (laid : Laid s depth around next nodes ops blocks) {i : Nat} {block : Block}
    (hblock : blocks[i]? = some block) {id : Nat} (hid : id ∈ Op.targets block.ops.toList) :
    next + i < id := by
  induction laid generalizing i with
  | nil => cases hblock
  | ramp hvolts htime hlong hcurve rest ih => exact ih hblock
  | @control _ _ next _ _ _ inner ops innerBlocks blocks _ _ _ _ inside rest ihinside ihrest =>
    cases i with
    | zero =>
      cases hblock
      have := inside.mem_targets_iff.1 (Or.inl hid)
      omega
    | succ i =>
      rw [List.cons_append, List.getElem?_cons_succ] at hblock
      by_cases hi : i < innerBlocks.length
      · rw [List.getElem?_append_left hi] at hblock
        have := ihinside hblock
        omega
      · rw [List.getElem?_append_right (Nat.not_lt.1 hi)] at hblock
        have := ihrest hblock
        omega

theorem countP_isRamp (laid : Laid s depth around next nodes ops blocks) :
    (ops ++ Block.allOps blocks).countP Op.isRamp = Score.ramps nodes := by
  induction laid with
  | nil => simp
  | ramp hvolts htime hlong hcurve rest ih =>
    rw [List.cons_append, List.countP_cons, ih]
    simp [Op.isRamp, Node.isRamp, Node.isControl, Node.body, Nat.add_comm]
  | control hcontrol hopens hdepth hnext inside rest ihinside ihrest =>
    simp only [List.cons_append, List.countP_cons, List.countP_append, Block.allOps_cons,
      Block.allOps_append, Score.ramps_cons, ← ihinside, ← ihrest]
    simp only [Op.isRamp, Node.isRamp, hcontrol]
    simp
    omega

/-- In a program that holds the blocks of a body in place, the operations of the body are written
down as its nodes. `id` is the block that the operations are in. -/
theorem written? {p : Program} (laid : Laid p.cells depth around next nodes ops blocks)
    (lays : p.Lays next blocks.toArray) {id : Nat} (hid : id < next) :
    ops.mapM (Op.written? p.cells.names (p.entered? id)) = some (Score.bare nodes) := by
  induction laid generalizing id with
  | nil => simp [Score.bare]
  | @ramp _ _ _ _ _ _ _ _ _ _ _ _ hvolts htime hlong hcurve rest ih =>
    have step := ih lays hid
    simp [Op.written?, Step.written?, Formula.written?_eq_bare _ _ hvolts,
      Formula.written?_eq_bare _ _ htime, step, Score.bare, Node.bare, Curve.ofTag?_of_parse hcurve]
  | @control _ _ next node _ kind inner ops innerBlocks blocks _ hopens _ _ inside rest ihinside
      ihrest =>
    have placed : p.Lays next (#[⟨kind, inner.toArray⟩] ++ innerBlocks.toArray ++ blocks.toArray) := by
      simpa using lays
    have here : p.blocks[next]? = some ⟨kind, inner.toArray⟩ := placed.left.left 0 (by simp)
    have hinside : inner.mapM (Op.written? p.cells.names (p.entered? next)) =
        some (Score.bare node.body) :=
      ihinside placed.left.right (Nat.lt_succ_self next)
    have hrest : ops.mapM (Op.written? p.cells.names (p.entered? id)) = some (Score.bare _) :=
      ihrest (by simpa [Nat.add_comm 1] using placed.right) (Nat.lt_of_lt_of_le hid (Nat.le_add_right _ _))
    have hsize : next < p.blocks.size := (Array.getElem?_eq_some_iff.1 here).1
    have hentered : p.entered? id next = some node.bare := by
      rw [entered?, if_pos ⟨hid, hsize⟩, readBack?_of_getElem? here, hinside, Option.map_some,
        Option.bind_some, written?_of_opens? hopens]
    simp [Op.written?, hentered, hrest, Score.bare]

end Program.Laid

/-! ## Programs -/

/-- What a program and the score that it was compiled from have to do with each other. -/
structure Program.Flattens (p : Program) (score : List Node) : Prop where
  /-- The blocks stand for the score, all of it and in order. -/
  unfolds : p.readBack? 0 = some (.plain, Score.bare score)
  /-- A block is in the program, and after the block that enters it. -/
  later : ∀ id block target, p.blocks[id]? = some block → .enter target ∈ block.ops →
    id < target ∧ target < p.blocks.size
  /-- The root is never entered, any other block once. -/
  once : ∀ id < p.blocks.size, (Block.targets p.blocks.toList).count id = if id = 0 then 0 else 1
  blocks : p.blocks.size = Score.controls score + 1
  steps : p.stepCount = Score.ramps score
  /-- There is a cell for each name that is declared, in the order in which the names come first. -/
  names : p.cells.names = ((Score.declarations score).map Prod.fst).eraseDups
  /-- A cell starts from the first default of its name. -/
  defaults : ∀ cell ∈ p.cells.cells,
    (Score.declarations score).lookup cell.name = some cell.initial ∧ cell.value = cell.initial
  lengths : p.cells.names.length = p.cells.size ∧
    (p.cells.cells.map Cell.initial).length = p.cells.size ∧
    (p.cells.cells.map Cell.value).length = p.cells.size

theorem Program.stepCount_eq (p : Program) :
    p.stepCount = (Block.allOps p.blocks.toList).countP Op.isRamp := by
  have counts : ∀ (blocks : List Block) (n : Nat),
      blocks.foldl (fun n block => n + block.ops.countP Op.isRamp) n =
        n + (Block.allOps blocks).countP Op.isRamp := by
    intro blocks
    induction blocks with
    | nil => exact fun n => rfl
    | cons block blocks ih =>
      intro n
      have hblock : block.ops.countP Op.isRamp = block.ops.toList.countP Op.isRamp :=
        Array.countP_toList.symm
      rw [List.foldl_cons, ih, Block.allOps_cons, List.countP_append, hblock, Nat.add_assoc]
  rw [stepCount, ← Array.foldl_toList, counts, Nat.zero_add]

theorem Cells.cell_ofDeclarations {ds : List (String × Float32)} {cell : Cell}
    (h : cell ∈ (ofDeclarations ds).cells) :
    ds.lookup cell.name = some cell.initial ∧ cell.value = cell.initial := by
  obtain ⟨name, hname, rfl⟩ := List.mem_map.1 h
  cases hlookup : ds.lookup name with
  | none => exact absurd (List.mem_eraseDups.1 hname) (lookup_eq_none_iff.1 hlookup)
  | some initial => simp

/-- A compiled program is its score, laid out flat: nothing is lost and nothing is there twice. -/
theorem flattens_of_compile {score : List Node} {p : Program}
    (h : Program.compile score = .ok p) : p.Flattens score := by
  obtain ⟨hcells, ops, blocks, hblocks, laid⟩ := Program.compile_eq_ok_iff.1 h
  rw [Cells.declareAll_eq, Cells.declareList_eq_ok_iff] at hcells
  have hroot : p.blocks[0]? = some ⟨.plain, ops.toArray⟩ := by simp [hblocks]
  have hsize : p.blocks.size = blocks.length + 1 := by simp [hblocks]
  have lays : p.Lays 1 blocks.toArray := fun i hi => by simp [hblocks, Nat.add_comm 1 i]
  have hcount : ∀ id, (Block.targets p.blocks.toList).count id =
      (List.range' 1 blocks.length).count id := fun id => by
    simpa [hblocks] using laid.targets_perm.count_eq id
  constructor
  case unfolds =>
    rw [Program.readBack?_of_getElem? hroot, laid.written? lays Nat.zero_lt_one]
    rfl
  case later =>
    intro id block target hblock hmem
    rw [← Array.mem_toList_iff, ← Op.mem_targets] at hmem
    cases id with
    | zero =>
      rw [hroot] at hblock
      cases hblock
      have := laid.mem_targets_iff.1 (Or.inl hmem)
      omega
    | succ id =>
      have hinner : blocks[id]? = some block := by simpa [hblocks] using hblock
      have hlater := laid.later hinner hmem
      have hinside : target ∈ Block.targets blocks :=
        Block.mem_targets.2 ⟨block, List.mem_of_getElem? hinner, hmem⟩
      have := laid.mem_targets_iff.1 (Or.inr hinside)
      omega
  case once =>
    intro id hid
    rw [hcount]
    split
    · rename_i hzero
      exact List.count_eq_zero_of_not_mem (by simp [hzero])
    · exact List.count_eq_one_of_mem List.nodup_range' (List.mem_range'_1.2 (by omega))
  case blocks => rw [hsize, laid.length_blocks]
  case steps =>
    rw [Program.stepCount_eq, ← laid.countP_isRamp, hblocks]
    rfl
  case names => rw [hcells.2, Cells.names_ofDeclarations]
  case defaults =>
    intro cell hcell
    rw [hcells.2] at hcell
    exact Cells.cell_ofDeclarations hcell
  case lengths => simp [Cells.names, Cells.size]

/-- A score with a block beside a block and one inside, and with a name that is declared twice. -/
theorem flattens_of_compile_siblings :
    let score : List Node :=
      [.seq [.ramp (.var "x" (some 1)) (.lit 2) " LIN ",
        .times 3 [.ramp (.op "add" [.var "y" (some 2), .var "x" (some 5)]) (.lit 0) "now"]],
        .when (.var "y" none) [.ramp (.lit 0) (.lit 1) "exp"]]
    let program : Program :=
      ⟨#[⟨.plain, #[.enter 1, .enter 3]⟩, ⟨.plain, #[.ramp ⟨.cell 0, .lit 2, .linear⟩, .enter 2]⟩,
        ⟨.times 3, #[.ramp ⟨.binary .add (.cell 1) (.cell 0), .lit 0, .now⟩]⟩,
        ⟨.when (.cell 1), #[.ramp ⟨.lit 0, .lit 1, .exp⟩]⟩], ⟨[⟨"x", 1, 1⟩, ⟨"y", 2, 2⟩]⟩⟩
    Program.compile score = .ok program ∧ program.Flattens score := by
  intro score program
  have hcompile : Program.compile score = .ok program := by rfl
  exact ⟨hcompile, flattens_of_compile hcompile⟩

end ControlVoltage
